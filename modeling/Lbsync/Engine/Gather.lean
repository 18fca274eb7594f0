import Lbsync.Engine.Tick
import Mathlib.Data.List.Induction

/-!
# The keys of a tick

Every key that is local or known to the cluster is visited exactly once, in any
map order, and the local record of a key is the last one `Local` lists for it.
-/

namespace Lbsync.Engine

@[simp] theorem indexLocals_nil : indexLocals [] = ∅ := rfl

theorem indexLocals_append (locals : List Record) (r : Record) :
    indexLocals (locals ++ [r]) = (indexLocals locals).insert r.key r := by
  simp [indexLocals]

/-- The entry of a key is the last record listed for it. -/
theorem lookup_indexLocals (locals : List Record) (k : GoString) :
    (indexLocals locals).lookup k = locals.reverse.find? (fun r => r.key = k) := by
  induction locals using List.reverseRecOn with
  | nil => rfl
  | append_singleton locals r ih =>
      rw [indexLocals_append, List.reverse_append, List.reverse_singleton,
        List.singleton_append, List.find?_cons]
      by_cases hk : r.key = k
      · subst hk
        simp
      · have hne : k ≠ r.key := fun h => hk h.symm
        simp [hk, AList.lookup_insert_ne hne, ih]

/-- A local record stands under its own key and was listed. -/
theorem key_of_lookup_indexLocals {locals : List Record} {k : GoString} {r : Record}
    (h : (indexLocals locals).lookup k = some r) : r.key = k ∧ r ∈ locals := by
  rw [lookup_indexLocals] at h
  have hk := List.find?_some h
  have hmem := List.mem_of_find?_eq_some h
  exact ⟨by simpa using hk, by simpa using hmem⟩

theorem addKeys_nodup {keys : List GoString} (h : keys.Nodup) (more : List GoString) :
    (addKeys keys more).Nodup := by
  induction more generalizing keys with
  | nil => exact h
  | cons k more ih =>
      rw [addKeys]
      split_ifs with hk
      · exact ih h
      · apply ih
        rw [List.nodup_append]
        refine ⟨h, List.nodup_singleton k, ?_⟩
        intro a ha b hb hab
        rw [List.mem_singleton] at hb
        exact hk (hb ▸ hab ▸ ha)

theorem mem_addKeys {keys more : List GoString} {k : GoString} :
    k ∈ addKeys keys more ↔ k ∈ keys ∨ k ∈ more := by
  induction more generalizing keys with
  | nil => simp [addKeys]
  | cons j more ih =>
      rw [addKeys]
      split_ifs with hj
      · rw [ih, List.mem_cons]
        constructor
        · rintro (h | h)
          · exact Or.inl h
          · exact Or.inr (Or.inr h)
        · rintro (h | rfl | h)
          · exact Or.inl h
          · exact Or.inl hj
          · exact Or.inr h
      · rw [ih, List.mem_append, List.mem_singleton, List.mem_cons, or_assoc]

/-- The cluster keys a tick works with. -/
def knownKeys : Except Err (List GoString) → List GoString
  | .ok keys => keys
  | .error _ => []

/-- No key is visited twice. -/
theorem unionKeys_nodup (ord : MapOrder) (localByKey : LocalMap)
    (known : Except Err (List GoString)) : (unionKeys ord localByKey known).Nodup := by
  have hlocal : (ord.visit localByKey.keys).Nodup :=
    (ord.perm localByKey.keys).nodup_iff.mpr localByKey.keys_nodup
  cases known with
  | ok keys => exact addKeys_nodup hlocal keys
  | error e => exact hlocal

/-- The keys visited are the local ones and the known ones. -/
theorem mem_unionKeys {ord : MapOrder} {localByKey : LocalMap}
    {known : Except Err (List GoString)} {k : GoString} :
    k ∈ unionKeys ord localByKey known ↔ k ∈ localByKey ∨ k ∈ knownKeys known := by
  have hlocal : k ∈ ord.visit localByKey.keys ↔ k ∈ localByKey :=
    (ord.perm localByKey.keys).mem_iff.trans AList.mem_keys.symm
  cases known with
  | ok keys => simp [unionKeys, knownKeys, mem_addKeys, hlocal]
  | error e => simp [unionKeys, knownKeys, hlocal]

theorem lookup_eq_none_of_notMem_unionKeys {ord : MapOrder} {localByKey : LocalMap}
    {known : Except Err (List GoString)} {k : GoString}
    (h : k ∉ unionKeys ord localByKey known) : localByKey.lookup k = none := by
  rw [AList.lookup_eq_none]
  exact fun hk => h (mem_unionKeys.mpr (Or.inl hk))

/-- The local records of a provider stand under their own key and have its kind. -/
theorem Provider.of_lookup {P : Type*} (p : Provider P) {w : P} {k : GoString} {r : Record}
    (h : (localMap (p.locals w).1).lookup k = some r) : r.key = k ∧ r.kind = p.kind := by
  cases hl : (p.locals w).1 with
  | error e => simp [hl, localMap] at h
  | ok locals =>
      rw [hl] at h
      obtain ⟨hk, hmem⟩ := key_of_lookup_indexLocals h
      exact ⟨hk, p.locals_kind w locals hl r hmem⟩

/-- Every record stands under its own key and has the given kind. -/
def OfKind (kind : GoString) (localByKey : LocalMap) : Prop :=
  ∀ key l, localByKey.lookup key = some l → l.key = key ∧ l.kind = kind

theorem Provider.ofKind_locals {P : Type*} (p : Provider P) (w : P) :
    OfKind p.kind (localMap (p.locals w).1) := fun _ _ h => p.of_lookup h

theorem mem_bestCall {k : GoString} {own o : Option Record} {call : GoString × Record} :
    call ∈ bestCall k own o ↔ ∃ r, pickNewer own o = some r ∧ (k, r) = call := by
  simp [bestCall]

theorem filter_bestCall_of_ne {j k : GoString} (h : j ≠ k) (own o : Option Record) :
    (bestCall j own o).filter (fun call => call.1 = k) = [] := by
  unfold bestCall
  cases pickNewer own o <;> simp [h]

theorem filter_bestCall_self (k : GoString) (own o : Option Record) :
    (bestCall k own o).filter (fun call => call.1 = k) = bestCall k own o := by
  unfold bestCall
  cases pickNewer own o <;> simp

/-- Calls of which those for a key are its winner have no other record for it. -/
theorem mem_of_filter_eq {calls : List (GoString × Record)} {k : GoString} {own o : Option Record}
    (h : calls.filter (fun call => call.1 = k) = bestCall k own o) {r : Record} :
    (k, r) ∈ calls ↔ pickNewer own o = some r := by
  have hmem : (k, r) ∈ calls ↔ (k, r) ∈ calls.filter (fun call => call.1 = k) := by simp
  rw [hmem, h]
  simp [mem_bestCall]

section Calls

variable {K P : Type*} (cl : ClusterKV K) (p : Provider P)

/-- A loop over keys hands each of them to `Apply` at most once, and the record is the
winner of what is local and what the cluster returned. -/
theorem foldl_processKey_calls (m : LocalMap) (keys : List GoString) (st : TickState K P) :
    ∃ more, (keys.foldl (processKey cl p m) st).calls = st.calls ++ more ∧
      (more.map Prod.fst).Sublist keys ∧
      ∀ call ∈ more, ∃ s,
        pickNewer (m.lookup call.1) (gotRecord (cl.get p.kind call.1 s).1) = some call.2 := by
  induction keys generalizing st with
  | nil => exact ⟨[], by simp⟩
  | cons key keys ih =>
      let best := pickNewer (m.lookup key) (gotRecord (cl.get p.kind key st.cluster).1)
      have hcalls : (processKey cl p m st key).calls =
          st.calls ++ (best.map fun r => (key, r)).toList := rfl
      obtain ⟨more, hmore, hsub, hwin⟩ := ih (processKey cl p m st key)
      refine ⟨(best.map fun r => (key, r)).toList ++ more, ?_, ?_, ?_⟩
      · rw [List.foldl_cons, hmore, hcalls, List.append_assoc]
      · cases best with
        | none => exact hsub.trans (List.sublist_cons_self key keys)
        | some r => exact hsub.cons_cons key
      · intro call hcall
        rcases List.mem_append.mp hcall with hown | hlater
        · cases hbest : best with
          | none => simp [hbest] at hown
          | some r =>
              obtain rfl : call = (key, r) := by simpa [hbest] using hown
              exact ⟨st.cluster, hbest⟩
        · exact hwin call hlater

/-- The calls of a tick to `Apply` are for keys it visits, at most one for each, and each has
the winner of what is local and what the cluster returned. -/
theorem tickLoop_winners (ord : MapOrder) (s : K) (w : P) :
    ((tickLoop cl p ord s w).calls.map Prod.fst).Sublist
        (unionKeys ord (localMap (p.locals w).1) (cl.keys p.kind s).1) ∧
      ∀ call ∈ (tickLoop cl p ord s w).calls, ∃ s, pickNewer
        ((localMap (p.locals w).1).lookup call.1) (gotRecord (cl.get p.kind call.1 s).1) =
          some call.2 := by
  obtain ⟨more, hmore, hsub, hwin⟩ := foldl_processKey_calls cl p (localMap (p.locals w).1)
    (unionKeys ord (localMap (p.locals w).1) (cl.keys p.kind s).1)
    ⟨(cl.keys p.kind s).2, (p.locals w).2, [], []⟩
  have hcalls : (tickLoop cl p ord s w).calls = more := hmore
  rw [hcalls]
  exact ⟨hsub, hwin⟩

/-- A tick hands each key to `Apply` at most once. When the cluster stores records under
their own key, so does each call. -/
theorem tickLoop_calls (ord : MapOrder) (s : K) (w : P)
    (hget : ∀ key s r, gotRecord (cl.get p.kind key s).1 = some r → r.key = key) :
    ((tickLoop cl p ord s w).calls.map Prod.fst).Sublist
        (unionKeys ord (localMap (p.locals w).1) (cl.keys p.kind s).1) ∧
      ∀ call ∈ (tickLoop cl p ord s w).calls, call.2.key = call.1 := by
  obtain ⟨hsub, hwin⟩ := tickLoop_winners cl p ord s w
  refine ⟨hsub, fun call hcall => ?_⟩
  obtain ⟨st, hbest⟩ := hwin call hcall
  rw [pickNewer_eq_newest] at hbest
  rcases NewestWins.newest_eq_or Record.version ((localMap (p.locals w).1).lookup call.1)
      (gotRecord (cl.get p.kind call.1 st).1) with h | h
  · exact (p.of_lookup (h.symm.trans hbest)).1
  · exact hget _ _ _ (h.symm.trans hbest)

end Calls

/-- A provider for examples: it lists the records it is given, reports no change when it
applies one, and its hook succeeds. -/
def fakeProvider (kind : GoString) : Provider (List Record) where
  kind := kind
  locals w := (.ok (w.filter fun r => r.kind = kind), w)
  apply _ w := (.ok false, w)
  flush w := (.ok (), w)
  rollback _ w := (.ok (), w)
  locals_kind := by
    intro w rs h r hr
    have hrs : w.filter (fun r => r.kind = kind) = rs := Except.ok.inj h
    subst hrs
    simpa using (List.mem_filter.mp hr).2

/-- A record of the given primary version under kind `k` and key `a`. -/
def sampleRecord (primary : Int) : Record :=
  ⟨ascii "k", ascii "a", ⟨primary, 0, []⟩, [], [], ascii "node"⟩

end Lbsync.Engine
