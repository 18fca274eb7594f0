import Lbsync.Engine.Gather
import Lbsync.Wan.Backend

/-!
# Merging pushed records

A store that handles pushed records one after another ends, for each kind and
key, with the newest version among what it had and what it was sent. When
records of one kind and key that have equal versions are equal, the store does
not depend on the order of the pushes or on their repetition.
-/

namespace Lbsync.Wan

open Engine

/-- Handle pushed records one after another. -/
def handleAll (pushes : List Record) (st : Store) : Store :=
  pushes.foldl (fun st r => handlePutRecord r st) st

/-- A kind without a NUL byte can be read off a store name. -/
theorem storeKey_inj {kind kind' key key' : GoString} (hk : 0 ∉ kind) (hk' : 0 ∉ kind')
    (h : storeKey kind key = storeKey kind' key') : kind = kind' ∧ key = key' := by
  simp only [storeKey, List.append_assoc, List.singleton_append] at h
  induction kind generalizing kind' with
  | nil =>
      cases kind' with
      | nil => exact ⟨rfl, by simpa using h⟩
      | cons b kind' =>
          have hb : (0 : UInt8) = b := by simpa using (List.cons.inj h).1
          exact absurd (hb ▸ List.mem_cons_self) hk'
  | cons b kind ih =>
      cases kind' with
      | nil =>
          have hb : b = (0 : UInt8) := by simpa using (List.cons.inj h).1
          exact absurd (hb ▸ List.mem_cons_self) hk
      | cons b' kind' =>
          obtain ⟨hb, hrest⟩ := List.cons.inj h
          obtain ⟨hkind, hkey⟩ := ih (fun hm => hk (List.mem_cons_of_mem b hm))
            (fun hm => hk' (List.mem_cons_of_mem b' hm)) hrest
          exact ⟨by rw [hb, hkind], hkey⟩

/-- A pushed record is merged into the entry of its name, newest wins. -/
theorem lookup_handlePutRecord (r : Record) (st : Store) (name : GoString) :
    (handlePutRecord r st).lookup name =
      if storeKey r.kind r.key = name then
        NewestWins.newest Record.version (some r) (st.lookup name)
      else st.lookup name := by
  unfold handlePutRecord
  by_cases hname : storeKey r.kind r.key = name
  · subst hname
    rw [if_pos rfl]
    cases hs : st.lookup (storeKey r.kind r.key) with
    | none => simp
    | some existing =>
        by_cases hnew : existing.version < r.version
        · simp [NewestWins.newest, hnew]
        · simp [NewestWins.newest, hnew, hs]
  · rw [if_neg hname]
    have hne : name ≠ storeKey r.kind r.key := Ne.symm hname
    cases st.lookup (storeKey r.kind r.key) with
    | none => exact AList.lookup_insert_ne hne
    | some existing =>
        dsimp only
        split_ifs
        · exact AList.lookup_insert_ne hne
        · rfl

/-- The pushes that go under a name. -/
def pushesFor (name : GoString) (pushes : List Record) : List (Option Record) :=
  (pushes.filter fun r => storeKey r.kind r.key = name).map some

theorem mem_pushesFor {name : GoString} {pushes : List Record} {o : Option Record} :
    o ∈ pushesFor name pushes ↔
      ∃ r ∈ pushes, storeKey r.kind r.key = name ∧ o = some r := by
  simp only [pushesFor, List.mem_map, List.mem_filter, decide_eq_true_eq]
  constructor
  · rintro ⟨r, ⟨hr, hname⟩, rfl⟩
    exact ⟨r, hr, hname, rfl⟩
  · rintro ⟨r, hr, hname, rfl⟩
    exact ⟨r, ⟨hr, hname⟩, rfl⟩

/-- An entry sees the pushes for its own name and no others. -/
theorem lookup_handleAll (pushes : List Record) (st : Store) (name : GoString) :
    (handleAll pushes st).lookup name =
      NewestWins.offerAll Record.version (pushesFor name pushes) (st.lookup name) := by
  induction pushes generalizing st with
  | nil => rfl
  | cons r pushes ih =>
      have hstep : (handleAll (r :: pushes) st).lookup name =
          (handleAll pushes (handlePutRecord r st)).lookup name := rfl
      rw [hstep, ih, lookup_handlePutRecord]
      by_cases hname : storeKey r.kind r.key = name
      · simp [pushesFor, hname]
      · simp [pushesFor, hname]

/-- The pushes determine the store. -/
theorem pushes_determine_store (st : Store) (pushes : List Record)
    (hkinds : ∀ r ∈ pushes, 0 ∉ r.kind) :
    (∀ kind key, 0 ∉ kind →
      IsGreatest
        (insert (versionOf (handleGetRecord kind key st))
          {v | ∃ r ∈ pushes, r.kind = kind ∧ r.key = key ∧ v = versionOf (some r)})
        (versionOf (handleGetRecord kind key (handleAll pushes st)))) ∧
    ((∀ r ∈ pushes, ∀ r' ∈ pushes, r.kind = r'.kind → r.key = r'.key →
        r.version = r'.version → r = r') →
      ∀ pushes' : List Record, (∀ r, r ∈ pushes' ↔ r ∈ pushes) →
        ∀ name, (handleAll pushes' st).lookup name = (handleAll pushes st).lookup name) := by
  constructor
  · intro kind key hkind
    have hseen : {v | ∃ r ∈ pushes, r.kind = kind ∧ r.key = key ∧ v = versionOf (some r)} =
        {v | ∃ a ∈ pushesFor (storeKey kind key) pushes, v = versionOf a} := by
      ext v
      constructor
      · rintro ⟨r, hr, rfl, rfl, rfl⟩
        exact ⟨some r, mem_pushesFor.mpr ⟨r, hr, rfl, rfl⟩, rfl⟩
      · rintro ⟨a, ha, rfl⟩
        obtain ⟨r, hr, hname, rfl⟩ := mem_pushesFor.mp ha
        obtain ⟨hk, hkey⟩ := storeKey_inj (hkinds r hr) hkind hname
        exact ⟨r, hr, hk, hkey, rfl⟩
    rw [hseen, handleGetRecord, handleGetRecord, lookup_handleAll]
    exact NewestWins.isGreatest_rankOf_offerAll Record.version _ _
  · intro hbodies pushes' hmem name
    rw [lookup_handleAll, lookup_handleAll]
    apply NewestWins.offerAll_congr
    · intro a
      simp only [mem_pushesFor, hmem]
    · intro a ha b hb hversion
      obtain ⟨r, hr, hname, rfl⟩ := mem_pushesFor.mp ha
      obtain ⟨r', hr', hname', rfl⟩ := mem_pushesFor.mp hb
      obtain ⟨hk, hkey⟩ :=
        storeKey_inj (hkinds r hr) (hkinds r' hr') (hname.trans hname'.symm)
      exact congrArg some (hbodies r hr r' hr' hk hkey (WithBot.coe_injective hversion))

/-- Two pushes in either order, one of them repeated. -/
theorem pushes_reordered :
    IsGreatest
      (insert ⊥ {v | ∃ r ∈ [sampleRecord 100, sampleRecord 200], r.kind = ascii "k" ∧
        r.key = ascii "a" ∧ v = versionOf (some r)})
      (versionOf (handleGetRecord (ascii "k") (ascii "a")
        (handleAll [sampleRecord 100, sampleRecord 200] ∅))) ∧
    (handleAll [sampleRecord 200, sampleRecord 100, sampleRecord 200] ∅).lookup
        (storeKey (ascii "k") (ascii "a")) =
      (handleAll [sampleRecord 100, sampleRecord 200] ∅).lookup
        (storeKey (ascii "k") (ascii "a")) := by
  have hpushes := pushes_determine_store ∅ [sampleRecord 100, sampleRecord 200] (by decide)
  refine ⟨hpushes.1 (ascii "k") (ascii "a") (by decide), hpushes.2 (by decide) _ ?_ _⟩
  intro r
  simp only [List.mem_cons, List.not_mem_nil, or_false]
  exact ⟨fun h => h.elim Or.inr id, Or.inr⟩

end Lbsync.Wan
