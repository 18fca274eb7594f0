import Lbsync.Olric.Stabilisation
import Lbsync.Engine.Merges

/-!
# The winners of an error-free tick

`Put` stores a record under its own key, so every DMap the facade has written is
keyed. On a keyed DMap an error-free tick hands each key it knows to `Apply` at
most once, with a record of that key: the winner of the local and the stored one.
-/

namespace Lbsync.Olric

open Engine

variable {T P : Type*} [DecidableEq T]

/-- Every record stands under its own key. -/
def DMap.Keyed (dm : DMap T) : Prop := ∀ k r, dm.stored k = some r → r.key = k

section Keyed

variable {dm : DMap T}

omit [DecidableEq T] in
theorem DMap.Keyed.congr {dm' : DMap T} (h : dm.Keyed) (hsame : dm'.stored = dm.stored) :
    dm'.Keyed := by
  intro k r hr
  exact h k r (hsame ▸ hr)

omit [DecidableEq T] in
theorem DMap.Keyed.write (h : dm.Keyed) {name : GoString} {v : Option (Value T)}
    (hv : ∀ r, v.bind decodeRecord = some r → r.key = name) : (dm.write name v).Keyed := by
  intro k r hr
  by_cases hk : k = name
  · subst hk
    exact hv r (by simpa [DMap.stored] using hr)
  · exact h k r (by simpa [DMap.stored, hk] using hr)

omit [DecidableEq T] in
theorem DMap.Keyed.put (h : dm.Keyed) (name : GoString) {v : Value T}
    (hv : ∀ r, decodeRecord v = some r → r.key = name) : (dm.put name v).2.Keyed := by
  unfold DMap.put
  split_ifs
  · exact h
  · exact h.write hv

omit [DecidableEq T] in
theorem DMap.Keyed.lockWithTimeout (h : dm.Keyed) (name : GoString) (t : T) :
    (dm.lockWithTimeout name t).2.Keyed := by
  unfold DMap.lockWithTimeout
  split_ifs
  · exact h
  · cases dm.entries name with
    | some v => exact h
    | none => exact h.write nofun

theorem DMap.Keyed.unlock (h : dm.Keyed) (name : GoString) (t : T) :
    (dm.unlock name t).2.Keyed := by
  unfold DMap.unlock
  split_ifs
  · exact h
  · exact h.write nofun
  · exact h

omit [DecidableEq T] in
theorem DMap.Keyed.appendToIndex (h : dm.Keyed) (key : GoString) :
    (appendToIndex key dm).2.Keyed := by
  have hread := DMap.Keyed.congr h (DMap.stored_congr (readIndex_entries dm))
  unfold Olric.appendToIndex
  generalize readIndex dm = out at hread ⊢
  obtain ⟨e | keys, dm₁⟩ := out
  · exact hread
  · simp only
    split_ifs
    · exact hread
    · have hput : (dm₁.put indexKey (.strings (keys ++ [key]))).2.Keyed :=
        DMap.Keyed.put hread indexKey nofun
      generalize dm₁.put indexKey (.strings (keys ++ [key])) = out at hput ⊢
      obtain ⟨e | u, dm₂⟩ := out <;> exact hput

/-- `Put` stores a record under its own key, whatever else it fails to do. -/
theorem DMap.Keyed.putIn (h : dm.Keyed) (t : T) (r : Record) : (putIn t r dm).2.Keyed := by
  have hput : (dm.put r.key (.record r)).2.Keyed :=
    h.put r.key fun r' hr' => Option.some.inj hr' ▸ rfl
  unfold Olric.putIn
  generalize dm.put r.key (.record r) = out at hput ⊢
  obtain ⟨e | u, dm₁⟩ := out
  · exact hput
  · have hlock := DMap.Keyed.lockWithTimeout hput indexLockKey t
    simp only [Olric.addToIndex]
    generalize dm₁.lockWithTimeout indexLockKey t = out at hlock ⊢
    obtain ⟨e | u, dm₂⟩ := out
    · exact DMap.Keyed.appendToIndex hlock r.key
    · exact DMap.Keyed.unlock (DMap.Keyed.appendToIndex hlock r.key) indexLockKey t

omit [DecidableEq T] in
theorem Cluster.keyed_onDMap {α : Type*} {c : Cluster T} {kind : GoString}
    {call : DMap T → Except Err α × DMap T} (hcall : ∀ dm : DMap T, dm.Keyed → (call dm).2.Keyed)
    (h : ∀ k, (c.dmaps k).Keyed) : ∀ k, ((c.onDMap kind call).2.dmaps k).Keyed := by
  intro k
  unfold Cluster.onDMap
  split_ifs
  · by_cases hk : k = kind
    · subst hk
      simpa using hcall _ (h k)
    · simpa [hk] using h k
  · exact h k

/-- Every call of the facade keeps the records under their own keys. -/
theorem keeps_keyed (t : T) : (kv t).Keeps fun c => ∀ k, (c.dmaps k).Keyed where
  get _ key _ := Cluster.keyed_onDMap fun dm h =>
    h.congr (DMap.stored_congr (getIn_entries key dm))
  put r _ := Cluster.keyed_onDMap fun _ h => h.putIn t r
  keys _ _ := Cluster.keyed_onDMap fun dm h =>
    h.congr (DMap.stored_congr (readIndex_entries dm))
  lock _ key _ := Cluster.keyed_onDMap fun dm h => h.congr (lockIn_spec dm t key).1
  release _ key _ := Cluster.keyed_onDMap fun dm h => h.congr (releaseIn_spec dm t key).1

/-- Turns of any nodes, with whatever failures, keep the records under their own keys. -/
theorem keyed_runTurns {N : Type*} {c : Cluster T} (h : ∀ k, (c.dmaps k).Keyed)
    (us : List (Turn N T P)) : ∀ k, ((runTurns c us).dmaps k).Keyed := by
  induction us generalizing c with
  | nil => exact h
  | cons u us ih => exact ih ((keeps_keyed u.token).tickProvider u.provider u.order h u.world)

end Keyed

variable {t : T} {p : Provider P} {ord : MapOrder} {c : Cluster T} {w : P}

/-- The key is local or listed in the index. -/
def Knows (p : Provider P) (c : Cluster T) (w : P) (k : GoString) : Prop :=
  ((localMap (p.locals w).1).lookup k).isSome ∨ (c.dmaps p.kind).listed k = some true

omit [DecidableEq T] in
/-- A tick visits the keys it knows. -/
theorem mem_unionKeys_iff {ks : List GoString} (hindexed : (c.dmaps p.kind).indexed = some ks)
    {k : GoString} :
    k ∈ unionKeys ord (localMap (p.locals w).1) (.ok ks) ↔ Knows p c w k := by
  have hlisted : (c.dmaps p.kind).listed k = some true ↔ k ∈ ks := by
    simp [DMap.listed, hindexed]
  rw [mem_unionKeys, Knows, hlisted, AList.lookup_isSome]
  rfl

/-- An error-free tick applies the winners of the keys it knows, and nothing else. -/
theorem mem_calls_iff (h : ErrorFree (kv t) p ord c w) {k : GoString} {r : Record} :
    (k, r) ∈ (tickLoop (kv t) p ord c w).calls ↔ Knows p c w k ∧
      pickNewer ((localMap (p.locals w).1).lookup k) ((c.dmaps p.kind).stored k) = some r := by
  have hcalls := (tickEffect_of_errorFree h).calls k
  constructor
  · intro hcall
    have hknows : Knows p c w k := by
      obtain ⟨ks, c₀, hkeys, hindexed, -⟩ := knownKeys_of_errorFree h
      have hvisited := (tickLoop_winners (kv t) p ord c w).1.subset
        (List.mem_map_of_mem (f := Prod.fst) hcall)
      rw [hkeys] at hvisited
      exact (mem_unionKeys_iff hindexed).mp hvisited
    exact ⟨hknows, (mem_of_filter_eq (hcalls hknows)).mp hcall⟩
  · rintro ⟨hknows, hwinner⟩
    exact (mem_of_filter_eq (hcalls hknows)).mpr hwinner

/-- An error-free tick merges. -/
theorem merges_of_errorFree (h : ErrorFree (kv t) p ord c w) :
    Merges (localMap (p.locals w).1) {k | Knows p c w k} (c.dmaps p.kind).stored
      ((tickProvider (kv t) p ord c w).1.dmaps p.kind).stored (tickLoop (kv t) p ord c w).calls :=
  ⟨(tickEffect_of_errorFree h).stored, fun _ _ => mem_calls_iff h⟩

end Lbsync.Olric
