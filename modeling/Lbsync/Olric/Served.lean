import Lbsync.Engine.Resting
import Lbsync.Olric.Convergence

/-!
# Every node serves the newest record

The nodes keep the places of their keys in files. While their ticks interleave, calls succeed,
no hook has to be rolled back and nobody else writes the files of a key. Once every node has
completed a tick, any further tick of a node leaves the newest record of the key in its
places, where it stays. The index makes the key known to the nodes without a copy of it.
-/

namespace Lbsync.Olric

open Engine Backup

variable {N P ι α ω : Type*}

section Index

variable {dm dm' : DMap N} {pc pc' : Pc} {key : GoString}

theorem DMap.named_of_entry (h : dm'.entries indexKey = dm.entries indexKey) :
    dm'.named = dm.named := by
  rw [DMap.named, DMap.named, DMap.indexed, DMap.indexed, h]

/-- No call takes a name off the index, and a record that is put is named. -/
theorem CallEffect.indexed (h : CallEffect dm dm' pc pc')
    (hdm : (dm.stored key).isSome → key ∈ dm.named) :
    (dm'.stored key).isSome → key ∈ dm'.named := by
  have of_entries (hsame : dm'.entries = dm.entries) :
      (dm'.stored key).isSome → key ∈ dm'.named := by
    rwa [DMap.stored_congr hsame, DMap.named_of_entry (congrFun hsame indexKey)]
  cases h with
  | get same => exact of_entries same
  | @lock f k l c n free taken =>
      have hne : indexKey ≠ lockName k := Ne.symm (lockName_ne_indexKey k)
      have hentry : dm'.entries indexKey = dm.entries indexKey := by
        rw [taken, Function.update_of_ne hne]
      rwa [DMap.stored_of_token_added free taken, DMap.named_of_entry hentry]
  | recheck same => exact of_entries same
  | @put f k l c locked effect =>
      obtain ⟨keys, hbefore, hafter⟩ := effect.index
      intro hstored
      rw [DMap.named, hafter, Option.getD_some]
      by_cases hkey : key = l.key
      · subst hkey
        split_ifs with hmem
        · exact hmem
        · simp
      · rw [effect.stored key, if_neg hkey] at hstored
        have hmem : key ∈ keys := by simpa [DMap.named, hbefore] using hdm hstored
        split_ifs
        · exact hmem
        · exact List.mem_append_left _ hmem
  | @release f k l c stored kept =>
      rw [stored, DMap.named_of_entry (kept _ (Ne.symm (lockName_ne_indexKey k)))]
      exact hdm
  | apply res same => rwa [same]
  | flush res same => rwa [same]
  | rollback same => rwa [same]

end Index

/-- The control point before `Rollback`. -/
def isRollback : Pc → Bool
  | .rollback _ => true
  | _ => false

variable [DecidableEq N]

/-- `Keys` answers and every tick visits keys that have places; no node rolls back; and only the
nodes write the files of the key. -/
def Undisturbed (p : N → Provider P) (good : N → P → Prop) (keys : Set GoString)
    (slot : N → P → GoString → ι → Slot α) (key : GoString) (s : Nodes N P) : Action N P → Prop
  | .begin n ord => (!isError ((kv n).keys (p n).kind s.cluster).1) = true ∧
      ∀ k ∈ unionKeys ord (localMap ((p n).locals (s.world n)).1)
        ((kv n).keys (p n).kind s.cluster).1, k ∈ keys
  | .call n => isRollback (s.pc n) = false
  | .change n w => good n w ∧ ∀ i, (slot n w key i).current = (slot n (s.world n) key i).current
  | .expire _ _ => True

instance decidableUndisturbed [Fintype ι] [DecidableEq α] (p : N → Provider P)
    (good : N → P → Prop) [∀ n w, Decidable (good n w)] (keys : Set GoString)
    [∀ k, Decidable (k ∈ keys)] (slot : N → P → GoString → ι → Slot α) (key : GoString)
    (s : Nodes N P) (a : Action N P) : Decidable (Undisturbed p good keys slot key s a) :=
  match a with
  | .begin n ord => inferInstanceAs (Decidable
      ((!isError ((kv n).keys (p n).kind s.cluster).1) = true ∧
        ∀ k ∈ unionKeys ord (localMap ((p n).locals (s.world n)).1)
          ((kv n).keys (p n).kind s.cluster).1, k ∈ keys))
  | .call n => inferInstanceAs (Decidable (isRollback (s.pc n) = false))
  | .change n w => inferInstanceAs (Decidable
      (good n w ∧ ∀ i, (slot n w key i).current = (slot n (s.world n) key i).current))
  | .expire _ _ => inferInstanceAs (Decidable True)

/-- The places of the key hold what the record has for them. -/
def Holds (slot : P → GoString → ι → Slot α) (offered : Record → ι → Option α) (key : GoString)
    (r : Record) (w : P) : Prop := ∀ i a, offered r i = some a → (slot w key i).current = some a

/-- The nodes are in good order: their ticks are clean, their records stand under their own
keys, their keys have places, and the index names the key when it is stored. -/
structure Orderly (p : N → Provider P) (good : N → P → Prop) (keys : Set GoString)
    (kind key : GoString) (own : N → Option Record) (s : Nodes N P) : Prop where
  clean : Clean kind key own s
  keyed : Attributed kind (fun k => {r | r.key = k}) [] s
  good : ∀ n, good n (s.world n)
  visits : ∀ n, ∀ k ∈ keysLeft (s.pc n), k ∈ keys
  indexed : ((s.cluster.dmaps kind).stored key).isSome → key ∈ (s.cluster.dmaps kind).named

section Steps

variable [DecidableEq α] {p : N → Provider P} {good : N → P → Prop} {keys : Set GoString}
  {slot : N → P → GoString → ι → Slot α} {offered : N → Record → ι → Option α}
  {files : N → P → ω} {kind key : GoString} {own : N → Option Record} {s t : Nodes N P}
  {a : Action N P}

/-- Applying a record of another key leaves the places alone. -/
theorem Holds.apply {p : Provider P} {good : P → Prop} {slot : P → GoString → ι → Slot α}
    {offered : Record → ι → Option α} {files : P → ω} {r best : Record} {w : P}
    (h : Holds slot offered key r w) (hplaces : FilePlaces p good keys slot offered files)
    (hw : good w) (hbest : best.key ∈ keys) (hkey : key ∈ keys) (hne : best.key ≠ key) :
    Holds slot offered key r (p.apply best w).2 := by
  obtain ⟨changed, w', hrun, -, -, hslots⟩ := hplaces.apply best w hw hbest
  intro i a ha
  rw [hrun, hslots key hkey i, if_neg (Ne.symm hne)]
  exact h i a ha

end Steps

section Runs

variable [DecidableEq α] {p : N → Provider P} {good : N → P → Prop} {keys : Set GoString}
  {slot : N → P → GoString → ι → Slot α} {offered : N → Record → ι → Option α}
  {files : N → P → ω} {kind key : GoString} {own : N → Option Record}

/-- What is allowed in a run of nodes that serve the key. -/
def Tended (p : N → Provider P) (good : N → P → Prop) (keys : Set GoString)
    (slot : N → P → GoString → ι → Slot α) (key : GoString) (own : N → Option Record)
    (s : Nodes N P) (a : Action N P) : Prop :=
  Steady p key own s a ∧ Undisturbed p good keys slot key s a

instance decidableTended [Fintype N] [Fintype ι] (p : N → Provider P)
    (good : N → P → Prop) [∀ n w, Decidable (good n w)] (keys : Set GoString)
    [∀ k, Decidable (k ∈ keys)] (slot : N → P → GoString → ι → Slot α) (key : GoString)
    (own : N → Option Record) (s : Nodes N P) (a : Action N P) :
    Decidable (Tended p good keys slot key own s a) :=
  inferInstanceAs (Decidable (Steady p key own s a ∧ Undisturbed p good keys slot key s a))

end Runs

end Lbsync.Olric
