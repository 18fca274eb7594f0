import Mathlib.Data.List.AList

/-!
# Maps and messages whose values are encoded

A map from names to encoded values stands for the map of the values that can be decoded, and a
list of encoded messages for the list of the messages. Looking up and inserting commute with
decoding; so does removing a message, up to the order of the list, since two codes may stand
for one message.
-/

namespace Decoding

variable {α β γ : Type*} [DecidableEq α] (f : β → Option γ)

omit [DecidableEq α] in
/-- Decode the value of an entry. -/
def entry (e : Sigma fun _ : α => β) : Option (Sigma fun _ : α => γ) := (f e.2).map (⟨e.1, ·⟩)

omit [DecidableEq α] in
theorem keys_filterMap_sublist (l : List (Sigma fun _ : α => β)) :
    (l.filterMap (entry f)).keys.Sublist l.keys := by
  induction l with
  | nil => exact List.Sublist.refl _
  | cons e l ih =>
      cases hv : f e.2 with
      | none =>
          rw [List.filterMap_cons_none (by simp [entry, hv])]
          exact ih.cons e.1
      | some c =>
          rw [List.filterMap_cons_some (b := ⟨e.1, c⟩) (by simp [entry, hv])]
          exact ih.cons_cons e.1

omit [DecidableEq α] in
/-- The map of the values that can be decoded. -/
def decoded (m : AList fun _ : α => β) : AList fun _ : α => γ :=
  ⟨m.entries.filterMap (entry f),
    List.Nodup.sublist (keys_filterMap_sublist f m.entries) m.nodupKeys⟩

theorem dlookup_filterMap {l : List (Sigma fun _ : α => β)} (hl : l.NodupKeys) (a : α) :
    (l.filterMap (entry f)).dlookup a = (l.dlookup a).bind f := by
  induction l with
  | nil => rfl
  | cons e l ih =>
      obtain ⟨k, v⟩ := e
      obtain ⟨hk, hl⟩ := List.nodupKeys_cons.mp hl
      cases hv : f v with
      | none =>
          rw [List.filterMap_cons_none (by simp [entry, hv]), ih hl]
          by_cases hka : k = a
          · subst hka
            rw [List.dlookup_cons_eq, List.dlookup_eq_none.mpr hk]
            exact hv.symm
          · rw [List.dlookup_cons_ne _ _ (Ne.symm hka)]
      | some c =>
          rw [List.filterMap_cons_some (b := ⟨k, c⟩) (by simp [entry, hv])]
          by_cases hka : k = a
          · subst hka
            rw [List.dlookup_cons_eq, List.dlookup_cons_eq]
            exact hv.symm
          · rw [List.dlookup_cons_ne _ _ (Ne.symm hka), List.dlookup_cons_ne _ _ (Ne.symm hka),
              ih hl]

/-- Looking up commutes with decoding. -/
theorem lookup_decoded (m : AList fun _ : α => β) (a : α) :
    (decoded f m).lookup a = (m.lookup a).bind f :=
  dlookup_filterMap f m.nodupKeys a

theorem kerase_head {δ : Type*} (a : α) (d : δ) (l : List (Sigma fun _ : α => δ)) :
    (⟨a, d⟩ :: l).kerase a = l := List.kerase_cons_eq rfl

theorem filterMap_kerase {l : List (Sigma fun _ : α => β)} (hl : l.NodupKeys) (a : α) :
    (l.kerase a).filterMap (entry f) = (l.filterMap (entry f)).kerase a := by
  induction l with
  | nil => rfl
  | cons e l ih =>
      obtain ⟨k, v⟩ := e
      obtain ⟨hk, hl⟩ := List.nodupKeys_cons.mp hl
      have habsent : k ∉ (l.filterMap (entry f)).keys :=
        fun h => hk ((keys_filterMap_sublist f l).subset h)
      by_cases hka : a = k
      · subst hka
        rw [kerase_head a v l]
        cases hv : f v with
        | none =>
            rw [List.filterMap_cons_none (by simp [entry, hv]),
              List.kerase_of_notMem_keys habsent]
        | some c =>
            rw [List.filterMap_cons_some (b := ⟨a, c⟩) (by simp [entry, hv]),
              kerase_head a c]
      · rw [List.kerase_cons_ne hka]
        cases hv : f v with
        | none =>
            rw [List.filterMap_cons_none (by simp [entry, hv]),
              List.filterMap_cons_none (by simp [entry, hv]), ih hl]
        | some c =>
            rw [List.filterMap_cons_some (b := ⟨k, c⟩) (by simp [entry, hv]),
              List.filterMap_cons_some (b := ⟨k, c⟩) (by simp [entry, hv]),
              List.kerase_cons_ne hka, ih hl]

/-- Inserting a code commutes with decoding. -/
theorem decoded_insert (m : AList fun _ : α => β) (a : α) {b : β} {c : γ} (hb : f b = some c) :
    decoded f (m.insert a b) = (decoded f m).insert a c := by
  apply AList.ext
  change ((⟨a, b⟩ : Sigma fun _ : α => β) :: m.entries.kerase a).filterMap (entry f) =
    ⟨a, c⟩ :: (m.entries.filterMap (entry f)).kerase a
  rw [List.filterMap_cons_some (b := ⟨a, c⟩) (by simp [entry, hb]),
    filterMap_kerase f m.nodupKeys]

omit [DecidableEq α] in
/-- A map whose codes can all be decoded has the same names. -/
theorem keys_decoded {m : AList fun _ : α => β} (h : ∀ e ∈ m.entries, (f e.2).isSome) :
    (decoded f m).keys = m.keys := by
  change ((m.entries.filterMap (entry f)).map Sigma.fst) = m.entries.map Sigma.fst
  generalize m.entries = l at h
  induction l with
  | nil => rfl
  | cons e l ih =>
      obtain ⟨c, hc⟩ := Option.isSome_iff_exists.mp (h e List.mem_cons_self)
      rw [List.filterMap_cons_some (b := ⟨e.1, c⟩) (by simp [entry, hc]), List.map_cons,
        List.map_cons, ih fun e he => h e (List.mem_cons_of_mem _ he)]

section Messages

variable {M R : Type*} [BEq M] [LawfulBEq M] [BEq R] [LawfulBEq R] (g : M → Option R)

/-- Removing a message commutes with decoding, up to the order. -/
theorem filterMap_erase_perm {l : List M} {m : M} {r : R} (hm : m ∈ l) (hr : g m = some r) :
    ((l.erase m).filterMap g).Perm ((l.filterMap g).erase r) := by
  have hperm : (l.filterMap g).Perm (r :: (l.erase m).filterMap g) := by
    rw [← List.filterMap_cons_some hr]
    exact (List.perm_cons_erase hm).filterMap g
  simpa only [List.erase_cons_head] using (hperm.erase r).symm

end Messages

end Decoding
