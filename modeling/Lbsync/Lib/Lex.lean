import Mathlib.Data.List.Lex
import Mathlib.Order.Lattice

/-!
# Comparing two texts joined by a separator

Two lists can be compared one after the other, or their concatenations with a
separator between them can be compared at once. The two orders agree unless
one first list continues the other with an element below the separator.
-/

namespace Lex

variable {α : Type*} [LinearOrder α] {s t : List α}

theorem append_lt_append_iff (p : List α) : p ++ s < p ++ t ↔ s < t := by
  induction p with
  | nil => rfl
  | cons a p ih => rw [List.cons_append, List.cons_append, List.cons_lt_cons_self, ih]

theorem append_cons_lt_append_cons_iff (p : List α) {a b : α} (hne : a ≠ b) :
    p ++ a :: s < p ++ b :: t ↔ a < b := by
  rw [append_lt_append_iff, List.cons_lt_cons_iff]
  exact ⟨fun h => h.resolve_right fun heq => hne heq.1, Or.inl⟩

theorem lt_append_cons (s : List α) (c : α) (rest : List α) : s < s ++ c :: rest := by
  simpa using (append_lt_append_iff s (s := []) (t := c :: rest)).mpr (List.nil_lt_cons c rest)

/-- Two lists are equal, one continues the other, or they part at some element. -/
theorem split_cases (s t : List α) :
    s = t ∨ (∃ c rest, t = s ++ c :: rest) ∨ (∃ c rest, s = t ++ c :: rest) ∨
      ∃ p a b s' t', a ≠ b ∧ s = p ++ a :: s' ∧ t = p ++ b :: t' := by
  induction s generalizing t with
  | nil =>
      cases t with
      | nil => exact Or.inl rfl
      | cons c rest => exact Or.inr (Or.inl ⟨c, rest, rfl⟩)
  | cons a s ih =>
      cases t with
      | nil => exact Or.inr (Or.inr (Or.inl ⟨a, s, rfl⟩))
      | cons b t =>
          by_cases hab : a = b
          · subst hab
            rcases ih t with rfl | ⟨c, rest, rfl⟩ | ⟨c, rest, rfl⟩ |
              ⟨p, x, y, s', t', hxy, rfl, rfl⟩
            · exact Or.inl rfl
            · exact Or.inr (Or.inl ⟨c, rest, rfl⟩)
            · exact Or.inr (Or.inr (Or.inl ⟨c, rest, rfl⟩))
            · exact Or.inr (Or.inr (Or.inr ⟨a :: p, x, y, s', t', hxy, rfl, rfl⟩))
          · exact Or.inr (Or.inr (Or.inr ⟨[], a, b, s, t, hab, rfl, rfl⟩))

/-- The second list continues the first with an element below the separator. -/
def ContinuesBelow (sep : α) (s t : List α) : Prop := ∃ c rest, t = s ++ c :: rest ∧ c < sep

theorem continuesBelow_append_iff {sep c : α} {rest : List α} :
    ContinuesBelow sep s (s ++ c :: rest) ↔ c < sep := by
  constructor
  · rintro ⟨c', rest', heq, hlt⟩
    have hcons := List.append_cancel_left heq
    rwa [(List.cons.inj hcons).1]
  · exact fun hlt => ⟨c, rest, rfl, hlt⟩

theorem not_continuesBelow_of_length {sep : α} (h : t.length ≤ s.length) :
    ¬ ContinuesBelow sep s t := by
  rintro ⟨c, rest, rfl, _⟩
  rw [List.length_append, List.length_cons] at h
  omega

theorem not_continuesBelow_of_parted (sep : α) {a b : α} (p s t : List α) (hne : a ≠ b) :
    ¬ ContinuesBelow sep (p ++ a :: s) (p ++ b :: t) := by
  rintro ⟨c, rest, heq, _⟩
  rw [List.append_assoc] at heq
  exact hne (List.cons.inj (List.append_cancel_left heq)).1.symm

/-- When the joined texts are ordered like the pairs. -/
theorem joined_lt_iff {sep : α} (hs : sep ∉ s) (ht : sep ∉ t) (x y : List α) :
    (s ++ sep :: x < t ++ sep :: y ↔ s < t ∨ s = t ∧ x < y) ↔
      ¬ (ContinuesBelow sep s t ∨ ContinuesBelow sep t s) := by
  rcases split_cases s t with rfl | ⟨c, rest, rfl⟩ | ⟨c, rest, rfl⟩ |
    ⟨p, a, b, s', t', hab, rfl, rfl⟩
  · have hnot : ¬ ContinuesBelow sep s s := not_continuesBelow_of_length le_rfl
    simp [append_lt_append_iff, hnot]
  · have hne : sep ≠ c := fun h => ht (by simp [h])
    have hback : ¬ ContinuesBelow sep (s ++ c :: rest) s := not_continuesBelow_of_length (by simp)
    have hlt : s < s ++ c :: rest := lt_append_cons s c rest
    rw [List.append_assoc, List.cons_append, append_cons_lt_append_cons_iff s hne,
      continuesBelow_append_iff]
    simp [hback, hlt, hne.le_iff_lt]
  · have hne : c ≠ sep := fun h => hs (by simp [h])
    have hback : ¬ ContinuesBelow sep (t ++ c :: rest) t := not_continuesBelow_of_length (by simp)
    have hlt : ¬ t ++ c :: rest < t := lt_asymm (lt_append_cons t c rest)
    rw [List.append_assoc, List.cons_append, append_cons_lt_append_cons_iff t hne,
      continuesBelow_append_iff]
    simp [hback, hlt]
  · have hst := not_continuesBelow_of_parted sep p s' t' hab
    have hts := not_continuesBelow_of_parted sep p t' s' hab.symm
    simp only [List.append_assoc, List.cons_append, append_cons_lt_append_cons_iff p hab]
    simp [hst, hts, hab]

end Lex
