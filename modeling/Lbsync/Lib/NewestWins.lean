import Mathlib.Order.WithBot
import Mathlib.Order.Bounds.Basic
import Mathlib.Data.List.Basic
import Mathlib.Data.List.Induction

/-!
# Newest-wins selection on optional copies

A copy carries a rank in a linear order and may be absent. Selection keeps the
first copy only when it is strictly newer, so the second copy survives a tie.
The rank of a selection is the maximum of the two ranks, with absence below
every rank. Selection is not commutative on copies of equal rank.
-/

namespace NewestWins

variable {α β : Type*} (rank : α → β)

/-- The rank of an optional copy. Absence is below every rank. -/
def rankOf (a : Option α) : WithBot β := a.map rank

@[simp] theorem rankOf_none : rankOf rank (none : Option α) = ⊥ := rfl

@[simp] theorem rankOf_some (a : α) : rankOf rank (some a) = (rank a : WithBot β) := rfl

variable [LinearOrder β]

/-- The first copy when it is strictly newer, otherwise the second. -/
def newest : Option α → Option α → Option α
  | none, b => b
  | some a, none => some a
  | some a, some b => if rank b < rank a then some a else some b

@[simp] theorem newest_none_left (b : Option α) : newest rank none b = b := rfl

@[simp] theorem newest_none_right (a : Option α) : newest rank a none = a := by
  cases a <;> rfl

/-- Selection returns one of its two arguments. -/
theorem newest_eq_or (a b : Option α) : newest rank a b = a ∨ newest rank a b = b := by
  cases a with
  | none => exact Or.inr rfl
  | some a =>
      cases b with
      | none => exact Or.inl rfl
      | some b =>
          by_cases h : rank b < rank a
          · exact Or.inl (if_pos h)
          · exact Or.inr (if_neg h)

/-- A copy that is not strictly newer loses, also on a tie. -/
theorem newest_of_le {a b : Option α} (h : rankOf rank a ≤ rankOf rank b) :
    newest rank a b = b := by
  cases a with
  | none => rfl
  | some a =>
      cases b with
      | none => simp at h
      | some b =>
          have hab : rank a ≤ rank b := by simpa using h
          simp [newest, not_lt.mpr hab]

/-- A strictly newer copy wins. -/
theorem newest_of_lt {a b : Option α} (h : rankOf rank b < rankOf rank a) :
    newest rank a b = a := by
  cases a with
  | none => simp at h
  | some a =>
      cases b with
      | none => rfl
      | some b =>
          have hba : rank b < rank a := by simpa using h
          simp [newest, hba]

/-- The rank of a selection is the maximum of the ranks. -/
theorem rankOf_newest (a b : Option α) :
    rankOf rank (newest rank a b) = max (rankOf rank a) (rankOf rank b) := by
  rcases le_or_gt (rankOf rank a) (rankOf rank b) with h | h
  · rw [newest_of_le rank h, max_eq_right h]
  · rw [newest_of_lt rank h, max_eq_left h.le]

theorem le_rankOf_newest_left (a b : Option α) :
    rankOf rank a ≤ rankOf rank (newest rank a b) := by
  rw [rankOf_newest]
  exact le_max_left _ _

theorem le_rankOf_newest_right (a b : Option α) :
    rankOf rank b ≤ rankOf rank (newest rank a b) := by
  rw [rankOf_newest]
  exact le_max_right _ _

/-- The rank order read on the copies themselves. -/
theorem rankOf_le_iff {a b : Option α} :
    rankOf rank a ≤ rankOf rank b ↔
      ∀ x, a = some x → ∃ y, b = some y ∧ rank x ≤ rank y := by
  cases a with
  | none => simp
  | some a =>
      cases b with
      | none => simp
      | some b => simp

/-- Offer every copy of a list in turn to a current copy. -/
def offerAll (copies : List (Option α)) (current : Option α) : Option α :=
  copies.foldl (fun acc a => newest rank a acc) current

@[simp] theorem offerAll_nil (current : Option α) : offerAll rank [] current = current := rfl

@[simp] theorem offerAll_cons (a : Option α) (copies : List (Option α)) (current : Option α) :
    offerAll rank (a :: copies) current = offerAll rank copies (newest rank a current) := rfl

theorem offerAll_append (copies copies' : List (Option α)) (current : Option α) :
    offerAll rank (copies ++ copies') current =
      offerAll rank copies' (offerAll rank copies current) :=
  List.foldl_append

/-- The copy left after any sequence of offers is one of the copies seen. -/
theorem offerAll_mem (copies : List (Option α)) (current : Option α) :
    offerAll rank copies current = current ∨ offerAll rank copies current ∈ copies := by
  induction copies generalizing current with
  | nil => exact Or.inl rfl
  | cons a copies ih =>
      rw [offerAll_cons]
      rcases ih (newest rank a current) with h | h
      · rw [h]
        rcases newest_eq_or rank a current with ha | hc
        · rw [ha]
          exact Or.inr List.mem_cons_self
        · exact Or.inl hc
      · exact Or.inr (List.mem_cons_of_mem a h)

theorem le_rankOf_offerAll (copies : List (Option α)) (current : Option α) :
    rankOf rank current ≤ rankOf rank (offerAll rank copies current) := by
  induction copies generalizing current with
  | nil => exact le_rfl
  | cons a copies ih =>
      exact (le_rankOf_newest_right rank a current).trans (ih (newest rank a current))

/-- No offered copy is newer than the copy left at the end. -/
theorem rankOf_le_offerAll {copies : List (Option α)} {a : Option α} (ha : a ∈ copies)
    (current : Option α) : rankOf rank a ≤ rankOf rank (offerAll rank copies current) := by
  induction copies generalizing current with
  | nil => simp at ha
  | cons b copies ih =>
      rcases List.mem_cons.mp ha with rfl | ha
      · exact (le_rankOf_newest_left rank a current).trans
          (le_rankOf_offerAll rank copies (newest rank a current))
      · exact ih ha (newest rank b current)

/-- A copy that nothing offered is newer than stays. -/
theorem offerAll_of_le {copies : List (Option α)} {current : Option α}
    (h : ∀ a ∈ copies, rankOf rank a ≤ rankOf rank current) :
    offerAll rank copies current = current := by
  induction copies with
  | nil => rfl
  | cons a copies ih =>
      rw [offerAll_cons, newest_of_le rank (h a List.mem_cons_self)]
      exact ih fun b hb => h b (List.mem_cons_of_mem a hb)

/-- The rank left at the end is the greatest one seen. -/
theorem isGreatest_rankOf_offerAll (copies : List (Option α)) (current : Option α) :
    IsGreatest (insert (rankOf rank current) {v | ∃ a ∈ copies, v = rankOf rank a})
      (rankOf rank (offerAll rank copies current)) := by
  constructor
  · rcases offerAll_mem rank copies current with h | h
    · exact Or.inl (congrArg (rankOf rank) h)
    · exact Or.inr ⟨_, h, rfl⟩
  · rintro v (rfl | ⟨a, ha, rfl⟩)
    · exact le_rankOf_offerAll rank copies current
    · exact rankOf_le_offerAll rank ha current

/-- Offered to nothing, the first copy of the greatest rank is left. -/
theorem split_of_offerAll {copies : List α} {a : α}
    (h : offerAll rank (copies.map some) none = some a) :
    ∃ before after, copies = before ++ a :: after ∧ (∀ b ∈ before, rank b < rank a) ∧
      ∀ b ∈ after, rank b ≤ rank a := by
  induction copies using List.reverseRecOn generalizing a with
  | nil => cases h
  | append_singleton copies b ih =>
      rw [List.map_append, offerAll_append] at h
      change newest rank (some b) (offerAll rank (copies.map some) none) = some a at h
      rcases lt_or_ge (rankOf rank (offerAll rank (copies.map some) none))
        (rankOf rank (some b)) with hlt | hle
      · obtain rfl : b = a := Option.some.inj ((newest_of_lt rank hlt).symm.trans h)
        refine ⟨copies, [], rfl, fun c hc => ?_, nofun⟩
        have hc' := rankOf_le_offerAll rank (List.mem_map_of_mem (f := some) hc) none
        exact WithBot.coe_lt_coe.mp (hc'.trans_lt hlt)
      · have hkept : offerAll rank (copies.map some) none = some a :=
          (newest_of_le rank hle).symm.trans h
        obtain ⟨before, after, rfl, hbefore, hafter⟩ := ih hkept
        refine ⟨before, after ++ [b], by simp, hbefore, fun c hc => ?_⟩
        rcases List.mem_append.mp hc with hc | hc
        · exact hafter c hc
        · rw [hkept] at hle
          rw [List.mem_singleton.mp hc]
          exact WithBot.coe_le_coe.mp hle

/-- When copies of equal rank are equal, the copy left at the end depends only on which
copies were offered, not on their order or number. -/
theorem offerAll_congr {copies copies' : List (Option α)} (hmem : ∀ a, a ∈ copies' ↔ a ∈ copies)
    (hinj : ∀ a ∈ copies, ∀ b ∈ copies, rankOf rank a = rankOf rank b → a = b)
    (current : Option α) : offerAll rank copies' current = offerAll rank copies current := by
  by_cases hle : ∀ a ∈ copies, rankOf rank a ≤ rankOf rank current
  · rw [offerAll_of_le rank hle, offerAll_of_le rank fun a ha => hle a ((hmem a).mp ha)]
  · push Not at hle
    obtain ⟨a, ha, hlt⟩ := hle
    have hoffered : ∀ copies, a ∈ copies → offerAll rank copies current ∈ copies := by
      intro copies ha
      refine (offerAll_mem rank copies current).resolve_left fun heq => ?_
      have hle := rankOf_le_offerAll rank ha current
      rw [heq] at hle
      exact absurd hle (not_le.mpr hlt)
    have hin := hoffered copies ha
    have hin' := (hmem _).mp (hoffered copies' ((hmem a).mpr ha))
    refine hinj _ hin' _ hin (le_antisymm ?_ ?_)
    · exact rankOf_le_offerAll rank hin' current
    · exact rankOf_le_offerAll rank ((hmem _).mpr hin) current

end NewestWins
