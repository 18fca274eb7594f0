import Mathlib.Data.Option.Basic
import Mathlib.Order.Basic

/-!
# A place with one backup

A place holds a current value and the backup of an earlier one. An effective
write moves the current value to the backup; a write of the value that is there
does nothing and leaves an older backup alone. Restoring moves the backup back.
So a restore undoes a write that was offered before it exactly when the write
was effective or no older backup was lying around.
-/

namespace Backup

variable {α : Type*}

/-- The current value and the backup. -/
@[ext]
structure Slot (α : Type*) where
  current : Option α
  backup : Option α

namespace Slot

section Write

variable [DecidableEq α]

/-- Write a value unless it is there already. -/
def write (a : α) (s : Slot α) : Slot α :=
  if s.current = some a then s else ⟨some a, s.current.or s.backup⟩

/-- Write the value that is offered, if there is one. -/
def offer (o : Option α) (s : Slot α) : Slot α := o.elim s fun a => s.write a

/-- An offer that writes. -/
def Changes (o : Option α) (s : Slot α) : Prop := ∃ a, o = some a ∧ s.current ≠ some a

instance (o : Option α) (s : Slot α) : Decidable (s.Changes o) :=
  match o with
  | none => isFalse (by simp [Changes])
  | some a => decidable_of_iff (s.current ≠ some a)
      ⟨fun h => ⟨a, rfl, h⟩, fun ⟨_, h, hne⟩ => Option.some.inj h ▸ hne⟩

end Write

/-- Move the backup back. -/
def restore (s : Slot α) : Slot α := s.backup.elim s fun b => ⟨some b, none⟩

/-- A backup stands beside a different current value. -/
def Proper (s : Slot α) : Prop := ∀ b, s.backup = some b → ∃ a, s.current = some a ∧ a ≠ b

theorem restore_of_none {s : Slot α} (h : s.backup = none) : s.restore = s := by
  simp [restore, h]

theorem restore_of_some {s : Slot α} {b : α} (h : s.backup = some b) :
    s.restore = ⟨some b, none⟩ := by
  simp [restore, h]

@[simp] theorem backup_restore (s : Slot α) : s.restore.backup = none := by
  cases h : s.backup with
  | none => rw [restore_of_none h, h]
  | some b => rw [restore_of_some h]

@[simp] theorem restore_restore (s : Slot α) : s.restore.restore = s.restore :=
  restore_of_none s.backup_restore

theorem proper_of_backup_none {s : Slot α} (h : s.backup = none) : s.Proper := by
  intro b hb
  rw [h] at hb
  cases hb

theorem current_restore {s : Slot α} (h : s.current ≠ none) : s.restore.current ≠ none := by
  cases hb : s.backup with
  | none => rwa [restore_of_none hb]
  | some b => simp [restore_of_some hb]

section Write

variable [DecidableEq α]

theorem write_of_ne {a : α} {s : Slot α} (h : s.current ≠ some a) :
    s.write a = ⟨some a, s.current.or s.backup⟩ := if_neg h

/-- An offer that does not write leaves everything alone. -/
theorem offer_of_not_changes {o : Option α} {s : Slot α} (h : ¬ s.Changes o) : s.offer o = s := by
  cases o with
  | none => rfl
  | some a =>
      have hsame : s.current = some a := by
        by_contra hne
        exact h ⟨a, rfl, hne⟩
      simp [offer, write, hsame]

/-- After an offer the offered value is there. -/
theorem current_offer_some (a : α) (s : Slot α) : (s.offer (some a)).current = some a := by
  by_cases hsame : s.current = some a
  · simp [offer, write, hsame]
  · simp [offer, write_of_ne hsame]

theorem current_offer {o : Option α} {s : Slot α} (h : s.current ≠ none) :
    (s.offer o).current ≠ none := by
  by_cases hc : s.Changes o
  · obtain ⟨a, rfl, hne⟩ := hc
    simp [offer, write_of_ne hne]
  · rwa [offer_of_not_changes hc]

theorem proper_offer (o : Option α) {s : Slot α} (h : s.Proper) : (s.offer o).Proper := by
  by_cases hc : s.Changes o
  · obtain ⟨a, rfl, hne⟩ := hc
    intro b hb
    refine ⟨a, by simp [offer, write_of_ne hne], ?_⟩
    rintro rfl
    simp only [offer, Option.elim_some, write_of_ne hne] at hb
    cases hcur : s.current with
    | some c =>
        rw [hcur, Option.some_or] at hb
        exact hne (hcur.trans hb)
    | none =>
        rw [hcur, Option.none_or] at hb
        obtain ⟨c, hc, _⟩ := h _ hb
        rw [hcur] at hc
        cases hc
  · rwa [offer_of_not_changes hc]

/-- A restore undoes an effective write over a value. -/
theorem restore_offer_of_changes {o : Option α} {s : Slot α} (hpresent : s.current ≠ none)
    (h : s.Changes o) : (s.offer o).restore = ⟨s.current, none⟩ := by
  obtain ⟨a, rfl, hne⟩ := h
  obtain ⟨c, hc⟩ := Option.ne_none_iff_exists'.mp hpresent
  rw [hc] at hne ⊢
  have hback : (s.offer (some a)).backup = some c := by
    simp [offer, write_of_ne (hc ▸ hne), hc]
  rw [restore_of_some hback]

/-- A restore after an effective write gives back the value before it exactly when there
was one: a first write leaves nothing to restore. -/
theorem current_restore_write_iff {o : Option α} {s : Slot α} (hproper : s.Proper)
    (h : s.Changes o) : (s.offer o).restore.current = s.current ↔ s.current ≠ none := by
  constructor
  · intro hsame hnone
    obtain ⟨a, rfl, hne⟩ := h
    have hback : s.backup = none := by
      by_contra hsome
      obtain ⟨b, hb⟩ := Option.ne_none_iff_exists'.mp hsome
      obtain ⟨c, hc, _⟩ := hproper b hb
      rw [hnone] at hc
      cases hc
    have hoffer : s.offer (some a) = ⟨some a, none⟩ := by
      simp [offer, write_of_ne hne, hnone, hback]
    rw [hoffer, restore_of_none rfl, hnone] at hsame
    cases hsame
  · intro hpresent
    rw [restore_offer_of_changes hpresent h]

/-- A restore after a write leaves another value than the written one exactly when there was
another value, or the write found none or the same and an older backup of another. -/
theorem current_restore_write_ne_iff {a : α} {s : Slot α} :
    (s.write a).restore.current ≠ some a ↔ ∃ b ≠ a, s.current = some b ∨
      (s.current = none ∨ s.current = some a) ∧ s.backup = some b := by
  by_cases hsame : s.current = some a
  · have hwrite : s.write a = s := if_pos hsame
    rw [hwrite]
    cases hb : s.backup with
    | none => simp [restore_of_none hb, hsame]
    | some b =>
        rw [restore_of_some hb]
        constructor
        · intro hne
          exact ⟨b, fun heq => hne (congrArg some heq), Or.inr ⟨Or.inr hsame, rfl⟩⟩
        · rintro ⟨c, hne, hc | ⟨_, hc⟩⟩ heq
          · exact hne (Option.some.inj (hc.symm.trans hsame))
          · exact hne (Option.some.inj (hc.symm.trans heq))
  · rw [write_of_ne hsame]
    cases hc : s.current with
    | none => cases hb : s.backup <;> simp [restore, eq_comm]
    | some c =>
        have hne : c ≠ a := fun heq => hsame (hc.trans (congrArg some heq))
        simp [restore, hne]

/-- A restore gives back the value before the offer exactly when the offer wrote or
there was no older backup. -/
theorem current_restore_offer_iff {o : Option α} {s : Slot α} (hpresent : s.current ≠ none)
    (hproper : s.Proper) :
    (s.offer o).restore.current = s.current ↔ s.Changes o ∨ s.backup = none := by
  by_cases hc : s.Changes o
  · simp [restore_offer_of_changes hpresent hc, hc]
  · rw [offer_of_not_changes hc]
    simp only [hc, false_or]
    cases hb : s.backup with
    | none => simp [restore_of_none hb]
    | some b =>
        obtain ⟨a, ha, hne⟩ := hproper b hb
        simp [restore_of_some hb, ha, Ne.symm hne]

end Write

end Slot

end Backup
