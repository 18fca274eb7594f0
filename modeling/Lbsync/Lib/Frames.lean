import Mathlib.Data.List.Nodup
import Mathlib.Order.Basic

/-!
# Frames of a loop over distinct keys

A loop visits each key of a list once. An observation of the state belongs to a
key when visiting any other key leaves it alone. At the end of the loop such an
observation is what the visit of its own key made of it, whatever the order and
whatever happens to the other keys.

Some facts hold only while nothing has gone wrong. The states in which nothing
has gone wrong are a parameter; a bad state stays bad.
-/

namespace Frames

variable {σ κ ω : Type*} (visit : σ → κ → σ) (good : σ → Prop) (obs : σ → ω) (k : κ)

/-- A good state is visited from a good one, and a visit of any other key that
ends well leaves the observation alone. -/
structure Owns : Prop where
  good_of_visit : ∀ s j, good (visit s j) → good s
  frame : ∀ s j, good (visit s j) → j ≠ k → obs (visit s j) = obs s

variable {visit good obs k}

theorem good_of_foldl (h : ∀ s j, good (visit s j) → good s) {keys : List κ} {s : σ}
    (hend : good (keys.foldl visit s)) : good s := by
  induction keys generalizing s with
  | nil => exact hend
  | cons j keys ih => exact h s j (ih hend)

/-- Without its own key the loop leaves the observation alone. -/
theorem Owns.foldl_of_notMem (h : Owns visit good obs k) {keys : List κ} (hk : k ∉ keys) {s : σ}
    (hend : good (keys.foldl visit s)) : obs (keys.foldl visit s) = obs s := by
  induction keys generalizing s with
  | nil => rfl
  | cons j keys ih =>
      obtain ⟨hne, hk⟩ := not_or.mp (mt List.mem_cons.mpr hk)
      have hvisit : good (visit s j) := good_of_foldl h.good_of_visit hend
      rw [List.foldl_cons, ih hk hend, h.frame s j hvisit (Ne.symm hne)]

/-- With its own key the loop ends with what the visit of that key made of the
observation, started from a state in which the observation is still the first one. -/
theorem Owns.foldl_of_mem (h : Owns visit good obs k) {keys : List κ} (hnd : keys.Nodup)
    (hk : k ∈ keys) {s : σ} (hend : good (keys.foldl visit s)) :
    ∃ mid, good (visit mid k) ∧ obs mid = obs s ∧
      obs (keys.foldl visit s) = obs (visit mid k) := by
  obtain ⟨before, after, rfl⟩ := List.append_of_mem hk
  have hsplit := List.nodup_append.mp hnd
  have hbefore : k ∉ before := fun hb => hsplit.2.2 k hb k List.mem_cons_self rfl
  have hafter : k ∉ after := (List.nodup_cons.mp hsplit.2.1).1
  rw [List.foldl_append, List.foldl_cons] at hend ⊢
  have hvisit : good (visit (before.foldl visit s) k) := good_of_foldl h.good_of_visit hend
  exact ⟨before.foldl visit s, hvisit,
    h.foldl_of_notMem hbefore (h.good_of_visit _ _ hvisit), h.foldl_of_notMem hafter hend⟩

end Frames
