import Mathlib.Logic.Function.Basic

/-!
# Operations on one slice of a state

A state is cut into slices. An operation is confined to a slice when what it returns, and what
becomes of that slice, depend on that slice only, and when the other slices stay as they are.
A schedule of operations, each confined to some slice, does to a slice what its own operations
alone do to it.
-/

namespace Slices

variable {σ κ : Type*} {S : κ → Type*} {slice : ∀ k, σ → S k}

/-- The operation reads and changes one slice only. -/
structure Confined {α : Type*} (slice : ∀ k, σ → S k) (k : κ) (op : σ → α × σ) : Prop where
  result : ∀ {s t}, slice k s = slice k t → (op s).1 = (op t).1
  own : ∀ {s t}, slice k s = slice k t → slice k (op s).2 = slice k (op t).2
  other : ∀ {j}, j ≠ k → ∀ s, slice j (op s).2 = slice j s

namespace Confined

variable {α β : Type*} {k : κ} {op : σ → α × σ}

theorem pure (slice : ∀ k, σ → S k) (k : κ) (a : α) : Confined slice k fun s => (a, s) :=
  ⟨fun _ => rfl, fun h => h, fun _ _ => rfl⟩

/-- One confined operation after another, chosen by what the first one returns. -/
theorem bind (h : Confined slice k op) {f : α → σ → β × σ} (hf : ∀ a, Confined slice k (f a)) :
    Confined slice k fun s => f (op s).1 (op s).2 where
  result hs := by
    rw [h.result hs]
    exact (hf _).result (h.own hs)
  own hs := by
    rw [h.result hs]
    exact (hf _).own (h.own hs)
  other hj s := ((hf _).other hj _).trans (h.other hj s)

theorem map (h : Confined slice k op) (f : α → β) :
    Confined slice k fun s => (f (op s).1, (op s).2) :=
  h.bind fun a => pure slice k (f a)

/-- A loop of confined operations that carries an accumulator. -/
theorem foldl {ι : Type*} {step : β → ι → σ → β × σ} (hstep : ∀ b i, Confined slice k (step b i))
    (is : List ι) (b : β) :
    Confined slice k fun s => is.foldl (fun x i => step x.1 i x.2) (b, s) := by
  induction is generalizing b with
  | nil => exact pure slice k b
  | cons i is ih => exact (hstep b i).bind ih

end Confined

section Schedules

variable {A : Type*} [DecidableEq κ] {site : A → κ} {act : A → σ → σ}

/-- Seen on one slice, a schedule is the schedule of the actions at this slice. -/
theorem slice_foldl (hact : ∀ a, Confined slice (site a) fun s => ((), act a s)) (k : κ)
    (acts : List A) {s t : σ} (hs : slice k s = slice k t) :
    slice k (acts.foldl (fun s a => act a s) s) =
      slice k ((acts.filter fun a => site a = k).foldl (fun s a => act a s) t) := by
  induction acts generalizing s t with
  | nil => exact hs
  | cons a acts ih =>
      by_cases ha : site a = k
      · subst ha
        rw [List.filter_cons_of_pos (by simp)]
        exact ih ((hact a).own hs)
      · rw [List.filter_cons_of_neg (by simpa using ha)]
        exact ih (((hact a).other (Ne.symm ha) s).trans hs)

end Schedules

end Slices
