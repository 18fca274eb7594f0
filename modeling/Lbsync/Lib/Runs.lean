import Mathlib.Logic.Relation
import Mathlib.Order.Basic

/-!
# Runs of a system driven by actions

A system is a partial step function. A run takes finitely many enabled actions,
each allowed in the state it is taken in. The rules below turn a fact about one
step into a fact about every run: an invariant, a quantity that never goes
down, and the replay of an explicit list of actions. An execution is a run that
never ends; what its steps emit is the list of its events.
-/

namespace Runs

variable {σ A : Type*} (step : σ → A → Option σ) (allowed : σ → A → Prop)

/-- One allowed and enabled step. -/
def Next (s t : σ) : Prop := ∃ a, allowed s a ∧ step s a = some t

/-- Finitely many allowed steps. -/
def Run : σ → σ → Prop := Relation.ReflTransGen (Next step allowed)

/-- Execute a list of actions as long as each one is allowed and enabled. -/
def replay [∀ s a, Decidable (allowed s a)] : σ → List A → Option σ
  | s, [] => some s
  | s, a :: rest => if allowed s a then (step s a).bind fun t => replay t rest else none

variable {step allowed}

theorem Run.refl (s : σ) : Run step allowed s s := Relation.ReflTransGen.refl

theorem Run.trans {s t u : σ} (h₁ : Run step allowed s t) (h₂ : Run step allowed t u) :
    Run step allowed s u := Relation.ReflTransGen.trans h₁ h₂

theorem Run.tail {s t u : σ} {a : A} (h : Run step allowed s t) (ha : allowed t a)
    (hstep : step t a = some u) : Run step allowed s u :=
  Relation.ReflTransGen.tail h ⟨a, ha, hstep⟩

/-- A run is a run where more is allowed. -/
theorem Run.mono {allowed' : σ → A → Prop} (hle : ∀ s a, allowed s a → allowed' s a) {s t : σ}
    (h : Run step allowed s t) : Run step allowed' s t := by
  refine Relation.ReflTransGen.mono (fun u v hnext => ?_) s t h
  obtain ⟨a, ha, he⟩ := hnext
  exact ⟨a, hle u a ha, he⟩

/-- A predicate kept by every allowed step holds at the end of every run. -/
theorem Run.invariant {I : σ → Prop}
    (hstep : ∀ s a t, I s → allowed s a → step s a = some t → I t)
    {s t : σ} (h : Run step allowed s t) (hs : I s) : I t := by
  induction h with
  | refl => exact hs
  | tail _ hnext ih =>
      obtain ⟨a, ha, he⟩ := hnext
      exact hstep _ a _ ih ha he

/-- A run is a run where more is allowed in the states that a run reaches. -/
theorem Run.mono_of_invariant {I : σ → Prop} {allowed' : σ → A → Prop}
    (hstep : ∀ s a t, I s → allowed s a → step s a = some t → I t)
    (hle : ∀ s a, I s → allowed s a → allowed' s a) {s t : σ} (h : Run step allowed s t)
    (hs : I s) : Run step allowed' s t := by
  have hboth : I t ∧ Run step allowed' s t := by
    induction h with
    | refl => exact ⟨hs, Run.refl s⟩
    | tail _ hnext ih =>
        obtain ⟨a, ha, he⟩ := hnext
        exact ⟨hstep _ a _ ih.1 ha he, ih.2.tail (hle _ a ih.1 ha) he⟩
  exact hboth.2

/-- When every step of one system is a step of another one or does not show there, so is a
run. -/
theorem Run.stutter {τ B : Type*} {step' : τ → B → Option τ} {allowed' : τ → B → Prop}
    {R : σ → τ → Prop}
    (hstep : ∀ s t a s', R s t → allowed s a → step s a = some s' →
      R s' t ∨ ∃ b t', allowed' t b ∧ step' t b = some t' ∧ R s' t')
    {s s' : σ} {t : τ} (h : Run step allowed s s') (hs : R s t) :
    ∃ t', Run step' allowed' t t' ∧ R s' t' := by
  induction h with
  | refl => exact ⟨t, Run.refl t, hs⟩
  | tail _ hnext ih =>
      obtain ⟨u, hu, hR⟩ := ih
      obtain ⟨a, ha, he⟩ := hnext
      rcases hstep _ u a _ hR ha he with hsilent | ⟨b, t', hb, ht', hR'⟩
      · exact ⟨u, hu, hsilent⟩
      · exact ⟨t', hu.tail hb ht', hR'⟩

/-- When each step leaves what is seen of the state alone or is a step of what is seen, a run is
a run of what is seen. -/
theorem Run.project {τ B : Type*} {step' : τ → B → Option τ} {allowed' : τ → B → Prop}
    (view : σ → τ)
    (hstep : ∀ s a t, allowed s a → step s a = some t →
      view t = view s ∨ ∃ b, allowed' (view s) b ∧ step' (view s) b = some (view t))
    {s t : σ} (h : Run step allowed s t) : Run step' allowed' (view s) (view t) := by
  induction h with
  | refl => exact Run.refl _
  | tail _ hnext ih =>
      obtain ⟨a, ha, he⟩ := hnext
      rcases hstep _ a _ ha he with hsame | ⟨b, hb, hb'⟩
      · rwa [hsame]
      · exact ih.tail hb hb'

/-- A quantity that no allowed step lowers, given an invariant, is not lowered by a run. -/
theorem Run.le {P : Type*} [Preorder P] {I : σ → Prop} {f : σ → P}
    (hinv : ∀ s a t, I s → allowed s a → step s a = some t → I t)
    (hle : ∀ s a t, I s → allowed s a → step s a = some t → f s ≤ f t)
    {s t : σ} (h : Run step allowed s t) (hs : I s) : f s ≤ f t := by
  have both : I t ∧ f s ≤ f t := by
    induction h with
    | refl => exact ⟨hs, le_rfl⟩
    | tail _ hnext ih =>
        obtain ⟨a, ha, he⟩ := hnext
        exact ⟨hinv _ a _ ih.1 ha he, le_trans ih.2 (hle _ a _ ih.1 ha he)⟩
  exact both.2

/-- A replayed list of actions is a run. -/
theorem Run.of_replay [∀ s a, Decidable (allowed s a)] {s t : σ} (acts : List A)
    (h : replay step allowed s acts = some t) : Run step allowed s t := by
  induction acts generalizing s with
  | nil =>
      have hst : s = t := Option.some.inj h
      exact hst ▸ Run.refl s
  | cons a rest ih =>
      rw [replay] at h
      split_ifs at h with ha
      · obtain ⟨u, hu, hrest⟩ := Option.bind_eq_some_iff.mp h
        exact ((Run.refl s).tail ha hu).trans (ih hrest)

/-- A list of actions is replayed in two parts. -/
theorem replay_append [∀ s a, Decidable (allowed s a)] (s : σ) (acts more : List A) :
    replay step allowed s (acts ++ more) =
      (replay step allowed s acts).bind fun t => replay step allowed t more := by
  induction acts generalizing s with
  | nil => rfl
  | cons a acts ih =>
      rw [List.cons_append, replay, replay]
      split_ifs
      · simp only [Option.bind_assoc, ih]
      · rfl

/-- A run that takes the given action at some point and has the property at some later point. -/
def Passes (step : σ → A → Option σ) (allowed : σ → A → Prop) (act : A) (P : σ → Prop)
    (s t : σ) : Prop :=
  ∃ a b c, Run step allowed s a ∧ allowed a act ∧ step a act = some b ∧ Run step allowed b c ∧
    P c ∧ Run step allowed c t

theorem Passes.mono {allowed' : σ → A → Prop} (hle : ∀ s a, allowed s a → allowed' s a) {act : A}
    {P : σ → Prop} {s t : σ} (h : Passes step allowed act P s t) :
    Passes step allowed' act P s t := by
  obtain ⟨a, b, c, hsa, ha, hact, hbc, hc, hct⟩ := h
  exact ⟨a, b, c, hsa.mono hle, hle _ _ ha, hact, hbc.mono hle, hc, hct.mono hle⟩

/-- A replay that takes the action and has the property at some later point. -/
theorem Passes.of_replay [∀ s a, Decidable (allowed s a)] {s t : σ} (before : List A) {act : A}
    (after rest : List A) {P : σ → Prop} [DecidablePred P]
    (h : replay step allowed s (before ++ act :: after ++ rest) = some t)
    (hP : (replay step allowed s (before ++ act :: after)).any (fun c => decide (P c)) = true) :
    Passes step allowed act P s t := by
  rw [replay_append] at h
  obtain ⟨c, hc, hrest⟩ := Option.bind_eq_some_iff.mp h
  rw [hc, Option.any_some] at hP
  rw [replay_append] at hc
  obtain ⟨a, ha, hact⟩ := Option.bind_eq_some_iff.mp hc
  rw [replay] at hact
  split_ifs at hact with hallowed
  obtain ⟨b, hb, hafter⟩ := Option.bind_eq_some_iff.mp hact
  exact ⟨a, b, c, Run.of_replay before ha, hallowed, hb, Run.of_replay after hafter,
    of_decide_eq_true hP, Run.of_replay rest hrest⟩

/-- A replay that ends in a state with a checked property is a run to such a state. -/
theorem Run.exists_of_replay [∀ s a, Decidable (allowed s a)] {s : σ} (acts : List A)
    {P : σ → Prop} [DecidablePred P]
    (h : (replay step allowed s acts).any (fun t => decide (P t)) = true) :
    ∃ t, Run step allowed s t ∧ P t := by
  cases ht : replay step allowed s acts with
  | none => simp [ht] at h
  | some t => exact ⟨t, Run.of_replay acts ht, by simpa [ht] using h⟩

/-- A run that never ends. -/
structure Execution (step : σ → A → Option σ) where
  state : ℕ → σ
  action : ℕ → A
  next : ∀ i, step (state i) (action i) = some (state (i + 1))

namespace Execution

variable {E : Type*} (x : Execution step) (emit : σ → A → List E)

/-- What the first steps emit. -/
def events : ℕ → List E
  | 0 => []
  | i + 1 => events i ++ emit (x.state i) (x.action i)

theorem length_events_mono {i j : ℕ} (h : i ≤ j) :
    (x.events emit i).length ≤ (x.events emit j).length := by
  induction h with
  | refl => exact Nat.le_refl _
  | step _ ih =>
      rw [events, List.length_append]
      omega

variable {emit}

/-- A relation between the state and the events so far that every step keeps. -/
theorem invariant {I : σ → List E → Prop}
    (hstep : ∀ s es a t, I s es → step s a = some t → I t (es ++ emit s a))
    (h : I (x.state 0) []) (i : ℕ) : I (x.state i) (x.events emit i) := by
  induction i with
  | zero => exact h
  | succ i ih => exact hstep _ _ _ _ ih (x.next i)

/-- If the number of events is bounded, from some point on there are none. -/
theorem eventually_silent (bound : ℕ) (h : ∀ i, (x.events emit i).length ≤ bound) :
    ∃ last, ∀ i ≥ last, emit (x.state i) (x.action i) = [] := by
  -- Each step that emits takes one from what is left of the bound.
  have hrest : ∀ left i, bound - (x.events emit i).length ≤ left →
      ∃ last, ∀ j ≥ last, emit (x.state j) (x.action j) = [] := by
    intro left
    induction left with
    | zero =>
        intro i hleft
        refine ⟨i, fun j hj => List.eq_nil_of_length_eq_zero ?_⟩
        have hmono := x.length_events_mono emit hj
        have hnext := h (j + 1)
        rw [events, List.length_append] at hnext
        omega
    | succ left ih =>
        intro i hleft
        by_cases hsilent : ∀ j ≥ i, emit (x.state j) (x.action j) = []
        · exact ⟨i, hsilent⟩
        · obtain ⟨j, hj, hemit⟩ : ∃ j ≥ i, emit (x.state j) (x.action j) ≠ [] := by
            simpa using hsilent
          have hmono := x.length_events_mono emit hj
          have hpos := List.length_pos_iff.mpr hemit
          refine ih (j + 1) ?_
          rw [events, List.length_append]
          omega
  exact hrest _ 0 (Nat.le_refl _)

end Execution

section Replayed

variable (step)

/-- The states of a replayed list of actions; the last one stays. -/
def replayed : σ → List A → ℕ → σ
  | s, [], _ => s
  | s, _ :: _, 0 => s
  | s, a :: rest, i + 1 => (step s a).elim s fun t => replayed t rest i

variable {step}

theorem replayed_next (s t : σ) (acts : List A) (rest : A)
    (h : replay step (fun _ _ => True) s acts = some t) (hrest : step t rest = some t) (i : ℕ) :
    step (replayed step s acts i) (acts.getD i rest) = some (replayed step s acts (i + 1)) := by
  induction acts generalizing s i with
  | nil =>
      obtain rfl : s = t := Option.some.inj h
      exact hrest
  | cons a acts ih =>
      rw [replay, if_pos trivial] at h
      obtain ⟨u, hu, hacts⟩ := Option.bind_eq_some_iff.mp h
      cases i with
      | zero =>
          cases acts with
          | nil => simp [replayed, hu]
          | cons b acts => simp [replayed, hu]
      | succ i => simpa [replayed, hu] using ih u hacts i

/-- A replayed list of actions, after which one action goes on without an effect. -/
def Execution.ofReplay (s t : σ) (acts : List A) (rest : A)
    (h : replay step (fun _ _ => True) s acts = some t) (hrest : step t rest = some t) :
    Execution step where
  state := replayed step s acts
  action i := acts.getD i rest
  next := replayed_next s t acts rest h hrest

end Replayed

/-- When every step of a partial system is matched by a step of a total one, so is a list of
actions that goes through. -/
theorem simulates {σ τ A : Type*} {R : σ → τ → Prop} {step : σ → A → Option σ} {next : τ → A → τ}
    (hstep : ∀ s t a s', R s t → step s a = some s' → R s' (next t a)) {s s' : σ} {t : τ}
    (acts : List A) (h : acts.foldlM step s = some s') (hs : R s t) : R s' (acts.foldl next t) := by
  induction acts generalizing s t with
  | nil =>
      obtain rfl : s = s' := Option.some.inj h
      exact hs
  | cons a acts ih =>
      rw [List.foldlM_cons] at h
      obtain ⟨u, hu, hrest⟩ := Option.bind_eq_some_iff.mp h
      exact ih hrest (hstep s t a u hs hu)

end Runs
