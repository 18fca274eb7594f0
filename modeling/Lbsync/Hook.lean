import Lbsync.Engine.Tick

/-!
# Verify and reload

The hook of a provider runs an optional verify command and, if that succeeds, an
optional reload command. How a command ends is up to the machine it runs on.
-/

namespace Lbsync

open Engine

/-- How the commands end, in the order they are run, and how many have been run. -/
structure Commands where
  ends : Nat → Bool
  ran : Nat

/-- Run the next command. -/
def Commands.exec (cs : Commands) : Bool × Commands :=
  (cs.ends cs.ran, { cs with ran := cs.ran + 1 })

/-- An optional verify command and an optional reload command. -/
structure Runner where
  verify : List GoString
  reload : List GoString

/-- Run one command of a hook; an empty one is not run. -/
def runCommand (args : List GoString) (cs : Commands) : Bool × Commands :=
  if args = [] then (true, cs) else cs.exec

/-- Verify, and only then reload. -/
def Runner.run (r : Runner) (cs : Commands) : Except Err Unit × Commands :=
  match runCommand r.verify cs with
  | (false, cs) => (.error .verify, cs)
  | (true, cs) =>
      match runCommand r.reload cs with
      | (false, cs) => (.error .reload, cs)
      | (true, cs) => (.ok (), cs)

/-- A hook that fails has a command. -/
theorem Runner.has_command_of_error {r : Runner} {cs : Commands} {e : Err}
    (h : (r.run cs).1 = .error e) : r.verify ≠ [] ∨ r.reload ≠ [] := by
  by_contra hnone
  obtain ⟨hverify, hreload⟩ : r.verify = [] ∧ r.reload = [] := by
    simpa [not_or] using hnone
  simp [Runner.run, runCommand, hverify, hreload] at h

theorem le_ran_runCommand (args : List GoString) (cs : Commands) :
    cs.ran ≤ (runCommand args cs).2.ran := by
  unfold runCommand
  split_ifs
  · exact le_rfl
  · exact Nat.le_succ cs.ran

theorem ran_lt_runCommand {args : List GoString} (h : args ≠ []) (cs : Commands) :
    cs.ran < (runCommand args cs).2.ran := by
  rw [runCommand, if_neg h]
  exact Nat.lt_succ_self cs.ran

/-- A hook with a command runs one. -/
theorem Runner.ran_lt {r : Runner} (h : r.verify ≠ [] ∨ r.reload ≠ []) (cs : Commands) :
    cs.ran < (r.run cs).2.ran := by
  rcases hverify : runCommand r.verify cs with ⟨verified, cs₁⟩
  have hle : cs.ran ≤ cs₁.ran := by
    simpa [hverify] using le_ran_runCommand r.verify cs
  have hlt (hne : r.verify ≠ []) : cs.ran < cs₁.ran := by
    simpa [hverify] using ran_lt_runCommand hne cs
  cases verified with
  | false =>
      have hne : r.verify ≠ [] := fun heq => by simp [runCommand, heq] at hverify
      simpa [Runner.run, hverify] using hlt hne
  | true =>
      have hrun : (r.run cs).2 = (runCommand r.reload cs₁).2 := by
        simp only [Runner.run, hverify]
        rcases runCommand r.reload cs₁ with ⟨reloaded, cs₂⟩
        cases reloaded <;> rfl
      rw [hrun]
      rcases h with hne | hne
      · exact (hlt hne).trans_le (le_ran_runCommand r.reload cs₁)
      · exact hle.trans_lt (ran_lt_runCommand hne cs₁)

end Lbsync
