import Lbsync.Blob.Provider
import Lbsync.Certs.Rollback
import Lbsync.Engine.Local

/-!
# The counters of an agent

The engine counts the records it has published and applied and its rollbacks; a hook counts its
verify and its reload commands that failed. The counters start at zero and are lost in a
restart. Whatever the cluster replies, whatever happens to the files and however the commands
end, the counters of a node fit together.
-/

namespace Lbsync

open Engine

/-- The counters of one kind. -/
structure Counters where
  publishTotal : Nat
  applyTotal : Nat
  verifyErrors : Nat
  reloadErrors : Nat
  rollbackTotal : Nat
  deriving DecidableEq

/-- The counters of a process that has just started. -/
def Counters.zero : Counters := ⟨0, 0, 0, 0, 0⟩

/-- How often the verify and the reload counter go up. -/
structure Bumps where
  verify : Nat
  reload : Nat

def Bumps.total (b : Bumps) : Nat := b.verify + b.reload

/-- What a run of a hook does to its counters. -/
def Runner.bumps (r : Runner) (cs : Commands) : Bumps :=
  match runCommand r.verify cs with
  | (false, _) => ⟨1, 0⟩
  | (true, cs) =>
      match runCommand r.reload cs with
      | (false, _) => ⟨0, 1⟩
      | (true, _) => ⟨0, 0⟩

/-- A hook counts one error when it fails, and none otherwise. -/
theorem Runner.bumps_cases (r : Runner) (cs : Commands) :
    ((r.run cs).1 = .ok () ∧ (r.bumps cs).total = 0) ∨
      ∃ e, (r.run cs).1 = .error e ∧ (r.bumps cs).total = 1 := by
  unfold Runner.bumps Runner.run
  rcases runCommand r.verify cs with ⟨verified, cs₁⟩
  cases verified with
  | false => exact .inr ⟨.verify, rfl, rfl⟩
  | true =>
      simp only
      rcases runCommand r.reload cs₁ with ⟨reloaded, cs₂⟩
      cases reloaded with
      | false => exact .inr ⟨.reload, rfl, rfl⟩
      | true => exact .inl ⟨rfl, rfl⟩

variable {P : Type*}

/-- What the next call does to the counters; `bumps` is what `Flush` does to those of the
hooks. -/
def meter (p : Provider P) (bumps : P → Bumps) (s : Pc × P) (reply : Reply) (c : Counters) :
    Counters :=
  match s.1 with
  | .put _ _ _ _ _ =>
      if reply.written then { c with publishTotal := c.publishTotal + 1 } else c
  | .apply _ _ best =>
      match (p.apply best s.2).1 with
      | .ok true => { c with applyTotal := c.applyTotal + 1 }
      | .ok false => c
      | .error _ => c
  | .flush _ =>
      { c with
        verifyErrors := c.verifyErrors + (bumps s.2).verify
        reloadErrors := c.reloadErrors + (bumps s.2).reload }
  | .rollback _ => { c with rollbackTotal := c.rollbackTotal + 1 }
  | _ => c

/-- A step of a node with its counters. -/
def meteredStep (p : Provider P) (bumps : P → Bumps) (s : (Pc × P) × Counters)
    (a : LocalAct P) : Option ((Pc × P) × Counters) :=
  (localStep p s.1 a).map fun t =>
    match a with
    | .begin _ => (t, s.2)
    | .call reply => (t, meter p bumps s.1 reply s.2)
    | .change _ => (t, s.2)
    | .restart _ => (t, .zero)

/-- The hooks count errors exactly when `Flush` fails. -/
structure Honest (p : Provider P) (bumps : P → Bumps) : Prop where
  ok : ∀ w u, (p.flush w).1 = .ok u → (bumps w).total = 0
  error : ∀ w e, (p.flush w).1 = .error e → 1 ≤ (bumps w).total

section Owed

/-- Whether the tick has changed something so far. -/
def Engine.Frame.owed (f : Frame) : Nat := if f.changed = [] then 0 else 1

/-- Whether the tick may still have to roll back. -/
def Engine.Pc.owed : Pc → Nat
  | .idle => 0
  | .get f _ => f.owed
  | .lock f _ _ _ => f.owed
  | .recheck f _ _ _ _ => f.owed
  | .put f _ _ _ _ => f.owed
  | .release f _ _ _ => f.owed
  | .apply f _ _ => f.owed
  | .flush _ => 1
  | .rollback _ => 1

variable (f : Frame) (key : GoString) (l : Record) (c : Option Record)

theorem owed_next : f.next.owed ≤ f.owed := by
  unfold Frame.next
  cases f.rest with
  | nil => by_cases hchanged : f.changed = [] <;> simp [hchanged, Pc.owed, Frame.owed]
  | cons k rest => exact le_rfl

theorem owed_decided : (f.decided key c).owed ≤ f.owed := by
  unfold Frame.decided
  cases pickNewer (f.localByKey.lookup key) c with
  | none => exact owed_next f
  | some best => exact le_rfl

theorem owed_afterGet : (f.afterGet key c).owed ≤ f.owed := by
  unfold Frame.afterGet
  cases f.localByKey.lookup key with
  | none => exact owed_decided f key c
  | some l =>
      by_cases hkeep : keeps l c = true
      · simpa only [hkeep, if_true] using owed_decided f key c
      · simp only [hkeep]
        exact le_rfl

theorem owed_afterPut (locked : Bool) : (f.afterPut key l c locked).owed ≤ f.owed := by
  cases locked with
  | false => exact owed_decided f key c
  | true => exact le_rfl

theorem owed_afterRecheck (locked : Bool) (cur : Option Record) :
    (f.afterRecheck key l c locked cur).owed ≤ f.owed := by
  unfold Frame.afterRecheck
  by_cases hkeep : keeps l cur = true
  · simpa only [hkeep, if_true] using owed_afterPut f key l c locked
  · simp only [hkeep]
    exact le_rfl

theorem owed_afterApply (res : Except Err Bool) :
    (f.afterApply key res).owed ≤ f.owed + if res = .ok true then 1 else 0 := by
  cases res with
  | error e => simpa [Frame.afterApply] using owed_next f
  | ok b =>
      cases b with
      | false => simpa [Frame.afterApply] using owed_next f
      | true =>
          have hnext := owed_next { f with changed := f.changed ++ [key] }
          have hone : Frame.owed { f with changed := f.changed ++ [key] } = 1 := by
            simp [Frame.owed]
          rw [hone] at hnext
          exact hnext.trans (Nat.le_add_left 1 f.owed)

end Owed

/-- How many rollbacks a tick is about to make. -/
def Engine.Pc.rollbacks (pc : Pc) : Nat := if pc.rollsBack then 1 else 0

/-- The counters fit together. Each rollback follows a change and a failed hook; the rollback
that is about to be made is still to be counted. -/
structure Accounted (bumps : P → Bumps) (s : (Pc × P) × Counters) : Prop where
  applied : s.2.rollbackTotal + s.1.1.owed ≤ s.2.applyTotal
  failed : s.2.rollbackTotal + s.1.1.rollbacks ≤ s.2.verifyErrors + s.2.reloadErrors
  single : (∀ w, (bumps w).total ≤ 1) →
    s.2.verifyErrors + s.2.reloadErrors ≤ s.2.rollbackTotal + s.1.1.rollbacks

section Steps

variable {p : Provider P} {bumps : P → Bumps} {s : (Pc × P) × Counters} {t : Pc × P}

theorem accounted_zero (w : P) : Accounted bumps ((.idle, w), .zero) :=
  ⟨le_rfl, le_rfl, fun _ => le_rfl⟩

/-- A step that counts neither changes nor failures, and after which no more is owed. -/
theorem Accounted.of_le (h : Accounted bumps s) {c : Counters}
    (happlied : c.applyTotal = s.2.applyTotal) (hverify : c.verifyErrors = s.2.verifyErrors)
    (hreload : c.reloadErrors = s.2.reloadErrors)
    (hrollback : c.rollbackTotal = s.2.rollbackTotal) (howed : t.1.owed ≤ s.1.1.owed)
    (hrolls : t.1.rollbacks = s.1.1.rollbacks) : Accounted bumps (t, c) := by
  obtain ⟨happlied', hfailed, hsingle⟩ := h
  refine ⟨?_, ?_, fun hone => ?_⟩
  · simp only [happlied, hrollback]
    omega
  · simpa only [hverify, hreload, hrollback, hrolls] using hfailed
  · simpa only [hverify, hreload, hrollback, hrolls] using hsingle hone

theorem rollbacks_eq_zero {pc : Pc} (h : pc.rollsBack = false) : pc.rollbacks = 0 := by
  simp [Pc.rollbacks, h]

/-- A change is counted before the tick can owe a rollback for it. -/
theorem Accounted.apply {f : Frame} {key : GoString} {best : Record} {w : P} {c : Counters}
    (h : Accounted bumps ((.apply f key best, w), c)) (reply : Reply) :
    Accounted bumps ((f.afterApply key (p.apply best w).1, (p.apply best w).2),
      meter p bumps (.apply f key best, w) reply c) := by
  have howed := owed_afterApply f key (p.apply best w).1
  have hrolls : (f.afterApply key (p.apply best w).1).rollbacks =
      (Pc.apply f key best).rollbacks := rollbacks_eq_zero (rollsBack_afterApply f key _)
  obtain ⟨happlied, hfailed, hsingle⟩ := h
  have hmeter : meter p bumps (.apply f key best, w) reply c =
      { c with applyTotal := c.applyTotal + if (p.apply best w).1 = .ok true then 1 else 0 } := by
    simp only [meter]
    cases (p.apply best w).1 with
    | error e => rfl
    | ok changed => cases changed <;> rfl
  rw [hmeter]
  refine ⟨?_, by simpa only [hrolls] using hfailed, by simpa only [hrolls] using hsingle⟩
  change c.rollbackTotal + f.owed ≤ c.applyTotal at happlied
  change c.rollbackTotal + (f.afterApply key (p.apply best w).1).owed ≤
    c.applyTotal + if (p.apply best w).1 = .ok true then 1 else 0
  omega

/-- The errors of the hooks are counted before the rollback. -/
theorem Accounted.flush (hhonest : Honest p bumps) {f : Frame} {w : P} {c : Counters}
    (h : Accounted bumps ((.flush f, w), c)) (reply : Reply) :
    Accounted bumps ((f.afterFlush (p.flush w).1, (p.flush w).2),
      meter p bumps (.flush f, w) reply c) := by
  obtain ⟨happlied, hfailed, hsingle⟩ := h
  change c.rollbackTotal + 1 ≤ c.applyTotal at happlied
  change c.rollbackTotal + 0 ≤ c.verifyErrors + c.reloadErrors at hfailed
  change _ → c.verifyErrors + c.reloadErrors ≤ c.rollbackTotal + 0 at hsingle
  have htotal : (bumps w).total = (bumps w).verify + (bumps w).reload := rfl
  cases hflush : (p.flush w).1 with
  | ok u =>
      have hnone := hhonest.ok w u hflush
      refine ⟨Nat.le_of_succ_le happlied, ?_, fun hone => ?_⟩
      · change c.rollbackTotal + 0 ≤
          c.verifyErrors + (bumps w).verify + (c.reloadErrors + (bumps w).reload)
        omega
      · have hle := hsingle hone
        change c.verifyErrors + (bumps w).verify + (c.reloadErrors + (bumps w).reload) ≤
          c.rollbackTotal + 0
        omega
  | error e =>
      have hsome := hhonest.error w e hflush
      refine ⟨happlied, ?_, fun hone => ?_⟩
      · change c.rollbackTotal + 1 ≤
          c.verifyErrors + (bumps w).verify + (c.reloadErrors + (bumps w).reload)
        omega
      · have hle := hsingle hone
        have hmost := hone w
        change c.verifyErrors + (bumps w).verify + (c.reloadErrors + (bumps w).reload) ≤
          c.rollbackTotal + 1
        omega

/-- Every call of a tick keeps the counters fitting. -/
theorem Accounted.call (hhonest : Honest p bumps) (h : Accounted bumps s) {reply : Reply}
    (hstep : localStep p s.1 (.call reply) = some t) :
    Accounted bumps (t, meter p bumps s.1 reply s.2) := by
  obtain ⟨⟨pc, w⟩, counters⟩ := s
  cases pc with
  | idle => simp [localStep, Solo.step] at hstep
  | get f key =>
      obtain rfl := Option.some.inj hstep
      exact h.of_le rfl rfl rfl rfl (owed_afterGet f key _)
        (rollbacks_eq_zero (rollsBack_afterGet f key _))
  | lock f key l c =>
      obtain rfl := Option.some.inj hstep
      exact h.of_le rfl rfl rfl rfl le_rfl rfl
  | recheck f key l c locked =>
      obtain rfl := Option.some.inj hstep
      exact h.of_le rfl rfl rfl rfl (owed_afterRecheck f key l c locked _)
        (rollbacks_eq_zero (rollsBack_afterRecheck f key l c locked _))
  | put f key l c locked =>
      obtain rfl := Option.some.inj hstep
      refine h.of_le ?_ ?_ ?_ ?_ (owed_afterPut f key l c locked)
        (rollbacks_eq_zero (rollsBack_afterPut f key l c locked)) <;>
      · cases hwritten : reply.written <;> simp [meter, hwritten]
  | release f key l c =>
      obtain rfl := Option.some.inj hstep
      exact h.of_le rfl rfl rfl rfl (owed_decided f key c)
        (rollbacks_eq_zero (rollsBack_decided f key c))
  | apply f key best =>
      obtain rfl := Option.some.inj hstep
      exact h.apply reply
  | flush f =>
      obtain rfl := Option.some.inj hstep
      exact h.flush hhonest reply
  | rollback f =>
      obtain rfl := Option.some.inj hstep
      obtain ⟨happlied, hfailed, hsingle⟩ := h
      exact ⟨happlied, hfailed, hsingle⟩

/-- Along every run of a node that starts with its counters at zero, they fit together. -/
theorem accounted_of_run (hhonest : Honest p bumps) {w₀ : P} {s : (Pc × P) × Counters}
    (hrun : Runs.Run (meteredStep p bumps) (fun _ _ => True) ((.idle, w₀), .zero) s) :
    Accounted bumps s := by
  refine hrun.invariant (fun s a t hs _ hstep => ?_) (accounted_zero w₀)
  obtain ⟨u, hu, rfl⟩ := Option.map_eq_some_iff.mp hstep
  cases a with
  | begin keys =>
      obtain ⟨⟨pc, w⟩, c⟩ := s
      cases pc with
      | idle =>
          obtain rfl := Option.some.inj hu
          exact hs.of_le rfl rfl rfl rfl (owed_next _) (rollbacks_eq_zero (rollsBack_next _))
      | _ => simp [localStep] at hu
  | call reply => exact hs.call hhonest hu
  | change w =>
      obtain rfl := Option.some.inj hu
      exact hs.of_le rfl rfl rfl rfl le_rfl rfl
  | restart w =>
      obtain rfl := Option.some.inj hu
      exact accounted_zero w

end Steps

/-- What `Flush` of the certificate provider does to the counters of its hook. -/
def Certs.hookBumps (cfg : Certs.Config) (w : Certs.World) : Bumps := cfg.runner.bumps w.commands

theorem Certs.honest_provider (cfg : Certs.Config) :
    Honest (Certs.provider cfg) (Certs.hookBumps cfg) where
  ok w u hok := by
    rcases cfg.runner.bumps_cases w.commands with ⟨-, hnone⟩ | ⟨e, herror, -⟩
    · exact hnone
    · cases herror.symm.trans hok
  error w e herror := by
    rcases cfg.runner.bumps_cases w.commands with ⟨hok, -⟩ | ⟨e', -, hone⟩
    · cases hok.symm.trans herror
    · exact hone.ge

theorem Certs.hookBumps_le_one (cfg : Certs.Config) (w : Certs.World) :
    (Certs.hookBumps cfg w).total ≤ 1 := by
  rcases cfg.runner.bumps_cases w.commands with ⟨-, hnone⟩ | ⟨e, -, hone⟩
  · exact hnone.le.trans zero_le_one
  · exact hone.le

/-- What the hooks of the resources do to their counters, one after the other. -/
def Blob.runHooksBumps (cfg : Blob.Config) : List GoString → Commands → Bumps
  | [], _ => ⟨0, 0⟩
  | name :: rest, cs =>
      match cfg.byName name with
      | none => Blob.runHooksBumps cfg rest cs
      | some res =>
          ⟨(res.runner.bumps cs).verify +
              (Blob.runHooksBumps cfg rest (res.runner.run cs).2).verify,
            (res.runner.bumps cs).reload +
              (Blob.runHooksBumps cfg rest (res.runner.run cs).2).reload⟩

/-- What `Flush` of the blob provider does to the counters of its hooks. -/
def Blob.hookBumps (cfg : Blob.Config) (w : Blob.World) : Bumps :=
  Blob.runHooksBumps cfg (w.order.visit w.pending) w.commands

/-- The hooks return an error exactly when they count one. -/
theorem Blob.total_runHooksBumps_eq_zero_iff (cfg : Blob.Config) (names : List GoString)
    (cs : Commands) :
    (Blob.runHooksBumps cfg names cs).total = 0 ↔ (Blob.runHooks cfg names cs).1 = none := by
  induction names generalizing cs with
  | nil => exact ⟨fun _ => rfl, fun _ => rfl⟩
  | cons name rest ih =>
      unfold Blob.runHooks Blob.runHooksBumps
      cases cfg.byName name with
      | none => exact ih cs
      | some res =>
          have hcases := res.runner.bumps_cases cs
          have hrest := ih (res.runner.run cs).2
          simp only [Bumps.total] at hcases hrest ⊢
          rcases hrun : res.runner.run cs with ⟨result, cs'⟩
          rw [hrun] at hcases hrest
          cases result with
          | ok u =>
              obtain ⟨-, hnone⟩ : _ ∧ _ := hcases.resolve_right (by simp)
              rw [← hrest]
              omega
          | error e =>
              obtain ⟨-, -, hone⟩ := hcases.resolve_left (by simp)
              simp only [reduceCtorEq, iff_false]
              omega

theorem Blob.honest_provider (cfg : Blob.Config) :
    Honest (Blob.provider cfg) (Blob.hookBumps cfg) where
  ok w u hok := by
    refine (Blob.total_runHooksBumps_eq_zero_iff cfg _ w.commands).mpr ?_
    change (Blob.flush cfg w).1 = .ok u at hok
    unfold Blob.flush at hok
    rcases hrun : Blob.runHooks cfg (w.order.visit w.pending) w.commands with ⟨_ | e, cs⟩
    · rfl
    · rw [hrun] at hok
      cases hok
  error w e herror := by
    refine Nat.pos_of_ne_zero fun hnone => ?_
    have hhooks := (Blob.total_runHooksBumps_eq_zero_iff cfg _ w.commands).mp hnone
    change (Blob.flush cfg w).1 = .error e at herror
    unfold Blob.flush at herror
    rcases hrun : Blob.runHooks cfg (w.order.visit w.pending) w.commands with ⟨_ | e', cs⟩
    · rw [hrun] at herror
      cases herror
    · rw [hrun] at hhooks
      cases hhooks

/-- The counters of a node fit together, whatever the cluster replies, whatever happens to the
files, however the commands end and whenever the node restarts. There are never more rollbacks
than applied records. A node has rolled its certificates back once for each verify and each
reload that failed, up to the rollback that it is about to make; for blobs, whose hooks may fail
together, at most once for each. -/
theorem counters_add_up (ccfg : Certs.Config) (bcfg : Blob.Config) :
    (∀ w₀ s, Runs.Run (meteredStep (Certs.provider ccfg) (Certs.hookBumps ccfg))
        (fun _ _ => True) ((.idle, w₀), .zero) s →
      s.2.rollbackTotal ≤ s.2.applyTotal ∧
        s.2.rollbackTotal + s.1.1.rollbacks = s.2.verifyErrors + s.2.reloadErrors) ∧
    ∀ w₀ s, Runs.Run (meteredStep (Blob.provider bcfg) (Blob.hookBumps bcfg))
        (fun _ _ => True) ((.idle, w₀), .zero) s →
      s.2.rollbackTotal ≤ s.2.applyTotal ∧
        s.2.rollbackTotal + s.1.1.rollbacks ≤ s.2.verifyErrors + s.2.reloadErrors := by
  constructor
  · intro w₀ s hrun
    have hfit := accounted_of_run (Certs.honest_provider ccfg) hrun
    exact ⟨Nat.le_of_add_right_le hfit.applied,
      hfit.failed.antisymm (hfit.single (Certs.hookBumps_le_one ccfg))⟩
  · intro w₀ s hrun
    have hfit := accounted_of_run (Blob.honest_provider bcfg) hrun
    exact ⟨Nat.le_of_add_right_le hfit.applied, hfit.failed⟩

/-- A node applies a certificate of the cluster, its verify fails, and it rolls back. -/
theorem counters_add_up_failing :
    ∃ s, Runs.Run (meteredStep (Certs.provider Certs.sampleConfig)
        (Certs.hookBumps Certs.sampleConfig)) (fun _ _ => True)
        ((.idle, { Certs.sampleWorld with commands := ⟨fun _ => false, 0⟩ }), .zero) s ∧
      s.2 = ⟨0, 1, 1, 0, 1⟩ ∧
      s.2.rollbackTotal + s.1.1.rollbacks = s.2.verifyErrors + s.2.reloadErrors := by
  obtain ⟨s, hrun, hcounters⟩ : ∃ s, Runs.Run (meteredStep (Certs.provider Certs.sampleConfig)
      (Certs.hookBumps Certs.sampleConfig)) (fun _ _ => True)
      ((.idle, { Certs.sampleWorld with commands := ⟨fun _ => false, 0⟩ }), .zero) s ∧
      s.2 = ⟨0, 1, 1, 0, 1⟩ :=
    Runs.Run.exists_of_replay [.begin [ascii "a"],
      .call ⟨some (Certs.sampleWinner [2] [2]).2, false, false⟩, .call ⟨none, false, false⟩,
      .call ⟨none, false, false⟩, .call ⟨none, false, false⟩] (by decide +kernel)
  exact ⟨s, hrun, hcounters,
    ((counters_add_up Certs.sampleConfig ⟨[], [], id, .longer⟩).1 _ s hrun).2⟩

end Lbsync
