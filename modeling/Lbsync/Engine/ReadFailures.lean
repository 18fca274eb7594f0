import Lbsync.Engine.ScriptedKV

/-!
# Ticks of one node under failing calls

Both reads of a publish decision discard their error, so a failed read counts as
absence. A stored record is replaced by an older local copy exactly when both
reads of its key fail and the write goes through. The lock has no influence.
-/

namespace Lbsync.Engine

variable {P : Type*} (p : Provider P)

/-- The cluster after a list of ticks. -/
def runTicks (st : Store) (ts : List (ScriptedTick P)) : Store :=
  ts.foldl (fun st t => t.run p st) st

@[simp] theorem runTicks_nil (st : Store) : runTicks p st [] = st := rfl

theorem runTicks_append (st : Store) (ts us : List (ScriptedTick P)) :
    runTicks p st (ts ++ us) = runTicks p (runTicks p st ts) us := by
  simp [runTicks]

@[simp] theorem runTicks_cons (st : Store) (t : ScriptedTick P) (ts : List (ScriptedTick P)) :
    runTicks p st (t :: ts) = runTicks p (t.run p st) ts := rfl

/-- Between any two points of the run, no stored record of the provider's kind
is lost or replaced by an older one. -/
def NeverRegresses (st : Store) (ts : List (ScriptedTick P)) : Prop :=
  ∀ earlier later rest, ts = earlier ++ (later ++ rest) → ∀ key,
    NotOlder (runTicks p st earlier p.kind key) (runTicks p st (earlier ++ later) p.kind key)

/-- For every key whose local copy is strictly older than the stored record, one
of the two reads succeeds or the write does not take place. -/
def ReadsBeforeOverwrite (st : Store) (t : ScriptedTick P) : Prop :=
  ∀ key l c, t.own p key = some l → st p.kind key = some c →
    c.version.newer l.version = true →
    (t.script.call key).getOk = true ∨ (t.script.call key).recheckOk = true ∨
      (t.script.call key).put = .failed

theorem keeps_readBy {l c : Record} (ok : Bool) :
    keeps l (readBy ok (some c)) = true ↔ ok = true ∧ l.version ≤ c.version := by
  cases ok <;> simp [readBy, keeps]

theorem published_some (l c : Record) (o : Outcome) :
    published (some l) (some c) o = some c ∨ published (some l) (some c) o = some l ∧
      ¬ (o.getOk = true ∧ l.version ≤ c.version) ∧
      ¬ (o.recheckOk = true ∧ l.version ≤ c.version) ∧ o.put ≠ .failed := by
  unfold published
  simp only [keeps_readBy]
  split_ifs with h₁ h₂ h₃
  · exact Or.inl rfl
  · exact Or.inl rfl
  · exact Or.inl rfl
  · exact Or.inr ⟨rfl, h₁, h₂, h₃⟩

/-- The publish decision loses ground exactly when the stored record is newer,
both reads fail and the write takes place. -/
theorem notOlder_published_iff (own stored : Option Record) (o : Outcome) :
    NotOlder stored (published own stored o) ↔
      ∀ l c, own = some l → stored = some c → c.version.newer l.version = true →
        o.getOk = true ∨ o.recheckOk = true ∨ o.put = .failed := by
  cases own with
  | none =>
      simp only [published, reduceCtorEq, false_implies, implies_true, iff_true]
      exact NotOlder.refl stored
  | some l =>
      cases stored with
      | none =>
          simp only [reduceCtorEq, false_implies, implies_true, iff_true]
          intro r hr
          cases hr
      | some c =>
          constructor
          · rintro h l' c' hl hc hnewer
            cases hl
            cases hc
            by_contra hblind
            simp only [not_or, Bool.not_eq_true] at hblind
            obtain ⟨hget, hrecheck, hput⟩ := hblind
            have hres : published (some l) (some c) o = some l := by
              simp [published, readBy, keeps, hget, hrecheck, hput]
            obtain ⟨r', hr', hold⟩ := h c rfl
            rw [hres] at hr'
            cases hr'
            rw [hnewer] at hold
            exact Bool.noConfusion hold
          · intro h
            rcases published_some l c o with hkept | ⟨hput, hget, hrecheck, hwritten⟩
            · rw [hkept]
              exact NotOlder.refl _
            · rw [hput]
              rintro r hr
              cases hr
              refine ⟨l, rfl, ?_⟩
              by_contra hlost
              rw [Bool.not_eq_false] at hlost
              have hle : l.version ≤ c.version := (Version.newer_iff_lt.mp hlost).le
              rcases h l c rfl rfl hlost with hg | hr | hw
              · exact hget ⟨hg, hle⟩
              · exact hrecheck ⟨hr, hle⟩
              · exact hwritten hw

/-- One tick keeps every stored version exactly when it reads before it overwrites. -/
theorem tick_notOlder_iff (st : Store) (t : ScriptedTick P) :
    (∀ key, NotOlder (st p.kind key) (t.run p st p.kind key)) ↔ ReadsBeforeOverwrite p st t := by
  simp only [ScriptedTick.run_eq, notOlder_published_iff, ReadsBeforeOverwrite]

/-- Ticks that all read before they overwrite keep every stored version. -/
theorem notOlder_runTicks {st : Store} {ts : List (ScriptedTick P)}
    (h : ∀ earlier t later, ts = earlier ++ t :: later →
      ReadsBeforeOverwrite p (runTicks p st earlier) t) (key : GoString) :
    NotOlder (st p.kind key) (runTicks p st ts p.kind key) := by
  induction ts generalizing st with
  | nil => exact NotOlder.refl _
  | cons t ts ih =>
      have hfirst := (tick_notOlder_iff p st t).mpr (h [] t ts rfl) key
      refine hfirst.trans (ih fun earlier u later hsplit => ?_)
      exact h (t :: earlier) u later (by rw [hsplit]; rfl)

/-- In a run of any length under any call failures, the stored versions never
decrease if and only if every tick reads before it overwrites. -/
theorem neverRegresses_iff (st : Store) (ts : List (ScriptedTick P)) :
    NeverRegresses p st ts ↔
      ∀ earlier t later, ts = earlier ++ t :: later →
        ReadsBeforeOverwrite p (runTicks p st earlier) t := by
  constructor
  · intro h earlier t later hsplit
    apply (tick_notOlder_iff p _ t).mp
    intro key
    have hstep := h earlier [t] later hsplit key
    rwa [runTicks_append] at hstep
  · intro h earlier later rest hsplit key
    rw [runTicks_append]
    apply notOlder_runTicks
    intro before t after hlater
    have hall := h (earlier ++ before) t (after ++ rest) (by rw [hsplit, hlater]; simp)
    rwa [runTicks_append] at hall

/-- A cluster that holds version 200, a node whose local copy is version 100, and
one tick in which both reads fail: the stored version drops. -/
theorem blind_tick_regresses :
    ¬ NeverRegresses (fakeProvider (ascii "k"))
      (fun kind key => if kind = ascii "k" ∧ key = ascii "a" then some (sampleRecord 200) else none)
      [⟨[sampleRecord 100], MapOrder.insertion,
        ⟨.ok [ascii "a"], fun _ => ⟨false, true, false, .stored⟩⟩⟩] := by
  intro h
  obtain ⟨r, hr, hold⟩ := h [] [_] [] rfl (ascii "a") (sampleRecord 200) (by decide)
  rw [List.nil_append, runTicks_cons, runTicks_nil, ScriptedTick.run_eq] at hr
  have hown : published (some (sampleRecord 100)) (some (sampleRecord 200))
      ⟨false, true, false, .stored⟩ = some r := hr
  have hr' : r = sampleRecord 100 := (Option.some.inj hown).symm
  subst hr'
  revert hold
  decide

end Lbsync.Engine
