import Lbsync.Wan.Invariant

/-!
# A silent network

A node whose store is not older than its local records only reads and applies in
its ticks. When this holds for all nodes and nothing is on its way, no further
tick sends anything.
-/

namespace Lbsync.Wan

open Engine

variable {N P : Type*} [DecidableEq N]

/-- A step of the given node, which starts its ticks with its fixed local records. -/
def StepOf (p : N → Provider P) (own : N → LocalMap) (n : N) (s : Nodes N P) :
    Action N P → Prop
  | .begin m _ _ => m = n ∧ s.locals p n = own n
  | .call m _ => m = n
  | _ => False

/-- Every node has completed a tick, nothing is on its way, and no node would send
anything in the rest of its tick and in any further ticks. -/
structure Quiescent (peers : N → List N) (p : N → Provider P) (own : N → LocalMap)
    (s : Nodes N P) : Prop where
  ticked : ∀ n, s.ticked n = true
  flight : s.net.flight = []
  silent : ∀ n t, Runs.Run (Nodes.step peers p) (StepOf p own n) s t → t.net.flight = []

/-- A tick that only reads and applies. -/
def ReadsOnly (m : LocalMap) : Pc → Prop
  | .idle => True
  | .get f _ => f.localByKey = m
  | .apply f _ _ => f.localByKey = m
  | .flush f => f.localByKey = m
  | .rollback f => f.localByKey = m
  | _ => False

variable {m : LocalMap} {f : Frame} {k : GoString} {c : Option Record}

theorem readsOnly_next (hf : f.localByKey = m) : ReadsOnly m f.next := by
  unfold Frame.next
  cases f.rest with
  | nil => by_cases hchanged : f.changed = [] <;> simp [hchanged, ReadsOnly, hf]
  | cons k rest => exact hf

theorem readsOnly_decided (hf : f.localByKey = m) : ReadsOnly m (f.decided k c) := by
  unfold Frame.decided
  cases pickNewer (f.localByKey.lookup k) c with
  | none => exact readsOnly_next hf
  | some best => exact hf

theorem readsOnly_afterGet (hf : f.localByKey = m) (hkeep : ∀ l, m.lookup k = some l → keeps l c) :
    ReadsOnly m (f.afterGet k c) := by
  unfold Frame.afterGet
  cases hl : f.localByKey.lookup k with
  | none => exact readsOnly_decided hf
  | some l =>
      simp only [hkeep l (hf ▸ hl), if_true]
      exact readsOnly_decided hf

theorem readsOnly_afterApply (hf : f.localByKey = m) (res : Except Err Bool) :
    ReadsOnly m (f.afterApply k res) := by
  cases res with
  | error e => exact readsOnly_next hf
  | ok b =>
      cases b with
      | false => exact readsOnly_next hf
      | true => exact readsOnly_next (f := { f with changed := f.changed ++ [k] }) hf

/-- A tick of a node whose store is not older than its local records reads only. -/
theorem CallEffect.readsOnly {peers : List N} {kind : GoString} {n : N} {net net' : Net N}
    {pc pc' : Pc} {asking asking' : Option (List N)}
    (h : CallEffect peers kind n net pc asking net' pc' asking')
    (hfresh : ∀ key l, m.lookup key = some l → keeps l (net.stored n kind key))
    (hquiet : readKey pc = none → asking = none)
    (hasked : ∀ key, readKey pc = some key → asking ≠ none → m.lookup key = none)
    (hreads : ReadsOnly m pc) :
    net' = net ∧ ReadsOnly m pc' ∧
      ∀ key, readKey pc' = some key → asking' ≠ none → m.lookup key = none := by
  have hanswer {k : GoString} {c : Option Record} (hread : readKey pc = some k)
      (hkeep : ∀ l, m.lookup k = some l → keeps l c) : ReadsOnly m (answer c pc) := by
    cases reading_of_readKey hread with
    | get f => exact readsOnly_afterGet hreads hkeep
    | recheck f l c₀ locked => exact hreads.elim
  have hnever {k : GoString} (c : Option Record) (hread : readKey pc = some k)
      (hne : asking ≠ none) : ReadsOnly m (answer c pc) :=
    hanswer hread fun l hl => by simp [hasked k hread hne] at hl
  cases h with
  | @hit pc k r hread hfound =>
      exact ⟨rfl, hanswer hread fun l hl => hfound ▸ hfresh k l hl, fun _ _ hne => absurd rfl hne⟩
  | @miss pc k hread habsent =>
      refine ⟨rfl, hreads, fun key hread' _ => ?_⟩
      obtain rfl : k = key := Option.some.inj (hread.symm.trans hread')
      cases hl : m.lookup k with
      | none => rfl
      | some l =>
          have hkeep := hfresh k l hl
          simp [habsent, keeps] at hkeep
  | reply hread hfound =>
      exact ⟨rfl, hnever _ hread (by simp), fun _ _ hne => absurd rfl hne⟩
  | skip hread => exact ⟨rfl, hreads, fun key hread' _ => hasked key hread' (by simp)⟩
  | absent hread => exact ⟨rfl, hnever _ hread (by simp), fun _ _ hne => absurd rfl hne⟩
  | lock => exact hreads.elim
  | put => exact hreads.elim
  | release => exact hreads.elim
  | apply res =>
      exact ⟨rfl, readsOnly_afterApply hreads res, fun _ _ hne => absurd (hquiet rfl) hne⟩
  | flush res =>
      refine ⟨rfl, ?_, fun _ _ hne => absurd (hquiet rfl) hne⟩
      cases res with
      | ok u => trivial
      | error e => exact hreads
  | rollback => exact ⟨rfl, trivial, fun _ _ hne => absurd (hquiet rfl) hne⟩

/-- An idle node whose store is not older than its local records sends nothing. -/
theorem silent_of_fresh {peers : N → List N} {p : N → Provider P} {own : N → LocalMap}
    {kind : GoString} (hkind : ∀ n, (p n).kind = kind) {n : N} {s t : Nodes N P}
    (hidle : s.pc n = .idle) (hasking : s.asking n = none)
    (hfresh : ∀ key l, (own n).lookup key = some l → keeps l (s.net.stored n kind key))
    (hrun : Runs.Run (Nodes.step peers p) (StepOf p own n) s t) : t.net = s.net := by
  refine (Runs.Run.invariant (I := fun u => u.net = s.net ∧ ReadsOnly (own n) (u.pc n) ∧
    (readKey (u.pc n) = none → u.asking n = none) ∧
    ∀ key, readKey (u.pc n) = some key → u.asking n ≠ none → (own n).lookup key = none)
    ?_ hrun ?_).1
  · rintro u a v ⟨hnet, hreads, hquiet, hasked⟩ ha hstep
    cases a with
    | begin q ord known =>
        obtain ⟨rfl, hown⟩ := ha
        cases hpc : u.pc q with
        | idle =>
            simp only [Nodes.step, hpc, hown, Option.some.injEq] at hstep
            subst hstep
            have hnone : u.asking q = none := hquiet (by rw [hpc]; rfl)
            refine ⟨hnet, ?_, fun _ => hnone, fun _ _ hne => absurd hnone hne⟩
            simp only [Function.update_self]
            exact readsOnly_next rfl
        | _ => simp [Nodes.step, hpc] at hstep
    | call q answers =>
        obtain rfl : q = n := ha
        simp only [Nodes.step, Option.map_eq_some_iff] at hstep
        obtain ⟨w, hw, rfl⟩ := hstep
        have heffect := callEffect_of_step hw
        rw [hkind q, hnet] at heffect
        obtain ⟨hsame, hreads', hasked'⟩ := heffect.readsOnly hfresh hquiet hasked hreads
        simp only [Function.update_self]
        exact ⟨hsame, hreads', heffect.quiet hquiet, hasked'⟩
    | _ => exact ha.elim
  · simp [hidle, hasking, ReadsOnly]

end Lbsync.Wan
