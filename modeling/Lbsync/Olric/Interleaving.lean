import Lbsync.Engine.ErrorFree
import Lbsync.Engine.Machine
import Lbsync.Olric.Facade
import Mathlib.Data.Fintype.Defs

/-!
# Interleaved ticks on one cluster

Any number of nodes run their ticks against the same cluster. A node's token is
the node itself. Between two calls of one node every other node may take any
number of steps, the local copies of any node may change, and a lock may expire.
-/

namespace Lbsync.Olric

open Engine

variable {N P : Type*} [DecidableEq N]

/-- The cluster, and for each node its control point, its provider's state and
the calls to `Apply` it has made. -/
structure Nodes (N P : Type*) where
  cluster : Cluster N
  pc : N → Pc
  world : N → P
  applied : N → List (GoString × Record)

/-- What can happen next. -/
inductive Action (N P : Type*) where
  | begin (n : N) (ord : MapOrder)
  | call (n : N)
  | change (n : N) (w : P)
  | expire (kind name : GoString)

omit [DecidableEq N] in
/-- A lock entry disappears when its time is over. -/
def DMap.expire (dm : DMap N) (name : GoString) : DMap N :=
  match dm.entries name with
  | some (.token _) => { dm with entries := Function.update dm.entries name none }
  | _ => dm

/-- The key whose lock a node holds. -/
def heldAt : Pc → Option GoString
  | .recheck _ key _ _ true => some key
  | .put _ key _ _ true => some key
  | .release _ key _ _ => some key
  | _ => none

/-- One step of the system. -/
def Nodes.step (p : N → Provider P) (s : Nodes N P) : Action N P → Option (Nodes N P)
  | .begin n ord =>
      match s.pc n with
      | .idle =>
          let listed := (p n).locals (s.world n)
          let localByKey := localMap listed.1
          let known := (kv n).keys (p n).kind s.cluster
          some { s with
            cluster := known.2
            pc := Function.update s.pc n (startTick localByKey (unionKeys ord localByKey known.1))
            world := Function.update s.world n listed.2 }
      | _ => none
  | .call n =>
      (Solo.step (kv n) (p n) ⟨s.pc n, s.cluster, s.world n⟩).map fun r =>
        { cluster := r.cluster
          pc := Function.update s.pc n r.pc
          world := Function.update s.world n r.provider
          applied := Function.update s.applied n (s.applied n ++ appliedAt (s.pc n)) }
  | .change n w => some { s with world := Function.update s.world n w }
  | .expire kind name =>
      some { s with cluster := { s.cluster with
        dmaps := Function.update s.cluster.dmaps kind ((s.cluster.dmaps kind).expire name) } }

/-- Whether the next call of a node succeeds. -/
def callOk (kind : GoString) (n : N) (c : Cluster N) : Pc → Bool
  | .get _ key => !isError ((kv n).get kind key c).1
  | .recheck _ key _ _ _ => !isError ((kv n).get kind key c).1
  | .lock _ key _ _ => !isError ((kv n).lock kind key c).1
  | .put _ _ l _ _ => !isError ((kv n).put l c).1
  | _ => true

/-- No `Get`, `Lock` or `Put` fails and no lock expires while it is held. -/
def Allowed (p : N → Provider P) (s : Nodes N P) : Action N P → Prop
  | .call n => callOk (p n).kind n s.cluster (s.pc n) = true
  | .expire kind name => ∀ n, (p n).kind = kind → (heldAt (s.pc n)).map lockName ≠ some name
  | .begin _ _ => True
  | .change _ _ => True

instance [Fintype N] (p : N → Provider P) (s : Nodes N P) (a : Action N P) :
    Decidable (Allowed p s a) :=
  match a with
  | .call n => inferInstanceAs (Decidable (callOk (p n).kind n s.cluster (s.pc n) = true))
  | .expire kind name => inferInstanceAs (Decidable
      (∀ n, (p n).kind = kind → (heldAt (s.pc n)).map lockName ≠ some name))
  | .begin _ _ => inferInstanceAs (Decidable True)
  | .change _ _ => inferInstanceAs (Decidable True)

/-- A run of the system in which every step is allowed. -/
abbrev Reaches (p : N → Provider P) : Nodes N P → Nodes N P → Prop :=
  Runs.Run (Nodes.step p) (Allowed p)

/-- What a successful call does to the DMap of the kind and to the control point. -/
inductive CallEffect (dm dm' : DMap N) : Pc → Pc → Prop where
  | get {f key} (same : dm'.entries = dm.entries) :
      CallEffect dm dm' (.get f key) (f.afterGet key (dm.stored key))
  | lock {f key l c} (n : N) (free : dm.entries (lockName key) = none)
      (taken : dm'.entries = Function.update dm.entries (lockName key) (some (.token n))) :
      CallEffect dm dm' (.lock f key l c) (.recheck f key l c true)
  | recheck {f key l c locked} (same : dm'.entries = dm.entries) :
      CallEffect dm dm' (.recheck f key l c locked) (f.afterRecheck key l c locked (dm.stored key))
  | put {f key l c locked} (effect : PutEffect l dm dm') :
      CallEffect dm dm' (.put f key l c locked) (f.afterPut key l c locked)
  | release {f key l c} (stored : dm'.stored = dm.stored)
      (kept : ∀ name ≠ lockName key, dm'.entries name = dm.entries name) :
      CallEffect dm dm' (.release f key l c) (f.decided key c)
  | apply {f key best} (res : Except Err Bool) (same : dm' = dm) :
      CallEffect dm dm' (.apply f key best) (f.afterApply key res)
  | flush {f} (res : Except Err Unit) (same : dm' = dm) :
      CallEffect dm dm' (.flush f) (f.afterFlush res)
  | rollback {f} (same : dm' = dm) : CallEffect dm dm' (.rollback f) .idle

theorem eq_ok_of_not_isError {α : Type*} {r : Except Err α} (h : (!isError r) = true) :
    ∃ a, r = .ok a := eq_ok_of_isError (by simpa using h)

/-- A successful `Get` of the facade returns the stored record. -/
theorem get_effect {n : N} {kind key : GoString} {c : Cluster N}
    (h : (!isError ((kv n).get kind key c).1) = true) :
    (((kv n).get kind key c).2.dmaps kind).entries = (c.dmaps kind).entries ∧
      gotRecord ((kv n).get kind key c).1 = (c.dmaps kind).stored key := by
  obtain ⟨o, ho⟩ := eq_ok_of_not_isError h
  have hcall : c.onDMap kind (getIn key) = (.ok o, ((kv n).get kind key c).2) :=
    Prod.ext ho rfl
  obtain ⟨hsame, hstored, _⟩ := getIn_ok (Cluster.onDMap_ok hcall).1
  exact ⟨hsame, by rw [ho, ← hstored]; rfl⟩

/-- Releasing a lock of the facade changes at most the lock's own entry. -/
theorem release_effect (n : N) (kind key : GoString) (c : Cluster N) :
    (((kv n).release kind key c).dmaps kind).stored = (c.dmaps kind).stored ∧
      ∀ name ≠ lockName key,
        (((kv n).release kind key c).dmaps kind).entries name = (c.dmaps kind).entries name := by
  by_cases hopen : c.opens kind = true
  · rw [release_dmaps n key hopen]
    obtain ⟨hstored, _, hkept⟩ := releaseIn_spec (c.dmaps kind) n key
    exact ⟨hstored, hkept⟩
  · have hsame : (kv n).release kind key c = c := by simp [kv, Cluster.onDMap, hopen]
    rw [hsame]
    exact ⟨rfl, fun _ _ => rfl⟩

/-- A step of a node whose call succeeds has the effect of that call. -/
theorem callEffect_of_step {p : Provider P} {n : N} {s t : Solo (Cluster N) P}
    (hok : callOk p.kind n s.cluster s.pc = true)
    (hkind : ∀ f key l c locked, s.pc = .put f key l c locked → l.kind = p.kind)
    (hstep : Solo.step (kv n) p s = some t) :
    CallEffect (s.cluster.dmaps p.kind) (t.cluster.dmaps p.kind) s.pc t.pc := by
  obtain ⟨pc, cluster, world⟩ := s
  cases pc with
  | idle => simp [Solo.step] at hstep
  | get f key =>
      obtain ⟨hsame, hgot⟩ := get_effect hok
      simp only [Solo.step, Option.some.injEq] at hstep
      subst hstep
      rw [hgot]
      exact .get hsame
  | lock f key l c =>
      obtain ⟨u, hu⟩ := eq_ok_of_not_isError hok
      have hcall : cluster.onDMap p.kind (lockIn n key) =
          (.ok u, ((kv n).lock p.kind key cluster).2) := Prod.ext hu rfl
      obtain ⟨hfree, htaken⟩ := lockIn_ok (Cluster.onDMap_ok hcall).1
      simp only [Solo.step, hu, Option.some.injEq] at hstep
      subst hstep
      exact .lock n hfree htaken
  | recheck f key l c locked =>
      obtain ⟨hsame, hgot⟩ := get_effect hok
      simp only [Solo.step, Option.some.injEq] at hstep
      subst hstep
      rw [hgot]
      exact .recheck hsame
  | put f key l c locked =>
      obtain ⟨u, hu⟩ := eq_ok_of_not_isError hok
      have hcall : cluster.onDMap l.kind (putIn n l) = (.ok u, ((kv n).put l cluster).2) :=
        Prod.ext hu rfl
      have heffect := putIn_ok (Cluster.onDMap_ok hcall).1
      rw [hkind f key l c locked rfl] at heffect
      simp only [Solo.step, Option.some.injEq] at hstep
      subst hstep
      exact .put heffect
  | release f key l c =>
      obtain ⟨hstored, hkept⟩ := release_effect n p.kind key cluster
      simp only [Solo.step, Option.some.injEq] at hstep
      subst hstep
      exact .release hstored hkept
  | apply f key best =>
      simp only [Solo.step, Option.some.injEq] at hstep
      subst hstep
      exact .apply _ rfl
  | flush f =>
      simp only [Solo.step, Option.some.injEq] at hstep
      subst hstep
      exact .flush _ rfl
  | rollback f =>
      simp only [Solo.step, Option.some.injEq] at hstep
      subst hstep
      exact .rollback rfl

/-- `Keys` changes no entry. -/
theorem keys_entries (n : N) (kind : GoString) (c : Cluster N) :
    (((kv n).keys kind c).2.dmaps kind).entries = (c.dmaps kind).entries := by
  by_cases hopen : c.opens kind = true
  · simp [kv, Cluster.onDMap, hopen, readIndex_entries]
  · simp [kv, Cluster.onDMap, hopen]

omit [DecidableEq N] in
/-- An expired lock takes no data with it. -/
theorem DMap.expire_effect (dm : DMap N) (name : GoString) :
    (dm.expire name).stored = dm.stored ∧
      ∀ other ≠ name, (dm.expire name).entries other = dm.entries other := by
  unfold DMap.expire
  cases he : dm.entries name with
  | none => exact ⟨rfl, fun _ _ => rfl⟩
  | some v =>
      cases v with
      | record r => exact ⟨rfl, fun _ _ => rfl⟩
      | strings l => exact ⟨rfl, fun _ _ => rfl⟩
      | token t =>
          refine ⟨DMap.stored_of_token_removed he rfl, fun other hne => ?_⟩
          exact Function.update_of_ne hne none dm.entries

end Lbsync.Olric
