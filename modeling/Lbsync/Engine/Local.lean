import Lbsync.Engine.Machine

/-!
# One node's part of a run

Whatever the other nodes and the cluster do, a node sees no more of it than the replies to its
calls. A tick that gets arbitrary replies, between which its files may change and the node may
restart, has every behaviour that a node can show on any cluster. What such ticks keep, the
nodes of every system keep.
-/

namespace Lbsync.Engine

/-- What the next call can return: the record of a read, whether a lock is granted, and whether
a write succeeds. -/
structure Reply where
  record : Option Record
  locked : Bool
  written : Bool

/-- A cluster that gives this reply. -/
def replying : ClusterKV Reply where
  get _ _ reply := (.ok reply.record, reply)
  put _ reply := (if reply.written then .ok () else .error .put, reply)
  keys _ reply := (.ok [], reply)
  lock _ _ reply := (if reply.locked then .ok () else .error .lock, reply)
  release _ _ reply := reply

/-- What can happen next to a node. -/
inductive LocalAct (P : Type*) where
  | begin (keys : List GoString)
  | call (reply : Reply)
  | change (w : P)
  | restart (w : P)

variable {K P : Type*}

/-- A change from outside leaves the provider's state as it should be. -/
def LocalAct.Respects (I : P → Prop) : LocalAct P → Prop
  | .change w => I w
  | .restart w => I w
  | _ => True

/-- One step of a node: the control point of its tick and its provider's state. -/
def localStep (p : Provider P) (s : Pc × P) : LocalAct P → Option (Pc × P)
  | .begin keys =>
      match s.1 with
      | .idle => some (startTick (localMap (p.locals s.2).1) keys, (p.locals s.2).2)
      | _ => none
  | .call reply => (Solo.step replying p ⟨s.1, reply, s.2⟩).map fun r => (r.pc, r.provider)
  | .change w => some (s.1, w)
  | .restart w => some (.idle, w)

/-- A call on any cluster is a call with some reply. -/
theorem exists_reply {cl : ClusterKV K} {p : Provider P} {s t : Solo K P}
    (h : Solo.step cl p s = some t) :
    ∃ reply, localStep p (s.pc, s.provider) (.call reply) = some (t.pc, t.provider) := by
  obtain ⟨pc, cluster, world⟩ := s
  cases pc with
  | idle => simp [Solo.step] at h
  | get f key =>
      obtain rfl := Option.some.inj h
      exact ⟨⟨gotRecord (cl.get p.kind key cluster).1, false, false⟩, rfl⟩
  | lock f key l c =>
      obtain rfl := Option.some.inj h
      refine ⟨⟨none, lockTaken (cl.lock p.kind key cluster).1, false⟩, ?_⟩
      simp only [localStep, Solo.step, replying, Option.map_some]
      cases (cl.lock p.kind key cluster).1 <;> rfl
  | recheck f key l c locked =>
      obtain rfl := Option.some.inj h
      exact ⟨⟨gotRecord (cl.get p.kind key cluster).1, false, false⟩, rfl⟩
  | _ =>
      obtain rfl := Option.some.inj h
      exact ⟨⟨none, false, false⟩, rfl⟩

/-- The tick is about to roll back. -/
def Pc.rollsBack : Pc → Bool
  | .rollback _ => true
  | _ => false

section RollsBack

variable (f : Frame) (key : GoString) (l : Record) (c : Option Record)

@[simp] theorem rollsBack_next : f.next.rollsBack = false := by
  unfold Frame.next
  cases f.rest with
  | nil => by_cases hchanged : f.changed = [] <;> simp [hchanged, Pc.rollsBack]
  | cons k rest => rfl

@[simp] theorem rollsBack_decided : (f.decided key c).rollsBack = false := by
  unfold Frame.decided
  cases pickNewer (f.localByKey.lookup key) c with
  | none => exact rollsBack_next f
  | some best => rfl

@[simp] theorem rollsBack_afterGet : (f.afterGet key c).rollsBack = false := by
  unfold Frame.afterGet
  cases f.localByKey.lookup key with
  | none => exact rollsBack_decided f key c
  | some l =>
      by_cases hkeep : keeps l c = true
      · simp [hkeep]
      · simp only [hkeep]
        rfl

@[simp] theorem rollsBack_afterPut (locked : Bool) :
    (f.afterPut key l c locked).rollsBack = false := by
  cases locked with
  | false => exact rollsBack_decided f key c
  | true => rfl

@[simp] theorem rollsBack_afterRecheck (locked : Bool) (cur : Option Record) :
    (f.afterRecheck key l c locked cur).rollsBack = false := by
  unfold Frame.afterRecheck
  by_cases hkeep : keeps l cur = true
  · simp [hkeep]
  · simp only [hkeep]
    rfl

@[simp] theorem rollsBack_afterApply (res : Except Err Bool) :
    (f.afterApply key res).rollsBack = false := by
  cases res with
  | error e => exact rollsBack_next f
  | ok b => cases b <;> exact rollsBack_next _

end RollsBack

/-- Only a failed hook makes a tick roll back. -/
theorem rollsBack_of_localStep {p : Provider P} {s t : Pc × P} {a : LocalAct P}
    (h : localStep p s a = some t) (hrolls : t.1.rollsBack = true) :
    s.1.rollsBack = true ∨ ∃ f e, s.1 = .flush f ∧ (p.flush s.2).1 = .error e := by
  obtain ⟨pc, w⟩ := s
  cases a with
  | begin keys =>
      cases pc with
      | idle =>
          obtain rfl := Option.some.inj h
          simp [startTick] at hrolls
      | _ => simp [localStep] at h
  | change w' =>
      obtain rfl := Option.some.inj h
      exact .inl hrolls
  | restart w' =>
      obtain rfl := Option.some.inj h
      cases hrolls
  | call reply =>
      cases pc with
      | idle => simp [localStep, Solo.step] at h
      | flush f =>
          obtain rfl := Option.some.inj h
          refine .inr ⟨f, ?_⟩
          cases hflush : p.flush w with
          | mk result w' =>
              cases result with
              | ok _ => simp [hflush, Frame.afterFlush, Pc.rollsBack] at hrolls
              | error e => exact ⟨e, rfl, rfl⟩
      | rollback f => exact .inl rfl
      | lock f key l c =>
          obtain rfl := Option.some.inj h
          cases hrolls
      | _ =>
          obtain rfl := Option.some.inj h
          simp at hrolls

/-- The calls of the engine keep the provider's state as it should be, as long as the records
that are applied are in `X`. -/
structure Upkeep (p : Provider P) (I : P → Prop) (X : Set Record) : Prop where
  locals : ∀ w, I w → I (p.locals w).2
  apply : ∀ w, I w → ∀ r ∈ X, I (p.apply r w).2
  flush : ∀ w, I w → I (p.flush w).2
  rollback : ∀ w, I w → ∀ keys, I (p.rollback keys w).2

theorem Upkeep.mono {p : Provider P} {I : P → Prop} {X Y : Set Record}
    (h : Upkeep p I X) (hle : Y ⊆ X) : Upkeep p I Y :=
  ⟨h.locals, fun w hw r hr => h.apply w hw r (hle hr), h.flush, h.rollback⟩

theorem Upkeep.step {p : Provider P} {I : P → Prop} {X : Set Record} (h : Upkeep p I X)
    {cl : ClusterKV K} {s t : Solo K P} (hstep : Solo.step cl p s = some t)
    (happlied : ∀ a ∈ appliedAt s.pc, a.2 ∈ X) (hs : I s.provider) : I t.provider := by
  obtain ⟨pc, cluster, world⟩ := s
  cases pc with
  | idle => simp [Solo.step] at hstep
  | apply f key best =>
      obtain rfl := Option.some.inj hstep
      exact h.apply world hs best (happlied (key, best) List.mem_cons_self)
  | flush f =>
      obtain rfl := Option.some.inj hstep
      exact h.flush world hs
  | rollback f =>
      obtain rfl := Option.some.inj hstep
      exact h.rollback world hs f.changed
  | _ =>
      obtain rfl := Option.some.inj hstep
      exact hs

theorem Upkeep.next {p : Provider P} {I : P → Prop} {X : Set Record} (h : Upkeep p I X)
    {s t : Pc × P} {a : LocalAct P} (hstep : localStep p s a = some t) (ha : a.Respects I)
    (happlied : ∀ c ∈ appliedAt s.1, c.2 ∈ X) (hs : I s.2) : I t.2 := by
  cases a with
  | begin keys =>
      obtain ⟨pc, w⟩ := s
      cases pc with
      | idle =>
          obtain rfl := Option.some.inj hstep
          exact h.locals w hs
      | _ => simp [localStep] at hstep
  | call reply =>
      obtain ⟨r, hr, rfl⟩ := Option.map_eq_some_iff.mp hstep
      exact h.step hr happlied hs
  | change w =>
      obtain rfl := Option.some.inj hstep
      exact ha
  | restart w =>
      obtain rfl := Option.some.inj hstep
      exact ha

end Lbsync.Engine
