import Lbsync.Engine.Tick
import Lbsync.Lib.Runs

/-!
# The tick as a machine

Between any two calls of a tick other nodes may act. The machine stops before
every call; its control point holds the variables of the source that are still
live there. Each `after` function continues with the reply of one call up to the
next one. Run alone against a cluster and a provider, the machine ends exactly
where `tickProvider` ends.
-/

namespace Lbsync.Engine

/-- The variables of the loop: the local records, the keys still to visit and the
keys changed so far. -/
structure Frame where
  localByKey : LocalMap
  rest : List GoString
  changed : List GoString

/-- The call a tick is about to make. `l` is the local record, `c` the record of
the first read, `locked` whether the lock was acquired. -/
inductive Pc where
  | idle
  | get (f : Frame) (key : GoString)
  | lock (f : Frame) (key : GoString) (l : Record) (c : Option Record)
  | recheck (f : Frame) (key : GoString) (l : Record) (c : Option Record) (locked : Bool)
  | put (f : Frame) (key : GoString) (l : Record) (c : Option Record) (locked : Bool)
  | release (f : Frame) (key : GoString) (l : Record) (c : Option Record)
  | apply (f : Frame) (key : GoString) (best : Record)
  | flush (f : Frame)
  | rollback (f : Frame)

/-- Whether the lock was acquired. -/
def lockTaken : Except Err Unit → Bool
  | .ok _ => true
  | .error _ => false

namespace Frame

/-- Go to the next key, or to the hook when there is none left. -/
def next (f : Frame) : Pc :=
  match f.rest with
  | [] => if f.changed = [] then .idle else .flush f
  | key :: rest => .get { f with rest := rest } key

/-- `maybePublish` has returned: apply the winner of the local record and the
first read. -/
def decided (f : Frame) (key : GoString) (c : Option Record) : Pc :=
  match pickNewer (f.localByKey.lookup key) c with
  | none => f.next
  | some best => .apply f key best

/-- The first read has returned `c`. -/
def afterGet (f : Frame) (key : GoString) (c : Option Record) : Pc :=
  match f.localByKey.lookup key with
  | none => f.decided key c
  | some l => if keeps l c then f.decided key c else .lock f key l c

/-- The write is over, or was not needed. -/
def afterPut (f : Frame) (key : GoString) (l : Record) (c : Option Record) (locked : Bool) : Pc :=
  if locked then .release f key l c else f.decided key c

/-- The re-check read has returned `cur`. -/
def afterRecheck (f : Frame) (key : GoString) (l : Record) (c : Option Record) (locked : Bool)
    (cur : Option Record) : Pc :=
  if keeps l cur then f.afterPut key l c locked else .put f key l c locked

/-- `Apply` has returned. -/
def afterApply (f : Frame) (key : GoString) : Except Err Bool → Pc
  | .ok true => next { f with changed := f.changed ++ [key] }
  | .ok false => f.next
  | .error _ => f.next

/-- `Flush` has returned. -/
def afterFlush (f : Frame) : Except Err Unit → Pc
  | .ok _ => .idle
  | .error _ => .rollback f

end Frame

/-- A tick with the given local records and keys. -/
def startTick (localByKey : LocalMap) (keys : List GoString) : Pc :=
  Frame.next ⟨localByKey, keys, []⟩

/-- Whether no tick is in progress. -/
def isIdle : Pc → Bool
  | .idle => true
  | _ => false

theorem isIdle_iff {pc : Pc} : isIdle pc = true ↔ pc = .idle := by
  cases pc <;> simp [isIdle]

/-- The call to `Apply` a tick is about to make. -/
def appliedAt : Pc → List (GoString × Record)
  | .apply _ key best => [(key, best)]
  | _ => []

theorem appliedAt_pairwise (pc : Pc) (R : GoString × Record → GoString × Record → Prop) :
    (appliedAt pc).Pairwise R := by
  cases pc <;> simp [appliedAt]

/-- The local records of the tick. -/
def localsAt : Pc → Option LocalMap
  | .idle => none
  | .get f _ => some f.localByKey
  | .lock f _ _ _ => some f.localByKey
  | .recheck f _ _ _ _ => some f.localByKey
  | .put f _ _ _ _ => some f.localByKey
  | .release f _ _ _ => some f.localByKey
  | .apply f _ _ => some f.localByKey
  | .flush f => some f.localByKey
  | .rollback f => some f.localByKey

/-- The record being published is the local record of the key. -/
def OwnRecord : Pc → Prop
  | .lock f key l _ => f.localByKey.lookup key = some l
  | .recheck f key l _ _ => f.localByKey.lookup key = some l
  | .put f key l _ _ => f.localByKey.lookup key = some l
  | .release f key l _ => f.localByKey.lookup key = some l
  | _ => True

/-- The tick keeps its local records and publishes nothing else. -/
def KeepsLocals (f : Frame) (pc : Pc) : Prop :=
  (∀ m, localsAt pc = some m → m = f.localByKey) ∧ OwnRecord pc

theorem KeepsLocals.of_locals {f : Frame} {pc pc' : Pc} (h : KeepsLocals f pc')
    (hf : localsAt pc = some f.localByKey) :
    OwnRecord pc' ∧ ∀ m, localsAt pc' = some m → localsAt pc = some m :=
  ⟨h.2, fun m hm => by rw [hf, h.1 m hm]⟩

namespace Frame

variable (f : Frame) (key : GoString)

theorem keepsLocals_next : KeepsLocals f f.next := by
  unfold next
  cases f.rest with
  | nil => by_cases hchanged : f.changed = [] <;> simp [hchanged, KeepsLocals, localsAt, OwnRecord]
  | cons k rest => simp [KeepsLocals, localsAt, OwnRecord]

theorem keepsLocals_decided (c : Option Record) : KeepsLocals f (f.decided key c) := by
  unfold decided
  cases pickNewer (f.localByKey.lookup key) c with
  | none => exact f.keepsLocals_next
  | some best => simp [KeepsLocals, localsAt, OwnRecord]

theorem keepsLocals_afterGet (c : Option Record) : KeepsLocals f (f.afterGet key c) := by
  unfold afterGet
  cases hl : f.localByKey.lookup key with
  | none => exact f.keepsLocals_decided key c
  | some l =>
      by_cases hkeep : keeps l c = true
      · simpa [hkeep] using f.keepsLocals_decided key c
      · simp [hkeep, KeepsLocals, localsAt, OwnRecord, hl]

theorem keepsLocals_afterPut {l : Record} (hl : f.localByKey.lookup key = some l)
    (c : Option Record) (locked : Bool) : KeepsLocals f (f.afterPut key l c locked) := by
  cases locked with
  | false => exact f.keepsLocals_decided key c
  | true => simp [afterPut, KeepsLocals, localsAt, OwnRecord, hl]

theorem keepsLocals_afterRecheck {l : Record} (hl : f.localByKey.lookup key = some l)
    (c : Option Record) (locked : Bool) (cur : Option Record) :
    KeepsLocals f (f.afterRecheck key l c locked cur) := by
  unfold afterRecheck
  by_cases hkeep : keeps l cur = true
  · simpa [hkeep] using f.keepsLocals_afterPut key hl c locked
  · simp [hkeep, KeepsLocals, localsAt, OwnRecord, hl]

theorem keepsLocals_afterApply (res : Except Err Bool) : KeepsLocals f (f.afterApply key res) := by
  cases res with
  | error e => exact f.keepsLocals_next
  | ok b =>
      cases b with
      | false => exact f.keepsLocals_next
      | true => exact keepsLocals_next { f with changed := f.changed ++ [key] }

theorem keepsLocals_afterFlush (res : Except Err Unit) : KeepsLocals f (f.afterFlush res) := by
  cases res <;> simp [afterFlush, KeepsLocals, localsAt, OwnRecord]

end Frame

/-- The key a tick has re-checked or is re-checking. -/
def checkKey : Pc → Option GoString
  | .recheck _ key _ _ _ => some key
  | .put _ key _ _ _ => some key
  | _ => none

section CheckKey

variable (f : Frame) (key : GoString) (l : Record) (c : Option Record)

@[simp] theorem checkKey_next : checkKey f.next = none := by
  unfold Frame.next
  cases f.rest with
  | nil => by_cases hchanged : f.changed = [] <;> simp [hchanged, checkKey]
  | cons k rest => rfl

@[simp] theorem checkKey_decided : checkKey (f.decided key c) = none := by
  unfold Frame.decided
  cases pickNewer (f.localByKey.lookup key) c with
  | none => exact checkKey_next f
  | some best => rfl

@[simp] theorem checkKey_afterGet : checkKey (f.afterGet key c) = none := by
  unfold Frame.afterGet
  cases f.localByKey.lookup key with
  | none => exact checkKey_decided f key c
  | some l =>
      by_cases hkeep : keeps l c = true
      · simp [hkeep]
      · simp [hkeep, checkKey]

@[simp] theorem checkKey_afterPut (locked : Bool) :
    checkKey (f.afterPut key l c locked) = none := by
  cases locked with
  | false => exact checkKey_decided f key c
  | true => rfl

@[simp] theorem checkKey_afterApply (res : Except Err Bool) :
    checkKey (f.afterApply key res) = none := by
  cases res with
  | error e => exact checkKey_next f
  | ok b => cases b <;> exact checkKey_next _

@[simp] theorem checkKey_afterFlush (res : Except Err Unit) :
    checkKey (f.afterFlush res) = none := by
  cases res <;> rfl

theorem eq_of_checkKey_afterRecheck {f : Frame} {key k : GoString} {l : Record}
    {c cur : Option Record} {locked : Bool}
    (h : checkKey (f.afterRecheck key l c locked cur) = some k) : k = key := by
  unfold Frame.afterRecheck at h
  by_cases hkeep : keeps l cur = true
  · simp [hkeep] at h
  · simpa [hkeep, checkKey, eq_comm] using h

end CheckKey

variable {K P : Type*} (cl : ClusterKV K) (p : Provider P)

/-- A machine alone with its cluster and its provider. -/
structure Solo (K P : Type*) where
  pc : Pc
  cluster : K
  provider : P

/-- Make the next call and continue with its reply. -/
def Solo.step (s : Solo K P) : Option (Solo K P) :=
  match s.pc with
  | .idle => none
  | .get f key =>
      let r := cl.get p.kind key s.cluster
      some ⟨f.afterGet key (gotRecord r.1), r.2, s.provider⟩
  | .lock f key l c =>
      let r := cl.lock p.kind key s.cluster
      some ⟨.recheck f key l c (lockTaken r.1), r.2, s.provider⟩
  | .recheck f key l c locked =>
      let r := cl.get p.kind key s.cluster
      some ⟨f.afterRecheck key l c locked (gotRecord r.1), r.2, s.provider⟩
  | .put f key l c locked =>
      let r := cl.put l s.cluster
      some ⟨f.afterPut key l c locked, r.2, s.provider⟩
  | .release f key _ c =>
      some ⟨f.decided key c, cl.release p.kind key s.cluster, s.provider⟩
  | .apply f key best =>
      let r := p.apply best s.provider
      some ⟨f.afterApply key r.1, s.cluster, r.2⟩
  | .flush f =>
      let r := p.flush s.provider
      some ⟨f.afterFlush r.1, s.cluster, r.2⟩
  | .rollback f => some ⟨.idle, s.cluster, (p.rollback f.changed s.provider).2⟩

/-- The machine runs alone from one state to another. -/
def Solo.Reaches (s t : Solo K P) : Prop :=
  Runs.Run (fun s (_ : Unit) => Solo.step cl p s) (fun _ _ => True) s t

variable {cl p}

theorem Solo.Reaches.refl (s : Solo K P) : Solo.Reaches cl p s s := Runs.Run.refl s

theorem Solo.Reaches.trans {s t u : Solo K P} (h₁ : Solo.Reaches cl p s t)
    (h₂ : Solo.Reaches cl p t u) : Solo.Reaches cl p s u := Runs.Run.trans h₁ h₂

theorem Solo.Reaches.of_step {s t : Solo K P} (h : Solo.step cl p s = some t) :
    Solo.Reaches cl p s t := (Runs.Run.refl s).tail (a := ()) trivial h

/-- Once `maybePublish` has returned, the winner is applied and the next key is due. -/
theorem reaches_decided (f : Frame) (key : GoString) (c : Option Record) (s : K) (w : P) :
    let applied := (bestCall key (f.localByKey.lookup key) c).foldl (applyCall p) (w, f.changed)
    Solo.Reaches cl p ⟨f.decided key c, s, w⟩
      ⟨Frame.next { f with changed := applied.2 }, s, applied.1⟩ := by
  unfold Frame.decided bestCall
  cases hbest : pickNewer (f.localByKey.lookup key) c with
  | none => exact Solo.Reaches.refl _
  | some best =>
      apply Solo.Reaches.of_step
      simp only [Solo.step, Option.map_some, Option.toList_some, List.foldl_cons, List.foldl_nil,
        applyCall]
      rcases p.apply best w with ⟨res, w'⟩
      cases res with
      | error e => rfl
      | ok b => cases b <;> rfl

/-- From the first read on, the machine does what `maybePublish` does. -/
theorem reaches_published (f : Frame) (key : GoString) (c : Option Record) (s : K) (w : P) :
    Solo.Reaches cl p ⟨f.afterGet key c, s, w⟩
      ⟨f.decided key c, maybePublish cl p.kind key (f.localByKey.lookup key) c s, w⟩ := by
  unfold Frame.afterGet maybePublish
  cases hl : f.localByKey.lookup key with
  | none => exact Solo.Reaches.refl _
  | some l =>
      by_cases hkeep : keeps l c = true
      · simp only [hkeep, if_true]
        exact Solo.Reaches.refl _
      · simp only [hkeep, if_false, Bool.false_eq_true]
        rcases hlock : cl.lock p.kind key s with ⟨lockRes, s₁⟩
        rcases hget : cl.get p.kind key s₁ with ⟨getRes, s₂⟩
        have h₁ : Solo.Reaches cl p ⟨.lock f key l c, s, w⟩
            ⟨.recheck f key l c (lockTaken lockRes), s₁, w⟩ := by
          apply Solo.Reaches.of_step
          simp only [Solo.step, hlock]
        have h₂ (locked : Bool) : Solo.Reaches cl p ⟨.recheck f key l c locked, s₁, w⟩
            ⟨f.afterRecheck key l c locked (gotRecord getRes), s₂, w⟩ := by
          apply Solo.Reaches.of_step
          simp only [Solo.step, hget]
        have h₃ (locked : Bool) : Solo.Reaches cl p
            ⟨f.afterRecheck key l c locked (gotRecord getRes), s₂, w⟩
            ⟨f.afterPut key l c locked,
              if keeps l (gotRecord getRes) then s₂ else (cl.put l s₂).2, w⟩ := by
          unfold Frame.afterRecheck
          split_ifs
          · exact Solo.Reaches.refl _
          · exact Solo.Reaches.of_step rfl
        refine h₁.trans ((h₂ _).trans ((h₃ _).trans ?_))
        cases lockRes with
        | ok u => exact Solo.Reaches.of_step rfl
        | error e => exact Solo.Reaches.refl _

/-- The machine visits one key as the body of the loop does. -/
theorem reaches_visit (m : LocalMap) (rest : List GoString) (key : GoString)
    (st : TickState K P) :
    Solo.Reaches cl p ⟨Frame.next ⟨m, key :: rest, st.changed⟩, st.cluster, st.provider⟩
      ⟨Frame.next ⟨m, rest, (processKey cl p m st key).changed⟩,
        (processKey cl p m st key).cluster, (processKey cl p m st key).provider⟩ := by
  let f : Frame := ⟨m, rest, st.changed⟩
  have hget : Solo.Reaches cl p ⟨.get f key, st.cluster, st.provider⟩
      ⟨f.afterGet key (gotRecord (cl.get p.kind key st.cluster).1),
        (cl.get p.kind key st.cluster).2, st.provider⟩ := Solo.Reaches.of_step rfl
  exact hget.trans ((reaches_published f key _ _ _).trans (reaches_decided f key _ _ _))

theorem reaches_loop (m : LocalMap) (keys : List GoString) (st : TickState K P) :
    Solo.Reaches cl p ⟨Frame.next ⟨m, keys, st.changed⟩, st.cluster, st.provider⟩
      ⟨Frame.next ⟨m, [], (keys.foldl (processKey cl p m) st).changed⟩,
        (keys.foldl (processKey cl p m) st).cluster,
        (keys.foldl (processKey cl p m) st).provider⟩ := by
  induction keys generalizing st with
  | nil => exact Solo.Reaches.refl _
  | cons key keys ih => exact (reaches_visit m keys key st).trans (ih _)

/-- After the last key the machine runs the hook as the source does. -/
theorem reaches_finish (m : LocalMap) (changed : List GoString) (s : K) (w : P) :
    Solo.Reaches cl p ⟨Frame.next ⟨m, [], changed⟩, s, w⟩
      ⟨.idle, s, finishTick p changed w⟩ := by
  unfold Frame.next finishTick
  by_cases hchanged : changed = []
  · simp only [hchanged, if_true]
    exact Solo.Reaches.refl _
  · simp only [hchanged, if_false]
    rcases hflush : p.flush w with ⟨res, w'⟩
    have hstep : Solo.Reaches cl p ⟨.flush ⟨m, [], changed⟩, s, w⟩
        ⟨Frame.afterFlush ⟨m, [], changed⟩ res, s, w'⟩ := by
      apply Solo.Reaches.of_step
      simp only [Solo.step, hflush]
    cases res with
    | ok u => exact hstep
    | error e => exact hstep.trans (Solo.Reaches.of_step rfl)

/-- Run alone, the machine takes a tick to the end of `tickProvider`. -/
theorem reaches_tickProvider (ord : MapOrder) (s : K) (w : P) :
    Solo.Reaches cl p
      ⟨startTick (localMap (p.locals w).1)
        (unionKeys ord (localMap (p.locals w).1) (cl.keys p.kind s).1),
        (cl.keys p.kind s).2, (p.locals w).2⟩
      ⟨.idle, (tickProvider cl p ord s w).1, (tickProvider cl p ord s w).2⟩ :=
  (reaches_loop _ _ ⟨_, _, [], []⟩).trans (reaches_finish _ _ _ _)

end Lbsync.Engine
