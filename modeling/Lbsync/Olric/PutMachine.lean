import Lbsync.Lib.Runs
import Lbsync.Olric.Interleaving

/-!
# `Put` and `Keys` call by call

A client is about to make one call to the DMap: the data write, the index lock, the
index read, the index write or the unlock of a `Put`, or the read of `Keys`. Each
step continues with the reply, failures included. Run alone, a client ends its `Put`
where `putIn` ends. Together, the steps of all clients interleave freely with each
other and with the locks of the keys.
-/

namespace Lbsync.Olric

open Engine

variable {T : Type*} [DecidableEq T]

/-- The call a client is about to make. `locked` says whether the index lock was acquired. -/
inductive ClientPc where
  | idle
  | data (r : Record)
  | lock (key : GoString)
  | read (key : GoString) (locked : Bool)
  | write (key : GoString) (keys : List GoString) (locked : Bool)
  | unlock (key : GoString) (res : Except Err Unit)
  | keys

/-- The DMap, the next call, the keys of the `Put`s that returned without an error, and the
lists `Keys` returned. -/
structure Client (T : Type*) where
  dm : DMap T
  pc : ClientPc
  returned : List GoString
  answers : List (List GoString)

namespace Client

omit [DecidableEq T]

/-- `Put` returns. -/
def done (c : Client T) (key : GoString) : Except Err Unit → Client T
  | .ok _ => { c with pc := .idle, returned := key :: c.returned }
  | .error _ => { c with pc := .idle }

/-- `addToIndex` is over; the unlock is deferred to its end. -/
def leave (c : Client T) (key : GoString) (res : Except Err Unit) (locked : Bool) : Client T :=
  if locked then { c with pc := .unlock key res } else c.done key res

end Client

/-- Make the next call and continue with its reply. -/
def Client.step (t : T) (c : Client T) : Option (Client T) :=
  match c.pc with
  | .idle => none
  | .data r =>
      match c.dm.put r.key (.record r) with
      | (.error _, dm) => some (done { c with dm := dm } r.key (.error .put))
      | (.ok _, dm) => some { c with dm := dm, pc := .lock r.key }
  | .lock key =>
      match c.dm.lockWithTimeout indexLockKey t with
      | (.ok _, dm) => some { c with dm := dm, pc := .read key true }
      | (.error _, dm) => some { c with dm := dm, pc := .read key false }
  | .read key locked =>
      match readIndex c.dm with
      | (.error e, dm) => some (leave { c with dm := dm } key (.error e) locked)
      | (.ok keys, dm) =>
          if key ∈ keys then some (leave { c with dm := dm } key (.ok ()) locked)
          else some { c with dm := dm, pc := .write key keys locked }
  | .write key keys locked =>
      match c.dm.put indexKey (.strings (keys ++ [key])) with
      | (.ok _, dm) => some (leave { c with dm := dm } key (.ok ()) locked)
      | (.error _, dm) => some (leave { c with dm := dm } key (.error .putIndex) locked)
  | .unlock key res => some (done { c with dm := (c.dm.unlock indexLockKey t).2 } key res)
  | .keys =>
      match readIndex c.dm with
      | (.ok keys, dm) => some { c with dm := dm, pc := .idle, answers := keys :: c.answers }
      | (.error _, dm) => some { c with dm := dm, pc := .idle }

section Alone

variable {t : T} {returned : List GoString} {answers : List (List GoString)}

/-- The client runs while nobody else does. -/
def Client.Reaches (t : T) : Client T → Client T → Prop :=
  Runs.Run (fun c (_ : Unit) => Client.step t c) fun _ _ => True

theorem Client.Reaches.of_step {c c' : Client T} (h : Client.step t c = some c') :
    Client.Reaches t c c' := (Runs.Run.refl c).tail (a := ()) trivial h

/-- From the index read on, the client does what `appendToIndex` does. -/
theorem reaches_appendToIndex (key : GoString) (locked : Bool) (dm : DMap T) :
    Client.Reaches t ⟨dm, .read key locked, returned, answers⟩
      (Client.leave ⟨(appendToIndex key dm).2, .idle, returned, answers⟩ key
        (appendToIndex key dm).1 locked) := by
  unfold appendToIndex
  rcases hread : readIndex dm with ⟨_ | keys, dm₁⟩
  · apply Client.Reaches.of_step
    simp only [Client.step, hread]
    rfl
  · by_cases hmem : key ∈ keys
    · apply Client.Reaches.of_step
      simp only [Client.step, hread, if_pos hmem]
      rfl
    · have hstep : Client.Reaches t ⟨dm, .read key locked, returned, answers⟩
          ⟨dm₁, .write key keys locked, returned, answers⟩ := by
        apply Client.Reaches.of_step
        simp only [Client.step, hread, if_neg hmem]
      refine hstep.trans (Client.Reaches.of_step ?_)
      simp only [Client.step, if_neg hmem]
      rcases dm₁.put indexKey (.strings (keys ++ [key])) with ⟨_ | _, dm₂⟩ <;> rfl

/-- Alone, a client takes a `Put` to the end of `putIn`. -/
theorem reaches_putIn (r : Record) (dm : DMap T) :
    Client.Reaches t ⟨dm, .data r, returned, answers⟩
      (Client.done ⟨(putIn t r dm).2, .idle, returned, answers⟩ r.key (putIn t r dm).1) := by
  unfold putIn
  rcases hput : dm.put r.key (.record r) with ⟨_ | _, dm₁⟩
  · apply Client.Reaches.of_step
    simp only [Client.step, hput]
    rfl
  have hdata : Client.Reaches t ⟨dm, .data r, returned, answers⟩
      ⟨dm₁, .lock r.key, returned, answers⟩ := by
    apply Client.Reaches.of_step
    simp only [Client.step, hput]
  refine hdata.trans ?_
  unfold addToIndex
  rcases hlock : dm₁.lockWithTimeout indexLockKey t with ⟨_ | _, dm₂⟩
  · have hstep : Client.Reaches t ⟨dm₁, .lock r.key, returned, answers⟩
        ⟨dm₂, .read r.key false, returned, answers⟩ := by
      apply Client.Reaches.of_step
      simp only [Client.step, hlock]
    simp only [hlock]
    exact hstep.trans (reaches_appendToIndex r.key false dm₂)
  · have hstep : Client.Reaches t ⟨dm₁, .lock r.key, returned, answers⟩
        ⟨dm₂, .read r.key true, returned, answers⟩ := by
      apply Client.Reaches.of_step
      simp only [Client.step, hlock]
    simp only [hlock]
    exact (hstep.trans (reaches_appendToIndex r.key true dm₂)).trans (Client.Reaches.of_step rfl)

end Alone

variable {N : Type*} [DecidableEq N]

/-- The DMap of one kind and its clients. -/
structure Clients (N : Type*) where
  dm : DMap N
  pc : N → ClientPc
  returned : List GoString
  answers : List (List GoString)

/-- What can happen next: a client begins a `Put` or `Keys`, makes its next call, takes or
releases the lock of a key, or reads a record, or a lock expires. -/
inductive ClientAction (N : Type*) where
  | put (n : N) (r : Record)
  | keys (n : N)
  | call (n : N)
  | lock (n : N) (key : GoString)
  | release (n : N) (key : GoString)
  | get (key : GoString)
  | expire (name : GoString)

/-- One step of the system. -/
def Clients.step (s : Clients N) : ClientAction N → Option (Clients N)
  | .put n r =>
      match s.pc n with
      | .idle => some { s with pc := Function.update s.pc n (.data r) }
      | _ => none
  | .keys n =>
      match s.pc n with
      | .idle => some { s with pc := Function.update s.pc n .keys }
      | _ => none
  | .call n =>
      (Client.step n ⟨s.dm, s.pc n, s.returned, s.answers⟩).map fun c =>
        ⟨c.dm, Function.update s.pc n c.pc, c.returned, c.answers⟩
  | .lock n key => some { s with dm := (lockIn n key s.dm).2 }
  | .release n key => some { s with dm := releaseIn n key s.dm }
  | .get key => some { s with dm := (getIn key s.dm).2 }
  | .expire name => some { s with dm := s.dm.expire name }

/-- Whether the next call of a client succeeds. -/
def ClientPc.succeeds (n : N) (dm : DMap N) : ClientPc → Bool
  | .idle => true
  | .data r => (dm.put r.key (.record r)).1.isOk
  | .lock _ => (dm.lockWithTimeout indexLockKey n).1.isOk
  | .read _ _ => (readIndex dm).1.isOk
  | .write key known _ => (dm.put indexKey (.strings (known ++ [key]))).1.isOk
  | .unlock _ _ => (dm.unlock indexLockKey n).1.isOk
  | .keys => (readIndex dm).1.isOk

/-- A client holds the index lock. -/
def ClientPc.critical : ClientPc → Bool
  | .read _ locked => locked
  | .write _ _ locked => locked
  | .unlock _ _ => true
  | _ => false

/-- A key that is none of the reserved names. -/
def Ordinary (key : GoString) : Prop :=
  key ≠ indexKey ∧ key ≠ indexLockKey ∧ ¬ lockPrefix <+: key

instance (key : GoString) : Decidable (Ordinary key) := inferInstanceAs (Decidable (_ ∧ _ ∧ _))

/-- Keys are ordinary, every index lock is granted and does not expire while it is held, and no
call of a `Put` or `Keys` fails. -/
def Clients.Allowed (s : Clients N) : ClientAction N → Prop
  | .put _ r => Ordinary r.key
  | .call n => (s.pc n).succeeds n s.dm = true
  | .expire name => name = indexLockKey → ∀ n, (s.pc n).critical = false
  | _ => True

instance [Fintype N] (s : Clients N) (a : ClientAction N) : Decidable (s.Allowed a) :=
  match a with
  | .put _ r => inferInstanceAs (Decidable (Ordinary r.key))
  | .call n => inferInstanceAs (Decidable ((s.pc n).succeeds n s.dm = true))
  | .expire name => inferInstanceAs
      (Decidable (name = indexLockKey → ∀ n, (s.pc n).critical = false))
  | .keys _ => inferInstanceAs (Decidable True)
  | .lock _ _ => inferInstanceAs (Decidable True)
  | .release _ _ => inferInstanceAs (Decidable True)
  | .get _ => inferInstanceAs (Decidable True)

end Lbsync.Olric
