import Lbsync.Engine.Record
import Mathlib.Logic.Function.Basic

/-!
# An Olric DMap

One DMap is a single linearizable map from names to values. A value is a
gob-encoded record, a gob-encoded list of strings, or the token of a lock; gob
decoding undoes encoding and refuses a value of another type. A lock is an
insert-if-absent of a token under the lock's own name, and unlocking deletes the
entry only while it still holds that token.

Every call may fail. The list of coming failures is part of the state, so a
result about every state covers every pattern of failures.
-/

namespace Lbsync.Olric

open Engine

/-- What a DMap stores under a name. -/
inductive Value (T : Type*) where
  | record (r : Record)
  | strings (l : List GoString)
  | token (t : T)
  deriving DecidableEq

variable {T : Type*}

/-- Decode a stored value as a record. -/
def decodeRecord : Value T → Option Record
  | .record r => some r
  | .strings _ => none
  | .token _ => none

/-- Decode a stored value as a list of strings. -/
def decodeStrings : Value T → Option (List GoString)
  | .strings l => some l
  | .record _ => none
  | .token _ => none

/-- The errors of the DMap client the facade distinguishes. -/
inductive DMapErr where
  | keyNotFound | lockNotAcquired | noSuchLock | unavailable
  deriving DecidableEq, Repr

/-- The entries of a DMap and, in order, whether each coming call fails. -/
structure DMap (T : Type*) where
  entries : GoString → Option (Value T)
  faults : List Bool

namespace DMap

/-- Whether the next call fails. -/
def fails (dm : DMap T) : Bool := dm.faults.headD false

/-- The state after a call that changes no entry. -/
def next (dm : DMap T) : DMap T := { dm with faults := dm.faults.tail }

/-- The state after a call that replaces one entry. -/
def write (dm : DMap T) (name : GoString) (v : Option (Value T)) : DMap T :=
  { entries := Function.update dm.entries name v, faults := dm.faults.tail }

@[simp] theorem next_entries (dm : DMap T) : dm.next.entries = dm.entries := rfl

@[simp] theorem write_entries (dm : DMap T) (name : GoString) (v : Option (Value T)) :
    (dm.write name v).entries = Function.update dm.entries name v := rfl

/-- Read an entry. -/
def get (dm : DMap T) (name : GoString) : Except DMapErr (Value T) × DMap T :=
  if dm.fails then (.error .unavailable, dm.next)
  else
    match dm.entries name with
    | some v => (.ok v, dm.next)
    | none => (.error .keyNotFound, dm.next)

/-- Write an entry. -/
def put (dm : DMap T) (name : GoString) (v : Value T) : Except DMapErr Unit × DMap T :=
  if dm.fails then (.error .unavailable, dm.next) else (.ok (), dm.write name (some v))

/-- Insert a token if the name is free. -/
def lockWithTimeout (dm : DMap T) (name : GoString) (t : T) : Except DMapErr Unit × DMap T :=
  if dm.fails then (.error .unavailable, dm.next)
  else
    match dm.entries name with
    | some _ => (.error .lockNotAcquired, dm.next)
    | none => (.ok (), dm.write name (some (.token t)))

/-- Delete the entry while it holds the token. -/
def unlock [DecidableEq T] (dm : DMap T) (name : GoString) (t : T) :
    Except DMapErr Unit × DMap T :=
  if dm.fails then (.error .unavailable, dm.next)
  else if dm.entries name = some (.token t) then (.ok (), dm.write name none)
  else (.error .noSuchLock, dm.next)

/-- Reading changes no entry. -/
theorem get_entries (dm : DMap T) (name : GoString) : (dm.get name).2.entries = dm.entries := by
  unfold get
  split_ifs
  · rfl
  · cases dm.entries name <;> rfl

theorem get_ok {dm dm' : DMap T} {name : GoString} {v : Value T}
    (h : dm.get name = (.ok v, dm')) : dm.entries name = some v := by
  unfold get at h
  split_ifs at h
  · simp at h
  · cases he : dm.entries name with
    | none => simp [he] at h
    | some u =>
        have huv : u = v := by simpa [he] using congrArg Prod.fst h
        rw [huv]

theorem get_keyNotFound {dm dm' : DMap T} {name : GoString}
    (h : dm.get name = (.error .keyNotFound, dm')) : dm.entries name = none := by
  unfold get at h
  split_ifs at h
  · simp at h
  · cases he : dm.entries name with
    | none => rfl
    | some u => simp [he] at h

theorem put_ok {dm dm' : DMap T} {name : GoString} {v : Value T}
    (h : dm.put name v = (.ok (), dm')) :
    dm'.entries = Function.update dm.entries name (some v) := by
  unfold put at h
  split_ifs at h
  · simp at h
  · rw [← (Prod.mk.inj h).2]
    rfl

/-- A lock is acquired on a free name only, and leaves its token there. -/
theorem lock_ok {dm dm' : DMap T} {name : GoString} {t : T}
    (h : dm.lockWithTimeout name t = (.ok (), dm')) :
    dm.entries name = none ∧ dm'.entries = Function.update dm.entries name (some (.token t)) := by
  unfold lockWithTimeout at h
  split_ifs at h
  · simp at h
  · cases he : dm.entries name with
    | some v => simp [he] at h
    | none =>
        simp only [he, Prod.mk.injEq, true_and] at h
        exact ⟨rfl, by rw [← h]; rfl⟩

/-- A refused lock changes no entry. -/
theorem lock_error {dm dm' : DMap T} {name : GoString} {t : T} {e : DMapErr}
    (h : dm.lockWithTimeout name t = (.error e, dm')) : dm'.entries = dm.entries := by
  unfold lockWithTimeout at h
  split_ifs at h
  · rw [← (Prod.mk.inj h).2]
    rfl
  · cases he : dm.entries name with
    | some v =>
        simp only [he, Prod.mk.injEq] at h
        rw [← h.2]
        rfl
    | none => simp [he] at h

/-- A lock that is unlocked was held, and its name is free again. -/
theorem unlock_ok [DecidableEq T] {dm dm' : DMap T} {name : GoString} {t : T}
    (h : dm.unlock name t = (.ok (), dm')) :
    dm.entries name = some (.token t) ∧ dm'.entries = Function.update dm.entries name none := by
  unfold unlock at h
  split_ifs at h with hfail htoken
  · simp at h
  · exact ⟨htoken, by rw [← (Prod.mk.inj h).2]; rfl⟩
  · simp at h

/-- Unlocking removes at most the caller's own token. -/
theorem unlock_entries [DecidableEq T] (dm : DMap T) (name : GoString) (t : T) :
    (dm.unlock name t).2.entries = dm.entries ∨
      dm.entries name = some (.token t) ∧
        (dm.unlock name t).2.entries = Function.update dm.entries name none := by
  unfold unlock
  split_ifs with hfail htoken
  · exact Or.inl rfl
  · exact Or.inr ⟨htoken, rfl⟩
  · exact Or.inl rfl

end DMap

end Lbsync.Olric
