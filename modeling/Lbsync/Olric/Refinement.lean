import Lbsync.Lib.Runs
import Lbsync.Engine.Gather
import Lbsync.Olric.Facade

/-!
# The facade as a map with a key set

Records, the index, the index lock and the locks of the keys share the names of one
DMap. Seen from outside, a sequence of calls without errors acts on a map from keys to
records and on a set of held locks. A record under the name of a lock is the one thing
that shows: the lock can then no longer be taken.
-/

namespace Lbsync.Olric

open Engine

variable {T : Type*} [DecidableEq T]

/-- One call to the facade, by a client whose locks carry the token `t`. -/
inductive Call (T : Type*) where
  | put (t : T) (r : Record)
  | get (key : GoString)
  | keys
  | lock (t : T) (key : GoString)
  | release (t : T) (key : GoString)

omit [DecidableEq T] in
/-- The state after a call that succeeded. -/
def afterOk {α : Type*} : Except Err α × DMap T → Option (DMap T)
  | (.ok _, dm) => some dm
  | (.error _, _) => none

/-- The state after a call; none when the call fails. -/
def Call.run (dm : DMap T) : Call T → Option (DMap T)
  | .put t r => afterOk (putIn t r dm)
  | .get key => afterOk (getIn key dm)
  | .keys => afterOk (readIndex dm)
  | .lock t key => afterOk (lockIn t key dm)
  | .release t key => if dm.fails then none else some (releaseIn t key dm)

/-- The DMap of a kind before the first call. -/
def emptyDMap (faults : List Bool) : DMap T := ⟨fun _ => none, faults⟩

/-- What a client can know without the DMap: the record last put under each key, and who holds
the lock of a key. -/
structure MapState (T : Type*) where
  records : GoString → Option Record
  held : GoString → Option T

namespace MapState

/-- Nothing was put and no lock is held. -/
def empty : MapState T := ⟨fun _ => none, fun _ => none⟩

/-- What a call means. -/
def after (m : MapState T) : Call T → MapState T
  | .put _ r => { m with records := Function.update m.records r.key (some r) }
  | .get _ => m
  | .keys => m
  | .lock t key => { m with held := Function.update m.held key (some t) }
  | .release t key =>
      if m.held key = some t then { m with held := Function.update m.held key none } else m

/-- What a sequence of calls means. -/
def ofCalls (calls : List (Call T)) : MapState T := calls.foldl after empty

end MapState

omit [DecidableEq T] in
theorem afterOk_eq_some {α : Type*} {res : Except Err α × DMap T} {dm : DMap T}
    (h : afterOk res = some dm) : ∃ a, res = (.ok a, dm) := by
  obtain ⟨_ | a, dm'⟩ := res
  · cases h
  · obtain rfl := Option.some.inj h
    exact ⟨a, rfl⟩

section Frame

variable {t : T} {key name : GoString} {dm : DMap T}

omit [DecidableEq T] in
theorem entries_of_stored {r : Record} (h : dm.stored key = some r) :
    dm.entries key = some (.record r) := by
  obtain ⟨v, hv, hr⟩ := Option.bind_eq_some_iff.mp h
  cases v with
  | record r' =>
      obtain rfl : r' = r := Option.some.inj hr
      exact hv
  | strings l => cases hr
  | token u => cases hr

omit [DecidableEq T] in
theorem appendToIndex_frame {dm' : DMap T} (h : appendToIndex key dm = (.ok (), dm'))
    (hname : name ≠ indexKey) : dm'.entries name = dm.entries name := by
  obtain ⟨keys, -, ⟨-, he⟩ | ⟨-, he⟩⟩ := appendToIndex_ok h
  · rw [he]
  · rw [he, Function.update_of_ne hname]

/-- Updating the index touches its own name and that of its lock. -/
theorem addToIndex_frame {dm' : DMap T} (h : addToIndex t key dm = (.ok (), dm'))
    (hname : name ≠ indexKey) (hlockName : name ≠ indexLockKey) :
    dm'.entries name = dm.entries name := by
  unfold addToIndex at h
  rcases hlock : dm.lockWithTimeout indexLockKey t with ⟨_ | u, dm₁⟩
  · simp only [hlock] at h
    rw [appendToIndex_frame h hname, DMap.lock_error hlock]
  · obtain ⟨-, he⟩ := DMap.lock_ok hlock
    rcases happ : appendToIndex key dm₁ with ⟨res, dm₂⟩
    simp only [hlock, happ, Prod.mk.injEq] at h
    obtain ⟨rfl, rfl⟩ := h
    have hsame : dm₂.entries name = dm.entries name := by
      rw [appendToIndex_frame happ hname, he, Function.update_of_ne hlockName]
    rcases dm₂.unlock_entries indexLockKey t with hu | ⟨-, hu⟩
    · rw [hu, hsame]
    · rw [hu, Function.update_of_ne hlockName, hsame]

/-- `Put` touches its key, the index and the index lock. -/
theorem putIn_frame {r : Record} {dm' : DMap T} (h : putIn t r dm = (.ok (), dm'))
    (hkey : name ≠ r.key) (hname : name ≠ indexKey) (hlockName : name ≠ indexLockKey) :
    dm'.entries name = dm.entries name := by
  unfold putIn at h
  rcases hput : dm.put r.key (.record r) with ⟨_ | u, dm₁⟩
  · simp [hput] at h
  · simp only [hput] at h
    rw [addToIndex_frame h hname hlockName, DMap.put_ok hput, Function.update_of_ne hkey]

end Frame

/-- The DMap holds what the map says. A name that holds neither a record nor a lock is free,
unless it is one of the index. -/
structure Represents (dm : DMap T) (m : MapState T) : Prop where
  stored : ∀ k, dm.stored k = m.records k
  index : ∃ keys, dm.indexed = some keys ∧ keys.Nodup ∧ ∀ k, k ∈ keys ↔ (m.records k).isSome
  locked : ∀ k t, m.held k = some t → m.records (lockName k) = none →
    dm.entries (lockName k) = some (.token t)
  free : ∀ name, m.records name = none → name ≠ indexKey → name ≠ indexLockKey →
    (∀ k, name = lockName k → m.held k = none) → dm.entries name = none

section Simulation

variable {dm dm' : DMap T} {m : MapState T}

omit [DecidableEq T] in
theorem represents_empty (faults : List Bool) :
    Represents (emptyDMap faults : DMap T) MapState.empty :=
  ⟨fun _ => rfl, ⟨[], rfl, List.nodup_nil, by simp [MapState.empty]⟩, by simp [MapState.empty],
    fun _ _ _ _ _ => rfl⟩

omit [DecidableEq T] in
theorem Represents.congr (h : Represents dm m) (he : dm'.entries = dm.entries) :
    Represents dm' m where
  stored k := by rw [DMap.stored_congr he, h.stored]
  index := by rw [DMap.indexed_congr he]; exact h.index
  locked := by rw [he]; exact h.locked
  free := by rw [he]; exact h.free

theorem Represents.put {t : T} {r : Record} (h : Represents dm m)
    (hput : putIn t r dm = (.ok (), dm')) : Represents dm' (m.after (.put t r)) := by
  obtain ⟨⟨keys, hkeys, hkeys'⟩, hstored, -⟩ := putIn_ok hput
  obtain ⟨keys₀, hkeys₀, hnodup, hmem⟩ := h.index
  obtain rfl : keys = keys₀ := Option.some.inj (hkeys.symm.trans hkeys₀)
  refine ⟨fun k => ?_, ⟨_, hkeys', ?_, fun k => ?_⟩, fun k t' hheld hnone => ?_,
    fun name hnone hindex hlock hfree => ?_⟩
  · rw [hstored, h.stored]
    exact (Function.update_apply m.records r.key (some r) k).symm
  · split_ifs with hold
    · exact hnodup
    · rw [List.nodup_append]
      refine ⟨hnodup, List.nodup_singleton _, ?_⟩
      rintro a ha b hb rfl
      exact hold (List.mem_singleton.mp hb ▸ ha)
  · by_cases hk : k = r.key
    · subst hk
      by_cases hold : r.key ∈ keys <;> simp [MapState.after, hold]
    · by_cases hold : r.key ∈ keys <;> simp [MapState.after, hold, hk, hmem]
  · have hne : lockName k ≠ r.key := by
      intro heq
      simp [MapState.after, heq] at hnone
    rw [putIn_frame hput hne (lockName_ne_indexKey k) (lockName_ne_indexLockKey k)]
    apply h.locked k t' hheld
    simpa [MapState.after, hne] using hnone
  · have hne : name ≠ r.key := by
      intro heq
      simp [MapState.after, heq] at hnone
    rw [putIn_frame hput hne hindex hlock]
    apply h.free name _ hindex hlock hfree
    simpa [MapState.after, hne] using hnone

theorem Represents.lock {t : T} {key : GoString} (h : Represents dm m)
    (hlock : lockIn t key dm = (.ok (), dm')) : Represents dm' (m.after (.lock t key)) := by
  obtain ⟨hfree, htoken⟩ := lockIn_ok hlock
  refine ⟨fun k => ?_, ?_, fun k t' hheld hnone => ?_, fun name hnone hindex hilock hopen => ?_⟩
  · rw [DMap.stored_of_token_added hfree htoken]
    exact h.stored k
  · rw [DMap.indexed_of_update_ne (lockName_ne_indexKey key) htoken]
    exact h.index
  · by_cases hk : k = key
    · subst hk
      obtain rfl : t = t' := by simpa [MapState.after] using hheld
      rw [htoken, Function.update_self]
    · rw [htoken, Function.update_of_ne fun heq => hk (lockName_injective heq)]
      exact h.locked k t' (by simpa [MapState.after, hk] using hheld) hnone
  · have hne : name ≠ lockName key := by
      intro heq
      simpa [MapState.after] using hopen key heq
    rw [htoken, Function.update_of_ne hne]
    refine h.free name hnone hindex hilock fun k hk => ?_
    have hkey : k ≠ key := fun heq => hne (heq ▸ hk)
    simpa [MapState.after, hkey] using hopen k hk

omit [DecidableEq T] in
/-- A token under the name of a lock is the holder's. -/
theorem Represents.held_of_token {t : T} {key : GoString} (h : Represents dm m)
    (htoken : dm.entries (lockName key) = some (.token t)) : m.held key = some t := by
  have hnone : m.records (lockName key) = none := by
    rw [← h.stored, DMap.stored, htoken]
    rfl
  cases hheld : m.held key with
  | none =>
      have hfree := h.free (lockName key) hnone (lockName_ne_indexKey key)
        (lockName_ne_indexLockKey key) fun k hk => lockName_injective hk ▸ hheld
      rw [htoken] at hfree
      cases hfree
  | some u =>
      have hown := h.locked key u hheld hnone
      rw [htoken] at hown
      cases hown
      rfl

theorem Represents.release {t : T} {key : GoString} (h : Represents dm m)
    (hok : dm.fails = false) : Represents (releaseIn t key dm) (m.after (.release t key)) := by
  by_cases htoken : dm.entries (lockName key) = some (.token t)
  · have hheld := h.held_of_token htoken
    have hafter : m.after (.release t key) =
        { m with held := Function.update m.held key none } := if_pos hheld
    have he : (releaseIn t key dm).entries = Function.update dm.entries (lockName key) none := by
      simp [releaseIn, DMap.unlock, hok, htoken]
    rw [hafter]
    refine ⟨fun k => ?_, ?_, fun k t' hheld' hnone => ?_,
      fun name hnone hindex hilock hopen => ?_⟩
    · rw [DMap.stored_of_token_removed htoken he]
      exact h.stored k
    · rw [DMap.indexed_of_update_ne (lockName_ne_indexKey key) he]
      exact h.index
    · have hk : k ≠ key := by
        rintro rfl
        simp at hheld'
      rw [he, Function.update_of_ne fun heq => hk (lockName_injective heq)]
      exact h.locked k t' (by simpa [hk] using hheld') hnone
    · by_cases hname : name = lockName key
      · rw [he, hname, Function.update_self]
      · rw [he, Function.update_of_ne hname]
        refine h.free name hnone hindex hilock fun k hk => ?_
        have hkey : k ≠ key := fun heq => hname (heq ▸ hk)
        simpa [hkey] using hopen k hk
  · have he : (releaseIn t key dm).entries = dm.entries := by
      simp [releaseIn, DMap.unlock, hok, htoken]
    apply Represents.congr _ he
    by_cases hheld : m.held key = some t
    · -- a record was put over the token, so nothing is left to unlock
      have hrecord : m.records (lockName key) ≠ none := fun hnone =>
        htoken (h.locked key t hheld hnone)
      have hafter : m.after (.release t key) =
          { m with held := Function.update m.held key none } := if_pos hheld
      rw [hafter]
      refine ⟨h.stored, h.index, fun k t' hheld' hnone => ?_,
        fun name hnone hindex hilock hopen => ?_⟩
      · have hk : k ≠ key := by
          rintro rfl
          simp at hheld'
        exact h.locked k t' (by simpa [hk] using hheld') hnone
      · have hname : name ≠ lockName key := fun heq => hrecord (heq ▸ hnone)
        refine h.free name hnone hindex hilock fun k hk => ?_
        have hkey : k ≠ key := fun heq => hname (heq ▸ hk)
        simpa [hkey] using hopen k hk
    · have hafter : m.after (.release t key) = m := if_neg hheld
      rw [hafter]
      exact h

/-- Every call that succeeds keeps the representation. -/
theorem Represents.step {call : Call T} (h : Represents dm m) (hrun : call.run dm = some dm') :
    Represents dm' (m.after call) := by
  cases call with
  | put t r =>
      obtain ⟨u, hput⟩ := afterOk_eq_some hrun
      exact h.put hput
  | get key =>
      obtain ⟨o, hget⟩ := afterOk_eq_some hrun
      exact h.congr (getIn_ok hget).1
  | keys =>
      obtain ⟨keys, hread⟩ := afterOk_eq_some hrun
      exact h.congr (readIndex_ok hread).1
  | lock t key =>
      obtain ⟨u, hlock⟩ := afterOk_eq_some hrun
      exact h.lock hlock
  | release t key =>
      rw [Call.run] at hrun
      split_ifs at hrun with hfails
      obtain rfl := Option.some.inj hrun
      exact h.release (Bool.eq_false_iff.mpr hfails)

end Simulation

/-- The next call acts on the map: `Get` returns the record last put, unless the name belongs to
the index or to a held lock, `Keys` returns exactly the keys put so far, once each, and `Lock`
succeeds when nobody holds the lock. -/
structure ActsAsMap (dm : DMap T) (m : MapState T) : Prop where
  get_ok : ∀ k o, (getIn k dm).1 = .ok o → o = m.records k
  get : ∀ k, k ≠ indexKey → k ≠ indexLockKey → (∀ x, k = lockName x → m.held x = none) →
    (getIn k dm).1 = .ok (m.records k)
  keys : ∃ keys, (readIndex dm).1 = .ok keys ∧ keys.Nodup ∧
    ∀ k, k ∈ keys ↔ (m.records k).isSome
  lock : ∀ t k, m.held k = none → (lockIn t k dm).1 = .ok ()

section Refinement

variable {dm : DMap T} {m : MapState T}

omit [DecidableEq T] in
theorem lockIn_ok_iff {t : T} {k : GoString} (hok : dm.fails = false) :
    (lockIn t k dm).1 = .ok () ↔ dm.entries (lockName k) = none := by
  cases he : dm.entries (lockName k) with
  | none => simp [lockIn, DMap.lockWithTimeout, hok, he]
  | some v => simp [lockIn, DMap.lockWithTimeout, hok, he]

omit [DecidableEq T] in
theorem Represents.get (h : Represents dm m) (hok : dm.fails = false) {k : GoString}
    (hindex : k ≠ indexKey) (hilock : k ≠ indexLockKey)
    (hopen : ∀ x, k = lockName x → m.held x = none) : (getIn k dm).1 = .ok (m.records k) := by
  cases hr : m.records k with
  | none => simp [getIn, DMap.get, hok, h.free k hr hindex hilock hopen]
  | some r => exact getIn_of_stored ((h.stored k).trans hr) hok

omit [DecidableEq T] in
theorem Represents.keys (h : Represents dm m) (hok : dm.fails = false) :
    ∃ keys, (readIndex dm).1 = .ok keys ∧ keys.Nodup ∧ ∀ k, k ∈ keys ↔ (m.records k).isSome := by
  obtain ⟨keys, hkeys, hrest⟩ := h.index
  refine ⟨keys, ?_, hrest⟩
  unfold DMap.indexed at hkeys
  cases he : dm.entries indexKey with
  | none =>
      obtain rfl : [] = keys := by simpa [he] using hkeys
      simp [readIndex, DMap.get, hok, he]
  | some v =>
      have hv : decodeStrings v = some keys := by simpa [he] using hkeys
      simp [readIndex, DMap.get, hok, he, hv]

/-- After any sequence of calls without errors, the facade acts as the map the calls describe
exactly when no record was put under the name of a lock that is free. -/
theorem facade_acts_as_map_iff [Inhabited T] (faults : List Bool) (calls : List (Call T))
    (dm : DMap T) (hrun : calls.foldlM Call.run (emptyDMap faults) = some dm)
    (hok : dm.fails = false) :
    ActsAsMap dm (MapState.ofCalls calls) ↔
      ∀ k, (MapState.ofCalls calls).held k = none →
        (MapState.ofCalls calls).records (lockPrefix ++ k) = none := by
  have h : Represents dm (MapState.ofCalls calls) :=
    Runs.simulates (fun _ _ _ _ hrep hstep => hrep.step hstep) calls hrun (represents_empty faults)
  constructor
  · intro hacts k hheld
    have hfree : dm.entries (lockPrefix ++ k) = none :=
      (lockIn_ok_iff hok).mp (hacts.lock default k hheld)
    rw [← h.stored, DMap.stored, hfree]
    rfl
  · intro hunused
    refine ⟨fun k o ho => ?_, fun k => h.get hok, h.keys hok, fun t k hheld => ?_⟩
    · rw [← h.stored]
      exact (getIn_ok (Prod.ext ho rfl)).2.1
    · rw [lockIn_ok_iff hok]
      exact h.free (lockName k) (hunused k hheld) (lockName_ne_indexKey k)
        (lockName_ne_indexLockKey k) fun x hx => lockName_injective hx ▸ hheld

end Refinement

/-- A record put under its lock, as a tick does it. -/
def guardedPut : List (Call Unit) :=
  [.lock () (ascii "a"), .put () (sampleRecord 1), .release () (ascii "a"), .get (ascii "a"), .keys]

theorem guarded_put_acts_as_map :
    ∃ dm, guardedPut.foldlM Call.run (emptyDMap []) = some dm ∧
      ActsAsMap dm (MapState.ofCalls guardedPut) := by
  refine ⟨_, rfl, (facade_acts_as_map_iff [] guardedPut _ rfl rfl).mpr fun k _ => ?_⟩
  have hne : lockPrefix ++ k ≠ ascii "a" := lockName_ne (by decide) k
  have hrecords : (MapState.ofCalls guardedPut).records =
      Function.update (fun _ => none) (ascii "a") (some (sampleRecord 1)) := rfl
  rw [hrecords, Function.update_of_ne hne]

/-- A record whose key is the name of the lock of `a`. -/
def lockNamedRecord : Record := { sampleRecord 1 with key := ascii "__lbsync_lock__:a" }

/-- A record under the name of a lock: nobody holds the lock, and it cannot be taken. -/
theorem lock_named_record_blocks_lock :
    ∃ dm, [Call.put () lockNamedRecord].foldlM Call.run (emptyDMap []) = some dm ∧
      dm.fails = false ∧
      (MapState.ofCalls [Call.put () lockNamedRecord]).held (ascii "a") = none ∧
      (lockIn () (ascii "a") dm).1 = .error .lock ∧
      ¬ ActsAsMap dm (MapState.ofCalls [Call.put () lockNamedRecord]) := by
  refine ⟨_, rfl, rfl, rfl, by decide, fun h => ?_⟩
  have hlock := h.lock () (ascii "a") rfl
  revert hlock
  decide

end Lbsync.Olric
