import Lbsync.Olric.DMap
import Lbsync.Engine.Tick

/-!
# The cluster facade

Each kind has its own DMap. Records, the key index, the index lock and the
per-key locks share the names of that DMap. `Put` writes the record first and
then adds the key to the index; both locks are best effort.
-/

namespace Lbsync.Olric

open Engine

/-- The name of the key index. -/
def indexKey : GoString := ascii "__lbsync_index__"

/-- The name of the lock that serializes index updates. -/
def indexLockKey : GoString := ascii "__lbsync_index_lock__"

/-- The prefix that separates lock entries from data keys. -/
def lockPrefix : GoString := ascii "__lbsync_lock__:"

/-- The name of the lock of a key. -/
def lockName (key : GoString) : GoString := lockPrefix ++ key

theorem lockName_injective : Function.Injective lockName :=
  fun _ _ h => List.append_cancel_left h

theorem indexKey_ne_indexLockKey : indexKey ≠ indexLockKey := by decide

variable {T : Type*} [DecidableEq T]

omit [DecidableEq T] in
/-- Read the key index. A missing index is empty. -/
def readIndex (dm : DMap T) : Except Err (List GoString) × DMap T :=
  match dm.get indexKey with
  | (.error .keyNotFound, dm) => (.ok [], dm)
  | (.error _, dm) => (.error .readIndex, dm)
  | (.ok v, dm) =>
      match decodeStrings v with
      | some keys => (.ok keys, dm)
      | none => (.error .decodeIndex, dm)

omit [DecidableEq T] in
/-- The read-modify-write of the index, without its lock. -/
def appendToIndex (key : GoString) (dm : DMap T) : Except Err Unit × DMap T :=
  match readIndex dm with
  | (.error e, dm) => (.error e, dm)
  | (.ok keys, dm) =>
      if key ∈ keys then (.ok (), dm)
      else
        match dm.put indexKey (.strings (keys ++ [key])) with
        | (.ok _, dm) => (.ok (), dm)
        | (.error _, dm) => (.error .putIndex, dm)

/-- Add a key to the index, under the index lock when it can be acquired. -/
def addToIndex (t : T) (key : GoString) (dm : DMap T) : Except Err Unit × DMap T :=
  match dm.lockWithTimeout indexLockKey t with
  | (.ok _, dm) =>
      let added := appendToIndex key dm
      (added.1, (added.2.unlock indexLockKey t).2)
  | (.error _, dm) => appendToIndex key dm

omit [DecidableEq T] in
/-- `Get` on the DMap of its kind. -/
def getIn (key : GoString) (dm : DMap T) : Except Err (Option Record) × DMap T :=
  match dm.get key with
  | (.error .keyNotFound, dm) => (.ok none, dm)
  | (.error _, dm) => (.error .get, dm)
  | (.ok v, dm) =>
      match decodeRecord v with
      | some r => (.ok (some r), dm)
      | none => (.error .decode, dm)

/-- `Put` on the DMap of its kind: the record, then the index. -/
def putIn (t : T) (r : Record) (dm : DMap T) : Except Err Unit × DMap T :=
  match dm.put r.key (.record r) with
  | (.error _, dm) => (.error .put, dm)
  | (.ok _, dm) => addToIndex t r.key dm

omit [DecidableEq T] in
/-- `Lock` on the DMap of its kind. -/
def lockIn (t : T) (key : GoString) (dm : DMap T) : Except Err Unit × DMap T :=
  match dm.lockWithTimeout (lockName key) t with
  | (.ok _, dm) => (.ok (), dm)
  | (.error _, dm) => (.error .lock, dm)

/-- The function `Lock` returns. -/
def releaseIn (t : T) (key : GoString) (dm : DMap T) : DMap T := (dm.unlock (lockName key) t).2

/-- The DMaps of all kinds, and whether opening the DMap of a kind succeeds. -/
structure Cluster (T : Type*) where
  dmaps : GoString → DMap T
  opens : GoString → Bool

omit [DecidableEq T] in
/-- Open the DMap of a kind and run one call on it. -/
def Cluster.onDMap {α : Type*} (c : Cluster T) (kind : GoString)
    (call : DMap T → Except Err α × DMap T) : Except Err α × Cluster T :=
  if c.opens kind then
    let r := call (c.dmaps kind)
    (r.1, { c with dmaps := Function.update c.dmaps kind r.2 })
  else (.error .newDMap, c)

/-- The facade as the engine sees it, for a client whose locks carry the token `t`. -/
def kv (t : T) : ClusterKV (Cluster T) where
  get kind key c := c.onDMap kind (getIn key)
  put r c := c.onDMap r.kind (putIn t r)
  keys kind c := c.onDMap kind readIndex
  lock kind key c := c.onDMap kind (lockIn t key)
  release kind key c := (c.onDMap kind fun dm => (.ok (), releaseIn t key dm)).2

namespace DMap

omit [DecidableEq T]

/-- The record a key holds. -/
def stored (dm : DMap T) (key : GoString) : Option Record := (dm.entries key).bind decodeRecord

/-- The keys of the index; none when the entry is not a list of keys. -/
def indexed (dm : DMap T) : Option (List GoString) :=
  match dm.entries indexKey with
  | none => some []
  | some v => decodeStrings v

theorem stored_congr {dm dm' : DMap T} (h : dm'.entries = dm.entries) : dm'.stored = dm.stored := by
  funext key
  rw [stored, stored, h]

theorem indexed_congr {dm dm' : DMap T} (h : dm'.entries = dm.entries) :
    dm'.indexed = dm.indexed := by
  rw [indexed, indexed, h]

/-- Putting a token on a free name changes no data. -/
theorem stored_of_token_added {dm dm' : DMap T} {name : GoString} {t : T}
    (hfree : dm.entries name = none)
    (h : dm'.entries = Function.update dm.entries name (some (.token t))) :
    dm'.stored = dm.stored := by
  funext key
  by_cases hk : key = name
  · subst hk
    simp [stored, h, hfree, decodeRecord]
  · simp [stored, h, hk]

/-- Removing a token changes no data. -/
theorem stored_of_token_removed {dm dm' : DMap T} {name : GoString} {t : T}
    (htoken : dm.entries name = some (.token t))
    (h : dm'.entries = Function.update dm.entries name none) : dm'.stored = dm.stored := by
  funext key
  by_cases hk : key = name
  · subst hk
    simp [stored, h, htoken, decodeRecord]
  · simp [stored, h, hk]

/-- A write under another name leaves the index alone. -/
theorem indexed_of_update_ne {dm dm' : DMap T} {name : GoString} {v : Option (Value T)}
    (hne : name ≠ indexKey) (h : dm'.entries = Function.update dm.entries name v) :
    dm'.indexed = dm.indexed := by
  simp [indexed, h, Function.update_of_ne (Ne.symm hne)]

end DMap

theorem lockName_ne {name : GoString} (h : ¬ lockPrefix <+: name) (key : GoString) :
    lockName key ≠ name :=
  fun heq => h (heq ▸ List.prefix_append lockPrefix key)

theorem lockName_ne_indexKey (key : GoString) : lockName key ≠ indexKey :=
  lockName_ne (by decide) key

theorem lockName_ne_indexLockKey (key : GoString) : lockName key ≠ indexLockKey :=
  lockName_ne (by decide) key

section Specs

variable {dm dm' : DMap T} {t : T} {key : GoString}

omit [DecidableEq T] in
/-- A successful `Get` changes no entry and returns the stored record. -/
theorem getIn_ok {o : Option Record} (h : getIn key dm = (.ok o, dm')) :
    dm'.entries = dm.entries ∧ o = dm.stored key ∧ (o = none → dm.entries key = none) := by
  have hsame := dm.get_entries key
  unfold getIn at h
  rcases hget : dm.get key with ⟨res, dm₁⟩
  rw [hget] at h hsame
  cases res with
  | error e =>
      cases e with
      | keyNotFound =>
          have hnone := DMap.get_keyNotFound hget
          simp only [Prod.mk.injEq, Except.ok.injEq] at h
          obtain ⟨rfl, rfl⟩ := h
          exact ⟨hsame, by simp [DMap.stored, hnone], fun _ => hnone⟩
      | lockNotAcquired => simp at h
      | noSuchLock => simp at h
      | unavailable => simp at h
  | ok v =>
      have hsome := DMap.get_ok hget
      cases v with
      | record r =>
          simp only [decodeRecord, Prod.mk.injEq, Except.ok.injEq] at h
          obtain ⟨rfl, rfl⟩ := h
          exact ⟨hsame, by simp [DMap.stored, hsome, decodeRecord], fun hn => nomatch hn⟩
      | strings l => simp [decodeRecord] at h
      | token u => simp [decodeRecord] at h

omit [DecidableEq T] in
/-- `Get` changes no entry, even when it fails. -/
theorem getIn_entries (key : GoString) (dm : DMap T) : (getIn key dm).2.entries = dm.entries := by
  have hsame := dm.get_entries key
  unfold getIn
  rcases hget : dm.get key with ⟨res, dm'⟩
  rw [hget] at hsame
  cases res with
  | error e => cases e <;> exact hsame
  | ok v => cases v <;> exact hsame

omit [DecidableEq T] in
/-- `Get` finds a stored record when it does not fail. -/
theorem getIn_of_stored {r : Record} (hstored : dm.stored key = some r)
    (hok : dm.fails = false) : (getIn key dm).1 = .ok (some r) := by
  obtain ⟨v, hv, hr⟩ := Option.bind_eq_some_iff.mp hstored
  simp [getIn, DMap.get, hok, hv, hr]

omit [DecidableEq T] in
/-- A successful read of the index changes no entry. -/
theorem readIndex_ok {keys : List GoString} (h : readIndex dm = (.ok keys, dm')) :
    dm'.entries = dm.entries ∧ dm.indexed = some keys := by
  have hsame := dm.get_entries indexKey
  unfold readIndex at h
  rcases hget : dm.get indexKey with ⟨res, dm₁⟩
  rw [hget] at h hsame
  cases res with
  | error e =>
      cases e with
      | keyNotFound =>
          have hnone := DMap.get_keyNotFound hget
          simp only [Prod.mk.injEq, Except.ok.injEq] at h
          obtain ⟨rfl, rfl⟩ := h
          exact ⟨hsame, by simp [DMap.indexed, hnone]⟩
      | lockNotAcquired => simp at h
      | noSuchLock => simp at h
      | unavailable => simp at h
  | ok v =>
      have hsome := DMap.get_ok hget
      cases v with
      | strings l =>
          simp only [decodeStrings, Prod.mk.injEq, Except.ok.injEq] at h
          obtain ⟨rfl, rfl⟩ := h
          exact ⟨hsame, by simp [DMap.indexed, hsome, decodeStrings]⟩
      | record r => simp [decodeStrings] at h
      | token u => simp [decodeStrings] at h

omit [DecidableEq T] in
/-- Reading the index changes no entry, even when it fails. -/
theorem readIndex_entries (dm : DMap T) : (readIndex dm).2.entries = dm.entries := by
  have hsame := dm.get_entries indexKey
  unfold readIndex
  rcases hget : dm.get indexKey with ⟨res, dm'⟩
  rw [hget] at hsame
  cases res with
  | error e => cases e <;> exact hsame
  | ok v => cases v <;> exact hsame

omit [DecidableEq T] in
/-- `Lock` acquires a free lock and leaves its token. -/
theorem lockIn_ok (h : lockIn t key dm = (.ok (), dm')) :
    dm.entries (lockName key) = none ∧
      dm'.entries = Function.update dm.entries (lockName key) (some (.token t)) := by
  unfold lockIn at h
  rcases hlock : dm.lockWithTimeout (lockName key) t with ⟨res, dm₁⟩
  rw [hlock] at h
  cases res with
  | error e => simp at h
  | ok u =>
      simp only [Prod.mk.injEq, true_and] at h
      subst h
      exact DMap.lock_ok hlock

omit [DecidableEq T] in
/-- Taking a lock changes no data and writes at most the lock's own name. -/
theorem lockIn_spec (dm : DMap T) (t : T) (key : GoString) :
    (lockIn t key dm).2.stored = dm.stored ∧ (lockIn t key dm).2.indexed = dm.indexed ∧
      ∀ name ≠ lockName key, (lockIn t key dm).2.entries name = dm.entries name := by
  unfold lockIn
  rcases hlock : dm.lockWithTimeout (lockName key) t with ⟨_ | _, dm'⟩
  · have hsame := DMap.lock_error hlock
    exact ⟨DMap.stored_congr hsame, DMap.indexed_congr hsame, fun name _ => congrFun hsame name⟩
  · obtain ⟨hfree, htaken⟩ := DMap.lock_ok hlock
    refine ⟨DMap.stored_of_token_added hfree htaken,
      DMap.indexed_of_update_ne (lockName_ne_indexKey key) htaken, fun name hne => ?_⟩
    simp only [htaken, Function.update_of_ne hne]

/-- Releasing a lock changes no data and frees at most the lock's own name. -/
theorem releaseIn_spec (dm : DMap T) (t : T) (key : GoString) :
    (releaseIn t key dm).stored = dm.stored ∧ (releaseIn t key dm).indexed = dm.indexed ∧
      ∀ name ≠ lockName key, (releaseIn t key dm).entries name = dm.entries name := by
  rcases dm.unlock_entries (lockName key) t with h | ⟨htoken, h⟩
  · exact ⟨DMap.stored_congr h, DMap.indexed_congr h, fun name _ => congrFun h name⟩
  · refine ⟨DMap.stored_of_token_removed htoken h,
      DMap.indexed_of_update_ne (lockName_ne_indexKey key) h, fun name hne => ?_⟩
    simp only [releaseIn, h, Function.update_of_ne hne]

omit [DecidableEq T] in
/-- A successful index update adds the key when it is missing. -/
theorem appendToIndex_ok (h : appendToIndex key dm = (.ok (), dm')) :
    ∃ keys, dm.indexed = some keys ∧
      (key ∈ keys ∧ dm'.entries = dm.entries ∨
        key ∉ keys ∧
          dm'.entries = Function.update dm.entries indexKey (some (.strings (keys ++ [key])))) := by
  unfold appendToIndex at h
  rcases hread : readIndex dm with ⟨res, dm₁⟩
  rw [hread] at h
  cases res with
  | error e => simp at h
  | ok keys =>
      obtain ⟨hsame, hindexed⟩ := readIndex_ok hread
      refine ⟨keys, hindexed, ?_⟩
      by_cases hk : key ∈ keys
      · simp only [hk, if_true, Prod.mk.injEq, true_and] at h
        exact Or.inl ⟨hk, h ▸ hsame⟩
      · simp only [hk, if_false] at h
        rcases hput : dm₁.put indexKey (.strings (keys ++ [key])) with ⟨res, dm₂⟩
        rw [hput] at h
        cases res with
        | error e => simp at h
        | ok u =>
            simp only [Prod.mk.injEq, true_and] at h
            subst h
            exact Or.inr ⟨hk, by rw [DMap.put_ok hput, hsame]⟩

/-- What an index update does to the data: the key is in the index, no record
changes, and no entry disappears. -/
structure IndexUpdate (key : GoString) (dm dm' : DMap T) : Prop where
  index : ∃ keys, dm.indexed = some keys ∧
    dm'.indexed = some (if key ∈ keys then keys else keys ++ [key])
  stored : dm'.stored = dm.stored
  kept : ∀ name, dm'.entries name = none → dm.entries name = none

omit [DecidableEq T] in
theorem stored_indexKey_of_indexed {keys : List GoString} (h : dm.indexed = some keys) :
    dm.stored indexKey = none := by
  unfold DMap.indexed at h
  unfold DMap.stored
  cases he : dm.entries indexKey with
  | none => rfl
  | some v =>
      cases v with
      | record r => simp [he, decodeStrings] at h
      | strings l => rfl
      | token u => rfl

omit [DecidableEq T] in
theorem appendToIndex_update (h : appendToIndex key dm = (.ok (), dm')) :
    IndexUpdate key dm dm' := by
  obtain ⟨keys, hindexed, ⟨hk, he⟩ | ⟨hk, he⟩⟩ := appendToIndex_ok h
  · refine ⟨⟨keys, hindexed, ?_⟩, DMap.stored_congr he, fun name hn => he ▸ hn⟩
    rw [DMap.indexed_congr he, hindexed, if_pos hk]
  · refine ⟨⟨keys, hindexed, ?_⟩, ?_, ?_⟩
    · simp [DMap.indexed, he, decodeStrings, hk]
    · funext name
      by_cases hname : name = indexKey
      · subst hname
        rw [stored_indexKey_of_indexed hindexed]
        simp [DMap.stored, he, decodeRecord]
      · simp [DMap.stored, he, hname]
    · intro name hn
      by_cases hname : name = indexKey
      · subst hname
        simp [he] at hn
      · simpa [he, hname] using hn

/-- Acquiring and releasing the index lock does not show in the data. -/
theorem addToIndex_update (h : addToIndex t key dm = (.ok (), dm')) :
    IndexUpdate key dm dm' := by
  have hne : indexLockKey ≠ indexKey := Ne.symm indexKey_ne_indexLockKey
  unfold addToIndex at h
  rcases hlock : dm.lockWithTimeout indexLockKey t with ⟨res, dm₁⟩
  rw [hlock] at h
  cases res with
  | error e =>
      have he := DMap.lock_error hlock
      obtain ⟨⟨keys, h₁, h₂⟩, h₃, h₄⟩ := appendToIndex_update h
      refine ⟨⟨keys, by rw [← DMap.indexed_congr he, h₁], h₂⟩, by rw [h₃, DMap.stored_congr he], ?_⟩
      intro name hn
      rw [← he]
      exact h₄ name hn
  | ok u =>
      obtain ⟨hfree, he⟩ := DMap.lock_ok hlock
      rcases happ : appendToIndex key dm₁ with ⟨res, dm₂⟩
      simp only [happ, Prod.mk.injEq] at h
      obtain ⟨rfl, rfl⟩ := h
      obtain ⟨⟨keys, h₁, h₂⟩, h₃, h₄⟩ := appendToIndex_update happ
      have hstored : dm₂.stored = dm.stored := h₃.trans (DMap.stored_of_token_added hfree he)
      have hindex : dm.indexed = some keys := (DMap.indexed_of_update_ne hne he).symm.trans h₁
      have hkept : ∀ name ≠ indexLockKey, dm₂.entries name = none → dm.entries name = none := by
        intro name hname hn
        have h₅ := h₄ name hn
        rwa [he, Function.update_of_ne hname] at h₅
      rcases dm₂.unlock_entries indexLockKey t with hu | ⟨htoken, hu⟩
      · refine ⟨⟨keys, hindex, by rw [DMap.indexed_congr hu, h₂]⟩,
          by rw [DMap.stored_congr hu, hstored], fun name hn => ?_⟩
        by_cases hname : name = indexLockKey
        · exact hname ▸ hfree
        · exact hkept name hname (hu ▸ hn)
      · refine ⟨⟨keys, hindex, by rw [DMap.indexed_of_update_ne hne hu, h₂]⟩,
          by rw [DMap.stored_of_token_removed htoken hu, hstored], fun name hn => ?_⟩
        by_cases hname : name = indexLockKey
        · exact hname ▸ hfree
        · rw [hu, Function.update_of_ne hname] at hn
          exact hkept name hname hn

/-- A successful `Put` stores the record under its key, adds the key to the index,
changes no other record, and makes no entry disappear. -/
structure PutEffect (r : Record) (dm dm' : DMap T) : Prop where
  index : ∃ keys, dm.indexed = some keys ∧
    dm'.indexed = some (if r.key ∈ keys then keys else keys ++ [r.key])
  stored : ∀ k, dm'.stored k = if k = r.key then some r else dm.stored k
  kept : ∀ name, dm'.entries name = none → dm.entries name = none

theorem putIn_ok {r : Record} (h : putIn t r dm = (.ok (), dm')) : PutEffect r dm dm' := by
  unfold putIn at h
  rcases hput : dm.put r.key (.record r) with ⟨res, dm₁⟩
  rw [hput] at h
  cases res with
  | error e => simp at h
  | ok u =>
      have he := DMap.put_ok hput
      obtain ⟨⟨keys, h₁, h₂⟩, h₃, h₄⟩ := addToIndex_update h
      -- a record under the index name would have made the index unreadable
      have hne : r.key ≠ indexKey := by
        intro hk
        rw [hk] at he
        simp [DMap.indexed, he, decodeStrings] at h₁
      refine ⟨⟨keys, (DMap.indexed_of_update_ne hne he).symm.trans h₁, h₂⟩, ?_, ?_⟩
      · intro k
        rw [h₃]
        by_cases hk : k = r.key
        · subst hk
          simp [DMap.stored, he, decodeRecord]
        · simp [DMap.stored, he, hk]
      · intro name hn
        have h₅ := h₄ name hn
        by_cases hname : name = r.key
        · subst hname
          simp [he] at h₅
        · rwa [he, Function.update_of_ne hname] at h₅

end Specs

section Kinds

variable {c c' : Cluster T} {kind : GoString}

omit [DecidableEq T] in
/-- A successful call runs on the DMap of its kind, which is open. -/
theorem Cluster.onDMap_ok {α : Type*} {call : DMap T → Except Err α × DMap T} {a : α}
    (h : c.onDMap kind call = (.ok a, c')) :
    call (c.dmaps kind) = (.ok a, c'.dmaps kind) ∧ c'.opens kind = true := by
  unfold Cluster.onDMap at h
  split_ifs at h with hopen
  · simp only [Prod.mk.injEq] at h
    obtain ⟨h₁, rfl⟩ := h
    exact ⟨Prod.ext h₁ (by simp), hopen⟩
  · simp at h

/-- Releasing a lock runs on the DMap of its kind. -/
theorem release_dmaps (t : T) (key : GoString) (hopen : c.opens kind = true) :
    ((kv t).release kind key c).dmaps kind = releaseIn t key (c.dmaps kind) := by
  simp [kv, Cluster.onDMap, hopen]

end Kinds

end Lbsync.Olric
