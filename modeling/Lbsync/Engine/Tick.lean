import Lbsync.Engine.Record
import Mathlib.Data.List.AList

/-!
# The reconcile tick

`ClusterKV` and `Provider` are the two interfaces the engine is written
against. Both are state-passing: a cluster call reads and writes a cluster state
`K`, a provider call a provider state `P`. The functions below follow the source
statement by statement; metrics and the wall clock are left out because nothing
reads them back.

Go randomises the iteration order of a map, so the order in which the keys of
`localByKey` are visited is a parameter.
-/

namespace Lbsync.Engine

/-- The operation an error value comes from. The engine inspects no error beyond
whether there is one. -/
inductive Err where
  | newDMap | get | decodeGet | decode | put | readIndex | decodeIndex | putIndex | lock
  | scan | io | verify | reload
  deriving DecidableEq, Repr

/-- The part of the cluster facade the engine needs. A failed `get` carries no
record, as in both backends. -/
structure ClusterKV (K : Type*) where
  get : GoString → GoString → K → Except Err (Option Record) × K
  put : Record → K → Except Err Unit × K
  keys : GoString → K → Except Err (List GoString) × K
  lock : GoString → GoString → K → Except Err Unit × K
  release : GoString → GoString → K → K

/-- A newest-wins module. It contributes resources of a single kind. -/
structure Provider (P : Type*) where
  kind : GoString
  locals : P → Except Err (List Record) × P
  apply : Record → P → Except Err Bool × P
  flush : P → Except Err Unit × P
  rollback : List GoString → P → Except Err Unit × P
  locals_kind : ∀ w rs, (locals w).1 = .ok rs → ∀ r ∈ rs, r.kind = kind

/-- The order in which one iteration of a Go map visits its keys. -/
structure MapOrder where
  visit : List GoString → List GoString
  perm : ∀ l, (visit l).Perm l

/-- The order of insertion. -/
def MapOrder.insertion : MapOrder := ⟨id, fun l => List.Perm.refl l⟩

/-- The local records of a node by key. -/
abbrev LocalMap := AList (fun _ : GoString => Record)

/-- Index local records by key; a later record replaces an earlier one. -/
def indexLocals (locals : List Record) : LocalMap :=
  locals.foldl (fun m r => m.insert r.key r) ∅

/-- The records of `Local`, or none when it fails. -/
def localMap : Except Err (List Record) → LocalMap
  | .ok locals => indexLocals locals
  | .error _ => ∅

/-- Append the keys not seen yet, in order. -/
def addKeys (keys : List GoString) : List GoString → List GoString
  | [] => keys
  | k :: rest => if k ∈ keys then addKeys keys rest else addKeys (keys ++ [k]) rest

/-- The keys of one tick: the local ones in map order, then the unseen cluster ones. -/
def unionKeys (ord : MapOrder) (localByKey : LocalMap) :
    Except Err (List GoString) → List GoString
  | .ok clusterKeys => addKeys (ord.visit localByKey.keys) clusterKeys
  | .error _ => ord.visit localByKey.keys

variable {K P : Type*}

/-- The record a `Get` call leaves in the caller's variable. -/
def gotRecord : Except Err (Option Record) → Option Record
  | .ok r => r
  | .error _ => none

/-- A record is there and the local one is not strictly newer. -/
def keeps (l : Record) : Option Record → Bool
  | some c => !l.version.newer c.version
  | none => false

theorem keeps_iff {l : Record} {o : Option Record} :
    keeps l o = true ↔ versionOf (some l) ≤ versionOf o := by
  cases o with
  | none => simp [keeps]
  | some c => simp [keeps]

theorem keeps_eq_false_iff {l : Record} {o : Option Record} :
    keeps l o = false ↔ versionOf o < versionOf (some l) := by
  rw [← Bool.not_eq_true, keeps_iff, not_le]

/-- Publish the local record when it is newer than what both reads returned.
The lock is best effort: a failed lock is not released and does not stop the
publication. -/
def maybePublish (cl : ClusterKV K) (kind key : GoString) (own clusterR : Option Record)
    (s : K) : K :=
  match own with
  | none => s
  | some l =>
      if keeps l clusterR then s
      else
        let locked := cl.lock kind key s
        let cur := cl.get kind key locked.2
        let written := if keeps l (gotRecord cur.1) then cur.2 else (cl.put l cur.2).2
        match locked.1 with
        | .ok _ => cl.release kind key written
        | .error _ => written

/-- What one tick carries from key to key. `calls` lists the keys with the records
handed to `Apply` so far, in order. -/
structure TickState (K P : Type*) where
  cluster : K
  provider : P
  changed : List GoString
  calls : List (GoString × Record)

/-- Hand a winner to `Apply` and note its key when something changed. An error
counts as no change. -/
def applyCall (p : Provider P) (acc : P × List GoString) (call : GoString × Record) :
    P × List GoString :=
  match p.apply call.2 acc.1 with
  | (.ok true, w) => (w, acc.2 ++ [call.1])
  | (.ok false, w) => (w, acc.2)
  | (.error _, w) => (w, acc.2)

theorem applyCall_fst (p : Provider P) (acc : P × List GoString) (call : GoString × Record) :
    (applyCall p acc call).1 = (p.apply call.2 acc.1).2 := by
  rcases happly : p.apply call.2 acc.1 with ⟨result, w'⟩
  rcases result with e | changed
  · simp [applyCall, happly]
  · cases changed <;> simp [applyCall, happly]

theorem applyCall_snd (p : Provider P) (acc : P × List GoString) (call : GoString × Record) :
    (applyCall p acc call).2 =
      acc.2 ++ if (p.apply call.2 acc.1).1 = .ok true then [call.1] else [] := by
  rcases happly : p.apply call.2 acc.1 with ⟨result, w'⟩
  rcases result with e | changed
  · simp [applyCall, happly]
  · cases changed <;> simp [applyCall, happly]

/-- The winner of a key, if there is one, as a call to `Apply`. -/
def bestCall (key : GoString) (own clusterR : Option Record) : List (GoString × Record) :=
  ((pickNewer own clusterR).map fun best => (key, best)).toList

/-- The body of the loop over keys. -/
def processKey (cl : ClusterKV K) (p : Provider P) (localByKey : LocalMap)
    (st : TickState K P) (key : GoString) : TickState K P :=
  let own := localByKey.lookup key
  let read := cl.get p.kind key st.cluster
  let clusterR := gotRecord read.1
  let applied := (bestCall key own clusterR).foldl (applyCall p) (st.provider, st.changed)
  { cluster := maybePublish cl p.kind key own clusterR read.2
    provider := applied.1
    changed := applied.2
    calls := st.calls ++ bestCall key own clusterR }

/-- The hook after the loop: nothing when no key changed, otherwise `Flush`, and
`Rollback` of the changed keys when it fails. -/
def finishTick (p : Provider P) (changed : List GoString) (w : P) : P :=
  if changed = [] then w
  else
    match p.flush w with
    | (.ok _, w) => w
    | (.error _, w) => (p.rollback changed w).2

/-- The loop of one tick over all its keys. -/
def tickLoop (cl : ClusterKV K) (p : Provider P) (ord : MapOrder) (s : K) (w : P) :
    TickState K P :=
  let listed := p.locals w
  let localByKey := localMap listed.1
  let known := cl.keys p.kind s
  let keys := unionKeys ord localByKey known.1
  keys.foldl (processKey cl p localByKey) ⟨known.2, listed.2, [], []⟩

/-- One reconcile tick of one provider. The metrics are left out: nothing reads them. Keys and
kinds are taken to be valid UTF-8, since setting a metric panics on a label that is not. -/
def tickProvider (cl : ClusterKV K) (p : Provider P) (ord : MapOrder) (s : K) (w : P) : K × P :=
  let st := tickLoop cl p ord s w
  (st.cluster, finishTick p st.changed st.provider)

/-- What a tick does to the provider, given its calls to `Apply`. -/
def applyTick (p : Provider P) (calls : List (GoString × Record)) (w : P) : P :=
  let applied := calls.foldl (applyCall p) (w, [])
  finishTick p applied.2 applied.1

/-- The hook of the tick is run and fails. -/
def FlushFails (p : Provider P) (calls : List (GoString × Record)) (w : P) : Prop :=
  let applied := calls.foldl (applyCall p) (w, [])
  applied.2 ≠ [] ∧ ∃ e, (p.flush applied.1).1 = .error e

/-- The provider sees the calls to `Apply` and nothing else of the loop. -/
theorem tickLoop_applied (cl : ClusterKV K) (p : Provider P) (ord : MapOrder) (s : K) (w : P) :
    ((tickLoop cl p ord s w).provider, (tickLoop cl p ord s w).changed) =
      (tickLoop cl p ord s w).calls.foldl (applyCall p) ((p.locals w).2, []) := by
  have hloop (m : LocalMap) (keys : List GoString) (start : P × List GoString)
      (st : TickState K P)
      (hst : (st.provider, st.changed) = st.calls.foldl (applyCall p) start) :
      ((keys.foldl (processKey cl p m) st).provider,
          (keys.foldl (processKey cl p m) st).changed) =
        (keys.foldl (processKey cl p m) st).calls.foldl (applyCall p) start := by
    induction keys generalizing st with
    | nil => exact hst
    | cons key keys ih =>
        apply ih
        simp only [processKey, List.foldl_append, ← hst]
  exact hloop _ _ _ _ rfl

/-- A tick acts on the provider through its calls to `Apply`. -/
theorem tickProvider_snd (cl : ClusterKV K) (p : Provider P) (ord : MapOrder) (s : K) (w : P) :
    (tickProvider cl p ord s w).2 =
      applyTick p (tickLoop cl p ord s w).calls (p.locals w).2 := by
  simp only [tickProvider, applyTick, ← tickLoop_applied]

end Lbsync.Engine
