import Lbsync.Engine.Gather
import Lbsync.Lib.Frames

/-!
# A cluster whose calls may fail

The cluster is one map from kind and key to the stored record. The outcome of
every call of a tick is scripted in advance: what `Keys` returns and, for each
key, whether the first `Get`, the `Lock`, the re-check `Get` and the `Put`
succeed. A `Put` may also fail after its data write, as `Cluster.Put` does when
the index update fails.
-/

namespace Lbsync.Engine

/-- The outcome of a `Put` call. -/
inductive PutOutcome where
  | stored | failed | failedAfterWrite
  deriving DecidableEq, Repr

/-- The outcomes of the calls a tick makes for one key. -/
structure Outcome where
  getOk : Bool
  lockOk : Bool
  recheckOk : Bool
  put : PutOutcome
  deriving DecidableEq, Repr

/-- Every call succeeds. -/
def Outcome.clean : Outcome := ⟨true, true, true, .stored⟩

/-- The outcomes of all calls of one tick. -/
structure Script where
  keys : Except Err (List GoString)
  call : GoString → Outcome

/-- The records of a cluster by kind and key. -/
abbrev Store := GoString → GoString → Option Record

/-- Replace one entry. -/
def Store.set (st : Store) (kind key : GoString) (r : Record) : Store :=
  fun kind' key' => if kind' = kind ∧ key' = key then some r else st kind' key'

theorem Store.set_self (st : Store) (kind key : GoString) (r : Record) :
    st.set kind key r kind key = some r := by
  simp [Store.set]

theorem Store.set_of_key_ne (st : Store) {kind kind' key key' : GoString} (r : Record)
    (h : key' ≠ key) : st.set kind key r kind' key' = st kind' key' := by
  simp [Store.set, h]

theorem Store.set_of_kind_ne (st : Store) {kind kind' key key' : GoString} (r : Record)
    (h : kind' ≠ kind) : st.set kind key r kind' key' = st kind' key' := by
  simp [Store.set, h]

/-- A scripted cluster in the middle of a tick. A key is in `asked` once its
first `Get` has been made. -/
structure ScriptedState where
  store : Store
  script : Script
  asked : List GoString

/-- Whether the next `Get` for a key succeeds. -/
def ScriptedState.getOk (s : ScriptedState) (key : GoString) : Bool :=
  if key ∈ s.asked then (s.script.call key).recheckOk else (s.script.call key).getOk

/-- The cluster interface over a script. -/
def scriptedKV : ClusterKV ScriptedState where
  get kind key s :=
    (if s.getOk key then .ok (s.store kind key) else .error .get,
      { s with asked := key :: s.asked })
  put r s :=
    match (s.script.call r.key).put with
    | .stored => (.ok (), { s with store := s.store.set r.kind r.key r })
    | .failed => (.error .put, s)
    | .failedAfterWrite => (.error .putIndex, { s with store := s.store.set r.kind r.key r })
  keys _ s := (s.script.keys, s)
  lock _ key s := (if (s.script.call key).lockOk then .ok () else .error .lock, s)
  release _ _ s := s

/-- What a read leaves in the caller's variable. -/
def readBy (ok : Bool) (stored : Option Record) : Option Record := if ok then stored else none

/-- The stored record of a key after its publish decision. -/
def published (own stored : Option Record) (o : Outcome) : Option Record :=
  match own with
  | none => stored
  | some l =>
      if keeps l (readBy o.getOk stored) then stored
      else if keeps l (readBy o.recheckOk stored) then stored
      else if o.put = .failed then stored
      else some l

/-- A publish decision keeps the stored record or replaces it by the local one. -/
theorem published_eq_or (own stored : Option Record) (o : Outcome) :
    published own stored o = stored ∨ own ≠ none ∧ published own stored o = own := by
  cases own with
  | none => exact Or.inl rfl
  | some l =>
      simp only [published]
      split_ifs
      · exact Or.inl rfl
      · exact Or.inl rfl
      · exact Or.inl rfl
      · exact Or.inr ⟨nofun, rfl⟩

/-- Without errors the stored record is replaced when the local one is newer. -/
theorem published_clean (l : Record) (stored : Option Record) :
    published (some l) stored Outcome.clean = if keeps l stored then stored else some l := by
  cases h : keeps l stored <;> simp [published, Outcome.clean, readBy, h]

theorem gotRecord_scriptedGet (kind key : GoString) (s : ScriptedState) :
    gotRecord (scriptedKV.get kind key s).1 = readBy (s.getOk key) (s.store kind key) := by
  cases h : s.getOk key <;> simp [scriptedKV, h, gotRecord, readBy]

@[simp] theorem scriptedGet_store (kind key : GoString) (s : ScriptedState) :
    (scriptedKV.get kind key s).2.store = s.store := rfl

@[simp] theorem scriptedGet_script (kind key : GoString) (s : ScriptedState) :
    (scriptedKV.get kind key s).2.script = s.script := rfl

@[simp] theorem scriptedGet_asked (kind key : GoString) (s : ScriptedState) :
    (scriptedKV.get kind key s).2.asked = key :: s.asked := rfl

@[simp] theorem scriptedLock_snd (kind key : GoString) (s : ScriptedState) :
    (scriptedKV.lock kind key s).2 = s := rfl

theorem scriptedPut_store (r : Record) (s : ScriptedState) :
    (scriptedKV.put r s).2.store =
      if (s.script.call r.key).put = .failed then s.store else s.store.set r.kind r.key r := by
  cases h : (s.script.call r.key).put <;> simp [scriptedKV, h]

@[simp] theorem scriptedPut_script (r : Record) (s : ScriptedState) :
    (scriptedKV.put r s).2.script = s.script := by
  cases h : (s.script.call r.key).put <;> simp [scriptedKV, h]

@[simp] theorem scriptedPut_asked (r : Record) (s : ScriptedState) :
    (scriptedKV.put r s).2.asked = s.asked := by
  cases h : (s.script.call r.key).put <;> simp [scriptedKV, h]

theorem getOk_of_mem {s : ScriptedState} {key : GoString} (h : key ∈ s.asked) :
    s.getOk key = (s.script.call key).recheckOk := if_pos h

theorem getOk_of_notMem {s : ScriptedState} {key : GoString} (h : key ∉ s.asked) :
    s.getOk key = (s.script.call key).getOk := if_neg h

/-- The lock outcome does not change what is published. -/
theorem maybePublish_scripted (kind key : GoString) (own clusterR : Option Record)
    (s : ScriptedState) :
    maybePublish scriptedKV kind key own clusterR s =
      match own with
      | none => s
      | some l =>
          if keeps l clusterR then s
          else
            let cur := scriptedKV.get kind key s
            if keeps l (gotRecord cur.1) then cur.2 else (scriptedKV.put l cur.2).2 := by
  cases own with
  | none => rfl
  | some l =>
      simp only [maybePublish, scriptedLock_snd]
      by_cases h : keeps l clusterR
      · simp [h]
      · simp only [h]
        cases (scriptedKV.lock kind key s).1 <;> rfl

/-- A publish decision touches nothing but the entry it is about. -/
theorem maybePublish_frame (kind key : GoString) (own clusterR : Option Record)
    (s : ScriptedState) (hown : ∀ l, own = some l → l.key = key ∧ l.kind = kind) :
    (maybePublish scriptedKV kind key own clusterR s).script = s.script ∧
    (∀ j ≠ key, j ∈ (maybePublish scriptedKV kind key own clusterR s).asked ↔ j ∈ s.asked) ∧
    ∀ kind' j, (kind' ≠ kind ∨ j ≠ key) →
      (maybePublish scriptedKV kind key own clusterR s).store kind' j = s.store kind' j := by
  rw [maybePublish_scripted]
  cases own with
  | none => simp
  | some l =>
      obtain ⟨hkey, hkind⟩ := hown l rfl
      simp only
      split_ifs with h₁ h₂
      · simp
      · simp +contextual
      · refine ⟨by simp, by simp +contextual, ?_⟩
        intro kind' j hne
        rw [scriptedPut_store, hkey, hkind]
        split_ifs
        · rfl
        · rcases hne with hne | hne
          · rw [Store.set_of_kind_ne _ _ hne, scriptedGet_store]
          · rw [Store.set_of_key_ne _ _ hne, scriptedGet_store]

variable {P : Type*} (p : Provider P) (w : P)

/-- The visit of a key keeps the script, the reads and the entries of all others. -/
theorem processKey_scripted_frame (st : TickState ScriptedState P) (key : GoString) :
    let st' := processKey scriptedKV p (localMap (p.locals w).1) st key
    st'.cluster.script = st.cluster.script ∧
    (∀ j ≠ key, j ∈ st'.cluster.asked ↔ j ∈ st.cluster.asked) ∧
    ∀ kind j, (kind ≠ p.kind ∨ j ≠ key) →
      st'.cluster.store kind j = st.cluster.store kind j := by
  obtain ⟨h₁, h₂, h₃⟩ := maybePublish_frame p.kind key
    ((localMap (p.locals w).1).lookup key)
    (gotRecord (scriptedKV.get p.kind key st.cluster).1)
    (scriptedKV.get p.kind key st.cluster).2 (fun l hl => p.of_lookup hl)
  refine ⟨h₁, fun j hj => ?_, h₃⟩
  rw [processKey, h₂ j hj]
  simp [hj]

/-- The first visit of a key leaves the publish decision of the script in its entry. -/
theorem processKey_scripted_own (st : TickState ScriptedState P) (key : GoString)
    (hask : key ∉ st.cluster.asked) :
    (processKey scriptedKV p (localMap (p.locals w).1) st key).cluster.store p.kind key =
      published ((localMap (p.locals w).1).lookup key) (st.cluster.store p.kind key)
        (st.cluster.script.call key) := by
  have hfirst := getOk_of_notMem hask
  have hsecond : (scriptedKV.get p.kind key st.cluster).2.getOk key =
      (st.cluster.script.call key).recheckOk := getOk_of_mem (by simp)
  simp only [processKey, gotRecord_scriptedGet, hfirst, maybePublish_scripted]
  cases hl : (localMap (p.locals w).1).lookup key with
  | none => rfl
  | some l =>
      obtain ⟨hkey, hkind⟩ := p.of_lookup hl
      simp only [published, hsecond, scriptedGet_store]
      split_ifs with h₁ h₂ h₃
      · rfl
      · rfl
      · simp [scriptedPut_store, hkey, h₃]
      · simp [scriptedPut_store, hkey, hkind, h₃, Store.set_self]

/-- One tick of a node, started in provider state `world`. -/
structure ScriptedTick (P : Type*) where
  world : P
  order : MapOrder
  script : Script

/-- The cluster after one tick. -/
def ScriptedTick.run (t : ScriptedTick P) (st : Store) : Store :=
  (tickProvider scriptedKV p t.order ⟨st, t.script, []⟩ t.world).1.store

/-- The local record of a key in one tick. -/
def ScriptedTick.own (t : ScriptedTick P) (key : GoString) : Option Record :=
  (localMap (p.locals t.world).1).lookup key

/-- The loop of the tick. -/
def ScriptedTick.loop (t : ScriptedTick P) (st : Store) : TickState ScriptedState P :=
  tickLoop scriptedKV p t.order ⟨st, t.script, []⟩ t.world

/-- The keys of the tick. -/
def ScriptedTick.keys (t : ScriptedTick P) : List GoString :=
  unionKeys t.order (localMap (p.locals t.world).1) t.script.keys

/-- What a tick does for one key: the entry it leaves and the calls to `Apply`. -/
def keyEffect (key : GoString) (own stored : Option Record) (o : Outcome) :
    Option Record × List (GoString × Record) :=
  (published own stored o, bestCall key own (readBy o.getOk stored))

/-- The entry of a key and the calls for it in the middle of a tick. -/
def keyState (key : GoString) (s : TickState ScriptedState P) :
    Option Record × List (GoString × Record) :=
  (s.cluster.store p.kind key, s.calls.filter fun call => call.1 = key)

/-- The keys of a tick are the only ones it does anything for, and what it does for a key
depends on the local record, the stored record and the call outcomes of that key alone. -/
theorem ScriptedTick.loop_eq (t : ScriptedTick P) (st : Store) (key : GoString) :
    keyState p key (t.loop p st) =
      if key ∈ t.keys p then keyEffect key (t.own p key) (st p.kind key) (t.script.call key)
      else (st p.kind key, []) := by
  let m := localMap (p.locals t.world).1
  let start : TickState ScriptedState P := ⟨⟨st, t.script, []⟩, (p.locals t.world).2, [], []⟩
  let obs : TickState ScriptedState P →
      (Option Record × List (GoString × Record)) × Script × Prop := fun s =>
    (keyState p key s, s.cluster.script, key ∈ s.cluster.asked)
  have howns : Frames.Owns (processKey scriptedKV p m) (fun _ => True) obs key := by
    refine ⟨fun _ _ _ => trivial, fun s j _ hj => ?_⟩
    obtain ⟨h₁, h₂, h₃⟩ := processKey_scripted_frame p t.world s j
    have hcalls : (processKey scriptedKV p m s j).calls.filter (fun call => call.1 = key) =
        s.calls.filter fun call => call.1 = key := by
      simp only [processKey, List.filter_append, filter_bestCall_of_ne hj, List.append_nil]
    simp only [obs, keyState, Prod.mk.injEq, eq_iff_iff]
    exact ⟨⟨h₃ p.kind key (Or.inr (Ne.symm hj)), hcalls⟩, h₁, h₂ key (Ne.symm hj)⟩
  change keyState p key ((t.keys p).foldl (processKey scriptedKV p m) start) = _
  split_ifs with hk
  · obtain ⟨mid, _, hmid, hafter⟩ := howns.foldl_of_mem (unionKeys_nodup _ _ _) hk (s := start)
      trivial
    simp only [obs, keyState, Prod.mk.injEq, eq_iff_iff] at hmid
    obtain ⟨⟨hstore, hcalls⟩, hscript, hasked⟩ := hmid
    have hfresh : key ∉ mid.cluster.asked := fun h => by simpa [start] using hasked.mp h
    have hend : keyState p key ((t.keys p).foldl (processKey scriptedKV p m) start) =
        keyState p key (processKey scriptedKV p m mid key) := congrArg Prod.fst hafter
    have hread : gotRecord (scriptedKV.get p.kind key mid.cluster).1 =
        readBy (t.script.call key).getOk (st p.kind key) := by
      rw [gotRecord_scriptedGet, getOk_of_notMem hfresh, hscript, hstore]
    rw [hend, keyState, keyEffect, processKey_scripted_own p t.world mid key hfresh, hstore,
      hscript]
    simp only [processKey, List.filter_append, filter_bestCall_self, hread, hcalls]
    rfl
  · exact congrArg Prod.fst (howns.foldl_of_notMem hk (s := start) trivial)

/-- A tick decides each entry of its kind on the local record, the stored record
and the call outcomes of that key alone. -/
theorem ScriptedTick.run_eq (t : ScriptedTick P) (st : Store) (key : GoString) :
    t.run p st p.kind key = published (t.own p key) (st p.kind key) (t.script.call key) := by
  have hloop : t.run p st p.kind key = (keyState p key (t.loop p st)).1 := rfl
  rw [hloop, t.loop_eq]
  split_ifs with hk
  · rfl
  · have hown : t.own p key = none := lookup_eq_none_of_notMem_unionKeys hk
    rw [hown]
    rfl

end Lbsync.Engine
