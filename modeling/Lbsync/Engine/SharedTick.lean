import Lbsync.Engine.ErrorFree
import Lbsync.Engine.ScriptedKV

/-!
# A tick among other nodes

Before every call a tick makes, other nodes may do anything to the cluster. The
cluster is wrapped: the coming interventions are listed in advance, and what the
tick reads and writes is recorded. The engine itself is the same.

The record of the first read reaches `pickNewer`. The record of the re-check does
not leave `maybePublish`: it decides about the publication only.
-/

namespace Lbsync.Engine

variable {K P : Type*}

/-- A read or a write of a tick. -/
inductive KeyCall where
  | got (r : Option Record)
  | put (r : Record)
  deriving DecidableEq

/-- A cluster other nodes act on: `others` holds what they do before each of the
coming calls, `made` the reads and writes of the tick so far. -/
structure Shared (K : Type*) where
  cluster : K
  others : List (K → K)
  made : List (GoString × KeyCall)

/-- The cluster the next call meets. -/
def Shared.now (s : Shared K) : K := s.others.headD id s.cluster

/-- The cluster interface of a node among others. -/
def ClusterKV.shared (cl : ClusterKV K) : ClusterKV (Shared K) where
  get kind key s :=
    let r := cl.get kind key s.now
    (r.1, ⟨r.2, s.others.tail, s.made ++ [(key, .got (gotRecord r.1))]⟩)
  put rec s :=
    let r := cl.put rec s.now
    (r.1, ⟨r.2, s.others.tail, s.made ++ [(rec.key, .put rec)]⟩)
  keys kind s :=
    let r := cl.keys kind s.now
    (r.1, ⟨r.2, s.others.tail, s.made⟩)
  lock kind key s :=
    let r := cl.lock kind key s.now
    (r.1, ⟨r.2, s.others.tail, s.made⟩)
  release kind key s := ⟨cl.release kind key s.now, s.others.tail, s.made⟩

/-- The reads and writes for one key. -/
def madeFor (key : GoString) (s : Shared K) : List KeyCall :=
  (s.made.filter fun call => call.1 = key).map Prod.snd

/-- A tick for one provider among other nodes. -/
def sharedTick (cl : ClusterKV K) (p : Provider P) (ord : MapOrder) (others : List (K → K))
    (s : K) (w : P) : TickState (Shared K) P :=
  tickLoop cl.shared p ord ⟨s, others, []⟩ w

/-- The calls of a publish decision after the first read `c`, when the re-check
finds `cur`. -/
def publishCalls (own c cur : Option Record) : List KeyCall :=
  match own with
  | none => []
  | some l => if keeps l c then [] else .got cur :: if keeps l cur then [] else [.put l]

section Calls

variable (cl : ClusterKV K) (p : Provider P)

@[simp] theorem made_get (kind key : GoString) (s : Shared K) :
    (cl.shared.get kind key s).2.made =
      s.made ++ [(key, .got (gotRecord (cl.shared.get kind key s).1))] := rfl

@[simp] theorem made_put (r : Record) (s : Shared K) :
    (cl.shared.put r s).2.made = s.made ++ [(r.key, .put r)] := rfl

@[simp] theorem made_keys (kind : GoString) (s : Shared K) :
    (cl.shared.keys kind s).2.made = s.made := rfl

@[simp] theorem made_lock (kind key : GoString) (s : Shared K) :
    (cl.shared.lock kind key s).2.made = s.made := rfl

@[simp] theorem made_release (kind key : GoString) (s : Shared K) :
    (cl.shared.release kind key s).made = s.made := rfl

/-- A publish decision makes its calls for its own key. -/
theorem made_maybePublish (kind key : GoString) {own : Option Record} (c : Option Record)
    (s : Shared K) (hown : ∀ l, own = some l → l.key = key) :
    ∃ cur, (maybePublish cl.shared kind key own c s).made =
      s.made ++ (publishCalls own c cur).map fun call => (key, call) := by
  cases own with
  | none => exact ⟨none, by simp [maybePublish, publishCalls]⟩
  | some l =>
      obtain rfl := hown l rfl
      let locked := cl.shared.lock kind l.key s
      let cur := cl.shared.get kind l.key locked.2
      have hwritten :
          (if keeps l (gotRecord cur.1) then cur.2 else (cl.shared.put l cur.2).2).made =
            s.made ++ (KeyCall.got (gotRecord cur.1) ::
              if keeps l (gotRecord cur.1) then [] else [.put l]).map
                fun call => (l.key, call) := by
        split_ifs <;> simp [cur, locked]
      refine ⟨gotRecord cur.1, ?_⟩
      simp only [maybePublish, publishCalls]
      by_cases hc : keeps l c = true
      · simp [hc]
      · rw [if_neg hc, if_neg hc, ← hwritten]
        cases hres : (cl.shared.lock kind l.key s).1 <;> rfl

/-- A visit reads its key and makes its publish decision; the winner of the local record
and this first read is handed to `Apply`. -/
theorem made_processKey {m : LocalMap} (hm : OfKind p.kind m) (st : TickState (Shared K) P)
    (key : GoString) :
    ∃ c cur, (processKey cl.shared p m st key).cluster.made =
        st.cluster.made ++
          (.got c :: publishCalls (m.lookup key) c cur).map (fun call => (key, call)) ∧
      (processKey cl.shared p m st key).calls = st.calls ++ bestCall key (m.lookup key) c := by
  let read := cl.shared.get p.kind key st.cluster
  obtain ⟨cur, hcur⟩ := made_maybePublish cl p.kind key (gotRecord read.1) read.2
    fun l hl => (hm key l hl).1
  refine ⟨gotRecord read.1, cur, ?_, rfl⟩
  simp only [processKey, hcur, read, made_get, List.map_cons, List.append_assoc,
    List.singleton_append]

/-- The calls of a tick for one key: none without a visit, and otherwise a first read `c`
and a publish decision, with the winner of the local record and `c` handed to `Apply`. -/
theorem sharedTick_calls (ord : MapOrder) (others : List (K → K)) (s : K) (w : P)
    (key : GoString) :
    (sharedTick cl p ord others s w).calls.filter (fun call => call.1 = key) = [] ∨
    ∃ c cur, madeFor key (sharedTick cl p ord others s w).cluster =
        .got c :: publishCalls ((localMap (p.locals w).1).lookup key) c cur ∧
      (sharedTick cl p ord others s w).calls.filter (fun call => call.1 = key) =
        bestCall key ((localMap (p.locals w).1).lookup key) c := by
  let m := localMap (p.locals w).1
  let listed := cl.shared.keys p.kind ⟨s, others, []⟩
  let start : TickState (Shared K) P := ⟨listed.2, (p.locals w).2, [], []⟩
  let obs : TickState (Shared K) P → List KeyCall × List (GoString × Record) := fun st =>
    (madeFor key st.cluster, st.calls.filter fun call => call.1 = key)
  have hm : OfKind p.kind m := p.ofKind_locals w
  have howns : Frames.Owns (processKey cl.shared p m) (fun _ => True) obs key := by
    refine ⟨fun _ _ _ => trivial, fun st j _ hj => ?_⟩
    obtain ⟨c, cur, hmade, hcalls⟩ := made_processKey cl p hm st j
    refine Prod.ext ?_ ?_
    · simp [obs, madeFor, hmade, hj, List.filter_map, Function.comp_def]
    · simp [obs, hcalls, filter_bestCall_of_ne hj]
  by_cases hk : key ∈ unionKeys ord m listed.1
  · obtain ⟨mid, -, hmid, hend⟩ :=
      howns.foldl_of_mem (unionKeys_nodup ord m listed.1) hk (s := start) trivial
    obtain ⟨c, cur, hmade, hcalls⟩ := made_processKey cl p hm mid key
    have hempty : madeFor key mid.cluster = [] ∧ mid.calls.filter (fun call => call.1 = key) = [] :=
      ⟨congrArg Prod.fst hmid, congrArg Prod.snd hmid⟩
    refine Or.inr ⟨c, cur, (congrArg Prod.fst hend).trans ?_, (congrArg Prod.snd hend).trans ?_⟩
    · have hfirst : madeFor key (processKey cl.shared p m mid key).cluster =
          madeFor key mid.cluster ++ .got c :: publishCalls (m.lookup key) c cur := by
        simp [madeFor, hmade, List.filter_map, Function.comp_def]
      rw [hempty.1] at hfirst
      exact hfirst
    · simp [obs, hcalls, hempty.2, filter_bestCall_self, m]
  · exact Or.inl (congrArg Prod.snd (howns.foldl_of_notMem hk (s := start) trivial))

end Calls

theorem version_le_of_pickNewer {own c : Option Record} {best : Record}
    (h : pickNewer own c = some best) :
    (∀ l, own = some l → l.version ≤ best.version) ∧
      ∀ r, c = some r → r.version ≤ best.version := by
  have hmax : versionOf (some best) = max (versionOf own) (versionOf c) := by
    rw [← h, versionOf_pickNewer]
  constructor
  · rintro l rfl
    exact WithBot.coe_le_coe.mp ((le_max_left _ _).trans_eq hmax.symm)
  · rintro r rfl
    exact WithBot.coe_le_coe.mp ((le_max_right _ _).trans_eq hmax.symm)

/-- A publish decision that reads again is about the winner itself. -/
theorem publishCalls_of_pickNewer {own c : Option Record} {best : Record}
    (h : pickNewer own c = some best) (cur : Option Record) :
    publishCalls own c cur = [] ∨ own = some best ∧
      (publishCalls own c cur = [.got cur, .put best] ∧
          (∀ r, cur = some r → r.version < best.version) ∨
        publishCalls own c cur = [.got cur] ∧ ∃ r, cur = some r ∧ best.version ≤ r.version) := by
  cases own with
  | none => exact Or.inl rfl
  | some l =>
      by_cases hc : keeps l c = true
      · exact Or.inl (by simp [publishCalls, hc])
      · have hnewer : versionOf c < versionOf (some l) :=
          keeps_eq_false_iff.mp (Bool.eq_false_iff.mpr hc)
        obtain rfl : l = best := by
          rw [pickNewer_of_lt hnewer] at h
          exact Option.some.inj h
        refine Or.inr ⟨rfl, ?_⟩
        cases cur with
        | none =>
            have hcur : keeps l none = false := rfl
            exact Or.inl ⟨by simp [publishCalls, hc, hcur], nofun⟩
        | some r =>
            by_cases hcur : keeps l (some r) = true
            · have hle : l.version ≤ r.version := WithBot.coe_le_coe.mp (keeps_iff.mp hcur)
              exact Or.inr ⟨by simp [publishCalls, hc, hcur], r, rfl, hle⟩
            · have hlt : r.version < l.version :=
                WithBot.coe_lt_coe.mp (keeps_eq_false_iff.mp (Bool.eq_false_iff.mpr hcur))
              refine Or.inl ⟨by simp [publishCalls, hc, hcur], fun r' hr' => ?_⟩
              rwa [← Option.some.inj hr']

/-- The record handed to `Apply` is at least as new as the local record and as the first
read `c`. A tick that reads the key again applies its local record; it publishes this record
when the second read `cur` is older, and leaves it unpublished when `cur` is at least as new. -/
def AppliesNewest (own : Option Record) (made : List KeyCall) (best : Record) : Prop :=
  (∀ l, own = some l → l.version ≤ best.version) ∧
  ∃ c, (∀ r, c = some r → r.version ≤ best.version) ∧
    (made = [.got c] ∨ own = some best ∧ ∃ cur,
      (made = [.got c, .got cur, .put best] ∧ ∀ r, cur = some r → r.version < best.version) ∨
      (made = [.got c, .got cur] ∧ ∃ r, cur = some r ∧ best.version ≤ r.version))

/-- What a tick applies, whatever other nodes do between its calls. -/
theorem applied_not_older_than_first_read (cl : ClusterKV K) (p : Provider P) (ord : MapOrder)
    (others : List (K → K)) (s : K) (w : P) (key : GoString) (best : Record)
    (h : (key, best) ∈ (sharedTick cl p ord others s w).calls) :
    AppliesNewest ((localMap (p.locals w).1).lookup key)
      (madeFor key (sharedTick cl p ord others s w).cluster) best := by
  have hmem : (key, best) ∈
      (sharedTick cl p ord others s w).calls.filter (fun call => call.1 = key) := by
    simpa using h
  rcases sharedTick_calls cl p ord others s w key with hnone | ⟨c, cur, hmade, hcalls⟩
  · simp [hnone] at hmem
  have hbest : pickNewer ((localMap (p.locals w).1).lookup key) c = some best := by
    simpa [hcalls, bestCall] using hmem
  obtain ⟨hown, hread⟩ := version_le_of_pickNewer hbest
  refine ⟨hown, c, hread, ?_⟩
  rw [hmade]
  rcases publishCalls_of_pickNewer hbest cur with hnone | ⟨hl, ⟨hput, hlt⟩ | ⟨hkept, hle⟩⟩
  · exact Or.inl (by rw [hnone])
  · exact Or.inr ⟨hl, cur, Or.inl ⟨by rw [hput], hlt⟩⟩
  · exact Or.inr ⟨hl, cur, Or.inr ⟨by rw [hkept], hle⟩⟩

/-- An empty cluster on which no call fails, and another node that publishes version 2
after the first read of a tick. -/
def overtaken : Shared ScriptedState :=
  ⟨⟨fun _ _ => none, ⟨.ok [], fun _ => Outcome.clean⟩, []⟩,
    [id, id, fun s => (scriptedKV.put (sampleRecord 2) s).2], []⟩

/-- The tick applies its own version 1 after it has read version 2. -/
theorem overtaken_local_applied :
    let p := fakeProvider (ascii "k")
    let tick := sharedTick scriptedKV p .insertion overtaken.others overtaken.cluster
      [sampleRecord 1]
    ErrorFree scriptedKV.shared p .insertion overtaken [sampleRecord 1] ∧
      madeFor (ascii "a") tick.cluster = [.got none, .got (some (sampleRecord 2))] ∧
      tick.calls = [(ascii "a", sampleRecord 1)] ∧
      (sampleRecord 1).version < (sampleRecord 2).version := by
  decide

/-- Between the two reads of a tick another node publishes an older record, which the tick then
replaces. -/
theorem older_rival_replaced :
    let p := fakeProvider (ascii "k")
    let rival := fun s => (scriptedKV.put (sampleRecord 0) s).2
    let tick := sharedTick scriptedKV p .insertion [id, id, rival] overtaken.cluster
      [sampleRecord 1]
    madeFor (ascii "a") tick.cluster =
        [.got none, .got (some (sampleRecord 0)), .put (sampleRecord 1)] ∧
      (ascii "a", sampleRecord 1) ∈ tick.calls ∧
      AppliesNewest ((localMap (p.locals [sampleRecord 1]).1).lookup (ascii "a"))
        (madeFor (ascii "a") tick.cluster) (sampleRecord 1) := by
  intro p rival tick
  have hcall : (ascii "a", sampleRecord 1) ∈ tick.calls := by decide
  exact ⟨by decide, hcall, applied_not_older_than_first_read scriptedKV p .insertion
    [id, id, rival] overtaken.cluster [sampleRecord 1] (ascii "a") (sampleRecord 1) hcall⟩

end Lbsync.Engine
