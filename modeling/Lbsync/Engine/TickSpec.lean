import Lbsync.Engine.ScriptedKV

/-!
# What one tick does

An undisturbed tick visits each local or known key once and decides it on what
belongs to that key alone: the last local record listed for it, its own cluster
entry and the outcomes of its own calls. The order in which the keys are visited
and the fate of the other keys do not matter. After the loop the hook runs when
some `Apply` reported a change, and its failure rolls back exactly the keys that
were reported. A provider that records its calls shows this.
-/

namespace Lbsync.Engine

variable {K P : Type*}

/-- A call of the engine to its provider, with what the provider returned. -/
inductive ProviderCall where
  | locals
  | apply (r : Record) (result : Except Err Bool)
  | flush (result : Except Err Unit)
  | rollback (keys : List GoString)
  deriving DecidableEq

/-- The same provider, recording the calls it gets. -/
def Provider.logged (p : Provider P) : Provider (P × List ProviderCall) where
  kind := p.kind
  locals w := ((p.locals w.1).1, (p.locals w.1).2, w.2 ++ [.locals])
  apply r w := ((p.apply r w.1).1, (p.apply r w.1).2, w.2 ++ [.apply r (p.apply r w.1).1])
  flush w := ((p.flush w.1).1, (p.flush w.1).2, w.2 ++ [.flush (p.flush w.1).1])
  rollback keys w := ((p.rollback keys w.1).1, (p.rollback keys w.1).2, w.2 ++ [.rollback keys])
  locals_kind w rs h := p.locals_kind w.1 rs h

/-- What `Apply` returns for the calls of a tick, in order. -/
def applyResults (p : Provider P) : List (GoString × Record) → P → List (Except Err Bool)
  | [], _ => []
  | call :: rest, w => (p.apply call.2 w).1 :: applyResults p rest (p.apply call.2 w).2

/-- The keys whose `Apply` reported a change. -/
def reportedKeys (calls : List (GoString × Record)) (results : List (Except Err Bool)) :
    List GoString :=
  (calls.zip results).filterMap fun c => if c.2 = .ok true then some c.1.1 else none

/-- The calls after the loop: none without a change, otherwise `Flush`, and `Rollback` of
the changed keys when it fails. -/
def hookCalls (changed : List GoString) (flushed : Except Err Unit) : List ProviderCall :=
  if changed = [] then []
  else
    match flushed with
    | .ok _ => [.flush flushed]
    | .error _ => [.flush flushed, .rollback changed]

theorem length_applyResults (p : Provider P) (calls : List (GoString × Record)) (w : P) :
    (applyResults p calls w).length = calls.length := by
  induction calls generalizing w with
  | nil => rfl
  | cons call rest ih => simp [applyResults, ih]

/-- The loop notes exactly the keys that were reported. -/
theorem foldl_applyCall_changed (p : Provider P) (calls : List (GoString × Record))
    (acc : P × List GoString) :
    (calls.foldl (applyCall p) acc).2 =
      acc.2 ++ reportedKeys calls (applyResults p calls acc.1) := by
  induction calls generalizing acc with
  | nil => simp [reportedKeys]
  | cons call rest ih =>
      rw [List.foldl_cons, ih, applyCall_snd, applyCall_fst]
      by_cases hchanged : (p.apply call.2 acc.1).1 = .ok true
      · simp [reportedKeys, applyResults, hchanged]
      · simp [reportedKeys, applyResults, hchanged]

theorem applyCall_logged (p : Provider P) (w : P) (log : List ProviderCall)
    (noted : List GoString) (call : GoString × Record) :
    applyCall p.logged ((w, log), noted) call =
      (((applyCall p (w, noted) call).1, log ++ [.apply call.2 (p.apply call.2 w).1]),
        (applyCall p (w, noted) call).2) := by
  refine Prod.ext ?_ ?_
  · rw [applyCall_fst, applyCall_fst]
    rfl
  · rw [applyCall_snd, applyCall_snd]
    rfl

/-- Recording changes nothing but the record. -/
theorem foldl_applyCall_logged (p : Provider P) (calls : List (GoString × Record))
    (acc : P × List GoString) (log : List ProviderCall) :
    calls.foldl (applyCall p.logged) ((acc.1, log), acc.2) =
      (((calls.foldl (applyCall p) acc).1,
        log ++ (calls.zip (applyResults p calls acc.1)).map fun c => .apply c.1.2 c.2),
        (calls.foldl (applyCall p) acc).2) := by
  induction calls generalizing acc log with
  | nil => simp [applyResults]
  | cons call rest ih =>
      rw [List.foldl_cons, List.foldl_cons, applyCall_logged, ih, applyCall_fst]
      simp [applyResults]

theorem finishTick_logged (p : Provider P) (changed : List GoString) (w : P)
    (log : List ProviderCall) :
    finishTick p.logged changed (w, log) =
      (finishTick p changed w, log ++ hookCalls changed (p.flush w).1) := by
  unfold finishTick hookCalls
  by_cases hnil : changed = []
  · simp [hnil]
  · rcases hflush : p.flush w with ⟨result, w'⟩
    have hlogged : p.logged.flush (w, log) = (result, w', log ++ [.flush result]) := by
      simp [Provider.logged, hflush]
    rw [if_neg hnil, if_neg hnil, if_neg hnil, hlogged]
    rcases result with e | u
    · simp [Provider.logged]
    · simp

/-- The loop treats the cluster alike and makes the same calls when they are recorded. -/
theorem foldl_processKey_logged (cl : ClusterKV K) (p : Provider P) (m : LocalMap)
    (keys : List GoString) (st : TickState K P) (st' : TickState K (P × List ProviderCall))
    (hst : st'.cluster = st.cluster ∧ st'.calls = st.calls) :
    (keys.foldl (processKey cl p.logged m) st').cluster =
        (keys.foldl (processKey cl p m) st).cluster ∧
      (keys.foldl (processKey cl p.logged m) st').calls =
        (keys.foldl (processKey cl p m) st).calls := by
  induction keys generalizing st st' with
  | nil => exact hst
  | cons key keys ih =>
      apply ih
      obtain ⟨hcluster, hcalls⟩ := hst
      simp [processKey, hcluster, hcalls, Provider.logged]

/-- Everything the provider is asked to do in a tick, in order. -/
theorem tickProvider_logged (cl : ClusterKV K) (p : Provider P) (ord : MapOrder) (s : K) (w : P) :
    let calls := (tickLoop cl p ord s w).calls
    let listed := (p.locals w).2
    let results := applyResults p calls listed
    let applied := (calls.foldl (applyCall p) (listed, [])).1
    tickProvider cl p.logged ord s (w, []) =
      ((tickProvider cl p ord s w).1, (tickProvider cl p ord s w).2,
        [.locals] ++ ((calls.zip results).map fun c => .apply c.1.2 c.2) ++
          hookCalls (reportedKeys calls results) (p.flush applied).1) := by
  intro calls listed results applied
  obtain ⟨hcluster, hcalls⟩ := foldl_processKey_logged cl p (localMap (p.locals w).1)
    (unionKeys ord (localMap (p.locals w).1) (cl.keys p.kind s).1)
    ⟨(cl.keys p.kind s).2, (p.locals w).2, [], []⟩
    ⟨(cl.keys p.kind s).2, ((p.locals w).2, [.locals]), [], []⟩ ⟨rfl, rfl⟩
  have hchanged := foldl_applyCall_changed p calls (listed, [])
  refine Prod.ext hcluster ?_
  have hcalls' : (tickLoop cl p.logged ord s (w, [])).calls = calls := hcalls
  have hlisted : (p.logged.locals (w, [])).2 = (listed, [.locals]) := rfl
  have hplain : (tickProvider cl p ord s w).2 =
      finishTick p (reportedKeys calls results) applied := by
    rw [tickProvider_snd, applyTick, foldl_applyCall_changed]
    rfl
  rw [hplain, tickProvider_snd, hcalls', hlisted, applyTick,
    foldl_applyCall_logged p calls (listed, []), finishTick_logged, foldl_applyCall_changed]
  rfl

theorem mem_reportedKeys {calls : List (GoString × Record)} {results : List (Except Err Bool)}
    {k : GoString} :
    k ∈ reportedKeys calls results ↔ ∃ r, ((k, r), .ok true) ∈ calls.zip results := by
  simp only [reportedKeys, List.mem_filterMap, Option.ite_none_right_eq_some]
  constructor
  · rintro ⟨⟨⟨j, r⟩, result⟩, hmem, rfl, hj⟩
    obtain rfl : j = k := Option.some.inj hj
    exact ⟨r, hmem⟩
  · rintro ⟨r, hmem⟩
    exact ⟨((k, r), .ok true), hmem, rfl, rfl⟩

/-- `Rollback` is among the calls after the loop exactly when something changed and the
hook failed. -/
theorem rollback_mem_hookCalls {changed keys : List GoString} {flushed : Except Err Unit} :
    .rollback keys ∈ hookCalls changed flushed ↔
      keys = changed ∧ changed ≠ [] ∧ ∃ e, flushed = .error e := by
  unfold hookCalls
  by_cases hnil : changed = []
  · simp [hnil]
  · cases flushed with
    | ok u => simp [hnil]
    | error e => simp [hnil]

section Spec

variable (p : Provider P)

/-- The last record `Local` lists for a key; none when it fails. -/
def ScriptedTick.lastListed (t : ScriptedTick P) (k : GoString) : Option Record :=
  match (p.locals t.world).1 with
  | .ok listed => listed.reverse.find? fun r => r.key = k
  | .error _ => none

theorem ScriptedTick.own_eq_lastListed (t : ScriptedTick P) (k : GoString) :
    t.own p k = t.lastListed p k := by
  unfold ScriptedTick.own ScriptedTick.lastListed
  cases (p.locals t.world).1 with
  | ok listed => exact lookup_indexLocals listed k
  | error e => rfl

/-- The keys of a tick are those that are listed locally and those the cluster knows. -/
theorem ScriptedTick.mem_keys (t : ScriptedTick P) (k : GoString) :
    k ∈ t.keys p ↔ (t.lastListed p k).isSome ∨ k ∈ knownKeys t.script.keys := by
  rw [ScriptedTick.keys, mem_unionKeys, ← t.own_eq_lastListed p, ScriptedTick.own,
    AList.lookup_isSome]

/-- The records given to `Apply` for a key, in order. -/
def ScriptedTick.appliedFor (t : ScriptedTick P) (st : Store) (k : GoString) : List Record :=
  ((t.loop p st).calls.filter fun call => call.1 = k).map Prod.snd

/-- A tick changes no entry of another kind and no entry of a key it does not visit. -/
theorem ScriptedTick.run_frame (t : ScriptedTick P) (st : Store) {kind k : GoString}
    (h : kind ≠ p.kind ∨ k ∉ t.keys p) : t.run p st kind k = st kind k := by
  let m := localMap (p.locals t.world).1
  have hloop (keys : List GoString) (s : TickState ScriptedState P)
      (hout : kind ≠ p.kind ∨ k ∉ keys) :
      (keys.foldl (processKey scriptedKV p m) s).cluster.store kind k =
        s.cluster.store kind k := by
    induction keys generalizing s with
    | nil => rfl
    | cons j keys ih =>
        have hj : kind ≠ p.kind ∨ k ≠ j :=
          hout.imp_right List.ne_of_not_mem_cons
        have hrest : kind ≠ p.kind ∨ k ∉ keys :=
          hout.imp_right List.not_mem_of_not_mem_cons
        rw [List.foldl_cons, ih _ hrest]
        exact (processKey_scripted_frame p t.world s j).2.2 kind k hj
  exact hloop (t.keys p) _ h

/-- What a tick does for a key it visits. -/
theorem ScriptedTick.effect (t : ScriptedTick P) (st : Store) {k : GoString}
    (hk : k ∈ t.keys p) :
    t.run p st p.kind k = published (t.lastListed p k) (st p.kind k) (t.script.call k) ∧
      t.appliedFor p st k =
        (pickNewer (t.lastListed p k) (readBy (t.script.call k).getOk (st p.kind k))).toList := by
  have hloop := t.loop_eq p st k
  rw [if_pos hk, t.own_eq_lastListed p] at hloop
  have hentry : t.run p st p.kind k = (keyState p k (t.loop p st)).1 := rfl
  have hcalls : t.appliedFor p st k = (keyState p k (t.loop p st)).2.map Prod.snd := rfl
  rw [hentry, hcalls, hloop, keyEffect, bestCall]
  refine ⟨rfl, ?_⟩
  cases pickNewer (t.lastListed p k) (readBy (t.script.call k).getOk (st p.kind k)) <;> rfl

/-- When the reads and the `Put` of a key succeed, its entry becomes the winner. -/
theorem published_of_ok {own stored : Option Record} {o : Outcome} (hget : o.getOk = true)
    (hrecheck : o.recheckOk = true) (hput : o.put = .stored) :
    published own stored o = pickNewer own stored := by
  cases own with
  | none => cases stored <;> rfl
  | some l =>
      cases stored with
      | none => simp [published, readBy, hget, hrecheck, hput, keeps, pickNewer]
      | some c =>
          cases hnewer : l.version.newer c.version <;>
            simp [published, readBy, hget, hrecheck, hput, keeps, pickNewer, hnewer]

/-- The engine's specification. A tick visits each listed or known key once and changes no
other entry; what it does for a key is a function of what belongs to that key; without a
failed call for the key both its entry and the record given to `Apply` are the newer of the
local and the stored record; and `Rollback` is called exactly when some `Apply` reported a
change and `Flush` failed, with the keys that were reported. -/
theorem tick_decomposes (t : ScriptedTick P) (st : Store) :
    ((t.keys p).Nodup ∧
      (∀ k, k ∈ t.keys p ↔ (t.lastListed p k).isSome ∨ k ∈ knownKeys t.script.keys) ∧
      t.loop p st = (t.keys p).foldl (processKey scriptedKV p (localMap (p.locals t.world).1))
        ⟨⟨st, t.script, []⟩, (p.locals t.world).2, [], []⟩) ∧
    (∀ kind k, kind ≠ p.kind ∨ k ∉ t.keys p → t.run p st kind k = st kind k) ∧
    (∀ k ∈ t.keys p,
      t.run p st p.kind k = published (t.lastListed p k) (st p.kind k) (t.script.call k) ∧
      t.appliedFor p st k =
        (pickNewer (t.lastListed p k) (readBy (t.script.call k).getOk (st p.kind k))).toList) ∧
    (∀ (t' : ScriptedTick P) (st' : Store), ∀ k ∈ t.keys p, k ∈ t'.keys p →
      t'.lastListed p k = t.lastListed p k → st' p.kind k = st p.kind k →
      t'.script.call k = t.script.call k →
      t'.run p st' p.kind k = t.run p st p.kind k ∧
        t'.appliedFor p st' k = t.appliedFor p st k) ∧
    (∀ k ∈ t.keys p, (t.script.call k).getOk = true → (t.script.call k).recheckOk = true →
      (t.script.call k).put = .stored →
      t.run p st p.kind k = pickNewer (t.lastListed p k) (st p.kind k) ∧
        t.appliedFor p st k = (pickNewer (t.lastListed p k) (st p.kind k)).toList) ∧
    (let calls := (t.loop p st).calls
      let listed := (p.locals t.world).2
      let results := applyResults p calls listed
      let flushed := (p.flush (calls.foldl (applyCall p) (listed, [])).1).1
      let logged := tickProvider scriptedKV p.logged t.order ⟨st, t.script, []⟩ (t.world, [])
      logged.1 = (tickProvider scriptedKV p t.order ⟨st, t.script, []⟩ t.world).1 ∧
      logged.2.1 = (tickProvider scriptedKV p t.order ⟨st, t.script, []⟩ t.world).2 ∧
      results.length = calls.length ∧
      logged.2.2 = [.locals] ++ ((calls.zip results).map fun c => .apply c.1.2 c.2) ++
        hookCalls (reportedKeys calls results) flushed ∧
      (∀ keys, .rollback keys ∈ logged.2.2 ↔
        keys = reportedKeys calls results ∧ keys ≠ [] ∧ ∃ e, flushed = .error e) ∧
      ∀ k, k ∈ reportedKeys calls results ↔ ∃ r, ((k, r), .ok true) ∈ calls.zip results) := by
  refine ⟨⟨unionKeys_nodup _ _ _, t.mem_keys p, rfl⟩, fun _ _ h => t.run_frame p st h,
    fun _ hk => t.effect p st hk, ?_, ?_, ?_⟩
  · intro t' st' k hk hk' hown hstored hcall
    obtain ⟨hentry, happlied⟩ := t.effect p st hk
    obtain ⟨hentry', happlied'⟩ := t'.effect p st' hk'
    rw [hown, hstored, hcall] at hentry' happlied'
    exact ⟨hentry'.trans hentry.symm, happlied'.trans happlied.symm⟩
  · intro k hk hget hrecheck hput
    obtain ⟨hentry, happlied⟩ := t.effect p st hk
    rw [published_of_ok hget hrecheck hput] at hentry
    rw [hget] at happlied
    exact ⟨hentry, happlied⟩
  · intro calls listed results flushed logged
    have hlogged : logged = _ := tickProvider_logged scriptedKV p t.order ⟨st, t.script, []⟩ t.world
    refine ⟨by rw [hlogged], by rw [hlogged], length_applyResults p calls listed,
      by rw [hlogged]; rfl, fun keys => ?_, fun k => mem_reportedKeys⟩
    have hcalls : (tickLoop scriptedKV p t.order ⟨st, t.script, []⟩ t.world).calls = calls := rfl
    rw [hlogged]
    simp only [List.mem_append, rollback_mem_hookCalls, hcalls]
    constructor
    · rintro ((h | h) | ⟨rfl, hne, hfail⟩)
      · simp at h
      · simp at h
      · exact ⟨rfl, hne, hfail⟩
    · rintro ⟨rfl, hne, hfail⟩
      exact Or.inr ⟨rfl, hne, hfail⟩

end Spec

end Lbsync.Engine
