import Lbsync.Engine.Gather

/-!
# Error-free ticks

The engine drops every error, so whether a tick was error-free cannot be read
off its result. `ClusterKV.watch` runs the same calls and marks the first
failure; it changes nothing else. `CleanVisit` then lists the three ways the
visit of one key can go when no call fails.
-/

namespace Lbsync.Engine

variable {K P : Type*}

/-- Whether a call returned an error. -/
def isError {α : Type*} : Except Err α → Bool
  | .ok _ => false
  | .error _ => true

theorem eq_ok_of_isError {α : Type*} {r : Except Err α} (h : isError r = false) :
    ∃ a, r = .ok a := by
  cases r with
  | ok a => exact ⟨a, rfl⟩
  | error e => exact Bool.noConfusion h

/-- The same cluster with a mark that is set by the first failing call. -/
def ClusterKV.watch (cl : ClusterKV K) : ClusterKV (K × Bool) where
  get kind key s :=
    let r := cl.get kind key s.1
    (r.1, r.2, s.2 || isError r.1)
  put rec s :=
    let r := cl.put rec s.1
    (r.1, r.2, s.2 || isError r.1)
  keys kind s :=
    let r := cl.keys kind s.1
    (r.1, r.2, s.2 || isError r.1)
  lock kind key s :=
    let r := cl.lock kind key s.1
    (r.1, r.2, s.2 || isError r.1)
  release kind key s := (cl.release kind key s.1, s.2)

/-- Forget the mark. -/
def TickState.forget (st : TickState (K × Bool) P) : TickState K P :=
  ⟨st.cluster.1, st.provider, st.changed, st.calls⟩

theorem maybePublish_watch (cl : ClusterKV K) (kind key : GoString) (own clusterR : Option Record)
    (s : K × Bool) :
    (maybePublish cl.watch kind key own clusterR s).1 =
      maybePublish cl kind key own clusterR s.1 := by
  cases own with
  | none => rfl
  | some l =>
      simp only [maybePublish]
      by_cases h₁ : keeps l clusterR
      · simp [h₁]
      · by_cases h₂ : keeps l (gotRecord (cl.get kind key (cl.lock kind key s.1).2).1)
        · cases h₃ : (cl.lock kind key s.1).1 <;> simp [h₁, h₂, h₃, ClusterKV.watch]
        · cases h₃ : (cl.lock kind key s.1).1 <;> simp [h₁, h₂, h₃, ClusterKV.watch]

theorem processKey_watch (cl : ClusterKV K) (p : Provider P) (m : LocalMap)
    (st : TickState (K × Bool) P) (key : GoString) :
    (processKey cl.watch p m st key).forget = processKey cl p m st.forget key := by
  simp only [processKey, TickState.forget, maybePublish_watch]
  rfl

/-- Watching a tick changes nothing but the mark. -/
theorem tickLoop_watch (cl : ClusterKV K) (p : Provider P) (ord : MapOrder) (s : K) (b : Bool)
    (w : P) : (tickLoop cl.watch p ord (s, b) w).forget = tickLoop cl p ord s w := by
  have hloop (m : LocalMap) (keys : List GoString) (st : TickState (K × Bool) P) :
      (keys.foldl (processKey cl.watch p m) st).forget =
        keys.foldl (processKey cl p m) st.forget := by
    induction keys generalizing st with
    | nil => rfl
    | cons key keys ih => rw [List.foldl_cons, ih, processKey_watch, List.foldl_cons]
  exact hloop _ _ _

/-- No cluster call of the tick returns an error. -/
def ErrorFree (cl : ClusterKV K) (p : Provider P) (ord : MapOrder) (s : K) (w : P) : Prop :=
  (tickLoop cl.watch p ord (s, false) w).cluster.2 = false

instance (cl : ClusterKV K) (p : Provider P) (ord : MapOrder) (s : K) (w : P) :
    Decidable (ErrorFree cl p ord s w) :=
  inferInstanceAs (Decidable ((tickLoop cl.watch p ord (s, false) w).cluster.2 = false))

/-- What a publish decision does to the cluster when none of its calls fails. The
lock is acquired, so it is released at the end. -/
inductive CleanPublish (cl : ClusterKV K) (kind key : GoString) :
    Option Record → Option Record → K → K → Prop
  | skip {own o : Option Record} {s : K} (hskip : ∀ l, own = some l → keeps l o = true) :
      CleanPublish cl kind key own o s s
  | overtaken {l : Record} {o cur : Option Record} {s s₁ s₂ : K} (hnewer : keeps l o = false)
      (hlock : cl.lock kind key s = (.ok (), s₁)) (hrecheck : cl.get kind key s₁ = (.ok cur, s₂))
      (hcur : keeps l cur = true) :
      CleanPublish cl kind key (some l) o s (cl.release kind key s₂)
  | publish {l : Record} {o cur : Option Record} {s s₁ s₂ s₃ : K} (hnewer : keeps l o = false)
      (hlock : cl.lock kind key s = (.ok (), s₁)) (hrecheck : cl.get kind key s₁ = (.ok cur, s₂))
      (hcur : keeps l cur = false) (hput : cl.put l s₂ = (.ok (), s₃)) :
      CleanPublish cl kind key (some l) o s (cl.release kind key s₃)

/-- Without a local record there is nothing to decide. -/
theorem CleanPublish.eq_of_none {cl : ClusterKV K} {kind key : GoString} {o : Option Record}
    {s s' : K} (h : CleanPublish cl kind key none o s s') : s' = s := by
  cases h with
  | skip _ => rfl

/-- An unmarked publish decision starts unmarked and is clean. -/
theorem cleanPublish_of_unmarked {cl : ClusterKV K} {kind key : GoString}
    {own o : Option Record} {s : K × Bool}
    (h : (maybePublish cl.watch kind key own o s).2 = false) :
    s.2 = false ∧ CleanPublish cl kind key own o s.1 (maybePublish cl kind key own o s.1) := by
  cases own with
  | none => exact ⟨h, CleanPublish.skip fun l hl => nomatch hl⟩
  | some l =>
      by_cases hkeep : keeps l o = true
      · simp only [maybePublish, hkeep, if_true] at h ⊢
        refine ⟨h, CleanPublish.skip fun l' hl' => ?_⟩
        cases hl'
        exact hkeep
      · have hnewer : keeps l o = false := Bool.eq_false_iff.mpr hkeep
        simp only [maybePublish, hnewer, Bool.false_eq_true, if_false] at h ⊢
        -- the three calls in the order the source makes them
        rcases hlock : cl.lock kind key s.1 with ⟨lockRes, s₁⟩
        rcases hget : cl.get kind key s₁ with ⟨getRes, s₂⟩
        rcases hput : cl.put l s₂ with ⟨putRes, s₃⟩
        cases lockRes with
        | error e => split_ifs at h <;> simp [ClusterKV.watch, hlock, isError] at h
        | ok u =>
            cases getRes with
            | error e => split_ifs at h <;> simp [ClusterKV.watch, hlock, hget, isError] at h
            | ok cur =>
                by_cases hcur : keeps l cur = true
                · simp [ClusterKV.watch, hlock, hget, hcur, gotRecord, isError] at h ⊢
                  exact ⟨h, CleanPublish.overtaken hnewer hlock hget hcur⟩
                · have hwrite : keeps l cur = false := Bool.eq_false_iff.mpr hcur
                  cases putRes with
                  | error e =>
                      simp [ClusterKV.watch, hlock, hget, hput, hwrite, gotRecord, isError] at h
                  | ok v =>
                      simp [ClusterKV.watch, hlock, hget, hput, hwrite, gotRecord, isError] at h ⊢
                      exact ⟨h, CleanPublish.publish hnewer hlock hget hwrite hput⟩

/-- An unmarked visit starts unmarked; its first read succeeds, its publish
decision is clean, and the winner of the local record and the first read is
handed to `Apply`. -/
theorem cleanVisit_of_unmarked {cl : ClusterKV K} {p : Provider P} {m : LocalMap}
    {st : TickState (K × Bool) P} {key : GoString}
    (h : (processKey cl.watch p m st key).cluster.2 = false) :
    st.cluster.2 = false ∧ ∃ o s₁,
      cl.get p.kind key st.cluster.1 = (.ok o, s₁) ∧
      CleanPublish cl p.kind key (m.lookup key) o s₁
        (processKey cl.watch p m st key).cluster.1 ∧
      (processKey cl.watch p m st key).calls = st.calls ++ bestCall key (m.lookup key) o := by
  rcases hget : cl.get p.kind key st.cluster.1 with ⟨getRes, s₁⟩
  obtain ⟨hmark, hclean⟩ := cleanPublish_of_unmarked h
  have hunmarked : st.cluster.2 = false ∧ isError getRes = false := by
    simpa [ClusterKV.watch, hget] using hmark
  obtain ⟨o, rfl⟩ := eq_ok_of_isError hunmarked.2
  refine ⟨hunmarked.1, o, s₁, rfl, ?_, ?_⟩
  · simp only [processKey, maybePublish_watch]
    simpa [ClusterKV.watch, hget, gotRecord] using hclean
  · simp [processKey, ClusterKV.watch, hget, gotRecord]

end Lbsync.Engine
