import Lbsync.Olric.Facade
import Lbsync.Engine.ErrorFree
import Lbsync.Lib.Frames

/-!
# An error-free tick on the facade

An error-free tick of one node, undisturbed by the others, leaves under every
key the newest of the local and the stored record, with the stored one kept on a
tie. It adds a key to the index exactly when it publishes a record for it. Keys
may be arbitrary, including the reserved names: a tick that runs into one of
them is not error-free.
-/

namespace Lbsync.Olric

open Engine

variable {T P : Type*} [DecidableEq T]

/-- Whether the index lists the key; none when the index is not readable. -/
def DMap.listed (dm : DMap T) (key : GoString) : Option Bool :=
  dm.indexed.map fun keys => decide (key ∈ keys)

omit [DecidableEq T] in
theorem DMap.listed_congr {dm dm' : DMap T} (h : dm'.indexed = dm.indexed) :
    dm'.listed = dm.listed := by
  funext key
  rw [listed, listed, h]

/-- What `Keys` returns for a kind when the call itself does not fail. -/
def Cluster.keysNow (c : Cluster T) (kind : GoString) : Except Err (List GoString) :=
  (readIndex { c.dmaps kind with faults := [] }).1

/-- `Keys` lists the key. -/
def Cluster.Lists (c : Cluster T) (kind key : GoString) : Prop :=
  ∃ keys, c.keysNow kind = .ok keys ∧ key ∈ keys

omit [DecidableEq T] in
theorem Cluster.lists_iff {c : Cluster T} {kind key : GoString} :
    c.Lists kind key ↔ (c.dmaps kind).listed key = some true := by
  unfold Cluster.Lists Cluster.keysNow readIndex DMap.get DMap.listed DMap.indexed
  simp only [DMap.fails, List.headD_nil, Bool.false_eq_true, if_false]
  cases (c.dmaps kind).entries indexKey with
  | none => simp
  | some v => cases v <;> simp [decodeStrings]

/-- What the clean visit of a key does to the DMap of its kind. -/
structure VisitEffect (key : GoString) (own : Option Record) (dm dm' : DMap T) : Prop where
  stored : ∀ k, dm'.stored k = if k = key then pickNewer own (dm.stored key) else dm.stored k
  index : ∀ k, dm'.listed k =
    if k = key ∧ versionOf (dm.stored key) < versionOf own then some true else dm.listed k

omit [DecidableEq T] in
theorem VisitEffect.of_skip {key : GoString} {own : Option Record} {dm dm' : DMap T}
    (he : dm'.entries = dm.entries)
    (hskip : ∀ l, own = some l → keeps l (dm.stored key) = true) :
    VisitEffect key own dm dm' := by
  have hle : versionOf own ≤ versionOf (dm.stored key) := by
    cases own with
    | none => simp
    | some l => exact keeps_iff.mp (hskip l rfl)
  constructor
  · intro k
    rw [DMap.stored_congr he, pickNewer_of_le hle]
    split_ifs with hk
    · rw [hk]
    · rfl
  · intro k
    rw [DMap.listed_congr (DMap.indexed_congr he), if_neg fun h => not_lt.mpr hle h.2]

theorem VisitEffect.of_publish {t : T} {key : GoString} {l : Record} {dm dm₁ dm₂ dm₃ : DMap T}
    (hkey : l.key = key) (hnewer : keeps l (dm.stored key) = false)
    (hlock : dm.entries (lockName key) = none ∧
      dm₁.entries = Function.update dm.entries (lockName key) (some (.token t)))
    (hget : dm₂.entries = dm₁.entries) (hput : PutEffect l dm₂ dm₃) :
    VisitEffect key (some l) dm (releaseIn t key dm₃) := by
  have hlt : versionOf (dm.stored key) < versionOf (some l) := keeps_eq_false_iff.mp hnewer
  have hstored : dm₂.stored = dm.stored :=
    (DMap.stored_congr hget).trans (DMap.stored_of_token_added hlock.1 hlock.2)
  have hindexed : dm₂.indexed = dm.indexed :=
    (DMap.indexed_congr hget).trans
      (DMap.indexed_of_update_ne (lockName_ne_indexKey key) hlock.2)
  obtain ⟨hrs, hri, _⟩ := releaseIn_spec dm₃ t key
  obtain ⟨⟨keys, hkeys, hkeys'⟩, hput, _⟩ := hput
  constructor
  · intro k
    rw [hrs, hput, hkey, hstored, pickNewer_of_lt hlt]
  · intro k
    rw [hindexed] at hkeys
    rw [hkey] at hkeys'
    simp only [DMap.listed, hri, hkeys, hkeys', Option.map_some, hlt, and_true]
    by_cases hk : k = key
    · subst hk
      by_cases hmem : k ∈ keys <;> simp [hmem]
    · by_cases hmem : key ∈ keys <;> simp [hk, hmem]

/-- A clean publish decision after a successful first read has the visit's effect. -/
theorem visitEffect_of_clean {t : T} {kind key : GoString} {own o : Option Record}
    {c c₁ c' : Cluster T} (hown : ∀ l, own = some l → l.key = key ∧ l.kind = kind)
    (hread : (kv t).get kind key c = (.ok o, c₁))
    (hclean : CleanPublish (kv t) kind key own o c₁ c') :
    o = (c.dmaps kind).stored key ∧ VisitEffect key own (c.dmaps kind) (c'.dmaps kind) := by
  obtain ⟨hread, -⟩ := Cluster.onDMap_ok hread
  obtain ⟨hsame, ho, -⟩ := getIn_ok hread
  refine ⟨ho, ?_⟩
  cases hclean with
  | skip hskip => exact VisitEffect.of_skip hsame (ho ▸ hskip)
  | @overtaken l _ cur _ c₂ c₃ hnewer hlock hrecheck hcur =>
      obtain ⟨hlock, -⟩ := Cluster.onDMap_ok hlock
      obtain ⟨hrecheck, -⟩ := Cluster.onDMap_ok hrecheck
      obtain ⟨hfree, htoken⟩ := lockIn_ok hlock
      obtain ⟨-, hcur', -⟩ := getIn_ok hrecheck
      have hcuro : cur = o := by
        rw [hcur', DMap.stored_of_token_added hfree htoken, DMap.stored_congr hsame, ho]
      rw [hcuro, hnewer] at hcur
      exact Bool.noConfusion hcur
  | @publish l _ cur _ c₂ c₃ c₄ hnewer hlock hrecheck hcur hput =>
      obtain ⟨hkey, hkind⟩ := hown l rfl
      have hput' : c₃.onDMap kind (putIn t l) = (.ok (), c₄) := hkind ▸ hput
      obtain ⟨hlock, -⟩ := Cluster.onDMap_ok hlock
      obtain ⟨hrecheck, -⟩ := Cluster.onDMap_ok hrecheck
      obtain ⟨hput, hopen⟩ := Cluster.onDMap_ok hput'
      rw [release_dmaps t key hopen]
      apply VisitEffect.of_publish hkey (ho ▸ hnewer) _ (getIn_ok hrecheck).1 (putIn_ok hput)
      exact hsame ▸ lockIn_ok hlock

/-- What an error-free tick does to the DMap of its kind and hands to `Apply`. -/
structure TickEffect (own : GoString → Option Record) (dm dm' : DMap T)
    (calls : List (GoString × Record)) : Prop where
  stored : ∀ k, dm'.stored k = pickNewer (own k) (dm.stored k)
  index : ∀ k, dm'.listed k =
    if versionOf (dm.stored k) < versionOf (own k) then some true else dm.listed k
  readable : ∀ k, (dm.listed k).isSome
  calls : ∀ k, ((own k).isSome ∨ dm.listed k = some true) →
    calls.filter (fun call => call.1 = k) = bestCall k (own k) (dm.stored k)

/-- What a tick can see of one key. -/
def keyView (kind k : GoString) (st : TickState (Cluster T × Bool) P) :
    Option Record × Option Bool × List (GoString × Record) :=
  ((st.cluster.1.dmaps kind).stored k, (st.cluster.1.dmaps kind).listed k,
    st.calls.filter fun call => call.1 = k)

variable {t : T} {p : Provider P} {ord : MapOrder} {c : Cluster T} {w : P}

/-- The visit of one key is the only one that shows in the view of that key. -/
theorem keyView_owns (k : GoString) :
    Frames.Owns (processKey (kv t).watch p (localMap (p.locals w).1))
      (fun st => st.cluster.2 = false) (keyView p.kind k) k := by
  refine ⟨fun st j h => (cleanVisit_of_unmarked h).1, fun st j h hj => ?_⟩
  obtain ⟨-, o, c₁, hread, hclean, hcalls⟩ := cleanVisit_of_unmarked h
  obtain ⟨-, heff⟩ := visitEffect_of_clean (fun l hl => p.of_lookup hl) hread hclean
  have hk : k ≠ j := Ne.symm hj
  simp only [keyView, Prod.mk.injEq]
  refine ⟨by rw [heff.stored, if_neg hk], by rw [heff.index, if_neg fun h => hk h.1], ?_⟩
  rw [hcalls, List.filter_append, filter_bestCall_of_ne hj, List.append_nil]

/-- The view of a key after its own visit. -/
theorem keyView_visit {k : GoString} {st : TickState (Cluster T × Bool) P}
    (h : (processKey (kv t).watch p (localMap (p.locals w).1) st k).cluster.2 = false) :
    keyView p.kind k (processKey (kv t).watch p (localMap (p.locals w).1) st k) =
      (pickNewer ((localMap (p.locals w).1).lookup k) (keyView p.kind k st).1,
        (if versionOf (keyView p.kind k st).1 < versionOf ((localMap (p.locals w).1).lookup k)
          then some true else (keyView p.kind k st).2.1),
        (keyView p.kind k st).2.2 ++
          bestCall k ((localMap (p.locals w).1).lookup k) (keyView p.kind k st).1) := by
  obtain ⟨-, o, c₁, hread, hclean, hcalls⟩ := cleanVisit_of_unmarked h
  obtain ⟨ho, heff⟩ := visitEffect_of_clean (fun l hl => p.of_lookup hl) hread hclean
  simp only [keyView, Prod.mk.injEq]
  refine ⟨by rw [heff.stored, if_pos rfl],
    (heff.index k).trans (if_congr (and_iff_right rfl) rfl rfl), ?_⟩
  rw [hcalls, List.filter_append, filter_bestCall_self, ho]

/-- The keys an error-free tick starts with are those of the index. -/
theorem knownKeys_of_errorFree (h : ErrorFree (kv t) p ord c w) :
    ∃ ks c₀, (kv t).keys p.kind c = (.ok ks, c₀) ∧ (c.dmaps p.kind).indexed = some ks ∧
      (c₀.dmaps p.kind).entries = (c.dmaps p.kind).entries := by
  rcases hkeys : (kv t).keys p.kind c with ⟨res, c₀⟩
  have hstart : ((kv t).watch.keys p.kind (c, false)).2.2 = false :=
    @Frames.good_of_foldl _ _ _ (fun st : TickState (Cluster T × Bool) P => st.cluster.2 = false)
      (fun st j hj => (cleanVisit_of_unmarked hj).1) _ _ h
  have hok : isError res = false := by simpa [ClusterKV.watch, hkeys] using hstart
  obtain ⟨ks, rfl⟩ := eq_ok_of_isError hok
  obtain ⟨hread, -⟩ := Cluster.onDMap_ok hkeys
  obtain ⟨hsame, hindexed⟩ := readIndex_ok hread
  exact ⟨ks, c₀, rfl, hindexed, hsame⟩

/-- The loop of an error-free tick starts with the keys of the index and is never marked. -/
theorem watchLoop_of_errorFree (h : ErrorFree (kv t) p ord c w) :
    ∃ ks c₀, (kv t).keys p.kind c = (.ok ks, c₀) ∧ (c.dmaps p.kind).indexed = some ks ∧
      (c₀.dmaps p.kind).entries = (c.dmaps p.kind).entries ∧
      let last := (unionKeys ord (localMap (p.locals w).1) (.ok ks)).foldl
        (processKey (kv t).watch p (localMap (p.locals w).1))
        ⟨(c₀, false), (p.locals w).2, [], []⟩
      last.cluster.2 = false ∧ tickLoop (kv t) p ord c w = last.forget := by
  obtain ⟨ks, c₀, hkeys, hindexed, hsame⟩ := knownKeys_of_errorFree h
  refine ⟨ks, c₀, hkeys, hindexed, hsame, ?_⟩
  intro last
  have hloop : tickLoop (kv t).watch p ord (c, false) w = last := by
    simp only [tickLoop, ClusterKV.watch, hkeys, isError, Bool.or_false, last]
  exact ⟨hloop ▸ h, by rw [← tickLoop_watch (kv t) p ord c false w, hloop]⟩

/-- An error-free tick keeps the newest copy of every key, indexes what it
publishes, and applies the winner of every key it knows. -/
theorem tickEffect_of_errorFree (h : ErrorFree (kv t) p ord c w) :
    TickEffect (fun k => (localMap (p.locals w).1).lookup k) (c.dmaps p.kind)
      ((tickLoop (kv t) p ord c w).cluster.dmaps p.kind) (tickLoop (kv t) p ord c w).calls := by
  obtain ⟨ks, c₀, -, hindexed, hsame, hlast, hplain⟩ := watchLoop_of_errorFree h
  let m := localMap (p.locals w).1
  let start : TickState (Cluster T × Bool) P := ⟨(c₀, false), (p.locals w).2, [], []⟩
  let keys := unionKeys ord m (.ok ks)
  let last := keys.foldl (processKey (kv t).watch p m) start
  have hview (k : GoString) : keyView p.kind k start =
      ((c.dmaps p.kind).stored k, (c.dmaps p.kind).listed k, []) := by
    simp only [keyView, start, DMap.stored_congr hsame,
      DMap.listed_congr (DMap.indexed_congr hsame), List.filter_nil]
  have hvisited (k : GoString) (hk : k ∈ keys) : keyView p.kind k last =
      (pickNewer (m.lookup k) ((c.dmaps p.kind).stored k),
        (if versionOf ((c.dmaps p.kind).stored k) < versionOf (m.lookup k) then some true
          else (c.dmaps p.kind).listed k),
        bestCall k (m.lookup k) ((c.dmaps p.kind).stored k)) := by
    obtain ⟨mid, hgood, hmid, hend⟩ :=
      (keyView_owns k).foldl_of_mem (unionKeys_nodup ord m (.ok ks)) hk hlast
    rw [hend, keyView_visit hgood, hmid, hview]
    rfl
  have hother (k : GoString) (hk : k ∉ keys) : keyView p.kind k last =
      ((c.dmaps p.kind).stored k, (c.dmaps p.kind).listed k, []) := by
    rw [(keyView_owns k).foldl_of_notMem hk hlast, hview]
  rw [hplain]
  refine ⟨fun k => ?_, fun k => ?_, fun k => by simp [DMap.listed, hindexed], fun k hk => ?_⟩
  · by_cases hmem : k ∈ keys
    · exact congrArg Prod.fst (hvisited k hmem)
    · rw [lookup_eq_none_of_notMem_unionKeys hmem]
      exact congrArg Prod.fst (hother k hmem)
  · by_cases hmem : k ∈ keys
    · exact congrArg (fun v => v.2.1) (hvisited k hmem)
    · rw [lookup_eq_none_of_notMem_unionKeys hmem, if_neg (by simp)]
      exact congrArg (fun v => v.2.1) (hother k hmem)
  · have hmem : k ∈ keys := by
      rw [mem_unionKeys]
      rcases hk with hk | hk
      · exact Or.inl (AList.lookup_isSome.mp hk)
      · exact Or.inr (by simpa [DMap.listed, hindexed, knownKeys] using hk)
    exact congrArg (fun v => v.2.2) (hvisited k hmem)

end Lbsync.Olric
