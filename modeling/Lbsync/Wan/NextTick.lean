import Lbsync.Engine.NextTick
import Lbsync.Wan.KeyListing
import Lbsync.Wan.SoloTick

/-!
# Ticks of a WAN node

A tick of a node whose stores and peers nobody else touches merges: a record it
publishes is found in its own store from then on, and the answers of the peers do not
change. `Keys` then lists no key the tick did not know.
-/

namespace Lbsync.Wan

open Engine

variable {N P : Type*} [DecidableEq N] {peers : N → List N} {answers : N → Bool}
  {visit : MapOrder} {n : N} {p : Provider P}

section Put

variable {ps : List N} {kind key : GoString} {l : Record} {net : Net N}

/-- A put record is found under its key, and under no other. -/
theorem lookup_put (hkind : l.kind = kind) (k : GoString) :
    (net.put ps n l).lookup ps answers n kind k =
      if k = l.key then some l else net.lookup ps answers n kind k := by
  by_cases hk : k = l.key
  · rw [if_pos hk, Net.lookup, stored_put net hkind, if_pos ⟨rfl, hk⟩]
  · have hstored (q : N) : (net.put ps n l).stored q kind k = net.stored q kind k := by
      rw [stored_put net hkind, if_neg fun h => hk h.2]
    simp only [if_neg hk, Net.lookup, hstored]

omit [DecidableEq N] in
/-- The keys of a node are those of its own store and of the peers that answer. -/
theorem mem_keys {k : GoString} :
    k ∈ net.keys ps answers n kind ↔ k ∈ handleGetKeys kind (net.stores n) ∨
      ∃ q ∈ ps.filter answers, k ∈ handleGetKeys kind (net.stores q) := by
  have hloop (qs : List N) (seen : List GoString) :
      k ∈ qs.foldl (fun seen q => addKeys seen (handleGetKeys kind (net.stores q))) seen ↔
        k ∈ seen ∨ ∃ q ∈ qs, k ∈ handleGetKeys kind (net.stores q) := by
    induction qs generalizing seen with
    | nil => simp
    | cons q qs ih =>
        simp only [List.foldl_cons, ih, mem_addKeys, List.mem_cons, exists_eq_or_imp, or_assoc]
  exact hloop _ _

omit [DecidableEq N] in
/-- A store that holds records under no other keys lists no others. -/
theorem keys_mono {net' : Net N} {k : GoString}
    (h : ∀ q, (net'.stored q kind k).isSome → (net.stored q kind k).isSome)
    (hk : k ∈ net'.keys ps answers n kind) : k ∈ net.keys ps answers n kind := by
  have hstore (q : N) (hq : k ∈ handleGetKeys kind (net'.stores q)) :
      k ∈ handleGetKeys kind (net.stores q) := by
    obtain ⟨hne, hr⟩ := mem_handleGetKeys.mp hq
    exact mem_handleGetKeys.mpr ⟨hne, Option.isSome_iff_exists.mp
      (h q (Option.isSome_iff_exists.mpr hr))⟩
  rw [mem_keys] at hk ⊢
  rcases hk with hown | ⟨q, hq, hpeer⟩
  · exact Or.inl (hstore n hown)
  · exact Or.inr ⟨q, hq, hstore q hpeer⟩

end Put

omit [DecidableEq N] in
/-- What `Get` finds stands in one of the stores. -/
theorem ownKeys_lookup {net : Net N} {kind : GoString} {ps : List N}
    (h : ∀ q, OwnKeys (net.stored q kind)) : OwnKeys (net.lookup ps answers n kind) := by
  intro k r hr
  rw [Net.lookup] at hr
  cases hown : net.stored n kind k with
  | some l =>
      rw [hown] at hr
      exact h n k r (hown.trans hr)
  | none =>
      rw [hown] at hr
      obtain ⟨q, -, hq⟩ := List.exists_of_findSome?_eq_some hr
      exact h q k r hq

section Tick

variable (peers answers visit n) {ord : MapOrder} {net : Net N} {w : P}

section Visit

variable {m : LocalMap} (hm : OfKind p.kind m) (st : TickState (Net N) P)

include hm

/-- A visit leaves the winner under its key and nothing else. -/
theorem lookup_visit (key k : GoString) :
    (processKey (backend peers answers visit n) p m st key).cluster.lookup
        (peers n) answers n p.kind k =
      if k = key then
        pickNewer (m.lookup k) (st.cluster.lookup (peers n) answers n p.kind k)
      else st.cluster.lookup (peers n) answers n p.kind k := by
  have hkept (hle : versionOf (m.lookup key) ≤
      versionOf (st.cluster.lookup (peers n) answers n p.kind key)) :
      st.cluster.lookup (peers n) answers n p.kind k =
        if k = key then
          pickNewer (m.lookup k) (st.cluster.lookup (peers n) answers n p.kind k)
        else st.cluster.lookup (peers n) answers n p.kind k := by
    split_ifs with hk
    · rw [hk, pickNewer_of_le hle]
    · rfl
  rw [processKey_backend]
  cases hown : m.lookup key with
  | none => exact hkept (by simp [hown])
  | some l =>
      obtain ⟨hkey, hkind⟩ := hm key l hown
      by_cases hkeeps : keeps l (st.cluster.lookup (peers n) answers n p.kind key) = true
      · simp only [if_pos hkeeps]
        exact hkept (hown ▸ keeps_iff.mp hkeeps)
      · have hlt := keeps_eq_false_iff.mp (Bool.eq_false_of_not_eq_true hkeeps)
        simp only [if_neg hkeeps]
        rw [lookup_put hkind, hkey]
        split_ifs with hk
        · rw [hk, hown, pickNewer_of_lt hlt]
        · rfl

/-- What a tick of node `n` can see of one key: what `Get` returns and its calls. -/
def callView (ps : List N) (answers : N → Bool) (n : N) (kind k : GoString)
    (st : TickState (Net N) P) : Option Record × List (GoString × Record) :=
  (st.cluster.lookup ps answers n kind k, st.calls.filter fun call => call.1 = k)

/-- The visit of a key shows in the view of that key only. -/
theorem callView_visit (key k : GoString) :
    callView (peers n) answers n p.kind k (processKey (backend peers answers visit n) p m st key) =
      if k = key then
        (pickNewer (m.lookup k) (callView (peers n) answers n p.kind k st).1,
          (callView (peers n) answers n p.kind k st).2 ++
            bestCall k (m.lookup k) (callView (peers n) answers n p.kind k st).1)
      else callView (peers n) answers n p.kind k st := by
  have hcalls : (processKey (backend peers answers visit n) p m st key).calls = st.calls ++
      bestCall key (m.lookup key) (st.cluster.lookup (peers n) answers n p.kind key) := rfl
  rw [callView, hcalls, lookup_visit peers answers visit n hm, List.filter_append]
  by_cases hk : k = key
  · rw [if_pos hk, if_pos hk, hk, filter_bestCall_self]
    rfl
  · rw [if_neg hk, if_neg hk, filter_bestCall_of_ne (Ne.symm hk), List.append_nil]
    rfl

omit st in
theorem callView_owns (k : GoString) :
    Frames.Owns (processKey (backend peers answers visit n) p m) (fun _ => True)
      (callView (peers n) answers n p.kind k) k :=
  ⟨fun _ _ _ => trivial, fun st j _ hj => by
    rw [callView_visit peers answers visit n hm, if_neg (Ne.symm hj)]⟩

end Visit

/-- The keys a tick of node `n` visits. -/
def Visits (ps : List N) (answers : N → Bool) (n : N) (p : Provider P) (net : Net N) (w : P) :
    Set GoString :=
  {k | k ∈ localMap (p.locals w).1 ∨ k ∈ net.keys ps answers n p.kind}

/-- A tick of a node that nobody disturbs merges. -/
theorem merges_backend (ord : MapOrder) (net : Net N) (w : P) :
    Merges (localMap (p.locals w).1) (Visits (peers n) answers n p net w)
      (net.lookup (peers n) answers n p.kind)
      ((tickProvider (backend peers answers visit n) p ord net w).1.lookup
        (peers n) answers n p.kind)
      (tickLoop (backend peers answers visit n) p ord net w).calls := by
  let m := localMap (p.locals w).1
  let start : TickState (Net N) P := ⟨net, (p.locals w).2, [], []⟩
  let keys := unionKeys ord m (.ok (visit.visit (net.keys (peers n) answers n p.kind)))
  let last := keys.foldl (processKey (backend peers answers visit n) p m) start
  have hm : OfKind p.kind m := p.ofKind_locals w
  have hvisits (k : GoString) : k ∈ keys ↔ k ∈ Visits (peers n) answers n p net w :=
    mem_unionKeys.trans (or_congr_right (visit.perm _).mem_iff)
  have hvisited (k : GoString) (hk : k ∈ keys) :
      callView (peers n) answers n p.kind k last =
        (pickNewer (m.lookup k) (net.lookup (peers n) answers n p.kind k),
          bestCall k (m.lookup k) (net.lookup (peers n) answers n p.kind k)) := by
    obtain ⟨mid, -, hmid, hend⟩ := (callView_owns peers answers visit n hm k).foldl_of_mem
      (unionKeys_nodup _ _ _) hk (s := start) trivial
    rw [hend, callView_visit peers answers visit n hm, if_pos rfl, hmid]
    rfl
  have hother (k : GoString) (hk : k ∉ keys) : callView (peers n) answers n p.kind k last =
      (net.lookup (peers n) answers n p.kind k, []) :=
    (callView_owns peers answers visit n hm k).foldl_of_notMem hk (s := start) trivial
  constructor
  · intro k
    by_cases hk : k ∈ keys
    · exact congrArg Prod.fst (hvisited k hk)
    · rw [lookup_eq_none_of_notMem_unionKeys hk]
      exact congrArg Prod.fst (hother k hk)
  · intro k r
    change (k, r) ∈ last.calls ↔ _
    rw [← hvisits]
    by_cases hk : k ∈ keys
    · rw [and_iff_right hk]
      exact mem_of_filter_eq (congrArg Prod.snd (hvisited k hk))
    · have hnone : last.calls.filter (fun call => call.1 = k) = [] :=
        congrArg Prod.snd (hother k hk)
      rw [List.filter_eq_nil_iff] at hnone
      exact iff_of_false (fun hcall => hnone _ hcall (decide_eq_true rfl)) fun h => hk h.1

/-- A tick neither stores nor pushes a record under a key without a local one. -/
theorem keyView_after_tick (ord : MapOrder) (net : Net N) (w : P) {k : GoString}
    (hk : k ∉ localMap (p.locals w).1) :
    keyView p.kind k (tickProvider (backend peers answers visit n) p ord net w).1 =
      keyView p.kind k net := by
  let view (st : TickState (Net N) P) := keyView p.kind k st.cluster
  have hloop (keys : List GoString) (st : TickState (Net N) P) :
      view (keys.foldl (processKey (backend peers answers visit n) p (localMap (p.locals w).1))
        st) = view st := by
    induction keys generalizing st with
    | nil => rfl
    | cons key keys ih =>
        rw [List.foldl_cons, ih]
        by_cases hkey : key = k
        · simp only [view, processKey_backend, hkey, AList.lookup_eq_none.mpr hk]
        · exact (keyView_owns peers answers visit n p w k).frame st key trivial hkey
  exact hloop _ _

/-- A tick adds no record under a key without a local one. -/
theorem stored_after_tick (ord : MapOrder) (net : Net N) (w : P) (q : N) {k : GoString}
    (hk : k ∉ localMap (p.locals w).1) :
    (tickProvider (backend peers answers visit n) p ord net w).1.stored q p.kind k =
      net.stored q p.kind k :=
  congrFun (congrArg Prod.fst (keyView_after_tick peers answers visit n ord net w hk)) q

/-- After a tick the network is at rest for the node, however `Keys` orders its answer. -/
theorem rests_after_tick (visit' : MapOrder) (ord : MapOrder) (net : Net N) (w : P) :
    let net' := (tickProvider (backend peers answers visit n) p ord net w).1
    ∃ known, Rests (backend peers answers visit' n) p.kind (· = net') known
        (net'.lookup (peers n) answers n p.kind) Set.univ ∧
      ∀ k, k ∈ localMap (p.locals w).1 ∨ k ∈ known → k ∈ Visits (peers n) answers n p net w := by
  intro net'
  refine ⟨visit'.visit (net'.keys (peers n) answers n p.kind), ⟨?_, ?_⟩, fun k hk => ?_⟩
  · rintro _ rfl
    exact ⟨net', rfl, rfl⟩
  · rintro _ rfl key -
    exact ⟨net', rfl, rfl⟩
  · by_cases hown : k ∈ localMap (p.locals w).1
    · exact Or.inl hown
    · have hlisted := (visit'.perm _).mem_iff.mp (hk.resolve_left hown)
      refine Or.inr (keys_mono (fun q hq => ?_) hlisted)
      rwa [← stored_after_tick peers answers visit n ord net w q hown]

end Tick

end Lbsync.Wan
