import Lbsync.Lib.Frames
import Lbsync.Wan.Invariant

/-!
# A tick alone on the network

What a complete tick of one node does to the network when nobody else acts. It puts the
local record of a key exactly when `Get` finds nothing or something older.
-/

namespace Lbsync.Wan

open Engine

variable {N P : Type*} [DecidableEq N]

section Tick

variable (peers : N → List N) (answers : N → Bool) (known ord : MapOrder) (n : N)
  (p : Provider P) (net : Net N) (w : P)

/-- The network after a complete tick of node `n` during which nobody else acts. -/
def tickNet : Net N := (tickProvider (backend peers answers known n) p ord net w).1

/-- The visit of a key puts the local record when `Get` finds nothing or something
older. -/
theorem processKey_backend (m : LocalMap) (st : TickState (Net N) P) (key : GoString) :
    (processKey (backend peers answers known n) p m st key).cluster =
      match m.lookup key with
      | none => st.cluster
      | some l =>
          if keeps l (st.cluster.lookup (peers n) answers n p.kind key) then st.cluster
          else st.cluster.put (peers n) n l := by
  unfold processKey maybePublish
  cases m.lookup key with
  | none => rfl
  | some l =>
      by_cases hkeep : keeps l (st.cluster.lookup (peers n) answers n p.kind key) = true
      · simp [backend, gotRecord, hkeep]
      · simp [backend, gotRecord, hkeep]

/-- What can be seen of one key: what the nodes store for it, and the pushes of it. -/
def keyView (kind key : GoString) (net : Net N) : (N → Option Record) × List (N × Record) :=
  (fun q => net.stored q kind key, net.flight.filter fun m => m.2.key = key)

theorem keyView_put_of_ne {kind key : GoString} {l : Record} (hkind : l.kind = kind)
    (hkey : l.key ≠ key) (targets : List N) :
    keyView kind key (net.put targets n l) = keyView kind key net := by
  refine Prod.ext (funext fun q => ?_) ?_
  · change (net.put targets n l).stored q kind key = net.stored q kind key
    rw [stored_put net hkind, if_neg fun h => hkey h.2.symm]
  · simp [keyView, Net.put, hkey]

/-- How the view of a key changes when a record of it is put. -/
def putView (targets : List N) (n : N) (l : Record)
    (v : (N → Option Record) × List (N × Record)) : (N → Option Record) × List (N × Record) :=
  (fun q => if q = n then some l else v.1 q, v.2 ++ targets.map fun q => (q, l))

theorem keyView_put {kind : GoString} {l : Record} (hkind : l.kind = kind) (targets : List N) :
    keyView kind l.key (net.put targets n l) = putView targets n l (keyView kind l.key net) := by
  refine Prod.ext (funext fun q => ?_) ?_
  · change (net.put targets n l).stored q kind l.key = if q = n then some l else _
    rw [stored_put net hkind]
    simp only [and_true]
    rfl
  · simp [keyView, putView, Net.put]

omit [DecidableEq N] in
theorem lookup_congr {kind key : GoString} {net net' : Net N}
    (h : (keyView kind key net').1 = (keyView kind key net).1) (targets : List N)
    (answers : N → Bool) (n : N) :
    net'.lookup targets answers n kind key = net.lookup targets answers n kind key := by
  have hq : ∀ q, net'.stored q kind key = net.stored q kind key := congrFun h
  unfold Net.lookup
  simp only [hq]

/-- The visit of another key does not show. -/
theorem keyView_owns (key : GoString) :
    Frames.Owns (processKey (backend peers answers known n) p (localMap (p.locals w).1))
      (fun _ => True) (fun st => keyView p.kind key st.cluster) key := by
  refine ⟨fun _ _ _ => trivial, fun st j _ hj => ?_⟩
  simp only [processKey_backend]
  cases hl : (localMap (p.locals w).1).lookup j with
  | none => rfl
  | some l =>
      obtain ⟨hkey, hkind⟩ := p.of_lookup hl
      simp only
      split_ifs
      · rfl
      · exact keyView_put_of_ne n st.cluster hkind (hkey ▸ hj) (peers n)

/-- A complete tick does to a local key what the visit of the key does. -/
theorem keyView_tickNet {key : GoString} {r : Record}
    (hr : (localMap (p.locals w).1).lookup key = some r) :
    keyView p.kind key (tickNet peers answers known ord n p net w) =
      if keeps r (net.lookup (peers n) answers n p.kind key) then keyView p.kind key net
      else putView (peers n) n r (keyView p.kind key net) := by
  obtain ⟨hkey, hkind⟩ := p.of_lookup hr
  have hmem : key ∈ localMap (p.locals w).1 := AList.lookup_isSome.mp (by rw [hr]; rfl)
  obtain ⟨mid, _, hmid, hend⟩ :=
    (keyView_owns peers answers known n p w key).foldl_of_mem
      (unionKeys_nodup ord _ (.ok (known.visit (net.keys (peers n) answers n p.kind))))
      (mem_unionKeys.mpr (Or.inl hmem)) (s := ⟨net, (p.locals w).2, [], []⟩) trivial
  have htick : keyView p.kind key (tickNet peers answers known ord n p net w) = _ := hend
  rw [htick, processKey_backend, hr]
  simp only [lookup_congr (congrArg Prod.fst hmid)]
  split_ifs
  · exact hmid
  · rw [← hmid, ← hkey]
    exact keyView_put n mid.cluster hkind (peers n)

/-- A tick only adds pushes, and only of records of its kind. -/
theorem exists_sent :
    ∃ added, (tickNet peers answers known ord n p net w).flight = net.flight ++ added ∧
      ∀ m ∈ added, m.2.kind = p.kind := by
  have hloop (keys : List GoString) (st : TickState (Net N) P) :
      ∃ added, (keys.foldl (processKey (backend peers answers known n) p
        (localMap (p.locals w).1)) st).cluster.flight = st.cluster.flight ++ added ∧
        ∀ m ∈ added, m.2.kind = p.kind := by
    induction keys generalizing st with
    | nil => exact ⟨[], by simp, by simp⟩
    | cons key keys ih =>
        obtain ⟨added, hadded, hkinds⟩ :=
          ih (processKey (backend peers answers known n) p (localMap (p.locals w).1) st key)
        rw [List.foldl_cons, hadded, processKey_backend]
        cases hl : (localMap (p.locals w).1).lookup key with
        | none => exact ⟨added, rfl, hkinds⟩
        | some l =>
            simp only
            split_ifs
            · exact ⟨added, rfl, hkinds⟩
            · refine ⟨(peers n).map (fun q => (q, l)) ++ added, ?_, ?_⟩
              · simp [Net.put]
              · intro m hm
                rcases List.mem_append.mp hm with hm | hm
                · obtain ⟨q, _, rfl⟩ := List.mem_map.mp hm
                  exact (p.of_lookup hl).2
                · exact hkinds m hm
  exact hloop _ _

end Tick

section Deliveries

variable {kind key : GoString}

/-- Deliveries of other keys do not show. -/
theorem stored_deliverAll_of_ne {order : List (N × Record)} (hkinds : ∀ m ∈ order, m.2.kind = kind)
    (hkeys : ∀ m ∈ order, m.2.key ≠ key) (net : Net N) (q : N) :
    (order.foldl Net.deliver net).stored q kind key = net.stored q kind key := by
  induction order generalizing net with
  | nil => rfl
  | cons m order ih =>
      have hm := hkinds m List.mem_cons_self
      have hne := hkeys m List.mem_cons_self
      rw [List.foldl_cons, ih (fun m' hm' => hkinds m' (List.mem_cons_of_mem _ hm'))
        (fun m' hm' => hkeys m' (List.mem_cons_of_mem _ hm'))]
      exact (stored_receive net hm m.1 q key).trans (if_neg fun h => hne h.2.symm)

end Deliveries

end Lbsync.Wan
