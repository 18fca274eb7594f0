import Lbsync.Engine.Registers
import Lbsync.Wan.NextTick

/-!
# A full mesh keeps one register per key

Every node pushes to every other one. When the pushes of a tick arrive before the
next tick starts, in whatever order, all stores hold the same records: the network
is one register per key, and it does not matter which peers answer. The key
listing leaves out the empty key, so no local record may have it.
-/

namespace Lbsync.Wan

open Engine

variable {N P : Type*} [DecidableEq N]

/-- One tick of a node and the arrival of everything that is then on its way. -/
structure MeshTurn (N P : Type*) where
  node : N
  provider : Provider P
  world : P
  order : MapOrder
  visit : MapOrder
  answers : N → Bool
  arrivals : List (N × Record)

namespace MeshTurn

variable (peers : N → List N) (v : MeshTurn N P) (net : Net N)

omit [DecidableEq N] in
/-- The local records of the tick. -/
def locals : LocalMap := localMap (v.provider.locals v.world).1

/-- The calls to `Apply` of the tick. -/
def calls : List (GoString × Record) :=
  (tickLoop (backend peers v.answers v.visit v.node) v.provider v.order net v.world).calls

/-- The network after the tick, before anything arrives. -/
def ticked : Net N :=
  tickNet peers v.answers v.visit v.order v.node v.provider net v.world

/-- The network when everything has arrived. -/
def run : Net N := v.arrivals.foldl Net.deliver (v.ticked peers net)

end MeshTurn

/-- Every store holds what the registers hold, and nothing is on its way. -/
structure Mirrors (kind : GoString) (regs : Registers) (net : Net N) : Prop where
  stored : ∀ q k, net.stored q kind k = regs k
  flight : net.flight = []
  named : regs [] = none

section Arrivals

variable {kind k : GoString} {order : List (N × Record)}

/-- What is on its way has arrived. -/
theorem flight_deliverAll {net : Net N} (h : order.Perm net.flight) :
    (order.foldl Net.deliver net).flight = [] := by
  induction order generalizing net with
  | nil => exact List.perm_nil.mp h.symm
  | cons m order ih =>
      rw [List.foldl_cons]
      exact ih (List.cons_perm_iff_perm_erase.mp h).2

/-- Pushes of one record of a key, as many as there are, offer it once. -/
theorem stored_deliverAll {l : Record} (hkinds : ∀ m ∈ order, m.2.kind = kind)
    (hsame : ∀ m ∈ order, m.2.key = k → m.2 = l) (hkey : l.key = k) (net : Net N) (q : N) :
    (order.foldl Net.deliver net).stored q kind k =
      if (q, l) ∈ order then pickNewer (some l) (net.stored q kind k)
      else net.stored q kind k := by
  induction order generalizing net with
  | nil => rfl
  | cons m order ih =>
      have hm := hkinds m List.mem_cons_self
      have hstep : (net.deliver m).stored q kind k = if q = m.1 ∧ k = m.2.key then
          pickNewer (some m.2) (net.stored m.1 kind k) else net.stored q kind k :=
        stored_receive net hm m.1 q k
      rw [List.foldl_cons, ih (fun m' hm' => hkinds m' (List.mem_cons_of_mem _ hm'))
        (fun m' hm' => hsame m' (List.mem_cons_of_mem _ hm')), hstep]
      by_cases hmine : q = m.1 ∧ k = m.2.key
      · obtain ⟨rfl, hk⟩ := hmine
        have hl : m.2 = l := hsame m List.mem_cons_self hk.symm
        have hagain : versionOf (some l) ≤
            versionOf (pickNewer (some l) (net.stored m.1 kind k)) := by
          rw [versionOf_pickNewer]
          exact le_max_left _ _
        have hmem : (m.1, l) ∈ m :: order := hl ▸ List.mem_cons_self
        rw [if_pos (show m.1 = m.1 ∧ k = m.2.key from ⟨rfl, hk⟩), if_pos hmem, hl,
          pickNewer_of_le hagain, ite_self]
      · have hne : (q, l) ≠ m := by
          rintro rfl
          exact hmine ⟨rfl, hkey.symm⟩
        simp only [if_neg hmine, List.mem_cons, hne, false_or]

end Arrivals

namespace Mirrors

variable {kind : GoString} {regs : Registers} {net : Net N}

omit [DecidableEq N] in
/-- `Get` returns what the register holds, whoever answers. -/
theorem lookup (h : Mirrors kind regs net) (ps : List N) (answers : N → Bool) (n : N) :
    net.lookup ps answers n kind = regs := by
  funext k
  unfold Net.lookup
  cases hr : regs k with
  | some r => simp only [h.stored, hr]
  | none => simp [h.stored, hr]

omit [DecidableEq N] in
/-- `Keys` lists the registers that hold something. -/
theorem mem_keys (h : Mirrors kind regs net) {ps : List N} {answers : N → Bool} {n : N}
    {k : GoString} (hk : (regs k).isSome) : k ∈ net.keys ps answers n kind := by
  obtain ⟨r, hr⟩ := Option.isSome_iff_exists.mp hk
  have hne : k ≠ [] := by
    rintro rfl
    simp [h.named] at hr
  exact Wan.mem_keys.mpr (Or.inl (mem_handleGetKeys.mpr ⟨hne, r, (h.stored n k).trans hr⟩))

variable {peers : N → List N} {v : MeshTurn N P}

omit [DecidableEq N] in
theorem keyView (h : Mirrors kind regs net) (k : GoString) :
    keyView kind k net = (fun _ => regs k, []) :=
  Prod.ext (funext fun q => h.stored q k) (by simp [Wan.keyView, h.flight])

/-- A tick without a newer local record of a key neither stores nor pushes one. -/
theorem keyView_of_le (h : Mirrors kind regs net) (hkind : v.provider.kind = kind) {k : GoString}
    (hle : versionOf (v.locals.lookup k) ≤ versionOf (regs k)) :
    Wan.keyView kind k (v.ticked peers net) = (fun _ => regs k, []) := by
  subst hkind
  cases hl : v.locals.lookup k with
  | none =>
      rw [← h.keyView k]
      exact keyView_after_tick peers v.answers v.visit v.node v.order net v.world
        (AList.lookup_eq_none.mp hl)
  | some l =>
      have hview := keyView_tickNet peers v.answers v.visit v.order v.node v.provider net v.world hl
      rw [h.lookup, if_pos (keeps_iff.mpr (hl ▸ hle)), h.keyView] at hview
      exact hview

/-- A newer local record is stored by the node and pushed to its peers. -/
theorem keyView_of_lt (h : Mirrors kind regs net) (hkind : v.provider.kind = kind) {k : GoString}
    {l : Record} (hl : v.locals.lookup k = some l)
    (hlt : versionOf (regs k) < versionOf (some l)) :
    Wan.keyView kind k (v.ticked peers net) =
      (fun q => if q = v.node then some l else regs k, (peers v.node).map fun q => (q, l)) := by
  subst hkind
  have hview := keyView_tickNet peers v.answers v.visit v.order v.node v.provider net v.world hl
  rw [h.lookup, if_neg (by rw [keeps_eq_false_iff.mpr hlt]; decide), h.keyView] at hview
  exact hview

/-- When everything has arrived, every store holds what the registers hold after the offer. -/
theorem run (h : Mirrors kind regs net) (hpeers : ∀ n q, q ≠ n → q ∈ peers n)
    (hkind : v.provider.kind = kind) (hnamed : [] ∉ v.locals)
    (harrivals : v.arrivals.Perm (v.ticked peers net).flight) :
    Mirrors kind (regs.offer v.locals) (v.run peers net) := by
  obtain ⟨added, hadded, hsent⟩ := exists_sent peers v.answers v.visit v.order v.node v.provider
    net v.world
  rw [h.flight, List.nil_append] at hadded
  have hkinds : ∀ m ∈ v.arrivals, m.2.kind = kind := fun m hm =>
    hkind ▸ hsent m (hadded ▸ harrivals.mem_iff.mp hm)
  have harrived : ∀ k m, m ∈ v.arrivals ∧ m.2.key = k ↔
      m ∈ (Wan.keyView kind k (v.ticked peers net)).2 := fun k m => by
    simp only [Wan.keyView, List.mem_filter, decide_eq_true_eq, harrivals.mem_iff]
  refine ⟨fun q k => ?_, flight_deliverAll harrivals, ?_⟩
  · have hstored : (v.ticked peers net).stored q kind k =
        (Wan.keyView kind k (v.ticked peers net)).1 q := rfl
    rcases le_or_gt (versionOf (v.locals.lookup k)) (versionOf (regs k)) with hle | hlt
    · have hview : Wan.keyView kind k (v.ticked peers net) = _ := h.keyView_of_le hkind hle
      rw [hview] at hstored
      have hother : ∀ m ∈ v.arrivals, m.2.key ≠ k := by
        intro m hm hk
        have hpushed := (harrived k m).mp ⟨hm, hk⟩
        simp [hview] at hpushed
      rw [Registers.offer, pickNewer_of_le hle]
      exact (stored_deliverAll_of_ne hkinds hother _ q).trans hstored
    · obtain ⟨l, hl⟩ : ∃ l, v.locals.lookup k = some l := by
        cases hl : v.locals.lookup k with
        | none => simp [hl] at hlt
        | some l => exact ⟨l, rfl⟩
      rw [hl] at hlt
      have hview : Wan.keyView kind k (v.ticked peers net) = _ := h.keyView_of_lt hkind hl hlt
      have hkey : l.key = k := (v.provider.of_lookup hl).1
      rw [hview] at hstored
      have hsame : ∀ m ∈ v.arrivals, m.2.key = k → m.2 = l := by
        intro m hm hk
        have hpushed := (harrived k m).mp ⟨hm, hk⟩
        rw [hview] at hpushed
        obtain ⟨q', -, rfl⟩ := List.mem_map.mp hpushed
        rfl
      rw [MeshTurn.run, stored_deliverAll hkinds hsame hkey, hstored, Registers.offer, hl,
        pickNewer_of_lt hlt]
      by_cases hq : q = v.node
      · simp only [if_pos hq, pickNewer_of_le le_rfl, ite_self]
      · have hmem : (q, l) ∈ v.arrivals := by
          refine ((harrived k (q, l)).mpr ?_).1
          rw [hview]
          exact List.mem_map.mpr ⟨q, hpeers _ q hq, rfl⟩
        simp only [if_neg hq, if_pos hmem, pickNewer_of_lt hlt]
  · rw [Registers.offer, AList.lookup_eq_none.mpr hnamed, h.named]
    rfl

end Mirrors

end Lbsync.Wan
