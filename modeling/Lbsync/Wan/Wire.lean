import Lbsync.Wan.Restarts
import Lbsync.Wan.Server

/-!
# The protocol on the wire

Here the nodes store and send bytes. A `Put` stores what `encodeRecord` returns and sends it
to the peers' servers; a `Get` that misses asks the peers' servers for the record's path and
decodes what they answer. Any client may send any request to any node at any time, and nodes
restart. Every such run is a run of the network of records, where a request from outside is the
push of the record it carries, if any: what the records' protocol keeps, the bytes keep.
-/

namespace Lbsync.Wan

open Engine

variable {N P : Type*}

section Definitions

/-- The stores of all nodes and the bodies still on their way. -/
structure WireNet (N : Type*) where
  stores : N → RawStore
  flight : List (N × Bytes)

variable (gob : Gob)

/-- What the client gets for a path; a redirect is followed. -/
def fetch (path : GoString) (st : RawStore) : Response :=
  match (serve gob ⟨.get, path, []⟩ st).1 with
  | .redirect path' => (serve gob ⟨.get, path', []⟩ st).1
  | response => response

/-- Ask the server with this store for a record. -/
def askRecord (kind key : GoString) (st : RawStore) : Option Record :=
  match fetch gob (recordPath kind key) st with
  | .ok body => gob.decodeRecord body
  | _ => none

/-- Ask the server with this store for the keys of a kind. -/
def askKeys (kind : GoString) (st : RawStore) : List GoString :=
  match fetch gob (keysPath kind) st with
  | .ok body => (gob.decodeStrings body).getD []
  | _ => []

namespace WireNet

variable [DecidableEq N]

/-- `Get` on node `n` when exactly the given peers answer. -/
def lookup (w : WireNet N) (peers : List N) (answers : N → Bool) (n : N) (kind key : GoString) :
    Except Err (Option Record) :=
  match (w.stores n).lookup (storeKey kind key) with
  | some raw =>
      match gob.decodeRecord raw with
      | some r => .ok (some r)
      | none => .error .decode
  | none => .ok ((peers.filter answers).findSome? fun q => askRecord gob kind key (w.stores q))

/-- `Keys` on node `n` when exactly the given peers answer. -/
def keys (w : WireNet N) (peers : List N) (answers : N → Bool) (n : N) (kind : GoString) :
    List GoString :=
  (peers.filter answers).foldl (fun seen q => addKeys seen (askKeys gob kind (w.stores q)))
    ((w.stores n).keys.filterMap (keyIn kind))

/-- `Put` on node `n` of a record with these bytes. -/
def put (w : WireNet N) (peers : List N) (n : N) (r : Record) (body : Bytes) : WireNet N where
  stores := Function.update w.stores n ((w.stores n).insert (storeKey r.kind r.key) body)
  flight := w.flight ++ peers.map fun q => (q, body)

/-- A request reaches a node. -/
def request (w : WireNet N) (n : N) (req : Request) : WireNet N :=
  { w with stores := Function.update w.stores n (serve gob req (w.stores n)).2 }

end WireNet

/-- The backend of node `n`, while exactly the given peers answer and a record that is put is
encoded as `body`. -/
def wireKV [DecidableEq N] (peers : N → List N) (answers : N → Bool) (ord : MapOrder)
    (body : Bytes) (n : N) : ClusterKV (WireNet N) where
  get kind key w := (w.lookup gob (peers n) answers n kind key, w)
  put r w := (.ok (), w.put (peers n) n r body)
  keys kind w := (.ok (ord.visit (w.keys gob (peers n) answers n kind)), w)
  lock _ _ w := (.ok (), w)
  release _ _ w := w

/-- The state of all nodes, as in `Nodes`, with bytes in the stores and on their way. -/
structure WireNodes (N P : Type*) where
  wire : WireNet N
  pc : N → Pc
  asking : N → Option (List N)
  world : N → P
  applied : N → List (GoString × Record)
  history : N → List LocalMap
  ticked : N → Bool

/-- What can happen next. A call that puts a record comes with the bytes it is encoded as: gob
may write the maps of a record in any order. -/
inductive WireAction (N P : Type*) where
  | begin (n : N) (ord : MapOrder) (known : List GoString)
  | call (n : N) (answers : Bool) (body : Bytes)
  | change (n : N) (w : P)
  | deliver (m : N × Bytes)
  | lose (m : N × Bytes)
  | duplicate (m : N × Bytes)
  | request (n : N) (req : Request)
  | restart (n : N) (w : P)

namespace WireNodes

/-- One step of `Get`: look in the own store, or ask the next peer, which answers or not. A
body in the own store that cannot be decoded counts as no record. -/
def read (s : WireNodes N P) (peers : List N) (n : N) (kind key : GoString) (answers : Bool) :
    Pc × Option (List N) :=
  match s.asking n with
  | none =>
      match (s.wire.stores n).lookup (storeKey kind key) with
      | some raw => (answer (gob.decodeRecord raw) (s.pc n), none)
      | none => (s.pc n, some peers)
  | some [] => (answer none (s.pc n), none)
  | some (q :: rest) =>
      match if answers then askRecord gob kind key (s.wire.stores q) else none with
      | some r => (answer (some r) (s.pc n), none)
      | none => (s.pc n, some rest)

variable [DecidableEq N]

/-- A node makes its next call. -/
def call (peers : N → List N) (p : N → Provider P) (s : WireNodes N P) (n : N) (answers : Bool)
    (body : Bytes) : Option (WireNet N × Pc × Option (List N) × P) :=
  match readKey (s.pc n) with
  | some key =>
      let next := s.read gob (peers n) n (p n).kind key answers
      some (s.wire, next.1, next.2, s.world n)
  | none =>
      if (Engine.putAt (s.pc n)).all fun l => gob.decodeRecord body = some l then
        (Solo.step (wireKV gob peers (fun _ => answers) .insertion body n) (p n)
          ⟨s.pc n, s.wire, s.world n⟩).map fun r => (r.cluster, r.pc, s.asking n, r.provider)
      else none

/-- One step of the system. -/
def step (peers : N → List N) (p : N → Provider P) (s : WireNodes N P) :
    WireAction N P → Option (WireNodes N P)
  | .begin n ord known =>
      match s.pc n with
      | .idle =>
          let localByKey := localMap ((p n).locals (s.world n)).1
          let pc := startTick localByKey (unionKeys ord localByKey (.ok known))
          some { s with
            pc := Function.update s.pc n pc
            world := Function.update s.world n ((p n).locals (s.world n)).2
            history := Function.update s.history n (localByKey :: s.history n)
            ticked := Function.update s.ticked n (s.ticked n || isIdle pc) }
      | _ => none
  | .call n answers body =>
      (s.call gob peers p n answers body).map fun r =>
        { s with
          wire := r.1
          pc := Function.update s.pc n r.2.1
          asking := Function.update s.asking n r.2.2.1
          world := Function.update s.world n r.2.2.2
          applied := Function.update s.applied n (s.applied n ++ appliedAt (s.pc n))
          ticked := Function.update s.ticked n (s.ticked n || isIdle r.2.1) }
  | .change n w => some { s with world := Function.update s.world n w }
  | .deliver m =>
      if m ∈ s.wire.flight then
        some { s with wire :=
          { s.wire.request gob m.1 ⟨.put, putPath, m.2⟩ with flight := s.wire.flight.erase m } }
      else none
  | .lose m =>
      if m ∈ s.wire.flight then
        some { s with wire := { s.wire with flight := s.wire.flight.erase m } }
      else none
  | .duplicate m =>
      if m ∈ s.wire.flight then
        some { s with wire := { s.wire with flight := m :: s.wire.flight } }
      else none
  | .request n req => some { s with wire := s.wire.request gob n req }
  | .restart n w =>
      some { s with
        wire := { s.wire with stores := Function.update s.wire.stores n ∅ }
        pc := Function.update s.pc n .idle
        asking := Function.update s.asking n none
        world := Function.update s.world n w }

end WireNodes

/-- What happens on the network of records: one of its own steps, or a record from outside. -/
inductive Input (N P : Type*) where
  | event (e : Event N P)
  | push (n : N) (r : Record)

/-- One step of the network of records when clients push records too. -/
def Nodes.accept [DecidableEq N] (peers : N → List N) (p : N → Provider P) (s : Nodes N P) :
    Input N P → Option (Nodes N P)
  | .event e => s.next peers p e
  | .push n r => some { s with net := s.net.receive (n, r) }

end Definitions

section Asking

variable {gob : Gob} {st : RawStore}

theorem serve_handle {m : Method} {path : GoString} {body : Bytes} {kind key : GoString}
    (h : dispatch m path = .handle .getRecord [kind, key]) :
    (serve gob ⟨m, path, body⟩ st).1 = sendBody kind key st := by
  simp only [serve, h]

/-- Only a handler answers with a body. -/
theorem serve_ne_ok {req : Request} (h : ∀ handler values,
      dispatch req.method req.path ≠ .handle handler values) (body : Bytes) :
    (serve gob req st).1 ≠ .ok body := by
  unfold serve
  generalize dispatch req.method req.path = d at h
  cases d with
  | handle handler values => exact absurd rfl (h handler values)
  | _ => simp

theorem fetch_of_handle {path : GoString} {kind key : GoString}
    (h : dispatch .get path = .handle .getRecord [kind, key]) :
    fetch gob path st = sendBody kind key st := by
  rw [fetch, serve_handle h, sendBody]
  cases st.lookup (storeKey kind key) <;> rfl

/-- A path that leads to no handler brings no body. -/
theorem fetch_ne_ok {path : GoString} (h : ∀ handler values, reach path ≠ .handle handler values)
    (body : Bytes) : fetch gob path st ≠ .ok body := by
  have hfirst : ∀ handler values, dispatch .get path ≠ .handle handler values :=
    fun handler values hd => h handler values (reach_of_handle hd)
  unfold reach at h
  unfold fetch
  cases hd : dispatch .get path with
  | redirect path' =>
      simp only [hd] at h
      simp only [serve, hd]
      have hnone : (serve gob ⟨.get, path', []⟩ st).1 ≠ .ok body := serve_ne_ok h body
      exact hnone
  | handle handler values => exact absurd hd (hfirst handler values)
  | _ => simp [serve, hd]

/-- A peer's answer is its record of the key, unless the key cannot stand in a path. -/
theorem askRecord_eq {kind : GoString} (hkind : Routable kind) (key : GoString) :
    askRecord gob kind key st =
      if Routable key then (decodeStore gob st).lookup (storeKey kind key) else none := by
  unfold askRecord
  split_ifs with hkey
  · rw [fetch_of_handle ((dispatch_recordPath_iff kind key).mpr ⟨hkind, hkey⟩), sendBody,
      decodeStore, Decoding.lookup_decoded]
    cases st.lookup (storeKey kind key) <;> rfl
  · split
    · exact absurd ‹_› (fetch_ne_ok (reach_unroutable hkind hkey) _)
    · rfl

theorem askKeys_eq (h : WellStored gob st)
    (hstrings : ∀ l, gob.decodeStrings (gob.encodeStrings l) = some l) {kind : GoString}
    (hkind : Routable kind) :
    askKeys gob kind st = handleGetKeys kind (decodeStore gob st) := by
  have hserve : (serve gob ⟨.get, keysPath kind, []⟩ st).1 = sendKeys gob kind st := by
    simp only [serve, (dispatch_keysPath_iff kind).mpr hkind]
  have hfetch : fetch gob (keysPath kind) st = sendKeys gob kind st := by
    rw [fetch, hserve]
    rfl
  rw [askKeys, hfetch, sendKeys_eq h]
  simp only [hstrings, Option.getD_some]

end Asking

section Nets

variable {gob : Gob} {w : WireNet N} {net : Net N}

/-- The message that a body on its way stands for. -/
def decodeMessage (gob : Gob) (m : N × Bytes) : Option (N × Record) :=
  (gob.decodeRecord m.2).map (m.1, ·)

/-- The bytes stand for the records: every body can be decoded, in a store it has the name of
its record, and the records are those of the bodies. -/
structure StandsFor (gob : Gob) (w : WireNet N) (net : Net N) : Prop where
  stored : ∀ n, WellStored gob (w.stores n)
  sent : ∀ m ∈ w.flight, ∃ r, gob.decodeRecord m.2 = some r
  stores : ∀ n, net.stores n = decodeStore gob (w.stores n)
  flight : net.flight.Perm (w.flight.filterMap (decodeMessage gob))

theorem StandsFor.lookup (h : StandsFor gob w net) (n : N) (kind key : GoString) :
    net.stored n kind key =
      ((w.stores n).lookup (storeKey kind key)).bind gob.decodeRecord := by
  rw [Net.stored, handleGetRecord, h.stores n, decodeStore, Decoding.lookup_decoded]

/-- `Get` and `Keys` on bytes answer what they answer on records, for what can stand in a path
and when lists of keys are decoded as they were encoded. -/
theorem StandsFor.reads (h : StandsFor gob w net)
    (hstrings : ∀ l, gob.decodeStrings (gob.encodeStrings l) = some l) {kind : GoString}
    (hkind : Routable kind) (peers : List N) (answers : N → Bool) (n : N) :
    (∀ key, Routable key → w.lookup gob peers answers n kind key =
      .ok (net.lookup peers answers n kind key)) ∧
    w.keys gob peers answers n kind = net.keys peers answers n kind := by
  constructor
  · intro key hkey
    unfold WireNet.lookup Net.lookup
    rw [h.lookup]
    cases hraw : (w.stores n).lookup (storeKey kind key) with
    | some raw =>
        obtain ⟨r, hr, -⟩ := h.stored n _ raw hraw
        simp [hr]
    | none =>
        have hask (q : N) : askRecord gob kind key (w.stores q) = net.stored q kind key := by
          rw [askRecord_eq hkind, if_pos hkey, ← h.stores q]
          rfl
        simp [hask]
  · unfold WireNet.keys Net.keys
    rw [handleGetKeys, h.stores n, keys_decodeStore (h.stored n)]
    simp only [askKeys_eq (h.stored _) hstrings hkind, ← h.stores]

/-- A body in flight is a message in flight. -/
theorem StandsFor.mem_flight (h : StandsFor gob w net) {m : N × Bytes} (hm : m ∈ w.flight)
    {r : Record} (hr : gob.decodeRecord m.2 = some r) : (m.1, r) ∈ net.flight :=
  h.flight.mem_iff.mpr (List.mem_filterMap.mpr ⟨m, hm, by simp [decodeMessage, hr]⟩)

variable [DecidableEq N]

/-- One store changes in the same way on both sides. -/
theorem StandsFor.update (h : StandsFor gob w net) (n : N) {raw : RawStore} {st : Store}
    (hwell : WellStored gob raw) (hst : st = decodeStore gob raw) :
    StandsFor gob { w with stores := Function.update w.stores n raw }
      { net with stores := Function.update net.stores n st } where
  stored := (Function.forall_update_iff w.stores (p := fun _ raw => WellStored gob raw)).mpr
    ⟨hwell, fun m _ => h.stored m⟩
  sent := h.sent
  stores m := by
    by_cases hm : m = n
    · subst hm
      simpa using hst
    · simpa [hm] using h.stores m
  flight := h.flight

theorem StandsFor.put (h : StandsFor gob w net) (peers : List N) (n : N) {r : Record}
    {body : Bytes} (hbody : gob.decodeRecord body = some r) :
    StandsFor gob (w.put peers n r body) (net.put peers n r) := by
  have hdecoded : (net.stores n).insert (storeKey r.kind r.key) r =
      decodeStore gob ((w.stores n).insert (storeKey r.kind r.key) body) := by
    rw [h.stores n]
    exact (Decoding.decoded_insert _ _ _ hbody).symm
  have hstore := h.update n ((h.stored n).insert hbody) hdecoded
  refine ⟨hstore.stored, fun m hm => ?_, hstore.stores, ?_⟩
  · rcases List.mem_append.mp hm with hm | hm
    · exact h.sent m hm
    · obtain ⟨q, -, rfl⟩ := List.mem_map.mp hm
      exact ⟨r, hbody⟩
  · have hnew : (peers.map fun q => (q, body)).filterMap (decodeMessage gob) =
        peers.map fun q => (q, r) := by
      rw [List.filterMap_map, List.filterMap_eq_map_iff_forall_eq_some.mpr]
      intro q _
      simp [decodeMessage, hbody]
    simp only [WireNet.put, Net.put, List.filterMap_append, hnew]
    exact h.flight.append_right _

/-- A request that pushes no record changes nothing. -/
theorem StandsFor.request_of_none (h : StandsFor gob w net) (n : N) {req : Request}
    (hreq : pushedBy gob req = none) : StandsFor gob (w.request gob n req) net := by
  have hsame : w.request gob n req = w := by
    rw [WireNet.request, serve_of_not_pushed hreq, Function.update_eq_self]
  rwa [hsame]

/-- A request that pushes a record does what the push does. -/
theorem StandsFor.request_of_some (h : StandsFor gob w net) (n : N) {req : Request} {r : Record}
    (hreq : pushedBy gob req = some r) :
    StandsFor gob (w.request gob n req) (net.receive (n, r)) := by
  refine h.update n ((h.stored n).serve req) ?_
  rw [decodeStore_serve, hreq, h.stores n]
  rfl

theorem pushedBy_put {body : Bytes} :
    pushedBy gob ⟨.put, putPath, body⟩ = gob.decodeRecord body := by
  have hroute : dispatch .put putPath = .handle .putRecord [] := by decide +kernel
  simp only [pushedBy, hroute]

/-- Taking a body out of the flight. -/
theorem StandsFor.erase (h : StandsFor gob w net) {m : N × Bytes} (hm : m ∈ w.flight) {r : Record}
    (hr : gob.decodeRecord m.2 = some r) :
    StandsFor gob { w with flight := w.flight.erase m }
      { net with flight := net.flight.erase (m.1, r) } where
  stored := h.stored
  sent m' hm' := h.sent m' (List.mem_of_mem_erase hm')
  stores := h.stores
  flight := (h.flight.erase _).trans
    (Decoding.filterMap_erase_perm (decodeMessage gob) hm
      (show decodeMessage gob m = some (m.1, r) by simp [decodeMessage, hr])).symm

theorem StandsFor.deliver (h : StandsFor gob w net) {m : N × Bytes} (hm : m ∈ w.flight)
    {r : Record} (hr : gob.decodeRecord m.2 = some r) :
    StandsFor gob
      { w.request gob m.1 ⟨.put, putPath, m.2⟩ with flight := w.flight.erase m }
      (net.deliver (m.1, r)) :=
  (h.request_of_some m.1 (pushedBy_put.trans hr)).erase (w := w.request gob m.1 _) hm hr

omit [DecidableEq N] in
theorem StandsFor.duplicate (h : StandsFor gob w net) {m : N × Bytes} {r : Record}
    (hr : gob.decodeRecord m.2 = some r) :
    StandsFor gob { w with flight := m :: w.flight }
      { net with flight := (m.1, r) :: net.flight } where
  stored := h.stored
  sent := List.forall_mem_cons.mpr ⟨⟨r, hr⟩, h.sent⟩
  stores := h.stores
  flight := by
    rw [List.filterMap_cons_some (b := (m.1, r)) (by simp [decodeMessage, hr])]
    exact h.flight.cons _

end Nets

section Refinement

variable {gob : Gob}

/-- The nodes with the records of a network. -/
def WireNodes.withNet (s : WireNodes N P) (net : Net N) : Nodes N P :=
  ⟨net, s.pc, s.asking, s.world, s.applied, s.history, s.ticked⟩

/-- The nodes are at the same control points, and the bytes stand for the records. -/
def Matches (gob : Gob) (s : WireNodes N P) (t : Nodes N P) : Prop :=
  StandsFor gob s.wire t.net ∧ t = s.withNet t.net

variable [DecidableEq N] {peers : N → List N} {p : N → Provider P} {s : WireNodes N P}
  {net : Net N}

omit [DecidableEq N] in
/-- A step of a read of bytes is a step of a read of records. A peer that does not have the
path of the key does not answer. -/
theorem read_matches (h : StandsFor gob s.wire net) (asked : List N) (n : N) {kind : GoString}
    (hkind : Routable kind) (key : GoString) (answers : Bool) :
    View.read asked n kind key (answers && decide (Routable key))
        ⟨net, s.pc n, s.asking n, s.world n⟩ =
      ⟨net, (s.read gob asked n kind key answers).1, (s.read gob asked n kind key answers).2,
        s.world n⟩ := by
  unfold View.read WireNodes.read
  cases hasking : s.asking n with
  | none =>
      simp only [h.lookup]
      cases hraw : (s.wire.stores n).lookup (storeKey kind key) with
      | none => simp
      | some raw =>
          obtain ⟨r, hr, -⟩ := h.stored n _ raw hraw
          simp [hr]
  | some asking =>
      cases asking with
      | nil => rfl
      | cons q rest =>
          have hreply : (if (answers && decide (Routable key)) = true then net.stored q kind key
              else none) =
              if answers = true then askRecord gob kind key (s.wire.stores q) else none := by
            rw [askRecord_eq hkind, ← h.stores q]
            cases answers with
            | false => rfl
            | true =>
                simp only [Bool.true_and, decide_eq_true_eq, if_true]
                rfl
          simp only [hreply]
          cases if answers = true then askRecord gob kind key (s.wire.stores q) else none <;> rfl

/-- A call on bytes is a call on records. -/
theorem call_matches (h : StandsFor gob s.wire net) {n : N} (hkind : Routable (p n).kind)
    {answers : Bool} {body : Bytes} {w : WireNet N} {pc : Pc} {asking : Option (List N)} {world : P}
    (hcall : s.call gob peers p n answers body = some (w, pc, asking, world)) :
    ∃ answers' net', View.step peers (p n) n ⟨net, s.pc n, s.asking n, s.world n⟩ answers' =
      some ⟨net', pc, asking, world⟩ ∧ StandsFor gob w net' := by
  unfold WireNodes.call at hcall
  cases hread : readKey (s.pc n) with
  | some key =>
      simp only [hread, Option.some.injEq, Prod.mk.injEq] at hcall
      obtain ⟨rfl, rfl, rfl, rfl⟩ := hcall
      refine ⟨answers && decide (Routable key), net, ?_, h⟩
      simp only [View.step, hread]
      exact congrArg some (read_matches h (peers n) n hkind key answers)
  | none =>
      simp only [hread] at hcall
      split_ifs at hcall with hbody
      obtain ⟨r, hr, heq⟩ := Option.map_eq_some_iff.mp hcall
      obtain ⟨rfl, rfl, rfl, rfl⟩ := by simpa only [Prod.mk.injEq] using heq
      refine ⟨answers, ?_⟩
      simp only [View.step, hread]
      cases hpc : s.pc n with
      | idle => simp [hpc, Solo.step] at hr
      | get f key => simp [hpc, readKey] at hread
      | recheck f key l c locked => simp [hpc, readKey] at hread
      | put f key l c locked =>
          have hdecodes : gob.decodeRecord body = some l := by
            simpa [hpc, Engine.putAt] using hbody
          obtain rfl : _ = r := Option.some.inj (by simpa only [hpc, Solo.step] using hr)
          exact ⟨_, rfl, h.put (peers n) n hdecodes⟩
      | _ =>
          obtain rfl : _ = r := Option.some.inj (by simpa only [hpc, Solo.step] using hr)
          exact ⟨net, rfl, h⟩

/-- What clients push is in `X`. -/
def Outside (gob : Gob) (X : Set Record) : WireAction N P → Prop
  | .request _ req => ∀ r, pushedBy gob req = some r → r ∈ X
  | _ => True

/-- What comes from outside is in `X`. -/
def Brings (X : Set Record) : Input N P → Prop
  | .event _ => True
  | .push _ r => r ∈ X

/-- A step on bytes is a step on records, or a request that does not show there. -/
theorem step_matches (hkind : ∀ n, Routable (p n).kind) {X : Set Record} {t : Nodes N P}
    {a : WireAction N P} {s' : WireNodes N P} (h : Matches gob s t) (ha : Outside gob X a)
    (hstep : s.step gob peers p a = some s') :
    Matches gob s' t ∨
      ∃ i t', Brings X i ∧ t.accept peers p i = some t' ∧ Matches gob s' t' := by
  obtain ⟨hnet, ht⟩ := h
  generalize t.net = net at hnet ht
  subst ht
  cases a with
  | begin n ord known =>
      refine Or.inr ⟨.event (.act (.begin n ord known)), ?_⟩
      cases hpc : s.pc n with
      | idle =>
          simp only [WireNodes.step, hpc, Option.some.injEq] at hstep
          subst hstep
          refine ⟨WireNodes.withNet _ net, trivial, ?_, hnet, rfl⟩
          simp only [Nodes.accept, Nodes.next, Nodes.step, WireNodes.withNet, hpc]
          rfl
      | _ => simp [WireNodes.step, hpc] at hstep
  | call n answers body =>
      obtain ⟨⟨w, pc, asking, world⟩, hcall, rfl⟩ := Option.map_eq_some_iff.mp hstep
      obtain ⟨answers', net', hview, hnet'⟩ := call_matches hnet (hkind n) hcall
      refine Or.inr ⟨.event (.act (.call n answers')), WireNodes.withNet _ net', trivial, ?_,
        hnet', rfl⟩
      simp only [Nodes.accept, Nodes.next, Nodes.step, WireNodes.withNet, hview]
      rfl
  | change n w =>
      obtain rfl := Option.some.inj hstep
      exact Or.inr ⟨.event (.act (.change n w)), _, trivial, rfl, hnet, rfl⟩
  | deliver m =>
      simp only [WireNodes.step] at hstep
      split_ifs at hstep with hm
      obtain rfl := Option.some.inj hstep
      obtain ⟨r, hr⟩ := hnet.sent m hm
      refine Or.inr ⟨.event (.act (.deliver (m.1, r))), _, trivial,
        if_pos (hnet.mem_flight hm hr), hnet.deliver hm hr, rfl⟩
  | lose m =>
      simp only [WireNodes.step] at hstep
      split_ifs at hstep with hm
      obtain rfl := Option.some.inj hstep
      obtain ⟨r, hr⟩ := hnet.sent m hm
      refine Or.inr ⟨.event (.act (.lose (m.1, r))), _, trivial,
        if_pos (hnet.mem_flight hm hr), hnet.erase hm hr, rfl⟩
  | duplicate m =>
      simp only [WireNodes.step] at hstep
      split_ifs at hstep with hm
      obtain rfl := Option.some.inj hstep
      obtain ⟨r, hr⟩ := hnet.sent m hm
      refine Or.inr ⟨.event (.act (.duplicate (m.1, r))), _, trivial,
        if_pos (hnet.mem_flight hm hr), hnet.duplicate hr, rfl⟩
  | request n req =>
      obtain rfl := Option.some.inj hstep
      cases hreq : pushedBy gob req with
      | none => exact Or.inl ⟨hnet.request_of_none n hreq, rfl⟩
      | some r => exact Or.inr ⟨.push n r, _, ha r hreq, rfl, hnet.request_of_some n hreq, rfl⟩
  | restart n w =>
      obtain rfl := Option.some.inj hstep
      exact Or.inr ⟨.event (.restart n w), _, trivial, rfl,
        hnet.update n wellStored_empty rfl, rfl⟩

/-- Empty stores, nothing on its way, every node idle and without a past. -/
def WireNodes.initial (world : N → P) : WireNodes N P where
  wire := ⟨fun _ => ∅, []⟩
  pc _ := .idle
  asking _ := none
  world := world
  applied _ := []
  history _ := []
  ticked _ := false

/-- The protocol on the wire refines the protocol of records. Whatever requests clients send,
as long as the records they push are in `X`, every run on bytes has a run on records, with
records of `X` from outside, in which all nodes are at the same control points, with the same
provider states and calls to `Apply`; every body in a store or on its way can be decoded, stands
under its record's name and stands for the record that the run on records has there. -/
theorem wire_refines (hkind : ∀ n, Routable (p n).kind) {X : Set Record} {world : N → P}
    {t : WireNodes N P}
    (hrun : Runs.Run (WireNodes.step gob peers p) (fun _ => Outside gob X) (.initial world) t) :
    ∃ net, Runs.Run (Nodes.accept peers p) (fun _ => Brings X)
        ((WireNodes.initial world).withNet ⟨fun _ => ∅, []⟩) (t.withNet net) ∧
      StandsFor gob t.wire net := by
  have hinitial : Matches gob (WireNodes.initial world)
      ((WireNodes.initial world).withNet ⟨fun _ => ∅, []⟩) :=
    ⟨⟨fun _ => wellStored_empty, nofun, fun _ => rfl, List.Perm.refl _⟩, rfl⟩
  have hstep : ∀ (s : WireNodes N P) (u : Nodes N P) a s', Matches gob s u → Outside gob X a →
      s.step gob peers p a = some s' → Matches gob s' u ∨
        ∃ i u', Brings X i ∧ u.accept peers p i = some u' ∧ Matches gob s' u' :=
    fun _ _ _ _ h ha hs => step_matches hkind h ha hs
  obtain ⟨u, hu, hstands, hsame⟩ := hrun.stutter hstep hinitial
  exact ⟨u.net, hsame ▸ hu, hstands⟩

instance decidableOutside (gob : Gob) (X : Set Record) [DecidablePred (· ∈ X)]
    (a : WireAction N P) : Decidable (Outside gob X a) :=
  match a with
  | .request _ req =>
      match h : pushedBy gob req with
      | none => isTrue fun r hr => by simp [h] at hr
      | some r =>
          decidable_of_iff (r ∈ X)
            ⟨fun hr r' hr' => Option.some.inj (h.symm.trans hr') ▸ hr, fun hall => hall r h⟩
  | .begin _ _ _ => isTrue trivial
  | .call _ _ _ => isTrue trivial
  | .change _ _ => isTrue trivial
  | .deliver _ => isTrue trivial
  | .lose _ => isTrue trivial
  | .duplicate _ => isTrue trivial
  | .restart _ _ => isTrue trivial

/-- A node publishes its record; its peer gets it, with an older record and some bytes from a
client. The node restarts without its file and gets the record back. -/
def wireActions : List (WireAction Bool (List Record)) :=
  .begin true .insertion [] :: List.replicate 10 (.call true true [200]) ++
    [.deliver (false, [200]), .request false ⟨.put, putPath, [150]⟩,
      .request false ⟨.put, putPath, [1, 2]⟩, .restart true [],
      .begin true .insertion [ascii "a"]] ++ List.replicate 3 (.call true true [])

theorem wire_refines_restart :
    ∃ (t : WireNodes Bool (List Record)) (net : Net Bool),
      Runs.Run (WireNodes.step sampleGob (fun n => [!n]) fun _ => fakeProvider (ascii "k"))
        (fun _ => Outside sampleGob {sampleRecord 150})
        (.initial fun n => if n then [sampleRecord 200] else []) t ∧
      t.applied true = [(ascii "a", sampleRecord 200), (ascii "a", sampleRecord 200)] ∧
      StandsFor sampleGob t.wire net := by
  obtain ⟨t, hrun, happlied⟩ : ∃ t,
      Runs.Run (WireNodes.step sampleGob (fun n => [!n]) fun _ => fakeProvider (ascii "k"))
        (fun _ => Outside sampleGob {sampleRecord 150})
        (.initial fun n => if n then [sampleRecord 200] else []) t ∧
      t.applied true = [(ascii "a", sampleRecord 200), (ascii "a", sampleRecord 200)] :=
    Runs.Run.exists_of_replay wireActions (by decide +kernel)
  obtain ⟨net, -, hstands⟩ := wire_refines (fun _ => by decide) hrun
  exact ⟨t, net, hrun, happlied, hstands⟩

end Refinement

end Lbsync.Wan
