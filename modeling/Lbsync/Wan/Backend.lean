import Lbsync.Engine.Tick
import Mathlib.Logic.Function.Basic

/-!
# The WAN backend

Every node has its own store, keyed by kind and key. `Put` stores a record
without looking and sends it to every peer; a peer that receives a record stores
it only when it is strictly newer than what it has. `Get` looks in the own store
and asks the peers in order when nothing is there. Gob decoding undoes encoding,
so a store holds records.
-/

namespace Lbsync.Wan

open Engine

/-- The name of a record in a store. -/
def storeKey (kind key : GoString) : GoString := kind ++ [0] ++ key

theorem storeKey_injective (kind : GoString) : Function.Injective (storeKey kind) :=
  fun _ _ h => List.append_cancel_left h

/-- The store of one node. -/
abbrev Store := AList (fun _ : GoString => Record)

/-- Answer a peer's request for a record. -/
def handleGetRecord (kind key : GoString) (st : Store) : Option Record :=
  st.lookup (storeKey kind key)

/-- Store a pushed record unless one that is not older is there. -/
def handlePutRecord (r : Record) (st : Store) : Store :=
  match st.lookup (storeKey r.kind r.key) with
  | some existing =>
      if r.version.newer existing.version then st.insert (storeKey r.kind r.key) r else st
  | none => st.insert (storeKey r.kind r.key) r

/-- The key of a store name of the given kind. -/
def keyIn (kind sk : GoString) : Option GoString :=
  let head := kind ++ [0]
  if head.length < sk.length ∧ sk.take head.length = head then some (sk.drop head.length) else none

/-- Answer a peer's request for the keys of a kind. -/
def handleGetKeys (kind : GoString) (st : Store) : List GoString := st.keys.filterMap (keyIn kind)

/-- The stores of all nodes and the pushed records still on their way. -/
structure Net (N : Type*) where
  stores : N → Store
  flight : List (N × Record)

variable {N : Type*} [DecidableEq N]

namespace Net

/-- What a node stores for a key. -/
def stored (net : Net N) (n : N) (kind key : GoString) : Option Record :=
  handleGetRecord kind key (net.stores n)

/-- `Put` on node `n`: store the record, then send it to every peer. -/
def put (net : Net N) (peers : List N) (n : N) (r : Record) : Net N where
  stores := Function.update net.stores n ((net.stores n).insert (storeKey r.kind r.key) r)
  flight := net.flight ++ peers.map fun q => (q, r)

/-- A pushed record reaches its node. -/
def receive (net : Net N) (m : N × Record) : Net N :=
  { net with stores := Function.update net.stores m.1 (handlePutRecord m.2 (net.stores m.1)) }

/-- A pushed record is delivered. -/
def deliver (net : Net N) (m : N × Record) : Net N :=
  { net.receive m with flight := net.flight.erase m }

/-- `Get` on node `n` when exactly the given peers answer. -/
def lookup (net : Net N) (peers : List N) (answers : N → Bool) (n : N) (kind key : GoString) :
    Option Record :=
  match net.stored n kind key with
  | some r => some r
  | none => (peers.filter answers).findSome? fun q => net.stored q kind key

/-- `Keys` on node `n` when exactly the given peers answer. -/
def keys (net : Net N) (peers : List N) (answers : N → Bool) (n : N) (kind : GoString) :
    List GoString :=
  (peers.filter answers).foldl (fun seen q => addKeys seen (handleGetKeys kind (net.stores q)))
    (handleGetKeys kind (net.stores n))

end Net

/-- The backend of node `n` as the engine sees it, while exactly the given peers
answer. `Lock` always succeeds and does nothing. -/
def backend (peers : N → List N) (answers : N → Bool) (ord : MapOrder) (n : N) :
    ClusterKV (Net N) where
  get kind key net := (.ok (net.lookup (peers n) answers n kind key), net)
  put r net := (.ok (), net.put (peers n) n r)
  keys kind net := (.ok (ord.visit (net.keys (peers n) answers n kind)), net)
  lock _ _ net := (.ok (), net)
  release _ _ net := net

section Specs

variable {kind : GoString} {r : Record} (net : Net N)

/-- `Put` replaces the own record of the key and nothing else. -/
theorem stored_put (hkind : r.kind = kind) (peers : List N) (n m : N) (key : GoString) :
    (net.put peers n r).stored m kind key =
      if m = n ∧ key = r.key then some r else net.stored m kind key := by
  subst hkind
  unfold Net.stored handleGetRecord Net.put
  by_cases hm : m = n
  · subst hm
    by_cases hk : key = r.key
    · subst hk
      simp
    · have hname : storeKey r.kind key ≠ storeKey r.kind r.key :=
        fun h => hk (storeKey_injective _ h)
      simp [hk, AList.lookup_insert_ne hname]
  · simp [hm]

/-- A pushed record is merged into the receiver's store, newest wins. -/
theorem stored_receive (hkind : r.kind = kind) (q m : N) (key : GoString) :
    (net.receive (q, r)).stored m kind key =
      if m = q ∧ key = r.key then pickNewer (some r) (net.stored q kind key)
      else net.stored m kind key := by
  subst hkind
  unfold Net.stored handleGetRecord Net.receive handlePutRecord
  by_cases hm : m = q
  · subst hm
    by_cases hk : key = r.key
    · subst hk
      cases hs : (net.stores m).lookup (storeKey r.kind r.key) with
      | none => simp [pickNewer]
      | some e =>
          by_cases hnew : r.version.newer e.version = true
          · simp [hnew, pickNewer]
          · simp [hs, hnew, pickNewer]
    · have hname : storeKey r.kind key ≠ storeKey r.kind r.key :=
        fun h => hk (storeKey_injective _ h)
      cases (net.stores m).lookup (storeKey r.kind r.key) with
      | none => simp [hk, AList.lookup_insert_ne hname]
      | some e =>
          by_cases hnew : r.version.newer e.version = true
          · simp [hnew, hk, AList.lookup_insert_ne hname]
          · simp [hnew, hk]
  · simp [hm]

/-- A pushed record never replaces a newer one. -/
theorem le_stored_receive (hkind : r.kind = kind) (q m : N) (key : GoString) :
    versionOf (net.stored m kind key) ≤ versionOf ((net.receive (q, r)).stored m kind key) := by
  rw [stored_receive net hkind]
  split_ifs with h
  · rw [h.1, versionOf_pickNewer]
    exact le_max_right _ _
  · exact le_rfl

/-- The receiver of a pushed record ends with nothing older. -/
theorem le_stored_receiver (hkind : r.kind = kind) (q : N) :
    versionOf (some r) ≤ versionOf ((net.receive (q, r)).stored q kind r.key) := by
  rw [stored_receive net hkind, if_pos ⟨rfl, rfl⟩, versionOf_pickNewer]
  exact le_max_left _ _

end Specs

/-- The record is stored somewhere or on its way. -/
def Circulates (net : Net N) (kind key : GoString) (r : Record) : Prop :=
  (∃ n, net.stored n kind key = some r) ∨ ∃ q, (q, r) ∈ net.flight ∧ r.key = key

section Circulation

variable {net : Net N} {kind key : GoString} {r : Record}

theorem Circulates.of_put {l : Record} (hkind : l.kind = kind) {peers : List N} {n : N}
    (h : Circulates (net.put peers n l) kind key r) :
    Circulates net kind key r ∨ r = l ∧ l.key = key := by
  rcases h with ⟨m, hm⟩ | ⟨q, hq, hkey⟩
  · rw [stored_put net hkind] at hm
    split_ifs at hm with hcond
    · exact Or.inr ⟨(Option.some.inj hm).symm, hcond.2.symm⟩
    · exact Or.inl (Or.inl ⟨m, hm⟩)
  · simp only [Net.put, List.mem_append, List.mem_map, Prod.mk.injEq] at hq
    rcases hq with hq | ⟨q', _, _, rfl⟩
    · exact Or.inl (Or.inr ⟨q, hq, hkey⟩)
    · exact Or.inr ⟨rfl, hkey⟩

/-- Delivery brings nothing new. -/
theorem Circulates.of_deliver {m : N × Record} (hm : m ∈ net.flight) (hkind : m.2.kind = kind)
    (h : Circulates (net.deliver m) kind key r) :
    Circulates net kind key r := by
  rcases h with ⟨n, hn⟩ | ⟨q, hq, hkey⟩
  · have hn' : (net.receive (m.1, m.2)).stored n kind key = some r := hn
    rw [stored_receive net hkind] at hn'
    split_ifs at hn' with hcond
    · rcases NewestWins.newest_eq_or Record.version (some m.2) (net.stored m.1 kind key) with
        hnew | hold
      · rw [pickNewer_eq_newest, hnew] at hn'
        obtain rfl := Option.some.inj hn'
        exact Or.inr ⟨m.1, hm, hcond.2.symm⟩
      · rw [pickNewer_eq_newest, hold] at hn'
        exact Or.inl ⟨m.1, hn'⟩
    · exact Or.inl ⟨n, hn'⟩
  · exact Or.inr ⟨q, List.mem_of_mem_erase hq, hkey⟩

omit [DecidableEq N] in
theorem Circulates.of_flight {flight : List (N × Record)} (hsub : ∀ m ∈ flight, m ∈ net.flight)
    (h : Circulates { net with flight := flight } kind key r) : Circulates net kind key r := by
  rcases h with ⟨n, hn⟩ | ⟨q, hq, hkey⟩
  · exact Or.inl ⟨n, hn⟩
  · exact Or.inr ⟨q, hsub _ hq, hkey⟩

end Circulation

end Lbsync.Wan
