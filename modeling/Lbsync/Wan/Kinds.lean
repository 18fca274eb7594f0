import Lbsync.Engine.Kinds
import Lbsync.Wan.KeyListing
import Lbsync.Wan.Merge

/-!
# Kinds on the WAN backend

A store holds the records of all kinds under names that start with the kind and a NUL byte.
Kinds without a NUL byte do not meet: a call for one of them, and the arrival of a record of
it, touch the names of that kind only.
-/

namespace Lbsync.Wan

open Engine Slices

/-- A kind that can be read off a store name. -/
abbrev PlainKind := {kind : GoString // 0 ∉ kind}

/-- The store name belongs to the kind. -/
def ofKind (kind name : GoString) : Bool := (kind ++ [0]).isPrefixOf name

theorem ofKind_iff {kind name : GoString} :
    ofKind kind name = true ↔ ∃ key, name = storeKey kind key := by
  rw [ofKind, List.isPrefixOf_iff_prefix]
  exact exists_congr fun key => eq_comm

theorem ofKind_storeKey {kind kind' key : GoString} (hk : 0 ∉ kind) (hk' : 0 ∉ kind') :
    ofKind kind (storeKey kind' key) = decide (kind' = kind) := by
  rw [Bool.eq_iff_iff, ofKind_iff, decide_eq_true_iff]
  constructor
  · rintro ⟨key', h⟩
    exact (storeKey_inj hk' hk h).1
  · rintro rfl
    exact ⟨key, rfl⟩

/-- The entries of a store whose names belong to the kind. -/
def entriesOf (kind : GoString) (st : Store) : List (Σ _ : GoString, Record) :=
  st.entries.filter fun e => ofKind kind e.1

section Entries

variable {kind : GoString} {p : GoString → Bool} (l : List (Σ _ : GoString, Record))

theorem dlookup_filter {name : GoString} (h : p name = true) :
    (l.filter fun e => p e.1).dlookup name = l.dlookup name := by
  induction l with
  | nil => rfl
  | cons e l ih =>
      by_cases hname : name = e.1
      · obtain ⟨name', r⟩ := e
        obtain rfl : name = name' := hname
        rw [List.filter_cons_of_pos (by exact h), List.dlookup_cons_eq, List.dlookup_cons_eq]
      · rw [List.dlookup_cons_ne _ _ hname, ← ih, List.filter_cons]
        split_ifs
        · rw [List.dlookup_cons_ne _ _ hname]
        · rfl

theorem filter_kerase (name : GoString) :
    (l.kerase name).filter (fun e => p e.1) = (l.filter fun e => p e.1).kerase name := by
  induction l with
  | nil => rfl
  | cons e l ih =>
      by_cases hname : name = e.1
      · rw [List.kerase_cons_eq hname, List.filter_cons]
        split_ifs with hp
        · rw [List.kerase_cons_eq hname]
        · refine (List.kerase_of_notMem_keys fun hmem => ?_).symm
          obtain ⟨e', he', heq⟩ := List.mem_map.mp hmem
          exact hp (hname ▸ heq ▸ (List.mem_filter.mp he').2)
      · rw [List.kerase_cons_ne hname, List.filter_cons, List.filter_cons, ih]
        split_ifs
        · rw [List.kerase_cons_ne hname]
        · rfl

theorem lookup_entriesOf (st : Store) (key : GoString) :
    st.lookup (storeKey kind key) = (entriesOf kind st).dlookup (storeKey kind key) :=
  (dlookup_filter st.entries (ofKind_iff.mpr ⟨key, rfl⟩)).symm

theorem handleGetKeys_entriesOf (st : Store) :
    handleGetKeys kind st = ((entriesOf kind st).map Sigma.fst).filterMap (keyIn kind) := by
  have hscan (l : List (Σ _ : GoString, Record)) : (l.map Sigma.fst).filterMap (keyIn kind) =
      ((l.filter fun e => ofKind kind e.1).map Sigma.fst).filterMap (keyIn kind) := by
    induction l with
    | nil => rfl
    | cons e l ih =>
        by_cases hkind : ofKind kind e.1 = true
        · rw [List.filter_cons_of_pos (by exact hkind), List.map_cons, List.map_cons,
            List.filterMap_cons, List.filterMap_cons, ih]
        · have hnone : keyIn kind e.1 = none := by
            refine Option.eq_none_iff_forall_ne_some.mpr fun key hkey => hkind ?_
            exact ofKind_iff.mpr ⟨key, (keyIn_eq_some_iff.mp hkey).2⟩
          rw [List.filter_cons_of_neg (by exact hkind), List.map_cons,
            List.filterMap_cons_none hnone, ih]
  exact hscan st.entries

theorem entriesOf_insert (st : Store) (name : GoString) (r : Record) :
    entriesOf kind (st.insert name r) =
      if ofKind kind name then ⟨name, r⟩ :: (entriesOf kind st).kerase name
      else entriesOf kind st := by
  rw [entriesOf, AList.entries_insert, List.filter_cons, filter_kerase]
  split_ifs with hkind
  · rfl
  · refine List.kerase_of_notMem_keys fun hmem => ?_
    obtain ⟨e, he, heq⟩ := List.mem_map.mp hmem
    exact hkind (heq ▸ (List.mem_filter.mp he).2)

/-- A pushed record is taken or not by looking at the entries of its kind. -/
theorem entriesOf_handlePutRecord {r : Record} (hr : r.kind = kind) {st st' : Store}
    (h : entriesOf kind st = entriesOf kind st') :
    entriesOf kind (handlePutRecord r st) = entriesOf kind (handlePutRecord r st') := by
  subst hr
  have hlookup : st.lookup (storeKey r.kind r.key) = st'.lookup (storeKey r.kind r.key) := by
    rw [lookup_entriesOf, lookup_entriesOf, h]
  have hinsert : entriesOf r.kind (st.insert (storeKey r.kind r.key) r) =
      entriesOf r.kind (st'.insert (storeKey r.kind r.key) r) := by
    rw [entriesOf_insert, entriesOf_insert, h]
  unfold handlePutRecord
  rw [hlookup]
  cases st'.lookup (storeKey r.kind r.key) with
  | none => exact hinsert
  | some e =>
      simp only
      split_ifs
      · exact hinsert
      · exact h

theorem entriesOf_handlePutRecord_of_ne {r : Record} (hk : 0 ∉ kind) (hr : 0 ∉ r.kind)
    (hne : r.kind ≠ kind) (st : Store) :
    entriesOf kind (handlePutRecord r st) = entriesOf kind st := by
  have hinsert : entriesOf kind (st.insert (storeKey r.kind r.key) r) = entriesOf kind st := by
    rw [entriesOf_insert, ofKind_storeKey hk hr, decide_eq_false hne]
    rfl
  unfold handlePutRecord
  cases st.lookup (storeKey r.kind r.key) with
  | none => exact hinsert
  | some e =>
      simp only
      split_ifs
      · exact hinsert
      · rfl

end Entries

variable {N : Type*}

/-- What belongs to a kind: the entries of every store, and the records on their way. -/
def kindSlice (k : PlainKind) (net : Net N) :
    (N → List (Σ _ : GoString, Record)) × List (N × Record) :=
  (fun q => entriesOf k.1 (net.stores q), net.flight.filter fun m => m.2.kind = k.1)

section Reads

variable {k : PlainKind} {net net' : Net N} (h : kindSlice k net = kindSlice k net')

include h

theorem entriesOf_congr (q : N) :
    entriesOf k.1 (net.stores q) = entriesOf k.1 (net'.stores q) :=
  congrFun (congrArg Prod.fst h) q

theorem stored_congr (q : N) (key : GoString) :
    net.stored q k.1 key = net'.stored q k.1 key := by
  simp only [Net.stored, handleGetRecord, lookup_entriesOf, entriesOf_congr h]

theorem lookup_kindSlice (ps : List N) (answers : N → Bool) (n : N) (key : GoString) :
    net.lookup ps answers n k.1 key = net'.lookup ps answers n k.1 key := by
  simp only [Net.lookup, stored_congr h]

theorem keys_kindSlice (ps : List N) (answers : N → Bool) (n : N) :
    net.keys ps answers n k.1 = net'.keys ps answers n k.1 := by
  simp only [Net.keys, handleGetKeys_entriesOf, entriesOf_congr h]

end Reads

variable [DecidableEq N]

/-- A node stores a record under its own name, and records are sent. -/
theorem kindSlice_store {k : PlainKind} (net : Net N) (q : N) (r : Record) (hr : 0 ∉ r.kind)
    (flight : List (N × Record)) :
    kindSlice k ⟨Function.update net.stores q ((net.stores q).insert (storeKey r.kind r.key) r),
        flight⟩ =
      (Function.update (kindSlice k net).1 q (if r.kind = k.1 then
          ⟨storeKey r.kind r.key, r⟩ :: ((kindSlice k net).1 q).kerase (storeKey r.kind r.key)
        else (kindSlice k net).1 q), flight.filter fun m => m.2.kind = k.1) := by
  refine Prod.ext (funext fun q' => ?_) rfl
  by_cases hq : q' = q
  · subst hq
    simp only [kindSlice, Function.update_self, entriesOf_insert, ofKind_storeKey k.2 hr,
      decide_eq_true_eq]
  · simp only [kindSlice, Function.update_of_ne hq]

theorem put_confined {k : PlainKind} {r : Record} (hr : r.kind = k.1) (ps : List N) (n : N) :
    Confined kindSlice k fun net : Net N => ((), net.put ps n r) := by
  have hplain : 0 ∉ r.kind := hr ▸ k.2
  refine ⟨fun _ => rfl, fun {net net'} h => ?_, fun {j} hj net => ?_⟩
  · have hflight : net.flight.filter (fun m => m.2.kind = k.1) =
        net'.flight.filter fun m => m.2.kind = k.1 := congrArg Prod.snd h
    simp only [Net.put, kindSlice_store _ _ _ hplain, h, List.filter_append, hflight]
  · have hne : r.kind ≠ j.1 := fun heq => hj (Subtype.ext (heq.symm.trans hr))
    simp only [Net.put, kindSlice_store _ _ _ hplain, if_neg hne, Function.update_eq_self,
      List.filter_append]
    refine Prod.ext rfl ?_
    simp [kindSlice, hne]

/-- A push that arrives touches the names of its kind only. -/
theorem deliver_confined {k : PlainKind} {m : N × Record} (hm : m.2.kind = k.1) :
    Confined kindSlice k fun net : Net N => ((), net.deliver m) := by
  refine ⟨fun _ => rfl, fun {net net'} h => ?_, fun {j} hj net => ?_⟩
  · have hflight : net.flight.filter (fun m => m.2.kind = k.1) =
        net'.flight.filter fun m => m.2.kind = k.1 := congrArg Prod.snd h
    refine Prod.ext (funext fun q => ?_) ?_
    · by_cases hq : q = m.1
      · subst hq
        simpa [kindSlice, Net.deliver, Net.receive] using
          entriesOf_handlePutRecord hm (entriesOf_congr h m.1)
      · simpa [kindSlice, Net.deliver, Net.receive, hq] using entriesOf_congr h q
    · simp only [kindSlice, Net.deliver, ← List.erase_filter, hflight]
  · have hne : m.2.kind ≠ j.1 := fun heq => hj (Subtype.ext (heq.symm.trans hm))
    refine Prod.ext (funext fun q => ?_) ?_
    · by_cases hq : q = m.1
      · subst hq
        simpa [kindSlice, Net.deliver, Net.receive] using
          entriesOf_handlePutRecord_of_ne j.2 (hm ▸ k.2) hne (net.stores m.1)
      · simp [kindSlice, Net.deliver, Net.receive, hq]
    · simp only [kindSlice, Net.deliver, ← List.erase_filter]
      exact List.erase_of_not_mem fun hmem => hne (by simpa using (List.mem_filter.mp hmem).2)

/-- The WAN backend keeps plain kinds apart. -/
theorem backend_perKind (peers : N → List N) (answers : N → Bool) (visit : MapOrder) (n : N) :
    PerKind Subtype.val kindSlice (backend peers answers visit n) where
  get _ key :=
    ⟨fun h => congrArg Except.ok (lookup_kindSlice h (peers n) answers n key), fun h => h,
      fun _ _ => rfl⟩
  put _ _ hr := (put_confined hr (peers n) n).map fun _ => Except.ok ()
  keys _ :=
    ⟨fun h =>
        congrArg (fun ks => Except.ok (visit.visit ks)) (keys_kindSlice h (peers n) answers n),
      fun h => h, fun _ _ => rfl⟩
  lock k _ := .pure kindSlice k (Except.ok ())
  release k _ := .pure kindSlice k ()

end Lbsync.Wan
