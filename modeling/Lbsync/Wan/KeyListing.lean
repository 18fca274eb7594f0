import Lbsync.Wan.Merge

/-!
# `Keys` and `Get` of a node without peers

A store name joins kind and key with a NUL byte, and the keys of a kind are found again
by scanning for names that start with it and go on. `Keys` and `Get` agree about every
kind exactly when the stored records have kinds and keys without a NUL byte, and no
empty key.
-/

namespace Lbsync.Wan

open Engine

variable {N : Type*} [DecidableEq N]

/-- The backend of a node that has no peers. -/
def alone (ord : MapOrder) (n : N) : ClusterKV (Net N) :=
  backend (fun _ => []) (fun _ => true) ord n

/-- What changes the store of a node: its own `Put`s and the pushes it handles. -/
inductive StoreOp where
  | put (r : Record)
  | push (r : Record)

/-- The record that is put or pushed. -/
def StoreOp.record : StoreOp → Record
  | .put r => r
  | .push r => r

/-- One change of the store of node `n`. -/
def Net.perform (ord : MapOrder) (n : N) (net : Net N) : StoreOp → Net N
  | .put r => ((alone ord n).put r net).2
  | .push r => net.receive (n, r)

/-- The network after the node performed some changes, from empty stores. -/
def reached (ord : MapOrder) (n : N) (ops : List StoreOp) : Net N :=
  ops.foldl (Net.perform ord n) ⟨fun _ => ∅, []⟩

/-- `Keys`, `Get` and `handleGetKeys` agree about a kind. -/
def Agrees (ord : MapOrder) (n : N) (net : Net N) (kind : GoString) : Prop :=
  ∃ keys, (alone ord n).keys kind net = (.ok keys, net) ∧ keys.Nodup ∧
    (∀ k, k ∈ keys ↔ ∃ r, (alone ord n).get kind k net = (.ok (some r), net)) ∧
    (∀ k, k ∈ handleGetKeys kind (net.stores n) ↔ k ∈ keys) ∧
    ∀ k r, (alone ord n).get kind k net = (.ok (some r), net) → r.kind = kind ∧ r.key = k

/-- A record whose store name can be taken apart again. -/
def Plain (r : Record) : Prop := 0 ∉ r.kind ∧ 0 ∉ r.key ∧ r.key ≠ []

section Scan

variable {kind key sk : GoString} {st : Store}

theorem keyIn_eq_some_iff : keyIn kind sk = some key ↔ key ≠ [] ∧ sk = storeKey kind key := by
  unfold keyIn storeKey
  constructor
  · intro h
    dsimp only at h
    split_ifs at h with hscan
    obtain rfl := Option.some.inj h
    constructor
    · intro hnil
      have hle := List.drop_eq_nil_iff.mp hnil
      omega
    · conv_lhs => rw [← List.take_append_drop (kind ++ [0]).length sk, hscan.2]
  · rintro ⟨hne, rfl⟩
    have hlonger : (kind ++ [0]).length < (kind ++ [0] ++ key).length := by
      have hpos : 0 < key.length := List.length_pos_iff.mpr hne
      simp only [List.length_append]
      omega
    simp only [if_pos (And.intro hlonger List.take_left), List.drop_left]

theorem mem_handleGetKeys :
    key ∈ handleGetKeys kind st ↔ key ≠ [] ∧ ∃ r, st.lookup (storeKey kind key) = some r := by
  rw [handleGetKeys, List.mem_filterMap]
  have hstored : storeKey kind key ∈ st.keys ↔ ∃ r, st.lookup (storeKey kind key) = some r := by
    rw [← AList.mem_keys, ← AList.lookup_isSome, Option.isSome_iff_exists]
  constructor
  · rintro ⟨sk, hmem, hkey⟩
    obtain ⟨hne, rfl⟩ := keyIn_eq_some_iff.mp hkey
    exact ⟨hne, hstored.mp hmem⟩
  · rintro ⟨hne, hr⟩
    exact ⟨storeKey kind key, hstored.mpr hr, keyIn_eq_some_iff.mpr ⟨hne, rfl⟩⟩

theorem handleGetKeys_nodup (kind : GoString) (st : Store) : (handleGetKeys kind st).Nodup := by
  apply List.Nodup.filterMap _ st.keys_nodup
  intro sk sk' key hkey hkey'
  rw [(keyIn_eq_some_iff.mp hkey).2, (keyIn_eq_some_iff.mp hkey').2]

end Scan

section Calls

variable (ord : MapOrder) (n : N) (net : Net N) (kind : GoString)

theorem get_alone (key : GoString) :
    (alone ord n).get kind key net = (.ok ((net.stores n).lookup (storeKey kind key)), net) := by
  have hown : net.lookup [] (fun _ => true) n kind key = net.stored n kind key := by
    rw [Net.lookup]
    cases net.stored n kind key with
    | none => rfl
    | some r => rfl
  exact congrArg (fun o => (Except.ok o, net)) hown

theorem keys_alone :
    (alone ord n).keys kind net = (.ok (ord.visit (handleGetKeys kind (net.stores n))), net) := rfl

end Calls

/-- Every record is stored under its own name. -/
def Named (st : Store) : Prop := ∀ name r, st.lookup name = some r → name = storeKey r.kind r.key

/-- The store holds the record. -/
def Holds (st : Store) (r : Record) : Prop := ∃ name, st.lookup name = some r

section Reached

variable {ord : MapOrder} {n : N}

/-- A changed store holds under a name what was put or pushed, or what it held. -/
theorem lookup_perform {net : Net N} {op : StoreOp} {name : GoString} {r : Record}
    (h : ((net.perform ord n op).stores n).lookup name = some r) :
    (r = op.record ∧ name = storeKey r.kind r.key) ∨ (net.stores n).lookup name = some r := by
  cases op with
  | put l =>
      have hput : ((net.stores n).insert (storeKey l.kind l.key) l).lookup name = some r := by
        simpa [Net.perform, alone, backend, Net.put] using h
      by_cases hname : name = storeKey l.kind l.key
      · subst hname
        rw [AList.lookup_insert] at hput
        obtain rfl := Option.some.inj hput
        exact Or.inl ⟨rfl, rfl⟩
      · rw [AList.lookup_insert_ne hname] at hput
        exact Or.inr hput
  | push l =>
      have hpush : (handlePutRecord l (net.stores n)).lookup name = some r := by
        simpa [Net.perform, Net.receive] using h
      rw [lookup_handlePutRecord] at hpush
      split_ifs at hpush with hname
      · rcases NewestWins.newest_eq_or Record.version (some l) ((net.stores n).lookup name) with
          hnew | hold
        · rw [hnew] at hpush
          obtain rfl := Option.some.inj hpush
          exact Or.inl ⟨rfl, hname.symm⟩
        · rw [hold] at hpush
          exact Or.inr hpush
      · exact Or.inr hpush

/-- What a reached store holds was put or pushed, and stands under its own name. -/
theorem lookup_reached {ops : List StoreOp} {name : GoString} {r : Record}
    (h : ((reached ord n ops).stores n).lookup name = some r) :
    (∃ op ∈ ops, op.record = r) ∧ name = storeKey r.kind r.key := by
  induction ops using List.reverseRecOn with
  | nil => simp [reached] at h
  | append_singleton ops op ih =>
      rw [reached, List.foldl_append] at h
      rcases lookup_perform h with ⟨rfl, hname⟩ | hold
      · exact ⟨⟨op, by simp, rfl⟩, hname⟩
      · obtain ⟨⟨op', hmem, hop'⟩, hname⟩ := ih hold
        exact ⟨⟨op', by simp [hmem], hop'⟩, hname⟩

end Reached

section Agreement

variable {ord : MapOrder} {n : N} {net : Net N}

/-- About one kind, the calls agree when the records found under it have that kind, and none of
them an empty key. -/
theorem agrees_iff (hnamed : Named (net.stores n)) {kind : GoString} :
    Agrees ord n net kind ↔
      ∀ key r, (net.stores n).lookup (storeKey kind key) = some r → r.kind = kind ∧ key ≠ [] := by
  have hvisit (k : GoString) : k ∈ ord.visit (handleGetKeys kind (net.stores n)) ↔
      k ∈ handleGetKeys kind (net.stores n) := (ord.perm _).mem_iff
  simp only [Agrees, keys_alone, get_alone, Prod.mk.injEq, Except.ok.injEq, and_true]
  constructor
  · rintro ⟨keys, rfl, -, hkeys, -, hfound⟩ key r hr
    have hlisted := (hkeys key).mpr ⟨r, hr⟩
    rw [hvisit, mem_handleGetKeys] at hlisted
    exact ⟨(hfound key r hr).1, hlisted.1⟩
  · intro h
    refine ⟨_, rfl, (ord.perm _).nodup_iff.mpr (handleGetKeys_nodup kind _), ?_, ?_, ?_⟩
    · intro k
      rw [hvisit, mem_handleGetKeys, and_iff_right_iff_imp]
      rintro ⟨r, hr⟩
      exact (h k r hr).2
    · exact fun k => (hvisit k).symm
    · intro k r hr
      have hkind := (h k r hr).1
      have hname := hnamed _ r hr
      rw [hkind] at hname
      exact ⟨hkind, (storeKey_injective kind hname).symm⟩

theorem zero_notMem_of_storeKey_eq {r : Record} (hplain : Plain r) {kind key : GoString}
    (h : storeKey r.kind r.key = storeKey kind key) : 0 ∉ kind := by
  have hcount := congrArg (List.count 0) h
  simp only [storeKey, List.count_append, List.count_singleton_self,
    List.count_eq_zero_of_not_mem hplain.1, List.count_eq_zero_of_not_mem hplain.2.1] at hcount
  rw [← List.count_eq_zero]
  omega

omit [DecidableEq N] in
/-- A NUL byte in a kind or a key lets another kind find the record. -/
theorem plain_of_kind_found (hnamed : Named (net.stores n)) {r : Record}
    (hheld : Holds (net.stores n) r)
    (hkind : ∀ kind key r, (net.stores n).lookup (storeKey kind key) = some r →
      r.kind = kind ∧ key ≠ []) : Plain r := by
  obtain ⟨name, hr⟩ := hheld
  have hname := hnamed name r hr
  refine ⟨fun hzero => ?_, fun hzero => ?_, ?_⟩
  · obtain ⟨a, b, hab⟩ := List.append_of_mem hzero
    have hsplit : name = storeKey a (b ++ 0 :: r.key) := by
      rw [hname, storeKey, storeKey, hab]
      simp
    have hfound := (hkind a _ r (hsplit ▸ hr)).1
    have hlength := congrArg List.length (hab.symm.trans hfound)
    simp at hlength
  · obtain ⟨a, b, hab⟩ := List.append_of_mem hzero
    have hsplit : name = storeKey (r.kind ++ 0 :: a) b := by
      rw [hname, storeKey, storeKey, hab]
      simp
    have hfound := (hkind _ b r (hsplit ▸ hr)).1
    have hlength := congrArg List.length hfound
    simp at hlength
  · exact (hkind r.kind r.key r (hname ▸ hr)).2

end Agreement

/-- `Keys`, `Get` and `handleGetKeys` of a node without peers agree about every kind exactly
when every record its store holds is plain. They do when it was only given plain ones. -/
theorem keys_get_agree_iff (ord : MapOrder) (n : N) (ops : List StoreOp) :
    ((∀ kind, Agrees ord n (reached ord n ops) kind) ↔
      ∀ r, Holds ((reached ord n ops).stores n) r → Plain r) ∧
    ((∀ op ∈ ops, Plain op.record) → ∀ kind, Agrees ord n (reached ord n ops) kind) := by
  have hnamed : Named ((reached ord n ops).stores n) := fun name r hr => (lookup_reached hr).2
  have hiff : (∀ kind, Agrees ord n (reached ord n ops) kind) ↔
      ∀ r, Holds ((reached ord n ops).stores n) r → Plain r := by
    constructor
    · intro hagrees r hheld
      exact plain_of_kind_found hnamed hheld fun kind => (agrees_iff hnamed).mp (hagrees kind)
    · intro hplain kind
      rw [agrees_iff hnamed]
      intro key r hr
      have hr' : Plain r := hplain r ⟨_, hr⟩
      have hname := (hnamed _ r hr).symm
      obtain ⟨hkind, hkey⟩ :=
        storeKey_inj hr'.1 (zero_notMem_of_storeKey_eq hr' hname) hname
      exact ⟨hkind, hkey ▸ hr'.2.2⟩
  refine ⟨hiff, fun hops => hiff.mpr ?_⟩
  rintro r ⟨name, hr⟩
  obtain ⟨⟨op, hmem, rfl⟩, -⟩ := lookup_reached hr
  exact hops op hmem

/-- A blob whose name is empty. -/
def namelessBlob : Record := ⟨ascii "blob", [], ⟨1, 0, []⟩, [], [], ascii "node"⟩

/-- `Get` finds a record under the empty key that `Keys` does not list. -/
theorem empty_key_not_listed :
    (alone .insertion ()).get (ascii "blob") [] (reached .insertion () [.put namelessBlob]) =
      (.ok (some namelessBlob), reached .insertion () [.put namelessBlob]) ∧
    (alone .insertion ()).keys (ascii "blob") (reached .insertion () [.put namelessBlob]) =
      (.ok [], reached .insertion () [.put namelessBlob]) ∧
    ¬ Agrees .insertion () (reached .insertion () [.put namelessBlob]) (ascii "blob") := by
  refine ⟨rfl, rfl, ?_⟩
  rintro ⟨keys, hkeys, -, hiff, -, -⟩
  obtain rfl : keys = [] := (Except.ok.inj (Prod.mk.inj hkeys).1).symm
  exact List.not_mem_nil ((hiff []).mpr ⟨namelessBlob, rfl⟩)

end Lbsync.Wan
