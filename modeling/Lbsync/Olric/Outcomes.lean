import Lbsync.Engine.Moves
import Lbsync.Olric.Interleaving

/-!
# Calls that may fail

What a call of the facade does to a DMap, whether it succeeds or not. A `Put` may fail
after it has written the record, and a lock may be gone when it is released. Still only a
`Put` changes a record, and only to the one it was given; the index gains at most the key
of that record; and no client leaves the token of another.
-/

namespace Lbsync.Olric

open Engine

variable {T : Type*}

/-- The keys the index names; none when its entry is not a list of keys. -/
def DMap.named (dm : DMap T) : List GoString := dm.indexed.getD []

/-- What may become of the records and the index while the given record, if any, is put. -/
structure Writes (put : Option Record) (dm dm' : DMap T) : Prop where
  stored : ∀ key, dm'.stored key = dm.stored key ∨
    ∃ r, put = some r ∧ r.key = key ∧ dm'.stored key = some r
  named : ∀ key ∈ dm'.named, key ∈ dm.named ∨ ∃ r, put = some r ∧ r.key = key

/-- What a client with the token `t` may do to a DMap while it puts the given record. -/
structure Touches (t : T) (put : Option Record) (dm dm' : DMap T) : Prop extends
    Writes put dm dm' where
  tokens : ∀ name u, u ≠ t → dm'.entries name = some (.token u) → dm.entries name = some (.token u)

section Effects

variable {t : T} {put : Option Record} {dm dm' dm'' : DMap T}

theorem Writes.of_entries (h : dm'.entries = dm.entries) : Writes put dm dm' := by
  refine ⟨fun key => Or.inl (congrFun (DMap.stored_congr h) key), fun key hkey => Or.inl ?_⟩
  rwa [DMap.named, ← DMap.indexed_congr h]

/-- A token that goes takes no record and no name with it. -/
theorem Writes.of_token_removed {name : GoString} {u : T}
    (htoken : dm.entries name = some (.token u))
    (h : dm'.entries = Function.update dm.entries name none) : Writes put dm dm' := by
  have hstored := DMap.stored_of_token_removed htoken h
  refine ⟨fun key => Or.inl (congrFun hstored key), fun key hkey => Or.inl ?_⟩
  by_cases hne : name = indexKey
  · simp [DMap.named, DMap.indexed, h, hne] at hkey
  · rwa [DMap.named, ← DMap.indexed_of_update_ne hne h]

namespace Touches

theorem of_entries (h : dm'.entries = dm.entries) : Touches t put dm dm' :=
  ⟨.of_entries h, fun name u _ hu => by rwa [← h]⟩

theorem trans (h : Touches t put dm dm') (h' : Touches t put dm' dm'') : Touches t put dm dm'' := by
  refine ⟨⟨fun key => ?_, fun key hkey => ?_⟩, fun name u hu htoken => ?_⟩
  · rcases h'.stored key with hsame | hput
    · rw [hsame]
      exact h.stored key
    · exact Or.inr hput
  · rcases h'.named key hkey with hmem | hput
    · exact h.named key hmem
    · exact Or.inr hput
  · exact h.tokens name u hu (h'.tokens name u hu htoken)

/-- A client leaves its own token on a free name. -/
theorem of_token_added {name : GoString} (hfree : dm.entries name = none)
    (hne : name ≠ indexKey)
    (h : dm'.entries = Function.update dm.entries name (some (.token t))) :
    Touches t put dm dm' := by
  have hstored := DMap.stored_of_token_added hfree h
  refine ⟨⟨fun key => Or.inl (congrFun hstored key), fun key hkey => Or.inl ?_⟩, ?_⟩
  · rwa [DMap.named, ← DMap.indexed_of_update_ne hne h]
  · intro other u hu htoken
    rw [h] at htoken
    by_cases hother : other = name
    · subst hother
      rw [Function.update_self] at htoken
      simp [Ne.symm hu] at htoken
    · rwa [Function.update_of_ne hother] at htoken

/-- A client takes its own token away. -/
theorem of_token_removed {name : GoString} (htoken : dm.entries name = some (.token t))
    (h : dm'.entries = Function.update dm.entries name none) : Touches t put dm dm' := by
  refine ⟨.of_token_removed htoken h, fun other u _ hleft => ?_⟩
  rw [h] at hleft
  by_cases hother : other = name
  · subst hother
    simp at hleft
  · rwa [Function.update_of_ne hother] at hleft

/-- The record is written under its key. -/
theorem of_record {r : Record}
    (h : dm'.entries = Function.update dm.entries r.key (some (.record r))) :
    Touches t (some r) dm dm' := by
  refine ⟨⟨fun key => ?_, fun key hkey => Or.inl ?_⟩, fun name u _ htoken => ?_⟩
  · by_cases hkey : key = r.key
    · subst hkey
      exact Or.inr ⟨r, rfl, rfl, by simp [DMap.stored, h, decodeRecord]⟩
    · exact Or.inl (by simp [DMap.stored, h, hkey])
  · by_cases hindex : r.key = indexKey
    · -- a record under the name of the index hides it
      simp [DMap.named, DMap.indexed, h, hindex, decodeStrings] at hkey
    · rwa [DMap.named, DMap.indexed_of_update_ne hindex h] at hkey
  · rw [h] at htoken
    by_cases hname : name = r.key
    · subst hname
      simp at htoken
    · rwa [Function.update_of_ne hname] at htoken

/-- A readable index is replaced by one with the key of the record. -/
theorem of_index {r : Record} {keys : List GoString} (hindexed : dm.indexed = some keys)
    (h : dm'.entries = Function.update dm.entries indexKey (some (.strings (keys ++ [r.key])))) :
    Touches t (some r) dm dm' := by
  refine ⟨⟨fun key => Or.inl ?_, fun key hkey => ?_⟩, fun name u _ htoken => ?_⟩
  · by_cases hkey : key = indexKey
    · subst hkey
      rw [stored_indexKey_of_indexed hindexed]
      simp [DMap.stored, h, decodeRecord]
    · simp [DMap.stored, h, hkey]
  · have hmem : key ∈ keys ∨ key = r.key := by
      simpa [DMap.named, DMap.indexed, h, decodeStrings] using hkey
    rcases hmem with hmem | rfl
    · exact Or.inl (by simpa [DMap.named, hindexed] using hmem)
    · exact Or.inr ⟨r, rfl, rfl⟩
  · rw [h] at htoken
    by_cases hname : name = indexKey
    · subst hname
      simp at htoken
    · rwa [Function.update_of_ne hname] at htoken

end Touches

end Effects

section DMapCalls

variable (t : T) (dm : DMap T)

theorem touches_put (r : Record) : Touches t (some r) dm (dm.put r.key (.record r)).2 := by
  unfold DMap.put
  split_ifs
  · exact .of_entries rfl
  · exact .of_record rfl

theorem touches_lockWithTimeout (put : Option Record) {name : GoString} (hne : name ≠ indexKey) :
    Touches t put dm (dm.lockWithTimeout name t).2 := by
  rcases hlock : dm.lockWithTimeout name t with ⟨e | u, dm'⟩
  · exact .of_entries (DMap.lock_error hlock)
  · obtain ⟨hfree, htaken⟩ := DMap.lock_ok hlock
    exact .of_token_added hfree hne htaken

variable [DecidableEq T]

theorem touches_unlock (put : Option Record) (name : GoString) :
    Touches t put dm (dm.unlock name t).2 := by
  rcases dm.unlock_entries name t with hsame | ⟨htoken, hremoved⟩
  · exact .of_entries hsame
  · exact .of_token_removed htoken hremoved

omit [DecidableEq T] in
theorem touches_appendToIndex (r : Record) : Touches t (some r) dm (appendToIndex r.key dm).2 := by
  have hentries := readIndex_entries dm
  unfold appendToIndex
  rcases hread : readIndex dm with ⟨e | keys, dm₁⟩
  · rw [hread] at hentries
    exact .of_entries hentries
  · obtain ⟨hsame, hindexed⟩ := readIndex_ok hread
    simp only
    split_ifs
    · exact .of_entries hsame
    · rcases hput : dm₁.put indexKey (.strings (keys ++ [r.key])) with ⟨e | u, dm₂⟩
      · have hkept : dm₂.entries = dm₁.entries := by
          unfold DMap.put at hput
          split_ifs at hput
          · rw [← (Prod.mk.inj hput).2]
            rfl
          · simp at hput
        exact .of_entries (hkept.trans hsame)
      · exact .of_index hindexed (by rw [DMap.put_ok hput, hsame])

theorem touches_addToIndex (r : Record) : Touches t (some r) dm (addToIndex t r.key dm).2 := by
  have hne : indexLockKey ≠ indexKey := Ne.symm indexKey_ne_indexLockKey
  have hlocked := touches_lockWithTimeout t dm (some r) hne
  unfold addToIndex
  rcases hlock : dm.lockWithTimeout indexLockKey t with ⟨e | u, dm₁⟩ <;> rw [hlock] at hlocked
  · exact hlocked.trans (touches_appendToIndex t dm₁ r)
  · exact (hlocked.trans (touches_appendToIndex t dm₁ r)).trans (touches_unlock t _ _ _)

/-- A `Put` that fails may have written the record or not. -/
theorem touches_putIn (r : Record) : Touches t (some r) dm (putIn t r dm).2 := by
  have hput := touches_put t dm r
  unfold putIn
  rcases hwrite : dm.put r.key (.record r) with ⟨e | u, dm₁⟩ <;> rw [hwrite] at hput
  · exact hput
  · exact hput.trans (touches_addToIndex t dm₁ r)

omit [DecidableEq T] in
theorem touches_lockIn (put : Option Record) (key : GoString) :
    Touches t put dm (lockIn t key dm).2 := by
  have hlock := touches_lockWithTimeout t dm put (lockName_ne_indexKey key)
  unfold lockIn
  rcases hname : dm.lockWithTimeout (lockName key) t with ⟨e | u, dm₁⟩ <;> rw [hname] at hlock
  · exact hlock
  · exact hlock

theorem touches_releaseIn (put : Option Record) (key : GoString) :
    Touches t put dm (releaseIn t key dm) := touches_unlock t dm put (lockName key)

end DMapCalls

/-- What a call of the facade does to the DMap of its kind it does to no other. -/
theorem touches_onDMap {α : Type*} {t : T} {put : Option Record} {c : Cluster T}
    {kind : GoString} {call : DMap T → Except Err α × DMap T}
    (hcall : Touches t put (c.dmaps kind) (call (c.dmaps kind)).2) (k : GoString) :
    Touches t put (c.dmaps k) ((c.onDMap kind call).2.dmaps k) := by
  unfold Cluster.onDMap
  split_ifs
  · by_cases hk : k = kind
    · subst hk
      simpa using hcall
    · exact .of_entries (by simp [hk])
  · exact .of_entries rfl

section Nodes

variable {N P : Type*} [DecidableEq N]

/-- A step of a node touches the cluster for the record it is about to put. -/
theorem touches_step {p : Provider P} {n : N} {s t : Solo (Cluster N) P}
    (h : Solo.step (kv n) p s = some t) (kind : GoString) :
    Touches n (putAt s.pc) (s.cluster.dmaps kind) (t.cluster.dmaps kind) := by
  obtain ⟨pc, c, w⟩ := s
  cases pc with
  | idle => simp [Solo.step] at h
  | get f key =>
      obtain rfl := Option.some.inj h
      exact touches_onDMap (.of_entries (getIn_entries key _)) kind
  | lock f key l o =>
      obtain rfl := Option.some.inj h
      exact touches_onDMap (touches_lockIn n _ _ key) kind
  | recheck f key l o locked =>
      obtain rfl := Option.some.inj h
      exact touches_onDMap (.of_entries (getIn_entries key _)) kind
  | put f key l o locked =>
      obtain rfl := Option.some.inj h
      exact touches_onDMap (touches_putIn n _ l) kind
  | release f key l o =>
      obtain rfl := Option.some.inj h
      refine touches_onDMap (α := Unit) ?_ kind
      exact touches_releaseIn n _ _ key
  | apply f key best =>
      obtain rfl := Option.some.inj h
      exact .of_entries rfl
  | flush f =>
      obtain rfl := Option.some.inj h
      exact .of_entries rfl
  | rollback f =>
      obtain rfl := Option.some.inj h
      exact .of_entries rfl

/-- A read returns what is stored, or nothing. -/
theorem gotRecord_get (n : N) (kind key : GoString) (c : Cluster N) :
    gotRecord ((kv n).get kind key c).1 = none ∨
      gotRecord ((kv n).get kind key c).1 = (c.dmaps kind).stored key := by
  rcases hget : ((kv n).get kind key c).1 with e | o
  · exact Or.inl rfl
  · refine Or.inr ?_
    rw [← hget]
    exact (get_effect (by simp [hget, isError])).2

/-- Starting a tick reads the index and changes no entry. -/
theorem touches_keys (n : N) (kind : GoString) (c : Cluster N) (k : GoString) :
    Touches n none (c.dmaps k) (((kv n).keys kind c).2.dmaps k) :=
  touches_onDMap (.of_entries (readIndex_entries _)) k

omit [DecidableEq N] in
/-- An expired lock takes a token away and nothing else. -/
theorem writes_expire (put : Option Record) (dm : DMap N) (name : GoString) :
    Writes put dm (dm.expire name) := by
  unfold DMap.expire
  cases he : dm.entries name with
  | none => exact .of_entries rfl
  | some v =>
      cases v with
      | record r => exact .of_entries rfl
      | strings l => exact .of_entries rfl
      | token u => exact .of_token_removed he rfl

omit [DecidableEq N] in
/-- A token that is there after a lock has expired was there before. -/
theorem token_of_expire {dm : DMap N} {name other : GoString} {u : N}
    (h : (dm.expire name).entries other = some (.token u)) :
    dm.entries other = some (.token u) := by
  by_cases hother : other = name
  · subst hother
    unfold DMap.expire at h
    cases he : dm.entries other with
    | none => simp [he] at h
    | some v => cases v <;> simp [he] at h
  · rwa [(dm.expire_effect name).2 other hother] at h

/-- A call of the node. -/
def Action.isCall (n : N) : Action N P → Bool
  | .call m => m = n
  | .begin _ _ => false
  | .change _ _ => false
  | .expire _ _ => false

/-- The node starts a tick. -/
def Action.isBegin (n : N) : Action N P → Bool
  | .begin m _ => m = n
  | .call _ => false
  | .change _ _ => false
  | .expire _ _ => false

/-- What a step of the system is to one node: a step of others, a change of its files, the
start of its tick, or its next call. -/
inductive NodeStep (p : N → Provider P) (n : N) (s t : Nodes N P) : Action N P → Prop where
  | other {a : Action N P} (others : a.isCall n = false) (pc : t.pc n = s.pc n)
      (world : t.world n = s.world n) : NodeStep p n s t a
  | change {w : P} (pc : t.pc n = s.pc n) (world : t.world n = w) : NodeStep p n s t (.change n w)
  | begin {ord : MapOrder} (idle : s.pc n = .idle)
      (pc : t.pc n = startTick (localMap ((p n).locals (s.world n)).1)
        (unionKeys ord (localMap ((p n).locals (s.world n)).1)
          ((kv n).keys (p n).kind s.cluster).1))
      (world : t.world n = ((p n).locals (s.world n)).2) : NodeStep p n s t (.begin n ord)
  | call {r : Solo (Cluster N) P}
      (step : Solo.step (kv n) (p n) ⟨s.pc n, s.cluster, s.world n⟩ = some r)
      (pc : t.pc n = r.pc) (world : t.world n = r.provider) (cluster : t.cluster = r.cluster) :
      NodeStep p n s t (.call n)

theorem nodeStep_of_step {p : N → Provider P} {s t : Nodes N P} {a : Action N P}
    (h : Nodes.step p s a = some t) (n : N) : NodeStep p n s t a := by
  cases a with
  | begin m ord =>
      cases hpc : s.pc m with
      | idle =>
          simp only [Nodes.step, hpc, Option.some.injEq] at h
          subst h
          by_cases hm : n = m
          · subst hm
            exact .begin hpc (by simp) (by simp)
          · exact .other rfl (by simp [hm]) (by simp [hm])
      | _ => simp [Nodes.step, hpc] at h
  | call m =>
      simp only [Nodes.step, Option.map_eq_some_iff] at h
      obtain ⟨r, hr, rfl⟩ := h
      by_cases hm : n = m
      · subst hm
        exact .call hr (by simp) (by simp) rfl
      · exact .other (by simp [Action.isCall, Ne.symm hm]) (by simp [hm]) (by simp [hm])
  | change m w =>
      obtain rfl := Option.some.inj h
      by_cases hm : n = m
      · subst hm
        exact .change rfl (by simp)
      · exact .other rfl rfl (by simp [hm])
  | expire kind name =>
      obtain rfl := Option.some.inj h
      exact .other rfl rfl rfl

end Nodes

end Lbsync.Olric
