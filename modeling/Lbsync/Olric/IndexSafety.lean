import Lbsync.Olric.PutMachine

/-!
# The key index under interleaved updates

While the index lock is granted to one client at a time, the index read by the
client that holds it stays what it read until it writes. So no update is lost and
no key is listed twice, and since the record is written first, every listed key
has one.
-/

namespace Lbsync.Olric

open Engine

variable {N : Type*} [DecidableEq N]

/-- What a successful call does to the DMap, the next call, and what was returned. -/
inductive ClientEffect (n : N) (dm dm' : DMap N) :
    ClientPc → ClientPc → List GoString → List (List GoString) → Prop where
  | data {r} (wrote : dm'.entries = Function.update dm.entries r.key (some (.record r))) :
      ClientEffect n dm dm' (.data r) (.lock r.key) [] []
  | lock {key} (free : dm.entries indexLockKey = none)
      (taken : dm'.entries = Function.update dm.entries indexLockKey (some (.token n))) :
      ClientEffect n dm dm' (.lock key) (.read key true) [] []
  | present {key keys} (same : dm'.entries = dm.entries) (listed : dm.indexed = some keys)
      (hmem : key ∈ keys) :
      ClientEffect n dm dm' (.read key true) (.unlock key (.ok ())) [] []
  | missing {key keys} (same : dm'.entries = dm.entries) (listed : dm.indexed = some keys)
      (hmem : key ∉ keys) :
      ClientEffect n dm dm' (.read key true) (.write key keys true) [] []
  | write {key keys} (wrote : dm'.entries =
        Function.update dm.entries indexKey (some (.strings (keys ++ [key])))) :
      ClientEffect n dm dm' (.write key keys true) (.unlock key (.ok ())) [] []
  | unlock {key} (held : dm.entries indexLockKey = some (.token n))
      (freed : dm'.entries = Function.update dm.entries indexLockKey none) :
      ClientEffect n dm dm' (.unlock key (.ok ())) .idle [key] []
  | keys {keys} (same : dm'.entries = dm.entries) (listed : dm.indexed = some keys) :
      ClientEffect n dm dm' .keys .idle [] [keys]

/-- What is known of a client before its next call, when the index is `keys`. -/
def ClientSafe (dm : DMap N) (keys : List GoString) : ClientPc → Prop
  | .idle => True
  | .data r => Ordinary r.key
  | .lock key => dm.stored key ≠ none
  | .read key locked => locked = true ∧ dm.stored key ≠ none
  | .write key known locked =>
      locked = true ∧ dm.stored key ≠ none ∧ known = keys ∧ key ∉ keys
  | .unlock key res => res = .ok () ∧ key ∈ keys
  | .keys => True

theorem eq_ok_of_isOk {ε α : Type*} {r : Except ε α} (h : r.isOk = true) : ∃ a, r = .ok a := by
  cases r with
  | error e => exact absurd h (by simp [Except.isOk, Except.toBool])
  | ok a => exact ⟨a, rfl⟩

/-- Every successful step of a client has one of the listed effects. -/
theorem clientEffect_of_step {n : N} {c c' : Client N} {keys : List GoString}
    (hsafe : ClientSafe c.dm keys c.pc) (hok : c.pc.succeeds n c.dm = true)
    (hstep : Client.step n c = some c') :
    ∃ returned answers, ClientEffect n c.dm c'.dm c.pc c'.pc returned answers ∧
      c'.returned = returned ++ c.returned ∧ c'.answers = answers ++ c.answers := by
  obtain ⟨dm, pc, returned, answers⟩ := c
  cases pc with
  | idle => cases hstep
  | data r =>
      obtain ⟨_, hput⟩ := eq_ok_of_isOk hok
      rcases hrun : dm.put r.key (.record r) with ⟨res, dm'⟩
      obtain rfl : res = .ok () := by simpa [hrun] using hput
      simp only [Client.step, hrun, Option.some.injEq] at hstep
      subst hstep
      exact ⟨[], [], .data (DMap.put_ok hrun), rfl, rfl⟩
  | lock key =>
      obtain ⟨_, hlock⟩ := eq_ok_of_isOk hok
      rcases hrun : dm.lockWithTimeout indexLockKey n with ⟨res, dm'⟩
      obtain rfl : res = .ok () := by simpa [hrun] using hlock
      simp only [Client.step, hrun, Option.some.injEq] at hstep
      subst hstep
      obtain ⟨hfree, htaken⟩ := DMap.lock_ok hrun
      exact ⟨[], [], .lock hfree htaken, rfl, rfl⟩
  | read key locked =>
      obtain rfl := hsafe.1
      obtain ⟨known, hread⟩ := eq_ok_of_isOk hok
      rcases hrun : readIndex dm with ⟨res, dm'⟩
      obtain rfl : res = .ok known := by simpa [hrun] using hread
      obtain ⟨hsame, hlisted⟩ := readIndex_ok hrun
      by_cases hmem : key ∈ known
      · simp only [Client.step, hrun, if_pos hmem, Option.some.injEq] at hstep
        subst hstep
        exact ⟨[], [], .present hsame hlisted hmem, rfl, rfl⟩
      · simp only [Client.step, hrun, if_neg hmem, Option.some.injEq] at hstep
        subst hstep
        exact ⟨[], [], .missing hsame hlisted hmem, rfl, rfl⟩
  | write key known locked =>
      obtain rfl := hsafe.1
      obtain ⟨_, hput⟩ := eq_ok_of_isOk hok
      rcases hrun : dm.put indexKey (.strings (known ++ [key])) with ⟨res, dm'⟩
      obtain rfl : res = .ok () := by simpa [hrun] using hput
      simp only [Client.step, hrun, Option.some.injEq] at hstep
      subst hstep
      exact ⟨[], [], .write (DMap.put_ok hrun), rfl, rfl⟩
  | unlock key res =>
      obtain rfl := hsafe.1
      obtain ⟨_, hunlock⟩ := eq_ok_of_isOk hok
      rcases hrun : dm.unlock indexLockKey n with ⟨res, dm'⟩
      obtain rfl : res = .ok () := by simpa [hrun] using hunlock
      simp only [Client.step, hrun, Option.some.injEq] at hstep
      subst hstep
      obtain ⟨hheld, hfreed⟩ := DMap.unlock_ok hrun
      exact ⟨[key], [], .unlock hheld hfreed, rfl, rfl⟩
  | keys =>
      obtain ⟨known, hread⟩ := eq_ok_of_isOk hok
      rcases hrun : readIndex dm with ⟨res, dm'⟩
      obtain rfl : res = .ok known := by simpa [hrun] using hread
      obtain ⟨hsame, hlisted⟩ := readIndex_ok hrun
      simp only [Client.step, hrun, Option.some.injEq] at hstep
      subst hstep
      exact ⟨[], [known], .keys hsame hlisted, rfl, rfl⟩

/-- The index lists every key once, and every listed key has a record. -/
structure Listed (dm : DMap N) (keys : List GoString) : Prop where
  indexed : dm.indexed = some keys
  nodup : keys.Nodup
  stored : ∀ key ∈ keys, dm.stored key ≠ none

/-- The invariant, when the index is `keys`. -/
structure IndexSafe (s : Clients N) (keys : List GoString) : Prop where
  listed : Listed s.dm keys
  exclusive : ∀ n, (s.pc n).critical = true → s.dm.entries indexLockKey = some (.token n)
  clients : ∀ n, ClientSafe s.dm keys (s.pc n)
  returned : ∀ key ∈ s.returned, key ∈ keys
  answers : ∀ answer ∈ s.answers, ∀ key ∈ answer, key ∈ keys

section Kept

variable {s : Clients N} {keys : List GoString}

omit [DecidableEq N]

/-- More records do not hurt a client. -/
theorem ClientSafe.mono {dm dm' : DMap N} {pc : ClientPc} (h : ClientSafe dm keys pc)
    (hstored : ∀ key, dm.stored key ≠ none → dm'.stored key ≠ none) :
    ClientSafe dm' keys pc := by
  cases pc with
  | lock key => exact hstored key h
  | read key locked => exact ⟨h.1, hstored key h.2⟩
  | write key known locked => exact ⟨h.1, hstored key h.2.1, h.2.2⟩
  | _ => exact h

theorem Listed.mono {dm dm' : DMap N} (h : Listed dm keys) (hindexed : dm'.indexed = dm.indexed)
    (hstored : ∀ key, dm.stored key ≠ none → dm'.stored key ≠ none) : Listed dm' keys where
  indexed := hindexed.trans h.indexed
  nodup := h.nodup
  stored key hkey := hstored key (h.stored key hkey)

/-- A client that does not hold the lock does not depend on the index. -/
theorem ClientSafe.of_not_critical {dm : DMap N} {keys' : List GoString} {pc : ClientPc}
    (h : ClientSafe dm keys pc) (hpc : pc.critical = false) : ClientSafe dm keys' pc := by
  cases pc with
  | read key locked => exact h
  | write key known locked => exact absurd hpc (by simp [ClientPc.critical, h.1])
  | unlock key res => cases hpc
  | _ => exact h

/-- At most one client holds the lock. -/
theorem IndexSafe.not_critical_of_ne (h : IndexSafe s keys) {n m : N}
    (hn : s.dm.entries indexLockKey = some (.token n)) (hne : m ≠ n) :
    (s.pc m).critical = false := by
  by_contra hm
  have htoken := h.exclusive m (by simpa using hm)
  rw [hn] at htoken
  exact hne (by simpa using htoken.symm)

/-- What changes neither the index nor the index lock and loses no record is safe. -/
theorem IndexSafe.of_data (h : IndexSafe s keys) {dm : DMap N}
    (hindexed : dm.indexed = s.dm.indexed)
    (hstored : ∀ key, s.dm.stored key ≠ none → dm.stored key ≠ none)
    (hlock : ∀ n, (s.pc n).critical = true → dm.entries indexLockKey = s.dm.entries indexLockKey) :
    IndexSafe { s with dm := dm } keys where
  listed := h.listed.mono hindexed hstored
  exclusive n hn := (hlock n hn).trans (h.exclusive n hn)
  clients n := (h.clients n).mono hstored
  returned := h.returned
  answers := h.answers

/-- Writing a record loses none. -/
theorem stored_of_record_written {dm dm' : DMap N} {r : Record}
    (h : dm'.entries = Function.update dm.entries r.key (some (.record r))) :
    dm'.stored r.key ≠ none ∧ ∀ key, dm.stored key ≠ none → dm'.stored key ≠ none := by
  have hown : dm'.stored r.key ≠ none := by simp [DMap.stored, h, decodeRecord]
  refine ⟨hown, fun key hkey => ?_⟩
  by_cases heq : key = r.key
  · exact heq ▸ hown
  · simpa [DMap.stored, h, heq] using hkey

/-- Writing a readable index loses no record. -/
theorem stored_of_index_written {dm dm' : DMap N} {v : Value N} (hindexed : dm.indexed = some keys)
    (h : dm'.entries = Function.update dm.entries indexKey (some v)) (key : GoString)
    (hkey : dm.stored key ≠ none) : dm'.stored key ≠ none := by
  have hne : key ≠ indexKey := by
    rintro rfl
    exact hkey (stored_indexKey_of_indexed hindexed)
  simpa [DMap.stored, h, hne] using hkey

/-- A key that has a record and is not listed is added. -/
theorem Listed.append {dm dm' : DMap N} (h : Listed dm keys) {key : GoString}
    (hkey : dm.stored key ≠ none) (hmem : key ∉ keys)
    (hwrote : dm'.entries =
      Function.update dm.entries indexKey (some (.strings (keys ++ [key])))) :
    Listed dm' (keys ++ [key]) := by
  refine ⟨by simp [DMap.indexed, hwrote, decodeStrings], ?_, fun k hk => ?_⟩
  · exact List.nodup_append.mpr ⟨h.nodup, List.nodup_singleton key,
      fun a ha b hb heq => hmem (List.mem_singleton.mp hb ▸ heq ▸ ha)⟩
  · refine stored_of_index_written h.indexed hwrote k ?_
    rcases List.mem_append.mp hk with hk | hk
    · exact h.stored k hk
    · exact List.mem_singleton.mp hk ▸ hkey

/-- Expiry takes away tokens only, so it leaves a readable index alone. -/
theorem indexed_expire {dm : DMap N} (h : dm.indexed = some keys) (name : GoString) :
    (dm.expire name).indexed = some keys := by
  by_cases hname : name = indexKey
  · subst hname
    have hsame : dm.expire indexKey = dm := by
      unfold DMap.indexed at h
      unfold DMap.expire
      cases hentry : dm.entries indexKey with
      | none => rfl
      | some v =>
          cases v with
          | token t => simp [hentry, decodeStrings] at h
          | _ => rfl
    rw [hsame, h]
  · rw [← h, DMap.indexed, DMap.indexed, (dm.expire_effect name).2 _ (Ne.symm hname)]

end Kept

section Steps

variable {s t : Clients N} {keys : List GoString}

/-- One client goes on, and the others are as safe as before. -/
theorem IndexSafe.next (h : IndexSafe s keys) {keys' : List GoString} (hkeys : keys <+: keys')
    {n : N} {dm : DMap N} {pc : ClientPc} {returned : List GoString}
    {answers : List (List GoString)} (hlisted : Listed dm keys')
    (hown : ClientSafe dm keys' pc)
    (hheld : pc.critical = true → dm.entries indexLockKey = some (.token n))
    (hothers : ∀ m ≠ n, ClientSafe dm keys' (s.pc m))
    (hlock : ∀ m ≠ n, (s.pc m).critical = true → dm.entries indexLockKey = some (.token m))
    (hreturned : ∀ key ∈ returned, key ∈ keys')
    (hanswers : ∀ answer ∈ answers, ∀ key ∈ answer, key ∈ keys') :
    IndexSafe ⟨dm, Function.update s.pc n pc, returned ++ s.returned, answers ++ s.answers⟩
      keys' where
  listed := hlisted
  exclusive m hm := by
    by_cases hmn : m = n
    · subst hmn
      simp only [Function.update_self] at hm
      exact hheld hm
    · simp only [Function.update_of_ne hmn] at hm
      exact hlock m hmn hm
  clients m := by
    by_cases hmn : m = n
    · subst hmn
      simpa only [Function.update_self] using hown
    · simpa only [Function.update_of_ne hmn] using hothers m hmn
  returned key hkey :=
    (List.mem_append.mp hkey).elim (hreturned key) fun hold => hkeys.subset (h.returned key hold)
  answers answer hanswer key hkey :=
    (List.mem_append.mp hanswer).elim (fun hnew => hanswers answer hnew key hkey)
      fun hold => hkeys.subset (h.answers answer hold key hkey)

/-- A step that leaves the entries alone. -/
theorem IndexSafe.same (h : IndexSafe s keys) {n : N} {dm : DMap N} {pc : ClientPc}
    {answers : List (List GoString)} (hsame : dm.entries = s.dm.entries)
    (hown : ClientSafe s.dm keys pc)
    (hheld : pc.critical = true → s.dm.entries indexLockKey = some (.token n))
    (hanswers : ∀ answer ∈ answers, ∀ key ∈ answer, key ∈ keys) :
    IndexSafe ⟨dm, Function.update s.pc n pc, s.returned, answers ++ s.answers⟩ keys := by
  have hstored : ∀ key, s.dm.stored key ≠ none → dm.stored key ≠ none :=
    fun key hkey => DMap.stored_congr hsame ▸ hkey
  have hlisted : Listed dm keys := h.listed.mono (DMap.indexed_congr hsame) hstored
  have hreturned : ∀ key ∈ ([] : List GoString), key ∈ keys := nofun
  exact h.next List.prefix_rfl hlisted (hown.mono hstored)
    (fun hpc => (congrFun hsame _).trans (hheld hpc)) (fun m _ => (h.clients m).mono hstored)
    (fun m _ hm => (congrFun hsame _).trans (h.exclusive m hm)) hreturned hanswers

/-- A client begins an operation. -/
theorem IndexSafe.begin (h : IndexSafe s keys) (n : N) {pc : ClientPc}
    (hown : ClientSafe s.dm keys pc) (hpc : pc.critical = false) :
    IndexSafe { s with pc := Function.update s.pc n pc } keys := by
  have hanswers : ∀ answer ∈ ([] : List (List GoString)), ∀ key ∈ answer, key ∈ keys := nofun
  exact h.same rfl hown (fun hcritical => absurd hcritical (by simp [hpc])) hanswers

/-- A successful call keeps the invariant, and the index only grows. -/
theorem IndexSafe.call (h : IndexSafe s keys) {n : N} {dm : DMap N} {pc : ClientPc}
    {returned : List GoString} {answers : List (List GoString)}
    (heffect : ClientEffect n s.dm dm (s.pc n) pc returned answers) :
    ∃ keys', keys <+: keys' ∧
      IndexSafe ⟨dm, Function.update s.pc n pc, returned ++ s.returned, answers ++ s.answers⟩
        keys' := by
  have hsafe := h.clients n
  have hexclusive := h.exclusive n
  generalize hpc : s.pc n = pc₀ at heffect hsafe hexclusive
  cases heffect with
  | @data r wrote =>
      have hindexed : dm.indexed = s.dm.indexed := DMap.indexed_of_update_ne hsafe.1 wrote
      have hlock : dm.entries indexLockKey = s.dm.entries indexLockKey := by
        rw [wrote, Function.update_of_ne (Ne.symm hsafe.2.1)]
      obtain ⟨hown, hstored⟩ := stored_of_record_written wrote
      exact ⟨keys, List.prefix_rfl, h.next List.prefix_rfl (h.listed.mono hindexed hstored) hown
        nofun (fun m _ => (h.clients m).mono hstored) (fun m _ hm => hlock.trans (h.exclusive m hm))
        nofun nofun⟩
  | @lock key free taken =>
      have hstored := DMap.stored_of_token_added free taken
      have hkept : ∀ key, s.dm.stored key ≠ none → dm.stored key ≠ none :=
        fun key hkey => hstored ▸ hkey
      have hindexed : dm.indexed = s.dm.indexed :=
        DMap.indexed_of_update_ne (Ne.symm indexKey_ne_indexLockKey) taken
      refine ⟨keys, List.prefix_rfl, h.next List.prefix_rfl (h.listed.mono hindexed hkept)
        ⟨rfl, hkept key hsafe⟩ (fun _ => by rw [taken, Function.update_self])
        (fun m _ => (h.clients m).mono hkept) (fun m _ hm => ?_) nofun nofun⟩
      -- nobody holds a lock that is free
      have htoken := h.exclusive m hm
      rw [free] at htoken
      cases htoken
  | @present key known same listed hmem =>
      obtain rfl : known = keys := Option.some.inj (listed.symm.trans h.listed.indexed)
      exact ⟨known, List.prefix_rfl, h.same same ⟨rfl, hmem⟩ (fun _ => hexclusive rfl) nofun⟩
  | @missing key known same listed hmem =>
      obtain rfl : known = keys := Option.some.inj (listed.symm.trans h.listed.indexed)
      exact ⟨known, List.prefix_rfl,
        h.same same ⟨rfl, hsafe.2, rfl, hmem⟩ (fun _ => hexclusive rfl) nofun⟩
  | @write key known wrote =>
      obtain ⟨_, hkey, rfl, hmem⟩ := hsafe
      have hheld := hexclusive rfl
      have hlock : dm.entries indexLockKey = s.dm.entries indexLockKey := by
        rw [wrote, Function.update_of_ne (Ne.symm indexKey_ne_indexLockKey)]
      have hstored := stored_of_index_written h.listed.indexed wrote
      have hlisted : Listed dm (known ++ [key]) := h.listed.append hkey hmem wrote
      exact ⟨known ++ [key], List.prefix_append _ _, h.next (List.prefix_append _ _) hlisted
        ⟨rfl, by simp⟩ (fun _ => hlock.trans hheld)
        (fun m hm => ((h.clients m).of_not_critical (h.not_critical_of_ne hheld hm)).mono hstored)
        (fun m hm hcritical => absurd hcritical (by simp [h.not_critical_of_ne hheld hm]))
        nofun nofun⟩
  | @unlock key held freed =>
      have hstored := DMap.stored_of_token_removed held freed
      have hkept : ∀ key, s.dm.stored key ≠ none → dm.stored key ≠ none :=
        fun key hkey => hstored ▸ hkey
      have hindexed : dm.indexed = s.dm.indexed :=
        DMap.indexed_of_update_ne (Ne.symm indexKey_ne_indexLockKey) freed
      exact ⟨keys, List.prefix_rfl, h.next List.prefix_rfl (h.listed.mono hindexed hkept) trivial
        nofun (fun m _ => (h.clients m).mono hkept)
        (fun m hm hcritical => absurd hcritical (by simp [h.not_critical_of_ne held hm]))
        (by simpa using hsafe.2) nofun⟩
  | @keys known same listed =>
      obtain rfl : known = keys := Option.some.inj (listed.symm.trans h.listed.indexed)
      exact ⟨known, List.prefix_rfl, h.same same trivial nofun (by simp)⟩

/-- Every allowed step keeps the invariant, and the index only grows. -/
theorem IndexSafe.step (h : IndexSafe s keys) {a : ClientAction N} (ha : s.Allowed a)
    (hstep : s.step a = some t) : ∃ keys', keys <+: keys' ∧ IndexSafe t keys' := by
  cases a with
  | put n r =>
      cases hpc : s.pc n with
      | idle =>
          simp only [Clients.step, hpc, Option.some.injEq] at hstep
          subst hstep
          exact ⟨keys, List.prefix_rfl, h.begin n ha rfl⟩
      | _ => simp [Clients.step, hpc] at hstep
  | keys n =>
      cases hpc : s.pc n with
      | idle =>
          simp only [Clients.step, hpc, Option.some.injEq] at hstep
          subst hstep
          exact ⟨keys, List.prefix_rfl, h.begin n trivial rfl⟩
      | _ => simp [Clients.step, hpc] at hstep
  | call n =>
      simp only [Clients.step, Option.map_eq_some_iff] at hstep
      obtain ⟨c, hc, rfl⟩ := hstep
      obtain ⟨returned, answers, heffect, hreturned, hanswers⟩ :=
        clientEffect_of_step (c := ⟨s.dm, s.pc n, s.returned, s.answers⟩) (h.clients n) ha hc
      rw [hreturned, hanswers]
      exact h.call heffect
  | lock n key =>
      simp only [Clients.step, Option.some.injEq] at hstep
      subst hstep
      obtain ⟨hstored, hindexed, hkept⟩ := lockIn_spec s.dm n key
      exact ⟨keys, List.prefix_rfl, h.of_data hindexed (fun k hk => hstored ▸ hk)
        fun _ _ => hkept _ (Ne.symm (lockName_ne_indexLockKey key))⟩
  | release n key =>
      simp only [Clients.step, Option.some.injEq] at hstep
      subst hstep
      obtain ⟨hstored, hindexed, hkept⟩ := releaseIn_spec s.dm n key
      exact ⟨keys, List.prefix_rfl, h.of_data hindexed (fun k hk => hstored ▸ hk)
        fun _ _ => hkept _ (Ne.symm (lockName_ne_indexLockKey key))⟩
  | get key =>
      simp only [Clients.step, Option.some.injEq] at hstep
      subst hstep
      have hsame := getIn_entries key s.dm
      exact ⟨keys, List.prefix_rfl, h.of_data (DMap.indexed_congr hsame)
        (fun k hk => DMap.stored_congr hsame ▸ hk) fun _ _ => congrFun hsame _⟩
  | expire name =>
      simp only [Clients.step, Option.some.injEq] at hstep
      subst hstep
      obtain ⟨hstored, hkept⟩ := s.dm.expire_effect name
      refine ⟨keys, List.prefix_rfl, h.of_data
        ((indexed_expire h.listed.indexed name).trans h.listed.indexed.symm)
        (fun k hk => hstored ▸ hk) fun n hn => hkept _ ?_⟩
      rintro rfl
      exact absurd hn (by simp [ha rfl n])

/-- Over a run the invariant is kept and the index only grows. -/
theorem IndexSafe.run (hrun : Runs.Run Clients.step Clients.Allowed s t) (h : IndexSafe s keys) :
    ∃ keys', keys <+: keys' ∧ IndexSafe t keys' := by
  refine hrun.invariant (I := fun u => ∃ keys', keys <+: keys' ∧ IndexSafe u keys') ?_
    ⟨keys, List.prefix_rfl, h⟩
  rintro u a v ⟨keys₁, hgrown, hu⟩ ha hstep
  obtain ⟨keys₂, hgrown', hv⟩ := hu.step ha hstep
  exact ⟨keys₂, hgrown.trans hgrown', hv⟩

end Steps

/-- Nobody has begun, and the index is consistent; an empty DMap is. -/
structure Clients.Start (s : Clients N) : Prop where
  idle : ∀ n, s.pc n = .idle
  returned : s.returned = []
  answers : s.answers = []
  listed : ∃ keys, Listed s.dm keys

omit [DecidableEq N] in
theorem Clients.Start.indexSafe {s : Clients N} (h : s.Start) : ∃ keys, IndexSafe s keys := by
  obtain ⟨keys, hlisted⟩ := h.listed
  refine ⟨keys, hlisted, fun n hn => ?_, fun n => ?_, fun key hkey => ?_, fun l hl => ?_⟩
  · simp [h.idle n, ClientPc.critical] at hn
  · rw [h.idle n]
    trivial
  · simp [h.returned] at hkey
  · simp [h.answers] at hl

/-- The index is consistent in every interleaving. At any time, and at any later time: the index
lists no key twice; it has lost no key; it lists the key of every `Put` that has returned; and
every key `Keys` has returned has a stored record, which `Get` finds. -/
theorem index_consistency {s₀ s t : Clients N} (h₀ : s₀.Start)
    (hs : Runs.Run Clients.step Clients.Allowed s₀ s)
    (ht : Runs.Run Clients.step Clients.Allowed s t) :
    ∃ before after, s.dm.indexed = some before ∧ t.dm.indexed = some after ∧
      after.Nodup ∧ before <+: after ∧ (∀ key ∈ s.returned, key ∈ before) ∧
      ∀ answer ∈ s.answers, ∀ key ∈ answer, ∃ r, t.dm.stored key = some r ∧
        (t.dm.fails = false → (getIn key t.dm).1 = .ok (some r)) := by
  obtain ⟨first, hfirst⟩ := h₀.indexSafe
  obtain ⟨before, _, hbefore⟩ := hfirst.run hs
  obtain ⟨after, hgrown, hafter⟩ := hbefore.run ht
  refine ⟨before, after, hbefore.listed.indexed, hafter.listed.indexed, hafter.listed.nodup,
    hgrown, hbefore.returned, fun answer hanswer key hkey => ?_⟩
  have hlisted : key ∈ after := hgrown.subset (hbefore.answers answer hanswer key hkey)
  obtain ⟨r, hr⟩ := Option.ne_none_iff_exists'.mp (hafter.listed.stored key hlisted)
  exact ⟨r, hr, getIn_of_stored hr⟩

/-- Two clients on an empty DMap. -/
def twoClients : Clients Bool := ⟨⟨fun _ => none, []⟩, fun _ => .idle, [], []⟩

/-- Both clients write their records; then the first takes the index lock, and the second waits
until the first has returned. -/
def firstReturns : List (ClientAction Bool) :=
  [.put false (sampleRecord 100), .put true { sampleRecord 200 with key := ascii "b" },
    .call false, .call true, .call false, .call false, .call false, .call false,
    .keys false, .call false]

/-- The second client updates the index. -/
def secondReturns : List (ClientAction Bool) :=
  [.call true, .call true, .call true, .call true]

theorem both_keys_listed :
    ∃ s t, Runs.Run Clients.step Clients.Allowed twoClients s ∧
      Runs.Run Clients.step Clients.Allowed s t ∧
      s.returned = [ascii "a"] ∧ s.answers = [[ascii "a"]] ∧
      s.dm.indexed = some [ascii "a"] ∧ t.dm.indexed = some [ascii "a", ascii "b"] ∧
      ∃ r, t.dm.stored (ascii "a") = some r ∧ (getIn (ascii "a") t.dm).1 = .ok (some r) := by
  have hs : Runs.Run Clients.step Clients.Allowed twoClients _ :=
    Runs.Run.of_replay firstReturns rfl
  have hstart : twoClients.Start := ⟨fun _ => rfl, rfl, rfl, [], rfl, List.nodup_nil, nofun⟩
  obtain ⟨_, _, _, _, _, _, _, hget⟩ :=
    index_consistency hstart hs (Runs.Run.of_replay secondReturns rfl)
  obtain ⟨r, hr, hfound⟩ := hget [ascii "a"] (List.mem_singleton_self _) (ascii "a")
    (List.mem_singleton_self _)
  exact ⟨_, _, hs, Runs.Run.of_replay secondReturns rfl, rfl, rfl, rfl, rfl, r, hr, hfound rfl⟩

end Lbsync.Olric
