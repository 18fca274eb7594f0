import Lbsync.Olric.Winners
import Lbsync.Olric.Refinement
import Lbsync.Engine.Resting

/-!
# The facade after an error-free tick

While no call fails from outside, an error-free tick gives every lock back. The
names it has visited are then free or hold a record, so a second tick can read
them all, and the index with them. A reserved name among the keys does not
matter: the tick that first meets one is not error-free.
-/

namespace Lbsync.Olric

open Engine

variable {T P : Type*}

namespace DMap

variable {dm : DMap T}

/-- No call fails from outside. -/
def Up (dm : DMap T) : Prop := dm.faults = []

theorem Up.fails (h : dm.Up) : dm.fails = false := by
  rw [DMap.fails, h]
  rfl

theorem Up.next (h : dm.Up) : dm.next.Up := by
  rw [Up, DMap.next, h]
  rfl

theorem Up.write (h : dm.Up) (name : GoString) (v : Option (Value T)) : (dm.write name v).Up := by
  rw [Up, DMap.write, h]
  rfl

theorem Up.get (h : dm.Up) (name : GoString) : (dm.get name).2.Up := by
  simp only [DMap.get, h.fails, Bool.false_eq_true, if_false]
  cases dm.entries name <;> exact h.next

theorem Up.put (h : dm.Up) (name : GoString) (v : Value T) : (dm.put name v).2.Up := by
  simp only [DMap.put, h.fails, Bool.false_eq_true, if_false]
  exact h.write _ _

theorem Up.lockWithTimeout (h : dm.Up) (name : GoString) (t : T) :
    (dm.lockWithTimeout name t).2.Up := by
  simp only [DMap.lockWithTimeout, h.fails, Bool.false_eq_true, if_false]
  cases dm.entries name with
  | none => exact h.write _ _
  | some v => exact h.next

theorem Up.getIn (h : dm.Up) (key : GoString) : (getIn key dm).2.Up := by
  have hget := h.get key
  unfold Olric.getIn
  generalize dm.get key = out at hget ⊢
  obtain ⟨e | v, dm₁⟩ := out
  · cases e <;> exact hget
  · cases v <;> exact hget

theorem Up.readIndex (h : dm.Up) : (readIndex dm).2.Up := by
  have hget := h.get indexKey
  unfold Olric.readIndex
  generalize dm.get indexKey = out at hget ⊢
  obtain ⟨e | v, dm₁⟩ := out
  · cases e <;> exact hget
  · cases v <;> exact hget

theorem Up.lockIn (h : dm.Up) (t : T) (key : GoString) : (lockIn t key dm).2.Up := by
  have hlock := h.lockWithTimeout (lockName key) t
  unfold Olric.lockIn
  generalize dm.lockWithTimeout (lockName key) t = out at hlock ⊢
  obtain ⟨e | u, dm₁⟩ := out <;> exact hlock

theorem Up.appendToIndex (h : dm.Up) (key : GoString) : (appendToIndex key dm).2.Up := by
  have hread := h.readIndex
  unfold Olric.appendToIndex
  generalize Olric.readIndex dm = out at hread ⊢
  obtain ⟨e | keys, dm₁⟩ := out
  · exact hread
  · have hput := Up.put hread indexKey (.strings (keys ++ [key]))
    by_cases hk : key ∈ keys
    · simpa [hk] using hread
    · simp only [hk, if_false]
      generalize dm₁.put indexKey (.strings (keys ++ [key])) = out at hput ⊢
      obtain ⟨e | u, dm₂⟩ := out <;> exact hput

variable [DecidableEq T]

theorem Up.unlock (h : dm.Up) (name : GoString) (t : T) : (dm.unlock name t).2.Up := by
  simp only [DMap.unlock, h.fails, Bool.false_eq_true, if_false]
  split_ifs
  · exact h.write _ _
  · exact h.next

/-- A token is taken away again. -/
theorem Up.unlock_entries (h : dm.Up) {name : GoString} {t : T}
    (htoken : dm.entries name = some (.token t)) :
    (dm.unlock name t).2.entries = Function.update dm.entries name none := by
  simp [DMap.unlock, h.fails, htoken]

theorem Up.addToIndex (h : dm.Up) (t : T) (key : GoString) : (addToIndex t key dm).2.Up := by
  have hlock := h.lockWithTimeout indexLockKey t
  unfold Olric.addToIndex
  generalize dm.lockWithTimeout indexLockKey t = out at hlock ⊢
  obtain ⟨e | u, dm₁⟩ := out
  · exact Up.appendToIndex hlock key
  · exact Up.unlock (Up.appendToIndex hlock key) indexLockKey t

theorem Up.putIn (h : dm.Up) (t : T) (r : Record) : (putIn t r dm).2.Up := by
  have hput := h.put r.key (.record r)
  unfold Olric.putIn
  generalize dm.put r.key (.record r) = out at hput ⊢
  obtain ⟨e | u, dm₁⟩ := out
  · exact hput
  · exact Up.addToIndex hput t r.key

/-- The name is free or holds a record. -/
def Readable (dm : DMap T) (name : GoString) : Prop :=
  dm.stored name = none → dm.entries name = none

end DMap

section Calls

variable [DecidableEq T] {dm dm' : DMap T} {t : T} {key name : GoString}

/-- An index update without failures leaves every other name as it was. -/
theorem addToIndex_entries (hup : dm.Up) (h : addToIndex t key dm = (.ok (), dm'))
    (hname : name ≠ indexKey) : dm'.entries name = dm.entries name := by
  by_cases hlockName : name = indexLockKey
  · subst hlockName
    have hlockUp := hup.lockWithTimeout indexLockKey t
    unfold addToIndex at h
    rcases hlock : dm.lockWithTimeout indexLockKey t with ⟨_ | u, dm₁⟩
    · simp only [hlock] at h
      rw [appendToIndex_frame h hname, DMap.lock_error hlock]
    · obtain ⟨hfree, he⟩ := DMap.lock_ok hlock
      rw [hlock] at hlockUp
      rcases happ : appendToIndex key dm₁ with ⟨res, dm₂⟩
      simp only [hlock, happ, Prod.mk.injEq] at h
      obtain ⟨rfl, rfl⟩ := h
      have htoken : dm₂.entries indexLockKey = some (.token t) := by
        rw [appendToIndex_frame happ hname, he, Function.update_self]
      have hup₂ : dm₂.Up := by
        have := DMap.Up.appendToIndex hlockUp key
        rwa [happ] at this
      rw [hup₂.unlock_entries htoken, Function.update_self, hfree]
  · exact addToIndex_frame h hname hlockName

theorem putIn_entries (hup : dm.Up) {r : Record} (h : putIn t r dm = (.ok (), dm'))
    (hkey : name ≠ r.key) (hname : name ≠ indexKey) : dm'.entries name = dm.entries name := by
  have hputUp := hup.put r.key (.record r)
  unfold putIn at h
  rcases hput : dm.put r.key (.record r) with ⟨_ | u, dm₁⟩
  · simp [hput] at h
  · simp only [hput] at h
    rw [hput] at hputUp
    rw [addToIndex_entries hputUp h hname, DMap.put_ok hput, Function.update_of_ne hkey]

theorem lockName_ne_self (key : GoString) : lockName key ≠ key := by
  intro heq
  have hlength := congrArg List.length heq
  rw [lockName, List.length_append] at hlength
  have hpos : 0 < lockPrefix.length := by decide
  omega

/-- A lock that was free when it was taken is free again after its release, if the names in
between kept their entries. -/
theorem entries_of_release {dm₁ dm₂ : DMap T} (hup : dm₂.Up)
    (hlock : dm.entries (lockName key) = none ∧
      dm₁.entries = Function.update dm.entries (lockName key) (some (.token t)))
    (hkept : dm₂.entries (lockName key) = dm₁.entries (lockName key))
    (hname : dm₂.entries name = dm₁.entries name) :
    (releaseIn t key dm₂).entries name = dm.entries name := by
  have htoken : dm₂.entries (lockName key) = some (.token t) := by
    rw [hkept, hlock.2, Function.update_self]
  rw [releaseIn, hup.unlock_entries htoken]
  by_cases hsame : name = lockName key
  · rw [hsame, Function.update_self, hlock.1]
  · rw [Function.update_of_ne hsame, hname, hlock.2, Function.update_of_ne hsame]

end Calls

section Tick

variable [DecidableEq T] {t : T} {kind key : GoString} {c c' : Cluster T}

omit [DecidableEq T] in
@[simp] theorem Cluster.onDMap_opens {α : Type*} (c : Cluster T) (kind : GoString)
    (call : DMap T → Except Err α × DMap T) : (c.onDMap kind call).2.opens = c.opens := by
  unfold Cluster.onDMap
  split_ifs <;> rfl

omit [DecidableEq T] in
/-- A successful call of the facade is one of its DMap, and it stays up. -/
theorem Cluster.onDMap_up {α : Type*} {call : DMap T → Except Err α × DMap T} {a : α}
    (h : c.onDMap kind call = (.ok a, c')) (hcall : ∀ dm : DMap T, dm.Up → (call dm).2.Up)
    (hup : (c.dmaps kind).Up) :
    call (c.dmaps kind) = (.ok a, c'.dmaps kind) ∧ (c'.dmaps kind).Up ∧ c'.opens = c.opens := by
  obtain ⟨hrun, -⟩ := Cluster.onDMap_ok h
  have hopens := c.onDMap_opens kind call
  have hup' := hcall _ hup
  rw [h] at hopens
  rw [hrun] at hup'
  exact ⟨hrun, hup', hopens⟩

/-- What a clean publish decision leaves: no failure, and all names other than its key and
the index as they were. -/
theorem entries_of_clean {own o : Option Record}
    (hown : ∀ l, own = some l → l.key = key ∧ l.kind = kind) (hup : (c.dmaps kind).Up)
    (hclean : CleanPublish (kv t) kind key own o c c') :
    (c'.dmaps kind).Up ∧ c'.opens = c.opens ∧ ∀ name ≠ key, name ≠ indexKey →
      (c'.dmaps kind).entries name = (c.dmaps kind).entries name := by
  -- the lock is free again at the end, and the calls in between leave its token alone
  have hrelease {c₁ c₃ : Cluster T} (hlock : (kv t).lock kind key c = (.ok (), c₁))
      (hup₃ : (c₃.dmaps kind).Up) (hopens : c₃.opens = c.opens)
      (hkept : ∀ name ≠ key, name ≠ indexKey →
        (c₃.dmaps kind).entries name = (c₁.dmaps kind).entries name) :
      (((kv t).release kind key c₃).dmaps kind).Up ∧
        ((kv t).release kind key c₃).opens = c.opens ∧ ∀ name ≠ key, name ≠ indexKey →
        (((kv t).release kind key c₃).dmaps kind).entries name =
          (c.dmaps kind).entries name := by
    obtain ⟨hrun, hopen⟩ := Cluster.onDMap_ok hlock
    have hopens₁ : c₁.opens = c.opens := by
      have := c.onDMap_opens kind (lockIn t key)
      rwa [show c.onDMap kind (lockIn t key) = (.ok (), c₁) from hlock] at this
    have hopen₃ : c₃.opens kind = true := by rw [hopens, ← hopens₁, hopen]
    rw [release_dmaps t key hopen₃]
    refine ⟨hup₃.unlock _ _, (c₃.onDMap_opens kind _).trans hopens, fun name hne hindex => ?_⟩
    exact entries_of_release hup₃ (lockIn_ok hrun)
      (hkept _ (lockName_ne_self key) (lockName_ne_indexKey key)) (hkept name hne hindex)
  cases hclean with
  | skip hskip => exact ⟨hup, rfl, fun _ _ _ => rfl⟩
  | @overtaken l _ cur _ c₁ c₂ hnewer hlock hrecheck hcur =>
      obtain ⟨-, hup₁, hopens₁⟩ := Cluster.onDMap_up hlock (fun _ h => h.lockIn t key) hup
      obtain ⟨hget, hup₂, hopens₂⟩ := Cluster.onDMap_up hrecheck (fun _ h => h.getIn key) hup₁
      refine hrelease hlock hup₂ (hopens₂.trans hopens₁) fun name _ _ => ?_
      rw [(getIn_ok hget).1]
  | @publish l _ cur _ c₁ c₂ c₃ hnewer hlock hrecheck hcur hput =>
      obtain ⟨hkey, hkind⟩ := hown l rfl
      have hput' : c₂.onDMap kind (putIn t l) = (.ok (), c₃) := hkind ▸ hput
      obtain ⟨-, hup₁, hopens₁⟩ := Cluster.onDMap_up hlock (fun _ h => h.lockIn t key) hup
      obtain ⟨hget, hup₂, hopens₂⟩ := Cluster.onDMap_up hrecheck (fun _ h => h.getIn key) hup₁
      obtain ⟨hrun, hup₃, hopens₃⟩ := Cluster.onDMap_up hput' (fun _ h => h.putIn t l) hup₂
      refine hrelease hlock hup₃ (hopens₃.trans (hopens₂.trans hopens₁)) fun name hne hindex => ?_
      rw [putIn_entries hup₂ hrun (hkey ▸ hne) hindex, (getIn_ok hget).1]

omit [DecidableEq T] in
theorem DMap.Readable.congr {dm dm' : DMap T} {name : GoString} (h : dm.Readable name)
    (he : dm'.entries name = dm.entries name) : dm'.Readable name := by
  unfold DMap.Readable DMap.stored
  rw [he]
  exact h

variable {p : Provider P} {m : LocalMap}

/-- A clean visit leaves its key readable and all names but the index as they were. -/
theorem readable_visit (hm : OfKind p.kind m) {st : TickState (Cluster T × Bool) P}
    (h : (processKey (kv t).watch p m st key).cluster.2 = false)
    (hup : (st.cluster.1.dmaps p.kind).Up) :
    let c' := (processKey (kv t).watch p m st key).cluster.1
    (c'.dmaps p.kind).Up ∧ c'.opens = st.cluster.1.opens ∧ (c'.dmaps p.kind).Readable key ∧
      ∀ name ≠ key, name ≠ indexKey →
        (c'.dmaps p.kind).entries name = (st.cluster.1.dmaps p.kind).entries name := by
  intro c'
  obtain ⟨-, o, c₁, hread, hclean, -⟩ := cleanVisit_of_unmarked h
  obtain ⟨hget, hup₁, hopens₁⟩ := Cluster.onDMap_up hread (fun _ h => h.getIn key) hup
  obtain ⟨hsame, ho, hfree⟩ := getIn_ok hget
  obtain ⟨-, heff⟩ := visitEffect_of_clean (hm key) hread hclean
  obtain ⟨hup', hopens, hkept⟩ := entries_of_clean (hm key) hup₁ hclean
  refine ⟨hup', hopens.trans hopens₁, fun hnone => ?_, fun name hne hindex => ?_⟩
  · have hwinner := (heff.stored key).symm.trans hnone
    rw [if_pos rfl] at hwinner
    cases hl : m.lookup key with
    | some l =>
        obtain ⟨r, hr⟩ := exists_pickNewer l ((st.cluster.1.dmaps p.kind).stored key)
        rw [hl, hr] at hwinner
        cases hwinner
    | none =>
        rw [hl] at hwinner hclean
        have hc' : c' = c₁ := hclean.eq_of_none
        rw [hc', hsame]
        exact hfree (ho.trans hwinner)
  · rw [hkept name hne hindex, hsame]

/-- The loop of an error-free tick leaves every key it visits readable. -/
theorem readable_foldl (hm : OfKind p.kind m) {keys : List GoString}
    {st : TickState (Cluster T × Bool) P}
    (hend : (keys.foldl (processKey (kv t).watch p m) st).cluster.2 = false)
    (hup : (st.cluster.1.dmaps p.kind).Up) :
    let c' := (keys.foldl (processKey (kv t).watch p m) st).cluster.1
    (c'.dmaps p.kind).Up ∧ c'.opens = st.cluster.1.opens ∧ ∀ name ≠ indexKey,
      (name ∈ keys ∨ (st.cluster.1.dmaps p.kind).Readable name) →
        (c'.dmaps p.kind).Readable name := by
  induction keys generalizing st with
  | nil => exact ⟨hup, rfl, fun name _ h => h.resolve_left List.not_mem_nil⟩
  | cons key keys ih =>
      have hvisit : (processKey (kv t).watch p m st key).cluster.2 = false :=
        @Frames.good_of_foldl _ _ _
          (fun st : TickState (Cluster T × Bool) P => st.cluster.2 = false)
          (fun st j hj => (cleanVisit_of_unmarked hj).1) _ _ hend
      obtain ⟨hup₁, hopens₁, hkey, hother⟩ := readable_visit hm hvisit hup
      obtain ⟨hup', hopens, hreadable⟩ := ih hend hup₁
      refine ⟨hup', hopens.trans hopens₁, fun name hindex h => hreadable name hindex ?_⟩
      by_cases hne : name = key
      · exact Or.inr (hne ▸ hkey)
      · rcases h with hmem | hbefore
        · exact Or.inl ((List.mem_cons.mp hmem).resolve_left hne)
        · exact Or.inr (hbefore.congr (hother name hne hindex))

variable {ord : MapOrder} {w : P}

/-- An error-free tick leaves a readable index. -/
theorem indexed_of_errorFree (h : ErrorFree (kv t) p ord c w) :
    ((tickLoop (kv t) p ord c w).cluster.dmaps p.kind).indexed.isSome := by
  have heff := tickEffect_of_errorFree h
  have hlisted :
      (((tickLoop (kv t) p ord c w).cluster.dmaps p.kind).listed indexKey).isSome := by
    rw [heff.index indexKey]
    split_ifs
    · rfl
    · exact heff.readable indexKey
  simpa [DMap.listed] using hlisted

/-- An error-free tick does not meet the name of the index. -/
theorem not_knows_indexKey (h : ErrorFree (kv t) p ord c w) : ¬ Knows p c w indexKey := by
  intro hknows
  have heff := tickEffect_of_errorFree h
  obtain ⟨ks, c₀, -, hindexed, hsame, hlast, -⟩ := watchLoop_of_errorFree h
  have hvisited : indexKey ∈ unionKeys ord (localMap (p.locals w).1) (.ok ks) :=
    (mem_unionKeys_iff hindexed).mpr hknows
  obtain ⟨mid, hgood, hmid, -⟩ :=
    (keyView_owns indexKey).foldl_of_mem (unionKeys_nodup _ _ _) hvisited hlast
  simp only [keyView, Prod.mk.injEq, DMap.stored_congr hsame,
    DMap.listed_congr (DMap.indexed_congr hsame)] at hmid
  have hnone : (c.dmaps p.kind).stored indexKey = none :=
    stored_indexKey_of_indexed hindexed
  -- its read finds no record, so the index is empty when the visit starts
  obtain ⟨-, o, c₁, hread, -⟩ := cleanVisit_of_unmarked hgood
  obtain ⟨-, ho, hfree⟩ := getIn_ok (Cluster.onDMap_ok hread).1
  have hempty := hfree (ho.trans (hmid.1.trans hnone))
  have hunlisted : (c.dmaps p.kind).listed indexKey = some false := by
    rw [← hmid.2.1, DMap.listed, DMap.indexed, hempty]
    rfl
  -- so the key is local, and its record would have taken the place of the index
  have hlocal := hknows.resolve_right (by simp [hunlisted])
  obtain ⟨l, hl⟩ := Option.isSome_iff_exists.mp hlocal
  have hstored := heff.stored indexKey
  obtain ⟨r, hr⟩ := exists_pickNewer l ((c.dmaps p.kind).stored indexKey)
  rw [hl, hr] at hstored
  obtain ⟨ks', hks'⟩ := Option.isSome_iff_exists.mp (indexed_of_errorFree h)
  rw [stored_indexKey_of_indexed hks'] at hstored
  cases hstored

/-- After an error-free tick without failures from outside, the DMap is up and open, and the
keys the tick knew can be read. -/
theorem readable_of_errorFree (h : ErrorFree (kv t) p ord c w) (hup : (c.dmaps p.kind).Up) :
    let c' := (tickProvider (kv t) p ord c w).1
    (c'.dmaps p.kind).Up ∧ c'.opens p.kind = true ∧
      ∀ k, Knows p c w k → (c'.dmaps p.kind).Readable k := by
  intro c'
  obtain ⟨ks, c₀, hkeys, hindexed, -, hlast, hc'⟩ := watchLoop_of_errorFree h
  obtain ⟨-, hup₀, -⟩ := Cluster.onDMap_up hkeys (fun _ h => h.readIndex) hup
  have hopen : c₀.opens p.kind = true := (Cluster.onDMap_ok hkeys).2
  obtain ⟨hup', hopens, hreadable⟩ := readable_foldl (p.ofKind_locals w) hlast hup₀
  have hcluster : c' = _ := congrArg TickState.cluster hc'
  rw [hcluster]
  refine ⟨hup', (congrFun hopens p.kind).trans hopen, fun k hk => ?_⟩
  exact hreadable k (fun heq => not_knows_indexKey h (heq ▸ hk))
    (Or.inl ((mem_unionKeys_iff hindexed).mpr hk))

omit [DecidableEq T] in
theorem readIndex_of_up {dm : DMap T} (hup : dm.Up) {ks : List GoString}
    (hindexed : dm.indexed = some ks) : readIndex dm = (.ok ks, dm.next) := by
  unfold DMap.indexed at hindexed
  unfold readIndex DMap.get
  simp only [hup.fails, Bool.false_eq_true, if_false]
  cases hentry : dm.entries indexKey with
  | none =>
      rw [hentry] at hindexed
      rw [← Option.some.inj hindexed]
  | some v =>
      rw [hentry] at hindexed
      simp only at hindexed
      simp only [hindexed]

omit [DecidableEq T] in
theorem getIn_of_up {dm : DMap T} (hup : dm.Up) (hreadable : dm.Readable key) :
    getIn key dm = (.ok (dm.stored key), dm.next) := by
  unfold getIn DMap.get
  simp only [hup.fails, Bool.false_eq_true, if_false]
  cases hstored : dm.stored key with
  | none => simp only [hreadable hstored]
  | some r => simp only [entries_of_stored hstored, decodeRecord]

omit [DecidableEq T] in
/-- A call that only reads leaves the cluster as it was. -/
theorem Cluster.onDMap_next {α : Type*} {call : DMap T → Except Err α × DMap T} {a : α}
    (hopen : c.opens kind = true) (hcall : call (c.dmaps kind) = (.ok a, (c.dmaps kind).next)) :
    ∃ c', c.onDMap kind call = (.ok a, c') ∧ c'.dmaps kind = (c.dmaps kind).next ∧
      c'.opens kind = true :=
  ⟨{ c with dmaps := Function.update c.dmaps kind (c.dmaps kind).next },
    by simp [Cluster.onDMap, hopen, hcall], Function.update_self .., hopen⟩

/-- A facade whose DMap is up is at rest: its index and every readable key give the same
answers again and again. -/
theorem rests_kv (t : T) (kind : GoString) {dm : DMap T} {ks : List GoString}
    (hindexed : dm.indexed = some ks) :
    Rests (kv t) kind (fun c => (c.dmaps kind).entries = dm.entries ∧ (c.dmaps kind).Up ∧
      c.opens kind = true) ks dm.stored {k | dm.Readable k} where
  keys c hc := by
    obtain ⟨hentries, hup, hopen⟩ := hc
    obtain ⟨c', hrun, hnext, hopen'⟩ := Cluster.onDMap_next hopen
      (readIndex_of_up hup ((DMap.indexed_congr hentries).trans hindexed))
    exact ⟨c', hrun, by rw [hnext]; exact hentries, by rw [hnext]; exact hup.next, hopen'⟩
  get c hc key hkey := by
    obtain ⟨hentries, hup, hopen⟩ := hc
    have hreadable : (c.dmaps kind).Readable key :=
      DMap.Readable.congr hkey (congrFun hentries key)
    obtain ⟨c', hrun, hnext, hopen'⟩ := Cluster.onDMap_next hopen (getIn_of_up hup hreadable)
    rw [DMap.stored_congr hentries] at hrun
    exact ⟨c', hrun, by rw [hnext]; exact hentries, by rw [hnext]; exact hup.next, hopen'⟩

end Tick

end Lbsync.Olric
