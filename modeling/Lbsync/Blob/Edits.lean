import Lbsync.Blob.Idle
import Lbsync.Olric.Winners

/-!
# The last edit of a source

One node has the source file of a resource. Its edits have later and later
modification times, and its ticks read whatever state the file is in. The version
of a record has the time in whole seconds and then the digest of the content, so
among edits of one second the greatest digest wins and not the last edit.

`seen` is the list of the states of the file that ticks have read. An edit that
no tick has read plays no role.
-/

namespace Lbsync.Blob

open Files Engine Backup Runs Olric
open Certs (Time unix)

/-- A state of the source file. -/
structure Edit where
  data : Bytes
  mtime : Time
  deriving DecidableEq

/-- What reading the file gives. -/
def sourceOf : Option Edit → Source
  | none => ⟨.error .notExist, .error .notExist⟩
  | some e => ⟨.ok e.data, .ok e.mtime⟩

variable (cfg : Config) (res : Resource)

/-- The version of an edit. -/
def Edit.version (e : Edit) : Version := ⟨unix e.mtime, 0, cfg.sha256Hex e.data⟩

/-- The record of an edit. -/
def Edit.record (e : Edit) : Record where
  kind := kind
  key := res.name
  version := e.version cfg
  blobs := [(ascii "data", e.data)]
  metaData := [(ascii "sha256", cfg.sha256Hex e.data)]
  source := cfg.host

/-- The node with the source file, and the cluster. -/
structure Owner (T : Type*) where
  file : Option Edit
  seen : List Edit
  cluster : Cluster T
  world : World

/-- An edit of the file, whatever else happens on the node and in the cluster, and a tick. -/
inductive Act (T : Type*) where
  | edit (e : Edit)
  | meanwhile (c : Cluster T) (w : World)
  | tick (sources : GoString → Source) (order ord : MapOrder)

variable {T : Type*} [DecidableEq T] (t : T)

/-- The node as a tick finds it. -/
def Owner.enter (s : Owner T) (sources : GoString → Source) (order : MapOrder) : World :=
  { s.world with sources := Function.update sources res.source (sourceOf s.file), order := order }

/-- Take one step. -/
def Owner.step (s : Owner T) : Act T → Option (Owner T)
  | .edit e => some { s with file := some e }
  | .meanwhile c w => some { s with cluster := c, world := w }
  | .tick sources order ord =>
      let out := tickProvider (kv t) (provider cfg) ord s.cluster (s.enter res sources order)
      some ⟨s.file, s.seen ++ s.file.toList, out.1, out.2⟩

/-- Edits go forward in time, nobody else publishes the resource, and no call of a tick
fails. -/
def Owner.Allowed (s : Owner T) : Act T → Prop
  | .edit e => ∀ f, s.file = some f → f.mtime < e.mtime
  | .meanwhile c w => (c.dmaps kind).stored res.name = (s.cluster.dmaps kind).stored res.name ∧
      (c.dmaps kind).Keyed ∧ w.dests.Healthy
  | .tick sources order ord =>
      let w := s.enter res sources order
      ErrorFree (kv t) (provider cfg) ord s.cluster w ∧
        ¬ FlushFails (provider cfg) (tickLoop (kv t) (provider cfg) ord s.cluster w).calls
          (locals cfg w).2

/-- No edit and no record yet. -/
structure Owner.Fresh (s : Owner T) : Prop where
  file : s.file = none
  seen : s.seen = []
  stored : (s.cluster.dmaps kind).stored res.name = none
  keyed : (s.cluster.dmaps kind).Keyed
  healthy : s.world.dests.Healthy

/-- The cluster record and the destination hold the content. -/
def Owner.Holds (s : Owner T) (data : Bytes) : Prop :=
  (∃ r, (s.cluster.dmaps kind).stored res.name = some r ∧ r.blob (ascii "data") = data) ∧
    s.world.dests.content res.dest = some data

/-- No state that a tick has seen lies in the same second as the edit with a greater digest,
and the first one with the same second and digest has the same content. -/
def Prevails (seen : List Edit) (e : Edit) : Prop :=
  (∀ x ∈ seen, unix x.mtime = unix e.mtime → cfg.sha256Hex x.data ≤ cfg.sha256Hex e.data) ∧
    ∀ x, seen.find? (fun x => x.version cfg = e.version cfg) = some x → x.data = e.data

section Tick

variable {cfg res t}

/-- With distinct names the local record of a resource is the one `Local` lists for it. -/
theorem lookup_locals (hnames : (cfg.resources.map Resource.name).Nodup)
    (hres : res ∈ cfg.resources) (w : World) :
    (localMap (locals cfg w).1).lookup res.name = localRecord cfg w res := by
  change (indexLocals (cfg.resources.filterMap (localRecord cfg w))).lookup res.name = _
  have hkey {other : Resource} {r : Record} (hr : localRecord cfg w other = some r) :
      r.key = other.name := by
    unfold localRecord at hr
    split at hr
    · cases hr
    · exact Option.some.inj hr ▸ rfl
  cases hlookup : (indexLocals (cfg.resources.filterMap (localRecord cfg w))).lookup res.name with
  | none =>
      rw [lookup_indexLocals, List.find?_eq_none] at hlookup
      cases hr : localRecord cfg w res with
      | none => rfl
      | some r =>
          have hmem := List.mem_reverse.mpr (List.mem_filterMap.mpr ⟨res, hres, hr⟩)
          exact absurd (hkey hr) (by simpa using hlookup r hmem)
  | some r =>
      obtain ⟨hname, hmem⟩ := key_of_lookup_indexLocals hlookup
      obtain ⟨other, hother, hr⟩ := List.mem_filterMap.mp hmem
      have hsame : other = res :=
        List.inj_on_of_nodup_map hnames hother hres ((hkey hr).symm.trans hname)
      rw [← hsame, hr]

omit [DecidableEq T] in
theorem localRecord_enter (hstrategy : res.strategy ≠ ascii "sha") (s : Owner T)
    (sources : GoString → Source) (order : MapOrder) :
    localRecord cfg (s.enter res sources order) res = s.file.map (Edit.record cfg res) := by
  cases hfile : s.file with
  | none => simp [localRecord, Owner.enter, hfile, sourceOf]
  | some e =>
      simp [localRecord, Owner.enter, hfile, sourceOf, sourceVersion, hstrategy, Edit.record,
        Edit.version]

/-- After a tick whose hook does not fail the destination of a resource holds its winner. -/
theorem content_of_winner (hdistinct : cfg.Distinct) (hwritable : cfg.Writable)
    (hres : res ∈ cfg.resources) {calls : List (GoString × Record)}
    (hcalls : WinnerCalls Set.univ calls) {w : World} (hw : w.dests.Healthy)
    (hflush : ¬ FlushFails (provider cfg) calls w) {r : Record} (hcall : (res.name, r) ∈ calls) :
    (applyTick (provider cfg) calls w).dests.content res.dest = some (r.blob (ascii "data")) := by
  have hplaces := filePlaces_provider hdistinct.toSeparate hwritable
  have hfound := Config.byName_of_mem hdistinct.names hres
  have hkey : r.key = res.name := (hcalls.own _ hcall).2
  have hheld := hplaces.toOffers.held_of_not_fails hplaces.flush hcalls hw hflush _ hcall ()
    (r.blob (ascii "data")) (by simp [offered, hkey, hfound])
  simpa [World.slot, hkey, hfound, Disk.slot] using hheld

/-- What an error-free tick does for the resource: the newer of the file and the stored record
is stored, and when there is a file the destination holds what is stored. -/
theorem step_tick (hdistinct : cfg.Distinct) (hwritable : cfg.Writable)
    (hres : res ∈ cfg.resources) (hstrategy : res.strategy ≠ ascii "sha") {s s' : Owner T}
    (hkeyed : (s.cluster.dmaps kind).Keyed) (hhealthy : s.world.dests.Healthy)
    {sources : GoString → Source} {order ord : MapOrder}
    (hallowed : s.Allowed cfg res t (.tick sources order ord))
    (hstep : s.step cfg res t (.tick sources order ord) = some s') :
    (s'.cluster.dmaps kind).Keyed ∧ s'.world.dests.Healthy ∧
    (s'.cluster.dmaps kind).stored res.name =
      pickNewer (s.file.map (Edit.record cfg res)) ((s.cluster.dmaps kind).stored res.name) ∧
    (s.file ≠ none → s'.world.dests.content res.dest =
      ((s'.cluster.dmaps kind).stored res.name).map fun r => r.blob (ascii "data")) := by
  obtain ⟨hfree, hflush⟩ := hallowed
  obtain rfl := Option.some.inj hstep
  let w := s.enter res sources order
  have hmerges := merges_of_errorFree hfree
  have hown : (localMap ((provider cfg).locals w).1).lookup res.name =
      s.file.map (Edit.record cfg res) :=
    (lookup_locals hdistinct.names hres w).trans (localRecord_enter hstrategy s sources order)
  have hcalls := hmerges.winnerCalls hkeyed fun _ _ => Set.mem_univ _
  have hlisted : (locals cfg w).2.dests.Healthy := hhealthy
  have hplaces := filePlaces_provider hdistinct.toSeparate hwritable
  have hworld : (tickProvider (kv t) (provider cfg) ord s.cluster w).2 = applyTick (provider cfg)
      (tickLoop (kv t) (provider cfg) ord s.cluster w).calls (locals cfg w).2 :=
    tickProvider_snd (kv t) (provider cfg) ord s.cluster w
  have hafter := (hplaces.toOffers.applyTick_of_not_fails hplaces.flush hcalls hlisted hflush).1
  refine ⟨hmerges.ownKeys hkeyed, hworld ▸ hafter, hown ▸ hmerges.stored res.name, fun hfile => ?_⟩
  obtain ⟨e, he⟩ := Option.ne_none_iff_exists'.mp hfile
  obtain ⟨r, hr⟩ : ∃ r, pickNewer ((localMap ((provider cfg).locals w).1).lookup res.name)
      ((s.cluster.dmaps kind).stored res.name) = some r := by
    rw [hown, he]
    exact exists_pickNewer _ _
  have hcall := (hmerges.calls res.name r).mpr ⟨Or.inl (by simp [w, hown, he]), hr⟩
  have hcontent : (tickProvider (kv t) (provider cfg) ord s.cluster w).2.dests.content res.dest =
      some (r.blob (ascii "data")) := by
    rw [hworld]
    exact content_of_winner hdistinct hwritable hres hcalls hlisted hflush hcall
  have hstored : ((tickProvider (kv t) (provider cfg) ord s.cluster w).1.dmaps kind).stored
      res.name = some r := (hmerges.stored res.name).trans hr
  simp only [hcontent, hstored, Option.map_some, w]

end Tick

section Versions

variable {cfg res}

theorem Edit.version_le_iff {x y : Edit} : x.version cfg ≤ y.version cfg ↔
    unix x.mtime < unix y.mtime ∨
      unix x.mtime = unix y.mtime ∧ cfg.sha256Hex x.data ≤ cfg.sha256Hex y.data := by
  rw [← not_lt, Version.lt_iff]
  simp only [Edit.version, lt_irrefl, true_and, false_or]
  constructor
  · intro h
    rcases lt_trichotomy (unix x.mtime) (unix y.mtime) with hlt | heq | hgt
    · exact Or.inl hlt
    · exact Or.inr ⟨heq, not_lt.mp fun hsha => h (Or.inr ⟨heq.symm, hsha⟩)⟩
    · exact absurd (Or.inl hgt) h
  · rintro (hlt | ⟨heq, hsha⟩) (hgt | ⟨_, hgt⟩)
    · exact absurd hlt (not_lt.mpr hgt.le)
    · omega
    · omega
    · exact absurd hgt (not_lt.mpr hsha)

theorem sha_le_of_version_le {x y : Edit} (h : x.version cfg ≤ y.version cfg)
    (hsecond : unix x.mtime = unix y.mtime) : cfg.sha256Hex x.data ≤ cfg.sha256Hex y.data := by
  rcases Edit.version_le_iff.mp h with hlt | ⟨_, hsha⟩
  · omega
  · exact hsha

/-- Whole seconds do not go back. -/
theorem unix_mono {a b : Time} (h : a ≤ b) : unix a ≤ unix b :=
  Int.ediv_le_ediv (by decide) h

/-- The record that ticks leave in a cluster that had none: the first of the greatest
version. -/
def newestSeen (cfg : Config) (res : Resource) (seen : List Edit) : Option Record :=
  NewestWins.offerAll Record.version ((seen.map (Edit.record cfg res)).map some) none

theorem newestSeen_append (cfg : Config) (res : Resource) (seen : List Edit)
    (file : Option Edit) :
    newestSeen cfg res (seen ++ file.toList) =
      pickNewer (file.map (Edit.record cfg res)) (newestSeen cfg res seen) := by
  cases file with
  | none => simp [newestSeen, pickNewer]
  | some e =>
      rw [pickNewer_eq_newest]
      simp only [newestSeen, Option.toList_some, List.map_append, NewestWins.offerAll_append]
      rfl

theorem split_of_newestSeen {seen : List Edit} {r : Record}
    (h : newestSeen cfg res seen = some r) :
    ∃ before x after, seen = before ++ x :: after ∧ r = x.record cfg res ∧
      (∀ y ∈ before, y.version cfg < x.version cfg) ∧
      ∀ y ∈ seen, y.version cfg ≤ x.version cfg := by
  obtain ⟨before, after, hsplit, hbefore, hafter⟩ := NewestWins.split_of_offerAll _ h
  obtain ⟨before', rest, rfl, rfl, hrest⟩ := List.map_eq_append_iff.mp hsplit
  obtain ⟨x, after', rfl, rfl, rfl⟩ := List.map_eq_cons_iff.mp hrest
  have hlt : ∀ y ∈ before', y.version cfg < x.version cfg :=
    fun y hy => hbefore _ (List.mem_map_of_mem hy)
  refine ⟨before', x, after', rfl, rfl, hlt, fun y hy => ?_⟩
  rcases List.mem_append.mp hy with hy | hy
  · exact (hlt y hy).le
  · rcases List.mem_cons.mp hy with rfl | hy
    · exact le_rfl
    · exact hafter _ (List.mem_map_of_mem hy)

theorem find_of_split {before after : List Edit} {x e : Edit}
    (hbefore : ∀ y ∈ before, y.version cfg < x.version cfg)
    (heq : x.version cfg = e.version cfg) :
    (before ++ x :: after).find? (fun y => y.version cfg = e.version cfg) = some x := by
  rw [List.find?_append, List.find?_eq_none.mpr]
  · simp [heq]
  · intro y hy
    simpa using ((hbefore y hy).trans_eq heq).ne

/-- The winner of an edit that is not older than what was seen has its content exactly when
the edit prevails. -/
theorem prevails_iff (res : Resource) {seen : List Edit} {e : Edit}
    (hseen : ∀ x ∈ seen, x.mtime ≤ e.mtime) :
    (∃ r, pickNewer (some (e.record cfg res)) (newestSeen cfg res seen) = some r ∧
      r.blob (ascii "data") = e.data) ↔ Prevails cfg seen e := by
  have hblob (x : Edit) : (x.record cfg res).blob (ascii "data") = x.data := by
    simp [Record.blob, Edit.record]
  cases hnewest : newestSeen cfg res seen with
  | none =>
      have hnil : seen = [] := by
        cases seen using List.reverseRecOn with
        | nil => rfl
        | append_singleton seen x =>
            have happend := newestSeen_append cfg res seen (some x)
            obtain ⟨r, hr⟩ := exists_pickNewer (x.record cfg res) (newestSeen cfg res seen)
            rw [Option.map_some, hr] at happend
            cases hnewest.symm.trans happend
      subst hnil
      exact iff_of_true ⟨e.record cfg res, rfl, hblob e⟩ ⟨nofun, nofun⟩
  | some r =>
      obtain ⟨before, x, after, hsplit, rfl, hbefore, hall⟩ := split_of_newestSeen hnewest
      have hx : x ∈ seen := hsplit ▸ List.mem_append_right before List.mem_cons_self
      rcases lt_or_ge (x.version cfg) (e.version cfg) with hlt | hge
      · have hwins : pickNewer (some (e.record cfg res)) (some (x.record cfg res)) =
            some (e.record cfg res) := pickNewer_of_lt (WithBot.coe_lt_coe.mpr hlt)
        refine iff_of_true ⟨_, hwins, hblob e⟩ ⟨fun y hy hsecond => ?_, fun y hy => ?_⟩
        · exact sha_le_of_version_le ((hall y hy).trans hlt.le) hsecond
        · have hsame : y.version cfg = e.version cfg := by simpa using List.find?_some hy
          have hle := hall y (List.mem_of_find?_eq_some hy)
          exact absurd (hsame ▸ hle) (not_le.mpr hlt)
      · have hkept : pickNewer (some (e.record cfg res)) (some (x.record cfg res)) =
            some (x.record cfg res) := pickNewer_of_le (WithBot.coe_le_coe.mpr hge)
        have hsecond : unix x.mtime = unix e.mtime := by
          have hle := unix_mono (hseen x hx)
          rcases Edit.version_le_iff.mp hge with hlt | ⟨heq, _⟩
          · omega
          · exact heq.symm
        constructor
        · rintro ⟨r, hr, hdata⟩
          obtain rfl := Option.some.inj (hkept.symm.trans hr)
          have hdata' : x.data = e.data := (hblob x).symm.trans hdata
          have heq : x.version cfg = e.version cfg := by
            simp only [Edit.version, hsecond, hdata']
          refine ⟨fun y hy => sha_le_of_version_le ((hall y hy).trans_eq heq), fun y hy => ?_⟩
          rw [hsplit, find_of_split hbefore heq] at hy
          rwa [← Option.some.inj hy]
        · rintro ⟨hsha, hfirst⟩
          have hle : x.version cfg ≤ e.version cfg :=
            Edit.version_le_iff.mpr (Or.inr ⟨hsecond, hsha x hx hsecond⟩)
          have hdata := hfirst x (hsplit ▸ find_of_split hbefore (le_antisymm hle hge))
          exact ⟨_, hkept, (hblob x).trans hdata⟩

end Versions

/-- What holds along every run: the record is the newest of what ticks have seen, and no
state they have seen is later than the file. -/
structure Owner.Follows (s : Owner T) : Prop where
  keyed : (s.cluster.dmaps kind).Keyed
  healthy : s.world.dests.Healthy
  stored : (s.cluster.dmaps kind).stored res.name = newestSeen cfg res s.seen
  earlier : ∀ x ∈ s.seen, ∃ e, s.file = some e ∧ x.mtime ≤ e.mtime

section Runs

variable {cfg res t} (hdistinct : cfg.Distinct) (hwritable : cfg.Writable)
  (hres : res ∈ cfg.resources) (hstrategy : res.strategy ≠ ascii "sha")

include hdistinct hwritable hres hstrategy

theorem Owner.Follows.step {s s' : Owner T} {a : Act T} (h : s.Follows cfg res)
    (hallowed : s.Allowed cfg res t a) (hstep : s.step cfg res t a = some s') :
    s'.Follows cfg res := by
  cases a with
  | edit e =>
      obtain rfl := Option.some.inj hstep
      refine ⟨h.keyed, h.healthy, h.stored, fun x hx => ⟨e, rfl, ?_⟩⟩
      obtain ⟨f, hf, hle⟩ := h.earlier x hx
      exact hle.trans (hallowed f hf).le
  | meanwhile c w =>
      obtain rfl := Option.some.inj hstep
      obtain ⟨hsame, hkeyed, hhealthy⟩ := hallowed
      exact ⟨hkeyed, hhealthy, hsame.trans h.stored, h.earlier⟩
  | tick sources order ord =>
      obtain ⟨hkeyed, hhealthy, hstored, -⟩ :=
        step_tick hdistinct hwritable hres hstrategy h.keyed h.healthy hallowed hstep
      have hseen : s'.seen = s.seen ++ s.file.toList ∧ s'.file = s.file := by
        rw [← Option.some.inj hstep]
        exact ⟨rfl, rfl⟩
      refine ⟨hkeyed, hhealthy, ?_, fun x hx => ?_⟩
      · rw [hstored, h.stored, hseen.1, newestSeen_append]
      · rw [hseen.2]
        rcases List.mem_append.mp (hseen.1 ▸ hx) with hx | hx
        · exact h.earlier x hx
        · exact ⟨x, Option.mem_toList.mp hx, le_rfl⟩

/-- After any run from a fresh start, one more tick leaves the last edit in the cluster and at
the destination exactly when it prevails over what earlier ticks have seen. -/
theorem last_edit_wins_iff {s₀ s s' : Owner T} (hstart : s₀.Fresh res)
    (hrun : Run (Owner.step cfg res t) (Owner.Allowed cfg res t) s₀ s) {e : Edit}
    (hlast : s.file = some e) {sources : GoString → Source} {order ord : MapOrder}
    (hallowed : s.Allowed cfg res t (.tick sources order ord))
    (htick : s.step cfg res t (.tick sources order ord) = some s') :
    s'.Holds res e.data ↔ Prevails cfg s.seen e := by
  have hfollows : s.Follows cfg res := by
    refine Run.invariant (I := fun s : Owner T => s.Follows cfg res)
      (fun s a s' hs => hs.step hdistinct hwritable hres hstrategy) hrun
      ⟨hstart.keyed, hstart.healthy, ?_, ?_⟩
    · rw [hstart.stored, hstart.seen]
      rfl
    · rw [hstart.seen]
      exact nofun
  obtain ⟨-, -, hstored, hdest⟩ :=
    step_tick hdistinct hwritable hres hstrategy hfollows.keyed hfollows.healthy hallowed htick
  have hseen : ∀ x ∈ s.seen, x.mtime ≤ e.mtime := by
    intro x hx
    obtain ⟨f, hf, hle⟩ := hfollows.earlier x hx
    rwa [Option.some.inj (hlast.symm.trans hf)]
  rw [← prevails_iff res hseen, ← hfollows.stored]
  rw [hlast, Option.map_some] at hstored
  specialize hdest (by simp [hlast])
  unfold Owner.Holds
  rw [hdest, hstored]
  constructor
  · exact fun h => h.1
  · rintro ⟨r, hr, hdata⟩
    exact ⟨⟨r, hr, hdata⟩, by rw [hr, Option.map_some, hdata]⟩

end Runs

/-- The resource `f` compared by modification time, without commands. -/
def editResource : Resource := { sampleResource with strategy := ascii "mtime", runner := ⟨[], []⟩ }

/-- A provider of this one resource. -/
def editConfig : Config := { sampleConfig with resources := [editResource] }

/-- A node without files and a cluster without entries. -/
def freshOwner : Owner Unit :=
  ⟨none, [], ⟨fun _ => ⟨fun _ => none, []⟩, fun _ => true⟩, sampleWorld ∅⟩

/-- A tick of this node. -/
def plainTick : Act Unit :=
  .tick (fun _ => ⟨.error .notExist, .error .notExist⟩) .insertion .insertion

/-- The state after a list of acts. -/
def Owner.after (s : Owner Unit) (acts : List (Act Unit)) : Owner Unit :=
  acts.foldl (fun s a => (s.step editConfig editResource () a).getD s) s

/-- The file holds `first` when a tick reads it, and half a second later `second`. -/
def editedTwice (first second : Bytes) : Owner Unit :=
  freshOwner.after [.edit ⟨first, 10000000000⟩, plainTick, .edit ⟨second, 10500000000⟩]

/-- A tick in which no cluster call fails; there is no command to fail. -/
theorem allowed_plainTick {s : Owner Unit}
    (hfree : ErrorFree (kv ()) (provider editConfig) .insertion s.cluster
      (s.enter editResource (fun _ => ⟨.error .notExist, .error .notExist⟩) .insertion)) :
    s.Allowed editConfig editResource () plainTick := by
  refine ⟨hfree, fun ⟨_, e, he⟩ => ?_⟩
  have hok (names : List GoString) (cs : Commands) : runHooks editConfig names cs = (none, cs) := by
    induction names with
    | nil => rfl
    | cons name rest ih =>
        unfold runHooks
        cases hfound : editConfig.byName name with
        | none => exact ih
        | some res =>
            rw [List.mem_singleton.mp (Config.mem_of_byName hfound).1]
            exact ih
  simp [provider, flush, hok] at he

theorem fresh_freshOwner : freshOwner.Fresh editResource :=
  ⟨rfl, rfl, rfl, nofun, ⟨rfl, rfl⟩⟩

theorem run_editedTwice {first second : Bytes}
    (hfree : ErrorFree (kv ()) (provider editConfig) .insertion freshOwner.cluster
      ((freshOwner.after [.edit ⟨first, 10000000000⟩]).enter editResource
        (fun _ => ⟨.error .notExist, .error .notExist⟩) .insertion)) :
    Run (Owner.step editConfig editResource ()) (Owner.Allowed editConfig editResource ())
      freshOwner (editedTwice first second) := by
  have hedit : freshOwner.Allowed editConfig editResource () (.edit ⟨first, 10000000000⟩) := nofun
  have htick := allowed_plainTick (s := freshOwner.after [.edit ⟨first, 10000000000⟩]) hfree
  have hagain : (freshOwner.after [.edit ⟨first, 10000000000⟩, plainTick]).Allowed editConfig
      editResource () (.edit ⟨second, 10500000000⟩) := by
    intro f hf
    obtain rfl : ⟨first, 10000000000⟩ = f := Option.some.inj hf
    exact show (10000000000 : Time) < 10500000000 by decide
  exact (((Run.refl _).tail hedit rfl).tail htick rfl).tail hagain rfl

theorem editConfig_distinct : editConfig.Distinct where
  names := by decide
  dests := by decide
  backups := by
    intro a ha b hb
    rw [List.mem_singleton.mp ha, List.mem_singleton.mp hb]
    decide

theorem editConfig_writable : editConfig.Writable := by
  intro res hres
  rw [List.mem_singleton.mp hres]
  exact sampleConfig_writable sampleResource (List.mem_singleton.mpr rfl)

/-- The digest of `[1]` is smaller than that of `[2]`, which a tick has seen in the same
second: the last edit is neither published nor applied. -/
theorem later_edit_lost :
    freshOwner.Fresh editResource ∧
    Run (Owner.step editConfig editResource ()) (Owner.Allowed editConfig editResource ())
      freshOwner (editedTwice [2] [1]) ∧
    (editedTwice [2] [1]).file = some ⟨[1], 10500000000⟩ ∧
    (editedTwice [2] [1]).Allowed editConfig editResource () plainTick ∧
    let s := (editedTwice [2] [1]).after [plainTick]
    ((s.cluster.dmaps kind).stored editResource.name).map (fun r => r.blob (ascii "data")) =
        some [2] ∧
      s.world.dests.content editResource.dest = some [2] :=
  ⟨fresh_freshOwner, run_editedTwice (by decide), rfl, allowed_plainTick (by decide), by decide,
    by decide⟩

/-- With the greater digest the last edit wins. -/
theorem greater_digest_wins :
    ((editedTwice [1] [2]).after [plainTick]).Holds editResource [2] :=
  (last_edit_wins_iff editConfig_distinct editConfig_writable (List.mem_singleton.mpr rfl)
    (by decide) fresh_freshOwner (run_editedTwice (by decide)) (e := ⟨[2], 10500000000⟩) rfl
    (allowed_plainTick (by decide)) rfl).mpr ⟨by decide, by decide⟩

end Lbsync.Blob
