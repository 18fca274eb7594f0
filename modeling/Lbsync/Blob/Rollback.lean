import Lbsync.Blob.Provider
import Lbsync.Engine.Places
import Lbsync.Files.Backups
import Lbsync.Lib.Runs

/-!
# What a rollback of destinations restores

A destination and its backup are a place with one backup, written by `Apply` and
restored by `Rollback`, and a backup always stands beside a different
destination. So a tick whose hook fails leaves a destination that was there as it
was. A destination it creates has no backup, and nothing takes it away again.
-/

namespace Lbsync.Blob

open Files Engine Backup Runs

variable (cfg : Config)

/-- Distinct destinations, none of which is another's backup. -/
structure Config.Separate : Prop where
  dests : (cfg.resources.map Resource.dest).Nodup
  backups : ∀ a ∈ cfg.resources, ∀ b ∈ cfg.resources, a.dest ≠ b.dest.backup

/-- The names are distinct too. -/
structure Config.Distinct : Prop extends cfg.Separate where
  names : (cfg.resources.map Resource.name).Nodup

/-- The destinations are names a file can have, and temp files get other names. -/
def Config.Writable : Prop :=
  ∀ res ∈ cfg.resources, ¬ Disk.IsDots res.dest.name ∧ cfg.temp.Avoids res.dest

/-- A destination and its backup; nothing for a name that is not configured. -/
def World.slot (w : World) (key : GoString) (_ : Unit) : Slot Bytes :=
  match cfg.byName key with
  | some res => w.dests.slot res.dest
  | none => ⟨none, none⟩

/-- What a record has for the destination of its resource. -/
def offered (r : Record) (_ : Unit) : Option Bytes :=
  (cfg.byName r.key).map fun _ => r.blob (ascii "data")

/-- One tick: what its sources are, how it visits the pending resources, and its winners. -/
structure Tick where
  sources : GoString → Source
  order : MapOrder
  calls : List (GoString × Record)

/-- The world a tick hands its winners to. -/
def Tick.enter (t : Tick) (w : World) : World :=
  { w with sources := t.sources, order := t.order, pending := [] }

/-- The world after the tick. -/
def Tick.run (t : Tick) (w : World) : World := applyTick (provider cfg) t.calls (t.enter w)

/-- Any number of ticks, each with winners for some keys. -/
def Ticks : World → World → Prop :=
  Run (fun w (t : Tick) => some (t.run cfg w)) fun _ t => WinnerCalls Set.univ t.calls

/-- No destination has a backup, and nothing fails. -/
structure Start (w : World) : Prop where
  healthy : w.dests.Healthy
  no_backup : ∀ res ∈ cfg.resources, w.dests.file res.dest.backup = none

/-- What holds between ticks: a backup stands beside a different destination. -/
structure Tidy (w : World) : Prop where
  healthy : w.dests.Healthy
  proper : ∀ key, (w.slot cfg key ()).Proper

variable {cfg}

/-- A reconcile tick against any cluster that stores records under their own key acts on
the provider as one of these ticks. -/
theorem ticks_tickProvider {K : Type*} (cl : ClusterKV K) (ord : MapOrder) (s : K) (w : World)
    (sources : GoString → Source) (order : MapOrder)
    (hget : ∀ key s r, gotRecord (cl.get kind key s).1 = some r → r.key = key) :
    Ticks cfg w (tickProvider cl (provider cfg) ord s
      { w with sources := sources, order := order }).2 := by
  let w' : World := { w with sources := sources, order := order }
  refine (Run.refl w).tail (a := ⟨sources, order, (tickLoop cl (provider cfg) ord s w').calls⟩)
    (winnerCalls_tickLoop cl (provider cfg) ord s w' hget fun _ _ => trivial) ?_
  rw [tickProvider_snd]
  rfl

theorem Config.Separate.apart (h : cfg.Separate) {a b : Resource} (ha : a ∈ cfg.resources)
    (hb : b ∈ cfg.resources) (hne : b.name ≠ a.name) : Apart a.dest b.dest where
  ne heq := hne (congrArg Resource.name (List.inj_on_of_nodup_map h.dests hb ha heq))
  ne_backup := h.backups b hb a ha
  backup_ne heq := h.backups a ha b hb heq.symm

section Places

variable (hseparate : cfg.Separate) (hwritable : cfg.Writable)

include hseparate

/-- What is done to one destination and its backup leaves the places of other names alone. -/
theorem slot_frame {w w' : World} {res : Resource} (hres : res ∈ cfg.resources)
    (hother : ∀ q ≠ res.dest, q ≠ res.dest.backup → w'.dests.file q = w.dests.file q)
    {key : GoString} (hkey : key ≠ res.name) : w'.slot cfg key () = w.slot cfg key () := by
  unfold World.slot
  cases hfound : cfg.byName key with
  | none => rfl
  | some other =>
      obtain ⟨hmem, hname⟩ := Config.mem_of_byName hfound
      exact (hseparate.apart hres hmem (hname ▸ hkey)).slot hother

include hwritable

/-- `Apply` offers the blob of the record to the place of its resource. -/
theorem apply_slot (r : Record) {w : World} (hw : w.dests.Healthy) :
    ∃ changed w', apply cfg r w = (.ok changed, w') ∧ w'.dests.Healthy ∧
      (changed = true ↔ (w.slot cfg r.key ()).Changes (offered cfg r ())) ∧
      ∀ k, w'.slot cfg k () =
        if k = r.key then (w.slot cfg k ()).offer (offered cfg r ()) else w.slot cfg k () := by
  cases hfound : cfg.byName r.key with
  | none =>
      refine ⟨false, w, by simp [apply, hfound], hw, by simp [offered, hfound, Slot.Changes], ?_⟩
      intro k
      simp [offered, hfound, Slot.offer]
  | some res =>
      obtain ⟨hmem, hname⟩ := Config.mem_of_byName hfound
      obtain ⟨hfile, havoid⟩ := hwritable res hmem
      obtain ⟨d, hrun, hhealthy, hown, hother⟩ :=
        writeAtomic_slot cfg.temp hw res.dest hfile havoid (r.blob (ascii "data")) 0o644
      have hslot : w.slot cfg r.key () = w.dests.slot res.dest := by simp [World.slot, hfound]
      have hoffered : offered cfg r () = some (r.blob (ascii "data")) := by simp [offered, hfound]
      have hresult : ∃ pending, apply cfg r w =
          (.ok (decide (w.dests.content res.dest ≠ some (r.blob (ascii "data")))),
            { w with dests := d, pending := pending }) := by
        by_cases hsame : w.dests.content res.dest = some (r.blob (ascii "data"))
        · exact ⟨w.pending, by simp [apply, hfound, hrun, hsame]⟩
        · exact ⟨w.pending.insert r.key, by simp [apply, hfound, hrun, hsame]⟩
      obtain ⟨pending, hresult⟩ := hresult
      refine ⟨_, _, hresult, hhealthy, ?_, fun k => ?_⟩
      · simp [hslot, hoffered, Slot.Changes, Disk.slot]
      · by_cases hk : k = r.key
        · subst hk
          have hafter : ({ w with dests := d, pending := pending } : World).slot cfg r.key () =
              d.slot res.dest := by simp [World.slot, hfound]
          rw [if_pos rfl, hafter, hown, hslot, hoffered]
          rfl
        · rw [if_neg hk]
          exact slot_frame hseparate hmem hother (hname ▸ hk)

/-- `Rollback` restores the places of the names it is given. -/
theorem restoreKeys_slot (keys : List GoString) {w : World} (hw : w.dests.Healthy) :
    ∃ d, restoreKeys cfg keys w.dests = (.ok (), d) ∧ d.Healthy ∧
      ∀ k, ({ w with dests := d } : World).slot cfg k () =
        if k ∈ keys then (w.slot cfg k ()).restore else w.slot cfg k () := by
  induction keys generalizing w with
  | nil => exact ⟨w.dests, rfl, hw, by simp⟩
  | cons key rest ih =>
      cases hfound : cfg.byName key with
      | none =>
          obtain ⟨d, hrun, hhealthy, hslots⟩ := ih hw
          refine ⟨d, by simp [restoreKeys, hfound, hrun], hhealthy, fun k => ?_⟩
          by_cases hk : k = key
          · subst hk
            have hempty (w : World) : w.slot cfg k () = ⟨none, none⟩ := by
              simp [World.slot, hfound]
            simp [hempty, Slot.restore]
          · simp [hslots, hk]
      | some res =>
          obtain ⟨hmem, hname⟩ := Config.mem_of_byName hfound
          obtain ⟨d₁, hrestore, hhealthy₁, hown, hother⟩ :=
            restore_slot hw res.dest (hwritable res hmem).1
          let w₁ : World := { w with dests := d₁ }
          obtain ⟨d, hrun, hhealthy, hslots⟩ := ih (w := w₁) hhealthy₁
          have hslots' (k : GoString) : ({ w with dests := d } : World).slot cfg k () =
              if k ∈ rest then (w₁.slot cfg k ()).restore else w₁.slot cfg k () := hslots k
          have hrun' : restoreKeys cfg rest d₁ = (.ok (), d) := hrun
          refine ⟨d, by simp [restoreKeys, hfound, hrestore, hrun'], hhealthy, fun k => ?_⟩
          rw [hslots' k]
          by_cases hk : k = key
          · subst hk
            have hfirst : w₁.slot cfg k () = (w.slot cfg k ()).restore := by
              simpa [World.slot, hfound] using hown
            simp [hfirst]
          · have hfirst : w₁.slot cfg k () = w.slot cfg k () :=
              slot_frame hseparate hmem hother (hname ▸ hk)
            simp [hk, hfirst]

/-- The destinations are places with a backup. -/
theorem restores_provider : Restores (provider cfg) (fun w => w.dests.Healthy) Set.univ
    (fun w => w.slot cfg) (offered cfg) where
  apply r w hw _ := by
    obtain ⟨changed, w', hrun, hhealthy, hchanged, hslots⟩ :=
      apply_slot hseparate hwritable r hw
    exact ⟨changed, w', hrun, hhealthy, hchanged.trans (exists_const Unit).symm,
      fun k _ _ => hslots k⟩
  flush w hw := by
    have hdests : ((provider cfg).flush w).2.dests = w.dests := by
      simp only [provider, flush]
      split <;> rfl
    refine ⟨by rwa [hdests], fun k _ _ => ?_⟩
    simp only [World.slot, hdests]
  rollback changed _ w hw := by
    obtain ⟨d, hrun, hhealthy, hslots⟩ := restoreKeys_slot hseparate hwritable changed hw
    have hroll : ((provider cfg).rollback changed w).2 = { w with dests := d } := by
      simp [provider, hrun]
    rw [hroll]
    exact ⟨hhealthy, fun k _ _ => hslots k⟩

end Places

section Ticks

variable (hdistinct : cfg.Distinct) (hwritable : cfg.Writable)

include hdistinct hwritable

theorem tidy_of_ticks {w₀ w : World} (hstart : Start cfg w₀) (hrun : Ticks cfg w₀ w) :
    Tidy cfg w := by
  refine Run.invariant (I := Tidy cfg) (fun s t s' hs hcalls hstep => ?_) hrun ⟨hstart.healthy, ?_⟩
  · rw [← Option.some.inj hstep]
    obtain ⟨hhealthy, hslots, _⟩ :=
      (restores_provider hdistinct.toSeparate hwritable).applyTick hcalls (w := t.enter s)
        hs.healthy
    refine ⟨hhealthy, fun key => ?_⟩
    have hproper : ((t.enter s).slot cfg key ()).Proper := hs.proper key
    rcases hslots key trivial () with h | h
    · rw [Tick.run, h]
      exact Slot.proper_offer _ hproper
    · rw [Tick.run, h]
      exact Slot.proper_of_backup_none (Slot.backup_restore _)
  · intro key
    unfold World.slot
    split
    · rename_i res hfound
      refine Slot.proper_of_backup_none ?_
      simp [Disk.slot, Disk.content, hstart.no_backup res (Config.mem_of_byName hfound).1]
    · exact Slot.proper_of_backup_none rfl

/-- After any run of ticks, a tick whose hook fails leaves every destination as it was,
or absent, exactly when every destination it has a winner for was there. -/
theorem destinations_restored_iff {w₀ w : World} (hstart : Start cfg w₀)
    (hrun : Ticks cfg w₀ w) {t : Tick} (hcalls : WinnerCalls Set.univ t.calls)
    (hfail : FlushFails (provider cfg) t.calls (t.enter w)) :
    (∀ res ∈ cfg.resources, (t.run cfg w).dests.content res.dest = w.dests.content res.dest) ↔
      ∀ res ∈ cfg.resources, res.name ∈ t.calls.map Prod.fst →
        w.dests.content res.dest ≠ none := by
  have hw := tidy_of_ticks hdistinct hwritable hstart hrun
  obtain ⟨_, _, hfailed⟩ :=
    (restores_provider hdistinct.toSeparate hwritable).applyTick hcalls (w := t.enter w) hw.healthy
  refine forall₂_congr fun res hres => ?_
  have hfound := Config.byName_of_mem hdistinct.names hres
  have hslot (w : World) : w.slot cfg res.name () = w.dests.slot res.dest := by
    simp [World.slot, hfound]
  have hcontent (w : World) : w.dests.content res.dest = (w.slot cfg res.name ()).current := by
    rw [hslot w]
    rfl
  obtain ⟨hchanged, hkept⟩ := hfailed hfail res.name trivial
  rw [hcontent, hcontent, Tick.run]
  by_cases hch : ChangesAt (fun w => w.slot cfg) (offered cfg) t.calls (t.enter w) res.name
  · have hafter : (applyTick (provider cfg) t.calls (t.enter w)).slot cfg res.name () =
        ((w.slot cfg res.name ()).offer (offeredAt (offered cfg) t.calls res.name ())).restore :=
      hchanged hch ()
    have hmem := mem_of_changesAt hch
    obtain ⟨_, hch⟩ := hch
    rw [hafter, Slot.current_restore_write_iff (hw.proper res.name) hch]
    exact (imp_iff_right hmem).symm
  · have hafter : (applyTick (provider cfg) t.calls (t.enter w)).slot cfg res.name () =
        w.slot cfg res.name () := hkept hch ()
    rw [hafter]
    refine iff_of_true rfl fun hmem hnone => hch ⟨(), ?_⟩
    obtain ⟨call, hcall, hname⟩ := List.mem_map.mp hmem
    refine ⟨call.2.blob (ascii "data"), ?_, fun hsome => nomatch hnone.symm.trans hsome⟩
    rw [← hname, hcalls.offeredAt_eq hcall]
    simp [offered, (hcalls.own call hcall).2, hname ▸ hfound]

end Ticks

/-- The resource `f` with the destination `/d/f` and a verify command. -/
def sampleResource : Resource where
  name := ascii "f"
  source := ascii "/src/f"
  dest := ⟨ascii "/d", ascii "f"⟩
  strategy := ascii "sha"
  runner := ⟨[ascii "verify"], []⟩

/-- A provider of this one resource. -/
def sampleConfig : Config where
  resources := [sampleResource]
  host := ascii "h"
  sum256 := id
  temp := TempNamer.longer

/-- A node with the given files on which every command fails. -/
def sampleWorld (files : FileMap) : World where
  sources _ := ⟨.error .notExist, .error .notExist⟩
  dests := { files := files, umask := 0o022, faults := [], stopped := false }
  pending := []
  order := MapOrder.insertion
  commands := ⟨fun _ => false, 0⟩

/-- A tick whose winner for `f` is the blob `[2]`. -/
def sampleTick : Tick where
  sources _ := ⟨.error .notExist, .error .notExist⟩
  order := MapOrder.insertion
  calls := [(ascii "f", ⟨kind, ascii "f", ⟨0, 0, []⟩, [(ascii "data", [2])], [], []⟩)]

theorem sampleConfig_distinct : sampleConfig.Distinct where
  names := by decide
  dests := by decide
  backups := by
    intro a ha b hb
    rw [List.mem_singleton.mp ha, List.mem_singleton.mp hb]
    decide

theorem sampleConfig_writable : sampleConfig.Writable := by
  intro res hres
  rw [List.mem_singleton.mp hres]
  refine ⟨by decide, TempNamer.avoids_of_not_temp _ fun digits h => ?_⟩
  exact absurd (congrArg List.head? h) (by simp [sampleResource, ascii])

theorem winnerCalls_sampleTick : WinnerCalls Set.univ sampleTick.calls := by
  refine ⟨by decide, fun call hcall => ?_⟩
  rw [List.mem_singleton.mp hcall]
  exact ⟨trivial, rfl⟩

theorem start_sampleWorld {files : FileMap}
    (h : files.lookup ⟨ascii "/d", ascii "f.bak"⟩ = none) :
    Start sampleConfig (sampleWorld files) := by
  refine ⟨⟨rfl, rfl⟩, fun res hres => ?_⟩
  rw [List.mem_singleton.mp hres]
  exact h

/-- The destination is absent and the hook of the first tick fails. The rollback leaves the
new file in place. -/
theorem first_install_kept :
    sampleConfig.Distinct ∧ sampleConfig.Writable ∧ Start sampleConfig (sampleWorld ∅) ∧
    WinnerCalls Set.univ sampleTick.calls ∧
    FlushFails (provider sampleConfig) sampleTick.calls (sampleTick.enter (sampleWorld ∅)) ∧
    (sampleWorld ∅).dests.content sampleResource.dest = none ∧
    (sampleTick.run sampleConfig (sampleWorld ∅)).dests.content sampleResource.dest =
      some [2] :=
  ⟨sampleConfig_distinct, sampleConfig_writable, start_sampleWorld rfl, winnerCalls_sampleTick,
    ⟨by decide, .verify, rfl⟩, by decide, by decide⟩

/-- The same node with the destination in place. -/
def installedWorld : World :=
  sampleWorld ((∅ : FileMap).insert sampleResource.dest ⟨[1], 0o600⟩)

/-- A destination that was there is restored. -/
theorem present_destination_restored :
    (sampleTick.run sampleConfig installedWorld).dests.content sampleResource.dest =
      some [1] := by
  have hpresent : ∀ res ∈ sampleConfig.resources, res.name ∈ sampleTick.calls.map Prod.fst →
      installedWorld.dests.content res.dest ≠ none := by
    intro res hres _
    rw [List.mem_singleton.mp hres]
    decide
  have hrestored := (destinations_restored_iff sampleConfig_distinct sampleConfig_writable
    (start_sampleWorld (by decide)) (Run.refl installedWorld) winnerCalls_sampleTick
    ⟨by decide, .verify, rfl⟩).mpr hpresent
  exact hrestored sampleResource (List.mem_singleton.mpr rfl)

end Lbsync.Blob
