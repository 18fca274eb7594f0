import Lbsync.Certs.Provider
import Lbsync.Engine.Places
import Lbsync.Files.Backups

/-!
# What a tick does to the serving directories

Each file of a lineage directory is a place with one backup. While no call
fails, `Apply` offers the record's blobs to the places of one lineage, `Rollback`
restores the places of the lineages it is given, and a tick is those two.
-/

namespace Lbsync.Certs

open Files Engine Backup

namespace BundleFile

/-- The names of the four files. -/
def names : List GoString := all.map fileName

theorem fileName_mem_names (f : BundleFile) : f.fileName ∈ names :=
  List.mem_map_of_mem (mem_all f)

theorem plain_of_mem_names : ∀ name ∈ names, Plain name := by
  intro name hname
  obtain ⟨f, _, rfl⟩ := List.mem_map.mp hname
  refine ⟨?_, ?_, ?_⟩
  · cases f <;> decide
  · cases f <;> decide
  · intro digits h
    have hhead := congrArg List.head? h
    cases f <;> exact absurd hhead (by simp [fileName, ascii])

end BundleFile

theorem BundleFile.avoids (tmp : TempNamer) (dir : GoString) (f : BundleFile) :
    tmp.Avoids ⟨dir, f.fileName⟩ :=
  tmp.avoids_of_not_temp (BundleFile.plain_of_mem_names _ f.fileName_mem_names).not_temp

/-- What a bundle offers for a file: nothing when it has no data for it. -/
def Bundle.offered (b : Bundle) (f : BundleFile) : Option Bytes :=
  if b.data f = [] then none else some (b.data f)

/-- A path of none of the four files of a directory and none of their backups. -/
def Foreign (dir : GoString) (q : Path) : Prop :=
  ∀ f : BundleFile, q ≠ ⟨dir, f.fileName⟩ ∧ q ≠ Path.backup ⟨dir, f.fileName⟩

theorem BundleFile.apart (dir : GoString) {f g : BundleFile} (h : f ≠ g) :
    Apart ⟨dir, g.fileName⟩ ⟨dir, f.fileName⟩ where
  ne heq := h (BundleFile.fileName_injective (congrArg Path.name heq))
  ne_backup heq := (BundleFile.plain_of_mem_names _ f.fileName_mem_names).ne_backup g.fileName
    (congrArg Path.name heq)
  backup_ne heq := (BundleFile.plain_of_mem_names _ g.fileName_mem_names).ne_backup f.fileName
    (congrArg Path.name heq).symm

/-- Writing a bundle offers its data to each place, reports whether some place changed and
leaves the other files alone. -/
theorem writeFiles_slots (tmp : TempNamer) (dir : GoString) (b : Bundle) {fs : List BundleFile}
    (hfs : fs.Nodup) (changed : Bool) {d : Disk} (h : d.Healthy) :
    ∃ wrote d', writeFiles tmp dir b fs changed d = ((wrote, none), d') ∧ d'.Healthy ∧
      (∀ q, Foreign dir q → d'.file q = d.file q) ∧
      (wrote = true ↔ changed = true ∨
        ∃ f ∈ fs, (d.slot ⟨dir, f.fileName⟩).Changes (b.offered f)) ∧
      ∀ f, d'.slot ⟨dir, f.fileName⟩ =
        if f ∈ fs then (d.slot ⟨dir, f.fileName⟩).offer (b.offered f)
        else d.slot ⟨dir, f.fileName⟩ := by
  induction fs generalizing changed d with
  | nil => exact ⟨changed, d, rfl, h, fun _ _ => rfl, by simp, by simp⟩
  | cons g rest ih =>
      obtain ⟨hg, hrest⟩ := List.nodup_cons.mp hfs
      by_cases hdata : b.data g = []
      · have hnone : b.offered g = none := if_pos hdata
        obtain ⟨wrote, d', hrun, hhealthy, hforeign, hwrote, hslots⟩ := ih hrest changed h
        refine ⟨wrote, d', by simp [writeFilesOn, hdata, hrun], hhealthy, hforeign, ?_, fun f => ?_⟩
        · simp [hwrote, hnone, Slot.Changes]
        · rw [hslots f]
          by_cases hfg : f = g
          · subst hfg
            simp [hg, hnone, Slot.offer]
          · simp [hfg]
      · have hsome : b.offered g = some (b.data g) := if_neg hdata
        have hplain := BundleFile.plain_of_mem_names _ g.fileName_mem_names
        obtain ⟨d₁, hwrite, hhealthy₁, hown, hother⟩ := writeAtomic_slot tmp h ⟨dir, g.fileName⟩
          hplain.proper (g.avoids tmp dir) (b.data g) g.perm
        have hframe : ∀ f ≠ g, d₁.slot ⟨dir, f.fileName⟩ = d.slot ⟨dir, f.fileName⟩ :=
          fun f hne => (BundleFile.apart dir hne).slot hother
        obtain ⟨wrote, d', hrun, hhealthy, hforeign, hwrote, hslots⟩ :=
          ih hrest (changed || decide (d.content ⟨dir, g.fileName⟩ ≠ some (b.data g))) hhealthy₁
        have hlater : (∃ f ∈ rest, (d₁.slot ⟨dir, f.fileName⟩).Changes (b.offered f)) ↔
            ∃ f ∈ rest, (d.slot ⟨dir, f.fileName⟩).Changes (b.offered f) := by
          refine exists_congr fun f => and_congr_right fun hf => ?_
          rw [hframe f fun heq => hg (heq ▸ hf)]
        refine ⟨wrote, d', ?_, hhealthy, fun q hq => ?_, ?_, fun f => ?_⟩
        · simp only [writeFilesOn, if_neg hdata, hwrite]
          exact hrun
        · rw [hforeign q hq, hother q (hq g).1 (hq g).2]
        · rw [hwrote, hlater]
          simp [hsome, Slot.Changes, Disk.slot, or_assoc]
        · rw [hslots f]
          by_cases hfg : f = g
          · subst hfg
            simp [hg, hown, hsome, Slot.offer]
          · simp [hfg, hframe f hfg]

/-- What leaves foreign files alone keeps the backups among the four files. -/
theorem keptOutside_of_foreign {dir : GoString} {d d' : Disk} (h : d'.Healthy)
    (hb : BackupsAmong BundleFile.names dir d)
    (hforeign : ∀ q, Foreign dir q → d'.file q = d.file q) :
    KeptOutside BundleFile.names dir d d' where
  healthy := h
  backups name hname := by
    by_contra hnot
    refine hnot (hb name ?_)
    rwa [hforeign] at hname
    refine fun f => ⟨fun heq => ?_, fun heq => ?_⟩
    · exact (BundleFile.plain_of_mem_names _ f.fileName_mem_names).ne_backup name
        (congrArg Path.name heq).symm
    · exact hnot (List.append_cancel_right (congrArg Path.name heq) ▸ f.fileName_mem_names)
  other q hq := hforeign q fun _ => ⟨fun heq => hq (heq ▸ rfl), fun heq => hq (heq ▸ rfl)⟩

/-- Writing a bundle into a directory when no call fails. -/
theorem Bundle.writeAtomic_slots (tmp : TempNamer) (dir : GoString) (b : Bundle) {d : Disk}
    (h : d.Healthy) :
    ∃ wrote d', b.writeAtomic tmp dir d = ((wrote, none), d') ∧ d'.Healthy ∧
      (∀ q, Foreign dir q → d'.file q = d.file q) ∧
      (wrote = true ↔ ∃ f, (d.slot ⟨dir, f.fileName⟩).Changes (b.offered f)) ∧
      ∀ f, d'.slot ⟨dir, f.fileName⟩ = (d.slot ⟨dir, f.fileName⟩).offer (b.offered f) := by
  obtain ⟨wrote, d', hrun, hhealthy, hforeign, hwrote, hslots⟩ := writeFiles_slots tmp dir b
    (show BundleFile.all.Nodup by decide) false h
  refine ⟨wrote, d', ?_, hhealthy, hforeign, by simpa using hwrote, fun f => ?_⟩
  · have hmkdir : d.mkdirAll = (.ok (), d) := Disk.call_healthy h _ _
    simp only [Bundle.writeAtomicOn, hmkdir, hrun]
  · simpa using hslots f

variable (cfg : Config)

/-- A served file of a lineage and its backup. -/
def World.slot (w : World) (key : GoString) (f : BundleFile) : Slot Bytes :=
  w.serving.slot ⟨cfg.dir key, f.fileName⟩

/-- Nothing fails, and the only backups in the directories of the lineages are those
of the four files. -/
structure Tidy (lineages : Set GoString) (w : World) : Prop where
  healthy : w.serving.Healthy
  backups : ∀ key ∈ lineages, BackupsAmong BundleFile.names (cfg.dir key) w.serving

variable {cfg} {lineages : Set GoString} (hcomp : ∀ key ∈ lineages, IsComponent key)

include hcomp

/-- Work in the directory of one lineage leaves the others alone. -/
theorem Tidy.of_keptOutside {w : World} (hw : Tidy cfg lineages w) {key : GoString}
    (hkey : key ∈ lineages) {d : Disk}
    (h : KeptOutside BundleFile.names (cfg.dir key) w.serving d) :
    Tidy cfg lineages { w with serving := d } ∧
      ∀ k ∈ lineages, k ≠ key → ∀ f,
        ({ w with serving := d } : World).slot cfg k f = w.slot cfg k f := by
  have hdir : ∀ k ∈ lineages, k ≠ key → cfg.dir k ≠ cfg.dir key :=
    fun k hk hne heq => hne (join_injective (hcomp k hk) (hcomp key hkey) heq)
  refine ⟨⟨h.healthy, fun k hk => ?_⟩, fun k hk hne f => h.slot (hdir k hk hne)⟩
  by_cases hne : k = key
  · exact hne ▸ h.backups
  · intro name hname
    refine hw.backups k hk name ?_
    rwa [h.other _ (hdir k hk hne)] at hname

/-- `Apply` offers the blobs of the record to the places of its lineage. -/
theorem apply_slots {w : World} (hw : Tidy cfg lineages w) {r : Record}
    (hkey : r.key ∈ lineages) :
    ∃ changed d, apply cfg r w = (.ok changed, { w with serving := d }) ∧
      Tidy cfg lineages { w with serving := d } ∧
      (changed = true ↔ ∃ f, (w.slot cfg r.key f).Changes ((fromRecord r).offered f)) ∧
      ∀ k ∈ lineages, ∀ f, ({ w with serving := d } : World).slot cfg k f =
        if k = r.key then (w.slot cfg k f).offer ((fromRecord r).offered f)
        else w.slot cfg k f := by
  obtain ⟨changed, d, hrun, hhealthy, hforeign, hchanged, hslots⟩ :=
    (fromRecord r).writeAtomic_slots cfg.temp (cfg.dir r.key) hw.healthy
  obtain ⟨htidy, hframe⟩ := hw.of_keptOutside hcomp hkey
    (keptOutside_of_foreign hhealthy (hw.backups r.key hkey) hforeign)
  refine ⟨changed, d, by simp only [apply, applyOn, hrun], htidy, hchanged, fun k hk f => ?_⟩
  by_cases hk' : k = r.key
  · subst hk'
    rw [if_pos rfl]
    exact hslots f
  · rw [if_neg hk', hframe k hk hk']

/-- `Rollback` restores the places of the lineages it is given. -/
theorem rollback_slots {keys : List GoString} (hkeys : ∀ key ∈ keys, key ∈ lineages) {w : World}
    (hw : Tidy cfg lineages w) :
    ∃ d, ((provider cfg).rollback keys w).2 = { w with serving := d } ∧
      Tidy cfg lineages { w with serving := d } ∧
      ∀ k ∈ lineages, ∀ f, ({ w with serving := d } : World).slot cfg k f =
        if k ∈ keys then (w.slot cfg k f).restore else w.slot cfg k f := by
  suffices h : ∃ d, rollbackKeys cfg keys w.serving = (.ok (), d) ∧
      Tidy cfg lineages { w with serving := d } ∧
      ∀ k ∈ lineages, ∀ f, ({ w with serving := d } : World).slot cfg k f =
        if k ∈ keys then (w.slot cfg k f).restore else w.slot cfg k f by
    obtain ⟨d, hrun, htidy, hslots⟩ := h
    exact ⟨d, by simp [provider, hrun], htidy, hslots⟩
  induction keys generalizing w with
  | nil => exact ⟨w.serving, rfl, hw, by simp⟩
  | cons key rest ih =>
      have hkey : key ∈ lineages := hkeys key List.mem_cons_self
      obtain ⟨d₁, hrestore, hkept, hown⟩ := restoreDir_slots hw.healthy
        BundleFile.plain_of_mem_names (hw.backups key hkey)
      obtain ⟨htidy₁, hframe⟩ := hw.of_keptOutside hcomp hkey hkept
      obtain ⟨d, hrun, htidy, hslots⟩ :=
        ih (fun k hk => hkeys k (List.mem_cons_of_mem _ hk)) htidy₁
      refine ⟨d, by simp [rollbackKeysOn, rollbackOn, hrestore, hrun], htidy, ?_⟩
      intro k hk f
      rw [hslots k hk f]
      by_cases hk' : k = key
      · subst hk'
        have hfirst : ({ w with serving := d₁ } : World).slot cfg k f = (w.slot cfg k f).restore :=
          hown _ f.fileName_mem_names
        simp [hfirst]
      · simp [hk', hframe k hk hk' f]

/-- The files of the lineages are places with a backup. -/
theorem restores_provider : Restores (provider cfg) (Tidy cfg lineages) lineages
    (fun w => w.slot cfg) (fun r => (fromRecord r).offered) where
  apply r w hw hkey := by
    obtain ⟨changed, d, hrun, htidy, hchanged, hslots⟩ := apply_slots hcomp hw hkey
    exact ⟨changed, _, hrun, htidy, hchanged, hslots⟩
  flush w hw := ⟨⟨hw.healthy, hw.backups⟩, fun _ _ _ => rfl⟩
  rollback changed hchanged w hw := by
    obtain ⟨d, hrun, htidy, hslots⟩ := rollback_slots hcomp hchanged hw
    rw [hrun]
    exact ⟨htidy, hslots⟩

end Lbsync.Certs
