import Lbsync.Certs.Serving
import Lbsync.Engine.Gather
import Lbsync.Lib.Runs

/-!
# What a rollback restores

A backup is made for a file only when the file changes, and it stays there after
a tick whose hook succeeded. `Rollback` restores every backup of a directory. So
a later tick that changes one file of a lineage and fails its hook also takes
the other files back to backups of an earlier tick. A failed tick leaves the
served contents as they were exactly when no such backup is around.
-/

namespace Lbsync.Certs

open Files Engine Backup Runs

variable (cfg : Config) (lineages : Set GoString)

/-- The content of a served file. -/
def World.served (w : World) (key : GoString) (f : BundleFile) : Option Bytes :=
  w.serving.content ⟨cfg.dir key, f.fileName⟩

/-- The content of the backup of a served file. -/
def World.backup (w : World) (key : GoString) (f : BundleFile) : Option Bytes :=
  w.serving.content ⟨cfg.dir key, f.fileName ++ backupSuffix⟩

/-- Every lineage directory holds the four files and no backup, and nothing fails. -/
structure Start (w : World) : Prop where
  healthy : w.serving.Healthy
  present : ∀ key ∈ lineages, ∀ f, w.served cfg key f ≠ none
  no_backup : ∀ key ∈ lineages, ∀ name,
    w.serving.file ⟨cfg.dir key, name ++ backupSuffix⟩ = none

/-- What holds between ticks: the four files are there, and a backup differs from the
file it belongs to. -/
structure Complete (w : World) : Prop extends Tidy cfg lineages w where
  present : ∀ key ∈ lineages, ∀ f, (w.slot cfg key f).current ≠ none
  proper : ∀ key ∈ lineages, ∀ f, (w.slot cfg key f).Proper

/-- Any number of ticks, each with winners for some of the lineages. -/
def Ticks : World → World → Prop :=
  Run (fun w calls => some (applyTick (provider cfg) calls w)) fun _ => WinnerCalls lineages

/-- The record leaves a file as it is: it has no data for it, or the same. -/
def Leaves (w : World) (r : Record) (f : BundleFile) : Prop :=
  r.blob f.blobName = [] ∨ w.served cfg r.key f = some (r.blob f.blobName)

instance (w : World) (r : Record) (f : BundleFile) : Decidable (Leaves cfg w r f) :=
  inferInstanceAs (Decidable (_ ∨ _))

/-- Every lineage the calls change has no backup of a file they leave as it is. -/
def NoStaleBackup (calls : List (GoString × Record)) (w : World) : Prop :=
  ∀ call ∈ calls, (∃ f, ¬ Leaves cfg w call.2 f) →
    ∀ f, Leaves cfg w call.2 f → w.backup cfg call.1 f = none

variable {cfg lineages}

/-- A reconcile tick against a cluster that stores records under their own key acts on the
provider as one of these ticks. -/
theorem ticks_tickProvider {K : Type*} (cl : ClusterKV K) (ord : MapOrder) (s : K) (w : World)
    (hget : ∀ key s r, gotRecord (cl.get kind key s).1 = some r → r.key = key)
    (hkeys : ∀ key ∈ unionKeys ord (localMap (locals cfg w).1) (cl.keys kind s).1,
      key ∈ lineages) :
    Ticks cfg lineages w (tickProvider cl (provider cfg) ord s w).2 := by
  have hkept : (locals cfg w).2 = w := by
    unfold locals
    split <;> rfl
  refine (Run.refl w).tail (winnerCalls_tickLoop cl (provider cfg) ord s w hget hkeys) ?_
  rw [tickProvider_snd]
  exact congrArg (fun w' => some (applyTick (provider cfg) _ w')) hkept.symm

theorem Start.complete {w : World} (h : Start cfg lineages w) : Complete cfg lineages w where
  healthy := h.healthy
  backups key hkey name hname := absurd (h.no_backup key hkey name) hname
  present := h.present
  proper key hkey f := by
    refine Slot.proper_of_backup_none ?_
    simp [World.slot, Disk.slot, Disk.content, Path.backup, h.no_backup key hkey]

/-- A record changes a file when it does not leave it as it is. -/
theorem changes_iff_not_leaves {r : Record} {w : World} {f : BundleFile} :
    (w.slot cfg r.key f).Changes ((fromRecord r).offered f) ↔ ¬ Leaves cfg w r f := by
  simp only [Bundle.offered, data_fromRecord, Leaves, not_or]
  by_cases hdata : r.blob f.blobName = []
  · simp [hdata, Slot.Changes]
  · simp [hdata, Slot.Changes, World.slot, Disk.slot, World.served]

section Runs

variable (hcomp : ∀ key ∈ lineages, IsComponent key)

include hcomp

/-- A tick keeps the directories complete. -/
theorem complete_applyTick {calls : List (GoString × Record)} (hcalls : WinnerCalls lineages calls)
    {w : World} (hw : Complete cfg lineages w) :
    Complete cfg lineages (applyTick (provider cfg) calls w) := by
  obtain ⟨htidy, hslots, _⟩ := (restores_provider hcomp).applyTick hcalls hw.toTidy
  refine ⟨htidy, fun key hkey f => ?_, fun key hkey f => ?_⟩
  · have hoffer := Slot.current_offer
      (o := offeredAt (fun r => (fromRecord r).offered) calls key f) (hw.present key hkey f)
    rcases hslots key hkey f with h | h
    · rwa [h]
    · rw [h]
      exact Slot.current_restore hoffer
  · rcases hslots key hkey f with h | h
    · rw [h]
      exact Slot.proper_offer _ (hw.proper key hkey f)
    · rw [h]
      exact Slot.proper_of_backup_none (Slot.backup_restore _)

/-- The directories are complete after every run of ticks. -/
theorem complete_of_ticks {w₀ w : World} (hstart : Start cfg lineages w₀)
    (hrun : Ticks cfg lineages w₀ w) : Complete cfg lineages w := by
  refine Run.invariant (I := Complete cfg lineages) (fun s calls t hs hcalls hstep => ?_) hrun
    hstart.complete
  rw [← Option.some.inj hstep]
  exact complete_applyTick hcomp hcalls hs

/-- After any run of ticks, a tick whose hook fails leaves the contents of the served
files as they were exactly when no lineage it changes has a backup of a file it leaves
as it is. -/
theorem rollback_restores_iff {w₀ w : World} (hstart : Start cfg lineages w₀)
    (hrun : Ticks cfg lineages w₀ w) {calls : List (GoString × Record)}
    (hcalls : WinnerCalls lineages calls) (hfail : FlushFails (provider cfg) calls w) :
    (∀ key ∈ lineages, ∀ f,
      (applyTick (provider cfg) calls w).served cfg key f = w.served cfg key f) ↔
      NoStaleBackup cfg calls w := by
  have hw := complete_of_ticks hcomp hstart hrun
  obtain ⟨_, _, hfailed⟩ := (restores_provider hcomp).applyTick hcalls hw.toTidy
  constructor
  · intro hsame call hcall hchange f hleaves
    obtain ⟨hkey, hown⟩ := hcalls.own call hcall
    obtain ⟨g, hg⟩ := hchange
    have hchanges : ChangesAt (fun w => w.slot cfg) (fun r => (fromRecord r).offered) calls w
        call.1 :=
      (hcalls.changesAt_iff hcall).mpr ⟨g, hown ▸ changes_iff_not_leaves.mpr hg⟩
    have hback : ((w.slot cfg call.1 f).offer ((fromRecord call.2).offered f)).restore.current =
        (w.slot cfg call.1 f).current := by
      have hslot := ((hfailed hfail) call.1 hkey).1 hchanges f
      simp only [hcalls.offeredAt_eq hcall] at hslot
      rw [← hslot]
      exact hsame call.1 hkey f
    rcases (Slot.current_restore_offer_iff (hw.present _ hkey f) (hw.proper _ hkey f)).mp hback
      with h | h
    · rw [← hown] at h
      exact absurd hleaves (changes_iff_not_leaves.mp h)
    · exact h
  · intro hclean key hkey f
    change ((applyTick (provider cfg) calls w).slot cfg key f).current = (w.slot cfg key f).current
    by_cases hchanges : ChangesAt (fun w => w.slot cfg) (fun r => (fromRecord r).offered) calls w
        key
    · rw [((hfailed hfail) key hkey).1 hchanges f]
      obtain ⟨call, hcall, rfl⟩ := List.mem_map.mp (mem_of_changesAt hchanges)
      obtain ⟨g, hg⟩ := (hcalls.changesAt_iff hcall).mp hchanges
      refine (Slot.current_restore_offer_iff (hw.present _ hkey f) (hw.proper _ hkey f)).mpr ?_
      rw [hcalls.offeredAt_eq hcall]
      rw [← (hcalls.own call hcall).2] at hg ⊢
      rw [changes_iff_not_leaves] at hg ⊢
      by_cases hleaves : Leaves cfg w call.2 f
      · exact Or.inr ((hcalls.own call hcall).2 ▸ hclean call hcall ⟨g, hg⟩ f hleaves)
      · exact Or.inl hleaves
    · rw [((hfailed hfail) key hkey).2 hchanges f]

end Runs

/-- The lineage `a` is served, and its second verify fails. -/
def sampleWorld : World where
  scanned := .ok []
  reads _ := ⟨.error .notExist, .error .notExist, .error .notExist, .error .notExist,
    .error .notExist⟩
  serving := {
    files := BundleFile.all.foldl
      (fun files f => files.insert ⟨ascii "/s/a", f.fileName⟩ ⟨[1], 0o644⟩) ∅
    umask := 0o022
    faults := []
    stopped := false }
  commands := ⟨fun n => n == 0, 0⟩

/-- A winner for the lineage `a` with the given certificate and key. -/
def sampleWinner (cert key : Bytes) : GoString × Record :=
  (ascii "a", ⟨kind, ascii "a", ⟨0, 0, []⟩, [(ascii "cert", cert), (ascii "key", key)], [], []⟩)

/-- The served lineages. -/
def sampleLineages : Set GoString := {ascii "a"}

/-- One tick that gave `a` a new certificate and key and whose hook succeeded. -/
def renewedWorld : World :=
  applyTick (provider sampleConfig) [sampleWinner [2] [2]] sampleWorld

theorem sampleLineages_component : ∀ key ∈ sampleLineages, IsComponent key := by
  rintro key rfl
  decide

theorem winnerCalls_sampleWinner (cert key : Bytes) :
    WinnerCalls sampleLineages [sampleWinner cert key] := by
  refine ⟨List.nodup_singleton _, fun call hcall => ?_⟩
  rw [List.mem_singleton.mp hcall]
  exact ⟨rfl, rfl⟩

theorem start_sampleWorld : Start sampleConfig sampleLineages sampleWorld where
  healthy := ⟨rfl, rfl⟩
  present := by
    rintro key rfl f
    cases f <;> decide
  no_backup := by
    rintro key rfl name
    have hkeys : sampleWorld.serving.files.keys =
        BundleFile.all.reverse.map fun f => ⟨ascii "/s/a", f.fileName⟩ := by decide
    rw [Disk.file, AList.lookup_eq_none, AList.mem_keys, hkeys]
    intro hmem
    obtain ⟨f, _, hf⟩ := List.mem_map.mp hmem
    exact (BundleFile.plain_of_mem_names _ f.fileName_mem_names).ne_backup name
      (congrArg Path.name hf)

theorem ticks_renewedWorld : Ticks sampleConfig sampleLineages sampleWorld renewedWorld :=
  (Run.refl _).tail (winnerCalls_sampleWinner [2] [2]) rfl

/-- The second tick changes the certificate only and its hook fails. The rollback takes
the key back to the one before the first tick. -/
theorem stale_backup_restored :
    Start sampleConfig sampleLineages sampleWorld ∧
    Ticks sampleConfig sampleLineages sampleWorld renewedWorld ∧
    WinnerCalls sampleLineages [sampleWinner [3] [2]] ∧
    FlushFails (provider sampleConfig) [sampleWinner [3] [2]] renewedWorld ∧
    renewedWorld.served sampleConfig (ascii "a") .key = some [2] ∧
    (applyTick (provider sampleConfig) [sampleWinner [3] [2]] renewedWorld).served
      sampleConfig (ascii "a") .key = some [1] :=
  ⟨start_sampleWorld, ticks_renewedWorld, winnerCalls_sampleWinner _ _, ⟨by decide, .verify, rfl⟩,
    by decide, by decide⟩

/-- When the second tick changes certificate and key, both backups are fresh and the
rollback restores both. -/
theorem fresh_backups_restored :
    BundleFile.all.map ((applyTick (provider sampleConfig) [sampleWinner [3] [3]]
      renewedWorld).served sampleConfig (ascii "a")) =
    BundleFile.all.map (renewedWorld.served sampleConfig (ascii "a")) := by
  have hfresh : NoStaleBackup sampleConfig [sampleWinner [3] [3]] renewedWorld := by
    intro call hcall _ f
    rw [List.mem_singleton.mp hcall]
    cases f <;> decide
  have hrestored := (rollback_restores_iff sampleLineages_component start_sampleWorld
    ticks_renewedWorld (winnerCalls_sampleWinner [3] [3]) ⟨by decide, .verify, rfl⟩).mpr hfresh
  exact List.map_congr_left fun f _ => hrestored (ascii "a") rfl f

end Lbsync.Certs
