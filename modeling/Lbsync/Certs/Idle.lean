import Lbsync.Certs.Retry
import Lbsync.Engine.Resting
import Lbsync.Files.Modes

/-!
# Serving directories that are up to date

A lineage whose served files hold the blobs of a record is left alone by `Apply`.
A blob the record does not have is skipped, whatever is served.
-/

namespace Lbsync.Certs

open Files Engine Backup

variable {cfg : Config}

/-- Files that hold the data of a bundle are left alone. -/
theorem writeFiles_idle (tmp : TempNamer) {dir : GoString} {b : Bundle} {fs : List BundleFile}
    {d : Disk} (h : d.Healthy)
    (hheld : ∀ f a, b.offered f = some a → d.content ⟨dir, f.fileName⟩ = some a) :
    writeFiles tmp dir b fs false d = ((false, none), d) := by
  induction fs with
  | nil => rfl
  | cons f rest ih =>
      by_cases hdata : b.data f = []
      · simp only [writeFilesOn, if_pos hdata, ih]
      · have hsame := hheld f (b.data f) (if_neg hdata)
        simp only [writeFilesOn, if_neg hdata, writeAtomic_same tmp h hsame]
        exact ih

theorem apply_idle {r : Record} {w : World} (hw : w.serving.Healthy)
    (hheld : ∀ f a, (fromRecord r).offered f = some a → (w.slot cfg r.key f).current = some a) :
    apply cfg r w = (.ok false, w) := by
  have hmkdir : w.serving.mkdirAll = (.ok (), w.serving) := Disk.call_healthy hw _ _
  have hwrite : (fromRecord r).writeAtomic cfg.temp (cfg.dir r.key) w.serving =
      ((false, none), w.serving) := by
    simp only [Bundle.writeAtomicOn, hmkdir]
    exact writeFiles_idle cfg.temp hw hheld
  simp only [apply, applyOn, hwrite]

/-- The served files of lineages in different directories are places that are files. -/
theorem filePlaces_provider {lineages : Set GoString} (hdirs : Set.InjOn cfg.dir lineages) :
    FilePlaces (provider cfg) (fun w => w.serving.Healthy) lineages (fun w => w.slot cfg)
      (fun r => (fromRecord r).offered) (fun w => w.serving.files) where
  toOffers := offers_provider hdirs
  flush w hw := ⟨hw, fun _ _ _ => rfl⟩
  idle r w hw hheld := ⟨w, apply_idle hw hheld, hw, rfl⟩
  slots w w' hfiles key f := by
    simp only [World.slot, Disk.slot, Disk.content, Disk.file, hfiles]
  locals w hw := by
    have hsame : (locals cfg w).2 = w := by
      unfold locals
      cases w.scanned <;> rfl
    exact ⟨by rwa [provider, hsame], congrArg (fun w => w.serving.files) hsame⟩

end Lbsync.Certs
