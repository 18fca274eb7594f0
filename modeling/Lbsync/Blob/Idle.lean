import Lbsync.Blob.Rollback
import Lbsync.Engine.NextTick
import Lbsync.Files.Modes

/-!
# Destinations that are up to date

A destination that holds the blob of a record is left alone by `Apply`.
-/

namespace Lbsync.Blob

open Files Engine Backup

variable {cfg : Config}

/-- `Local` does not look at the destinations. -/
theorem follows_dests (cfg : Config) (w left : World) :
    Follows (provider cfg) (fun w => w.dests.files) w left { w with dests := left.dests } :=
  ⟨rfl, rfl⟩

/-- `Apply` leaves a destination that holds the blob alone. -/
theorem apply_idle {r : Record} {w : World} (hw : w.dests.Healthy)
    (hheld : ∀ i a, offered cfg r i = some a → (w.slot cfg r.key i).current = some a) :
    apply cfg r w = (.ok false, w) := by
  cases hfound : cfg.byName r.key with
  | none => simp [apply, hfound]
  | some res =>
      have hsame : w.dests.content res.dest = some (r.blob (ascii "data")) := by
        simpa [World.slot, hfound, Disk.slot] using
          hheld () (r.blob (ascii "data")) (by simp [offered, hfound])
      simp [apply, hfound, writeAtomic_same cfg.temp hw hsame]

/-- The destinations are places that are files. -/
theorem filePlaces_provider (hseparate : cfg.Separate) (hwritable : cfg.Writable) :
    FilePlaces (provider cfg) (fun w => w.dests.Healthy) Set.univ (fun w => w.slot cfg)
      (offered cfg) (fun w => w.dests.files) where
  toOffers := (restores_provider hseparate hwritable).toOffers
  flush := (restores_provider hseparate hwritable).flush
  idle r w hw hheld := ⟨w, apply_idle hw hheld, hw, rfl⟩
  slots w w' hfiles key _ := by
    have hcontent (path : Path) : w'.dests.content path = w.dests.content path := by
      simp only [Disk.content, Disk.file, hfiles]
    unfold World.slot
    cases cfg.byName key with
    | none => rfl
    | some res => exact hcontent res.dest
  locals w hw := ⟨hw, rfl⟩

end Lbsync.Blob
