import Lbsync.Files.AllOrNothing
import Lbsync.Files.Backups
import Lbsync.Lib.Runs

/-!
# Undoing the last write

Successful calls of `writeAtomic` and `restore` on one file keep a backup only beside a
file with other content, as long as each write can read the file that it replaces. Then a
restore after a write that replaced a file gives back what was there before, unless another
write has replaced it meanwhile, and uses the backup up.

A write takes a file that it cannot read for a missing one. It then replaces the file without
a backup, is successful all the same, and cannot be undone.
-/

namespace Lbsync.Files

open Backup

section Steps

variable {tmp : TempNamer} {d d' : Disk} {path : Path} {data : Bytes} {perm : UInt32}

theorem FileCalls.fillTemp_ne_false {σ : Type*} (fs : FileCalls σ) {temp : Path} {s : σ} :
    (fs.fillTemp temp path data perm s).1 ≠ .ok false := by
  unfold fillTemp
  rcases fs.write temp data s with ⟨_ | _, s₁⟩
  · exact nofun
  simp only
  rcases fs.chmod temp perm s₁ with ⟨_ | _, s₂⟩
  · exact nofun
  simp only
  rcases fs.close s₂ with ⟨_ | _, s₃⟩
  · exact nofun
  simp only
  rcases fs.rename temp path s₃ with ⟨_ | _, s₄⟩
  · exact nofun
  · exact nofun

/-- Going through a temp file reports a change. -/
theorem FileSystem.replaceFile_ne_false {σ : Type*} (fs : FileSystem σ) {s : σ} :
    (fs.replaceFile path data perm s).1 ≠ .ok false := by
  unfold replaceFile
  rcases fs.createTemp path.dir s with ⟨_ | temp, s₁⟩
  · exact nofun
  · exact fs.fillTemp_ne_false

/-- A write that returns false has changed nothing. -/
theorem files_of_writeAtomic_false (h : writeAtomic tmp d path data perm = (.ok false, d')) :
    d'.files = d.files := by
  have hprepared := prepare_spec d path data perm
  rw [writeAtomic_eq] at h
  generalize prepare d path data perm = course at hprepared h
  cases hprepared with
  | same _ =>
      obtain ⟨-, rfl⟩ := Prod.mk.inj h
      exact d.next_files
  | failed e _ => cases congrArg Prod.fst h
  | copied _ _ _ _ _ => exact absurd (congrArg Prod.fst h) (FileSystem.replaceFile_ne_false _)
  | unread _ => exact absurd (congrArg Prod.fst h) (FileSystem.replaceFile_ne_false _)

/-- Going through a temp file without an error touches nothing but the file, also when the temp
file has the name of the file. -/
theorem frame_of_replaceFile_ok {changed : Bool}
    (h : replaceFile tmp d path data perm = (.ok changed, d')) : Frame {path} d d' := by
  by_cases hne : tempPath tmp d path = path
  · rcases d.createTemp_cases tmp path.dir with ⟨d₁, hcreate, -, hframe⟩ | hcreate
    · change d.createTemp tmp path.dir = (.ok (tempPath tmp d path), d₁) at hcreate
      change Frame {tempPath tmp d path} d d₁ at hframe
      rw [hne] at hcreate hframe
      have hfill := frame_fillTemp d₁ path path data perm
      rw [Set.pair_eq_singleton] at hfill
      simp only [FileSystem.replaceFile, hcreate] at h
      obtain ⟨-, rfl⟩ := Prod.mk.inj h
      exact (hframe.trans hfill).trans (Disk.frame_remove _ path)
    · simp [FileSystem.replaceFile, hcreate] at h
  · rcases replaceFile_cases tmp d hne data perm with ⟨d₁, hrun, -, hframe⟩ | ⟨e, d₁, hrun, -⟩
    · obtain ⟨-, rfl⟩ := Prod.mk.inj (hrun.symm.trans h)
      exact hframe
    · cases hrun.symm.trans h

/-- A successful write tells whether the content was another one. Over a file it writes to the
file and its backup, and without one it leaves the backup alone. -/
theorem slot_of_writeAtomic_ok (hread : d.file path ≠ none → d.next.1 = .pass) {changed : Bool}
    (h : writeAtomic tmp d path data perm = (.ok changed, d')) :
    changed = decide (d.content path ≠ some data) ∧
      (d'.slot path = (d.slot path).write data ∨
        d.content path = none ∧ d'.content path.backup = d.content path.backup) := by
  have hprepared := prepare_spec d path data perm
  rw [writeAtomic_eq] at h
  generalize prepare d path data perm = course at hprepared h
  cases hprepared with
  | same hsame =>
      obtain ⟨hchanged, rfl⟩ := Prod.mk.inj h
      refine ⟨by simpa [hsame] using (Except.ok.inj hchanged).symm, Or.inl ?_⟩
      rw [Slot.write, if_pos (show (d.slot path).current = some data from hsame)]
      simp only [Disk.slot, Disk.content, d.file_next]
  | failed e _ => cases congrArg Prod.fst h
  | @copied f d₁ hfile _ hother hframe hcopy =>
      have hfile₁ : d₁.file path = some f := (hframe path path.backup_ne.symm).trans hfile
      rcases replaceFile_cases tmp d₁ (tempPath_ne_of_file tmp hfile₁) data perm with
        ⟨d₂, hrun, hplaced, hframe'⟩ | ⟨e, d₂, hrun, -⟩
      · obtain ⟨hchanged, rfl⟩ := Prod.mk.inj (hrun.symm.trans h)
        have hcontent : d.content path = some f.content := by simp [Disk.content, hfile]
        have hne : d.content path ≠ some data := fun heq =>
          hother (Option.some.inj (hcontent.symm.trans heq))
        refine ⟨by simpa [hne] using (Except.ok.inj hchanged).symm, Or.inl ?_⟩
        rw [Slot.write_of_ne hne]
        refine Slot.ext (by simp [Disk.slot, Disk.content, hplaced]) ?_
        change d₂.content path.backup = (d.content path).or (d.content path.backup)
        rw [hcontent, Option.some_or, ← hcopy, Disk.content, Disk.content,
          hframe' _ path.backup_ne]
      · cases hrun.symm.trans h
  | unread habsent =>
      have hnone : d.file path = none := by
        by_contra hfile
        exact hfile (habsent (hread hfile))
      have hcontent : d.content path = none := by simp [Disk.content, hnone]
      have hchanged : changed ≠ false := fun hfalse =>
        FileSystem.replaceFile_ne_false _ (hfalse ▸ congrArg Prod.fst h)
      have hframe := frame_of_replaceFile_ok h path.backup path.backup_ne
      refine ⟨by simpa [hcontent] using hchanged, Or.inr ⟨hcontent, ?_⟩⟩
      rw [Disk.content, Disk.content, hframe, d.file_next]

/-- A restore without an error moves the backup back, and without one changes nothing. -/
theorem restore_ok (h : restore d path = (.ok (), d')) :
    d.file path.backup = none ∧ d'.files = d.files ∨
      ∃ f, d.file path.backup = some f ∧ d'.file path = some f ∧ d'.file path.backup = none := by
  by_cases hpass : d.next.1 = .pass
  · rw [restore, Disk.stat, Disk.simpleCall_of_pass hpass, d.file_next] at h
    cases hfile : d.file path.backup with
    | none =>
        simp only [hfile] at h
        obtain ⟨-, rfl⟩ := Prod.mk.inj h
        exact Or.inl ⟨rfl, d.next_files⟩
    | some f =>
        simp only [hfile] at h
        rcases d.next.2.rename_cases ((d.file_next _).trans hfile) path.backup_ne with
          ⟨d₁, hrename, hnew, hold, -⟩ | ⟨e, hrename⟩
        · obtain ⟨-, rfl⟩ := Prod.mk.inj (hrename.symm.trans h)
          exact Or.inr ⟨f, rfl, hnew, hold⟩
        · cases hrename.symm.trans h
  · simp [restore, Disk.stat, Disk.simpleCall_of_not_pass hpass] at h

theorem slot_of_restore_ok (h : restore d path = (.ok (), d')) :
    d'.slot path = (d.slot path).restore := by
  rcases restore_ok h with ⟨hnone, hfiles⟩ | ⟨f, hfile, hplaced, hgone⟩
  · rw [Slot.restore_of_none (by simp [Disk.slot, Disk.content, hnone])]
    simp only [Disk.slot, Disk.content, Disk.file, hfiles]
  · rw [Slot.restore_of_some (b := f.content) (by simp [Disk.slot, Disk.content, hfile])]
    simp [Disk.slot, Disk.content, hplaced, hgone]

end Steps

/-- A call on one file. -/
inductive FileCall where
  | write (data : Bytes) (perm : UInt32)
  | restore
  deriving DecidableEq, Repr

namespace FileCall

variable (tmp : TempNamer) (path : Path)

/-- The disk after a call that returns no error. -/
def run (d : Disk) : FileCall → Option Disk
  | .write data perm =>
      match writeAtomic tmp d path data perm with
      | (.ok _, d') => some d'
      | (.error _, _) => none
  | .restore =>
      match Files.restore d path with
      | (.ok _, d') => some d'
      | (.error _, _) => none

/-- A write can read the file, if there is one. -/
def Reads (d : Disk) : FileCall → Prop
  | .write _ _ => d.file path ≠ none → d.next.1 = .pass
  | .restore => True

instance (d : Disk) : DecidablePred (Reads path d)
  | .write _ _ => inferInstanceAs (Decidable (_ → _))
  | .restore => inferInstanceAs (Decidable True)

/-- The call is a write that returns false. -/
def Idle (d : Disk) : FileCall → Prop
  | .write data perm => (writeAtomic tmp d path data perm).1 = .ok false
  | .restore => False

instance (d : Disk) : DecidablePred (Idle tmp path d)
  | .write data perm =>
      inferInstanceAs (Decidable ((writeAtomic tmp d path data perm).1 = .ok false))
  | .restore => inferInstanceAs (Decidable False)

variable {tmp path} {d d' : Disk}

theorem run_write {data : Bytes} {perm : UInt32} :
    (write data perm).run tmp path d = some d' ↔
      ∃ changed, writeAtomic tmp d path data perm = (.ok changed, d') := by
  rw [run]
  rcases writeAtomic tmp d path data perm with ⟨_ | _, d₁⟩
  · simp
  · simp

theorem run_restore : restore.run tmp path d = some d' ↔ Files.restore d path = (.ok (), d') := by
  rw [run]
  rcases Files.restore d path with ⟨_ | _, d₁⟩
  · simp
  · simp

/-- A successful call keeps a backup beside a file with other content. -/
theorem proper_run (call : FileCall) (hproper : (d.slot path).Proper) (hread : call.Reads path d)
    (h : call.run tmp path d = some d') : (d'.slot path).Proper := by
  cases call with
  | write data perm =>
      obtain ⟨changed, hrun⟩ := run_write.mp h
      rcases (slot_of_writeAtomic_ok hread hrun).2 with hslot | ⟨hnone, hbackup⟩
      · rw [hslot]
        exact Slot.proper_offer (some data) hproper
      · -- Without a file there was no backup, and none is made.
        refine Slot.proper_of_backup_none (hbackup.trans ?_)
        by_contra hsome
        obtain ⟨b, hb⟩ := Option.ne_none_iff_exists'.mp hsome
        obtain ⟨a, ha, -⟩ := hproper b hb
        cases hnone.symm.trans ha
  | restore =>
      rw [slot_of_restore_ok (run_restore.mp h)]
      exact Slot.proper_of_backup_none (Slot.backup_restore _)

/-- A write that returns false changes nothing. -/
theorem files_of_idle (call : FileCall) (hidle : call.Idle tmp path d)
    (h : call.run tmp path d = some d') : d'.files = d.files := by
  cases call with
  | write data perm =>
      obtain ⟨changed, hrun⟩ := run_write.mp h
      obtain rfl : changed = false := by
        have hresult : (writeAtomic tmp d path data perm).1 = .ok false := hidle
        rw [hrun] at hresult
        exact Except.ok.inj hresult
      exact files_of_writeAtomic_false hrun
  | restore => exact hidle.elim

end FileCall

section Runs

variable {tmp : TempNamer} {path : Path} {d₀ d d₁ d₂ d₃ : Disk}

/-- In every run of successful calls from a disk without the backup, a backup stands beside a file
with other content. -/
theorem proper_of_run (hbackup : d₀.file path.backup = none)
    (h : Runs.Run (FileCall.run tmp path) (FileCall.Reads path) d₀ d) : (d.slot path).Proper := by
  refine h.invariant (I := fun d => (d.slot path).Proper) ?_ ?_
  · intro d call d' hproper hread hrun
    exact FileCall.proper_run call hproper hread hrun
  · exact Slot.proper_of_backup_none (by simp [Disk.slot, Disk.content, hbackup])

theorem files_of_idle_run
    (h : Runs.Run (FileCall.run tmp path) (FileCall.Idle tmp path) d₁ d₂) :
    d₂.files = d₁.files := by
  refine h.invariant (I := fun d => d.files = d₁.files) ?_ rfl
  intro d call d' hfiles hidle hrun
  exact (FileCall.files_of_idle call hidle hrun).trans hfiles

/-- A restore after a write that replaced a file, and after writes that changed nothing, gives
back the content before the write and uses the backup up. -/
theorem slot_of_undo {old data : Bytes} {perm : UInt32} (hold : d.content path = some old)
    (hread : (FileCall.write data perm).Reads path d)
    (hwrite : writeAtomic tmp d path data perm = (.ok true, d₁))
    (hidle : Runs.Run (FileCall.run tmp path) (FileCall.Idle tmp path) d₁ d₂)
    (hrestore : restore d₂ path = (.ok (), d₃)) : d₃.slot path = ⟨some old, none⟩ := by
  obtain ⟨hchanged, hslot₁⟩ := slot_of_writeAtomic_ok hread hwrite
  have hne : d.content path ≠ some data := by simpa using hchanged.symm
  have hpresent : d.content path ≠ none := by simp [hold]
  have hslot₂ : d₂.slot path = (d.slot path).write data := by
    rw [← hslot₁.resolve_right fun h => hpresent h.1]
    simp only [Disk.slot, Disk.content, Disk.file, files_of_idle_run hidle]
  calc d₃.slot path
      = ((d.slot path).offer (some data)).restore := by
        rw [slot_of_restore_ok hrestore, hslot₂]
        rfl
    _ = ⟨d.content path, none⟩ := Slot.restore_offer_of_changes hpresent ⟨data, rfl, hne⟩
    _ = ⟨some old, none⟩ := by rw [hold]

/-- In every run of successful calls from a disk with neither the file nor its backup, in which
each write can read the file if there is one, a backup stands beside a file with other content.
A restore after a write that returned true over a file,
with only writes that return false in between, gives back the content before that write and uses
the backup up. A second restore right after it changes nothing. -/
theorem restore_undoes_last_write (tmp : TempNamer) (path : Path) {d₀ d : Disk}
    (hstart : d₀.file path = none ∧ d₀.file path.backup = none)
    (h : Runs.Run (FileCall.run tmp path) (FileCall.Reads path) d₀ d) :
    (∀ b, d.content path.backup = some b → ∃ a, d.content path = some a ∧ a ≠ b) ∧
    ∀ old data perm d₁ d₂ d₃, d.content path = some old →
      (FileCall.write data perm).Reads path d →
      writeAtomic tmp d path data perm = (.ok true, d₁) →
      Runs.Run (FileCall.run tmp path) (FileCall.Idle tmp path) d₁ d₂ →
      restore d₂ path = (.ok (), d₃) →
      d₃.content path = some old ∧ d₃.file path.backup = none ∧
        ∀ d₄, restore d₃ path = (.ok (), d₄) → d₄.files = d₃.files := by
  refine ⟨proper_of_run hstart.2 h, ?_⟩
  intro old data perm d₁ d₂ d₃ hold hread hwrite hidle hrestore
  have hslot := slot_of_undo hold hread hwrite hidle hrestore
  have hcontent : d₃.content path = some old := congrArg Slot.current hslot
  have hgone : d₃.file path.backup = none :=
    Option.map_eq_none_iff.mp (congrArg Slot.backup hslot)
  refine ⟨hcontent, hgone, fun d₄ hagain => ?_⟩
  rcases restore_ok hagain with ⟨-, hfiles⟩ | ⟨f, hfile, -⟩
  · exact hfiles
  · cases hgone.symm.trans hfile

end Runs

/-- A disk without files, on which no call fails. -/
def freshDisk : Disk := ⟨∅, 0o022, [], false⟩

/-- A file of it. -/
def freshPath : Path := ⟨ascii "/d", ascii "f"⟩

/-- The disk after a write. -/
def afterWrite (d : Disk) (data : Bytes) : Disk := (writeAtomic .longer d freshPath data 0o644).2

theorem writeAtomic_afterWrite {d : Disk} {data : Bytes} {changed : Bool}
    (h : (writeAtomic .longer d freshPath data 0o644).1 = .ok changed) :
    writeAtomic .longer d freshPath data 0o644 = (.ok changed, afterWrite d data) := Prod.ext h rfl

/-- The second of two writes is undone, also after it has been offered once more. -/
theorem second_write_undone :
    let d₂ := afterWrite (afterWrite (afterWrite freshDisk [1]) [2]) [2]
    d₂.content freshPath = some [2] ∧
      ∃ d₃, restore d₂ freshPath = (.ok (), d₃) ∧ d₃.content freshPath = some [1] := by
  intro d₂
  have hrun : Runs.Run (FileCall.run .longer freshPath) (FileCall.Reads freshPath) freshDisk
      (afterWrite freshDisk [1]) :=
    (Runs.Run.refl _).tail (a := .write [1] 0o644) (by decide)
      (FileCall.run_write.mpr ⟨true, writeAtomic_afterWrite (by decide +kernel)⟩)
  have hidle : Runs.Run (FileCall.run .longer freshPath) (FileCall.Idle .longer freshPath)
      (afterWrite (afterWrite freshDisk [1]) [2]) d₂ :=
    (Runs.Run.refl _).tail (a := .write [2] 0o644) (by decide +kernel)
      (FileCall.run_write.mpr ⟨false, writeAtomic_afterWrite (by decide +kernel)⟩)
  obtain ⟨d₃, hrestore⟩ : ∃ d₃, restore d₂ freshPath = (.ok (), d₃) := by
    have hok : (restore d₂ freshPath).1 = .ok () := by decide +kernel
    exact ⟨_, Prod.ext hok rfl⟩
  have hundone := (restore_undoes_last_write .longer freshPath ⟨rfl, rfl⟩ hrun).2 [1] [2] 0o644
    _ d₂ d₃ (by decide +kernel) (by decide +kernel) (writeAtomic_afterWrite (by decide +kernel))
    hidle hrestore
  exact ⟨by decide +kernel, d₃, hrestore, hundone.1⟩

/-- The eighth call on this disk fails, the read that a second write begins with. -/
def unreadDisk : Disk := { freshDisk with faults := List.replicate 7 .pass ++ [.fail none] }

/-- Two writes and a restore, all successful. The second write could not read the file, made no
backup, and is not undone. -/
theorem unread_write_not_undone :
    unreadDisk.file freshPath = none ∧ unreadDisk.file freshPath.backup = none ∧
    ∃ d d₁ d₂, Runs.Run (FileCall.run .longer freshPath) (fun _ _ => True) unreadDisk d ∧
      d.content freshPath = some [1] ∧
      writeAtomic .longer d freshPath [2] 0o644 = (.ok true, d₁) ∧
      restore d₁ freshPath = (.ok (), d₂) ∧ d₂.content freshPath = some [2] := by
  have hrun : Runs.Run (FileCall.run .longer freshPath) (fun _ _ => True) unreadDisk
      (afterWrite unreadDisk [1]) :=
    (Runs.Run.refl _).tail (a := .write [1] 0o644) trivial
      (FileCall.run_write.mpr ⟨true, writeAtomic_afterWrite (by decide +kernel)⟩)
  have hrestore : (restore (afterWrite (afterWrite unreadDisk [1]) [2]) freshPath).1 = .ok () := by
    decide +kernel
  exact ⟨rfl, rfl, _, _, _, hrun, by decide +kernel,
    writeAtomic_afterWrite (by decide +kernel), Prod.ext hrestore rfl, by decide +kernel⟩

end Lbsync.Files
