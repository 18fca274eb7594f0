import Lbsync.Files.Failures

/-!
# Who may read a file

A file is closed when its mode gives nothing to the group and to others. Replacing a file
gives it the mode that is asked for, but a backup that is there keeps the mode it has, and
a file that has the content already is not touched. Restoring a directory moves modes
along with the files.
-/

namespace Lbsync.Files

/-- The permission bits of the group and of others. -/
def othersBits : UInt32 := 0o077

/-- The mode gives nothing to the group and to others. -/
def ClosedMode (mode : UInt32) : Prop := mode &&& othersBits = 0

instance (mode : UInt32) : Decidable (ClosedMode mode) :=
  inferInstanceAs (Decidable (mode &&& othersBits = 0))

theorem ClosedMode.and {mode : UInt32} (h : ClosedMode mode) (mask : UInt32) :
    ClosedMode (mode &&& mask) := by
  have hbits : mode &&& othersBits = 0 := h
  calc mode &&& mask &&& othersBits
      = mode &&& othersBits &&& mask := by
        rw [UInt32.and_assoc, UInt32.and_comm mask, ← UInt32.and_assoc]
    _ = 0 &&& mask := by rw [hbits]
    _ = 0 := UInt32.zero_and

/-- The file at the path, if there is one, is closed. -/
def Disk.Closed (d : Disk) (path : Path) : Prop := ∀ f, d.file path = some f → ClosedMode f.mode

theorem Disk.Closed.congr {d d' : Disk} {path : Path} (h : d.Closed path)
    (hfile : d'.file path = d.file path) : d'.Closed path := fun f hf => h f (hfile ▸ hf)

theorem Disk.closed_congr {d d' : Disk} {path : Path} (hfile : d'.file path = d.file path) :
    d'.Closed path ↔ d.Closed path := by
  rw [Closed, Closed, hfile]

/-- A file that is there keeps its mode, and a new one gets the given mode, less some bits. -/
def ModeKept (perm : UInt32) (path : Path) (d d' : Disk) : Prop :=
  (d'.file path).map File.mode = (d.file path).map File.mode ∨
    d.file path = none ∧ ∃ f mask, d'.file path = some f ∧ f.mode = perm &&& mask

namespace ModeKept

variable {perm : UInt32} {path : Path} {d d₁ d₂ : Disk}

theorem of_file (h : d₁.file path = d.file path) : ModeKept perm path d d₁ :=
  Or.inl (congrArg _ h)

theorem trans_file (h : ModeKept perm path d d₁) (hfile : d₂.file path = d₁.file path) :
    ModeKept perm path d d₂ := by
  unfold ModeKept
  rwa [hfile]

theorem of_trans_file (hfile : d₁.file path = d.file path) (h : ModeKept perm path d₁ d₂) :
    ModeKept perm path d d₂ := by
  unfold ModeKept
  rwa [← hfile]

/-- With a closed mode for new files, the file is closed afterwards if it was before. -/
theorem closed_iff (h : ModeKept perm path d d₁) (hperm : ClosedMode perm) :
    d₁.Closed path ↔ d.Closed path := by
  rcases h with hmode | ⟨hnone, f, mask, hf, hmode⟩
  · constructor
    · intro hclosed f hf
      rw [hf, Option.map_some, Option.map_eq_some_iff] at hmode
      obtain ⟨f', hf', heq⟩ := hmode
      exact heq ▸ hclosed f' hf'
    · intro hclosed f hf
      rw [hf, Option.map_some, eq_comm, Option.map_eq_some_iff] at hmode
      obtain ⟨f', hf', heq⟩ := hmode
      exact heq ▸ hclosed f' hf'
  · constructor
    · intro _ f' hf'
      rw [hnone] at hf'
      cases hf'
    · intro _ f' hf'
      obtain rfl : f = f' := Option.some.inj (hf.symm.trans hf')
      rw [hmode]
      exact hperm.and mask

end ModeKept

section Calls

variable (d : Disk) (path : Path) (data : Bytes) (perm : UInt32)

theorem modeKept_overwrite : ModeKept perm path d (d.overwrite path data perm) := by
  unfold Disk.overwrite
  cases hf : d.file path with
  | none => exact Or.inr ⟨hf, _, _, Disk.file_set_self _ _ _, rfl⟩
  | some f => exact Or.inl (by simp [hf])

theorem modeKept_writeFile : ModeKept perm path d (d.writeFile path data perm).2 := by
  have hnext := d.file_next path
  rcases d.call_cases (fun d => (Except.ok (), d.overwrite path data perm))
      fun k d => d.overwrite path (data.take k) perm with ⟨_, h⟩ | ⟨_, h | ⟨k, h⟩⟩
  · rw [Disk.writeFile, h]
    exact ModeKept.of_trans_file hnext (modeKept_overwrite d.next.2 path data perm)
  · rw [Disk.writeFile, h]
    exact ModeKept.of_file hnext
  · rw [Disk.writeFile, h]
    exact ModeKept.of_trans_file hnext (modeKept_overwrite d.next.2 path _ perm)

theorem modeKept_copyFile (src : Path) : ModeKept perm path d (copyFile d src path perm).2 := by
  rcases d.readFile_cases src with ⟨f, _, _, hread⟩ | ⟨e, hread, _⟩
  · simp only [FileCalls.copyFile, hread]
    exact ModeKept.of_trans_file (d.file_next path) (modeKept_writeFile d.next.2 path _ perm)
  · simp only [FileCalls.copyFile, hread]
    exact ModeKept.of_file (d.file_next path)

end Calls

section Writes

variable (tmp : TempNamer) (d : Disk) {path : Path} (data : Bytes) (perm : UInt32)

/-- Going through a temp file touches nothing that is neither the file nor named as one. -/
theorem file_replaceFile (havoid : tmp.Avoids path) {q : Path} (hne : q ≠ path)
    (htemp : ∀ digits, q.name ≠ ascii ".tmp-" ++ digits) :
    (replaceFile tmp d path data perm).2.file q = d.file q := by
  rcases replaceFile_cases tmp d (havoid.tempPath_ne d) data perm with
    ⟨d', hrun, _, hframe⟩ | ⟨e, d', hrun, hframe⟩
  · rw [hrun]
    exact hframe q hne
  · rw [hrun]
    apply hframe q
    intro heq
    obtain ⟨digits, hdigits⟩ := tmp.named d.files path.dir
    exact htemp digits (heq ▸ hdigits)

/-- Whatever happens to a write, the backup keeps its mode, or is new and has that of the
write. -/
theorem modeKept_backup (havoid : tmp.Avoids path)
    (htemp : ∀ digits, path.backup.name ≠ ascii ".tmp-" ++ digits) :
    ModeKept perm path.backup d (writeAtomic tmp d path data perm).2 := by
  have hnext := d.file_next path.backup
  rcases d.readFile_cases path with ⟨f, _, _, hread⟩ | ⟨e, hread, _⟩
  · by_cases hsame : f.content = data
    · simp only [FileSystem.writeAtomic, hread, if_pos hsame]
      exact ModeKept.of_file hnext
    · have hcopy : ModeKept perm path.backup d
          (Disk.calls.copyFile path path.backup perm d.next.2).2 :=
        ModeKept.of_trans_file hnext (modeKept_copyFile d.next.2 path.backup perm path)
      simp only [FileSystem.writeAtomic, hread, if_neg hsame]
      generalize Disk.calls.copyFile path path.backup perm d.next.2 = out at hcopy ⊢
      obtain ⟨_ | _, d₁⟩ := out
      · exact hcopy
      · exact hcopy.trans_file (file_replaceFile tmp d₁ data perm havoid path.backup_ne htemp)
  · simp only [FileSystem.writeAtomic, hread]
    apply ModeKept.of_file
    rw [file_replaceFile tmp _ data perm havoid path.backup_ne htemp, hnext]

variable {tmp d data perm}

/-- A write leaves every other file as closed as it was, the backup included when the mode of
the write is closed. -/
theorem closed_writeAtomic_iff (havoid : tmp.Avoids path) {q : Path} (hne : q ≠ path)
    (htemp : ∀ digits, q.name ≠ ascii ".tmp-" ++ digits)
    (hperm : q = path.backup → ClosedMode perm) :
    (writeAtomic tmp d path data perm).2.Closed q ↔ d.Closed q := by
  by_cases hbackup : q = path.backup
  · subst hbackup
    exact (modeKept_backup tmp d data perm havoid htemp).closed_iff (hperm rfl)
  · apply Disk.closed_congr
    exact (writeAtomic_ends tmp d (havoid.tempPath_ne d) data perm).file_of_ne hne hbackup htemp

/-- A write with a closed mode opens no file. -/
theorem Disk.Closed.writeAtomic (h : d.Closed path)
    (htemp : ∀ digits, path.name ≠ ascii ".tmp-" ++ digits) (hperm : ClosedMode perm) :
    (Files.writeAtomic tmp d path data perm).2.Closed path := by
  have hends := writeAtomic_ends tmp d ((tmp.avoids_of_not_temp htemp).tempPath_ne d) data perm
  generalize Files.writeAtomic tmp d path data perm = out at hends ⊢
  cases hends with
  | same d' _ hfiles => exact h.congr (congrArg (AList.lookup path) hfiles)
  | replaced d' hfile _ _ =>
      intro f hf
      obtain rfl : _ = f := Option.some.inj (hfile.symm.trans hf)
      exact hperm
  | failed e d' temp _ hnamed _ hframe =>
      apply h.congr
      apply hframe
      obtain ⟨digits, hdigits⟩ := hnamed
      rintro (heq | heq)
      · exact path.backup_ne heq.symm
      · exact htemp digits (heq ▸ hdigits)

/-- A write that went through leaves the file closed, unless it found its data in a file that
was open. -/
theorem closed_of_writeAtomic_ok (havoid : tmp.Avoids path) (hperm : ClosedMode perm)
    {changed : Bool} {d' : Disk}
    (hrun : Files.writeAtomic tmp d path data perm = (.ok changed, d'))
    (h : d.Closed path ∨ d.content path ≠ some data) : d'.Closed path := by
  have hends := writeAtomic_ends tmp d (havoid.tempPath_ne d) data perm
  rw [hrun] at hends
  cases hends with
  | same _ hsame hfiles =>
      have hclosed := h.resolve_right fun hne => hne hsame
      exact hclosed.congr (congrArg (AList.lookup path) hfiles)
  | replaced _ hfile _ _ =>
      intro f hf
      obtain rfl : _ = f := Option.some.inj (hfile.symm.trans hf)
      exact hperm

end Writes

section Restores

variable {d : Disk} {q : Path}

/-- A rename takes the mode along. -/
theorem Disk.Closed.rename (h : d.Closed q) {old new : Path} (hold : q = new → d.Closed old) :
    (d.rename old new).2.Closed q := by
  have hkept : d.next.2.Closed q := h.congr (d.file_next q)
  by_cases hpass : d.next.1 = .pass
  · rw [Disk.rename, Disk.simpleCall_of_pass hpass, d.file_next]
    cases hf : d.file old with
    | none => exact hkept
    | some f =>
        simp only
        split_ifs
        · exact hkept
        · intro g hg
          by_cases hnew : q = new
          · subst hnew
            rw [file_set_self] at hg
            obtain rfl := Option.some.inj hg
            exact hold rfl f hf
          · rw [file_set_of_ne _ _ hnew] at hg
            by_cases hq : q = old
            · subst hq
              rw [file_erase_self] at hg
              cases hg
            · rw [file_erase_of_ne _ hq] at hg
              exact hkept g hg
  · rw [Disk.rename, Disk.simpleCall_of_not_pass hpass]
    exact hkept

/-- A family of paths that holds, with a file, also its backup. -/
def BackupClosed (S : Set Path) : Prop := ∀ path ∈ S, path.backup ∈ S

variable {S : Set Path} (hS : BackupClosed S) (dir : GoString)

include hS

/-- Restoring a directory opens nothing: what it moves over a file was the file's backup. -/
theorem closed_restoreDir (h : ∀ path ∈ S, d.Closed path) :
    ∀ path ∈ S, (restoreDir d dir).2.Closed path := by
  refine FileCalls.restoreDir_keeps (P := fun d : Disk => ∀ path ∈ S, d.Closed path)
    (fun path hpath => (h path hpath).congr (d.file_readDir dir path))
    fun _ _ _ orig _ d₁ hclosed path hpath => ?_
  apply (hclosed path hpath).rename
  rintro rfl
  exact hclosed _ (hS _ hpath)

end Restores

section Healthy

variable {d : Disk}

/-- When no call fails, a file that has the data is left alone. -/
theorem writeAtomic_same (tmp : TempNamer) (h : d.Healthy) {path : Path} {data : Bytes}
    (hsame : d.content path = some data) (perm : UInt32) :
    writeAtomic tmp d path data perm = (.ok false, d) := by
  obtain ⟨f, hf, rfl⟩ := Option.map_eq_some_iff.mp hsame
  have hread : d.readFile path = (.ok f.content, d) := by
    refine (Disk.call_healthy h _ _).trans ?_
    simp [hf]
  simp [FileSystem.writeAtomic, hread]

theorem Disk.Healthy.rename (h : d.Healthy) (old new : Path) : (d.rename old new).2.Healthy := by
  rw [Disk.rename, Disk.simpleCall, Disk.call_healthy h]
  cases d.file old with
  | none => exact h
  | some f =>
      simp only
      split_ifs
      · exact h
      · exact h

/-- Restoring a directory makes no call fail that did not. -/
theorem Disk.Healthy.restoreDir (h : d.Healthy) (dir : GoString) :
    (Files.restoreDir d dir).2.Healthy := by
  have hread : d.readDir dir = (.ok (d.names dir), d) := Disk.call_healthy h _ _
  have hkept : (d.readDir dir).2.Healthy := by rwa [hread]
  exact FileCalls.restoreDir_keeps (P := Disk.Healthy) hkept
    fun _ _ _ orig _ _ hd => hd.rename (Path.backup ⟨dir, orig⟩) ⟨dir, orig⟩

end Healthy

end Lbsync.Files
