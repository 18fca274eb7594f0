import Lbsync.Files.Failures

/-!
# A write is all or nothing

Whatever becomes of the calls of `writeAtomic`, the file is the old one or the new one as
a whole. The coming failures are part of the disk, so that a statement about every disk is
one about every call that may fail, after part of a write or not, and about every call in
which the process may stop. The temp file stays behind only when its removal fails.
-/

namespace Lbsync.Files

section Replacing

variable (tmp : TempNamer) (d : Disk) (path : Path) (data : Bytes) (perm : UInt32)

/-- What the removal at the end of `replaceFile` returns. Without a temp file there is none. -/
def removalAfter : Option (Except DiskErr Unit) :=
  match d.createTemp tmp path.dir with
  | (.error _, _) => none
  | (.ok temp, d) => some ((fillTemp d temp path data perm).2.remove temp).1

/-- What the deferred `os.Remove` of `writeAtomic` returns. There is none when the write ends
before it makes a temp file. -/
def removal : Option (Except DiskErr Unit) :=
  (prepare d path data perm).elim (fun _ => none) fun d => removalAfter tmp d path data perm

variable {tmp d path data perm}

/-- Without a failed removal nothing but the file differs: the temp file is gone, as a new name. -/
theorem frame_replaceFile (h : removalAfter tmp d path data perm ≠ some (.error .io)) :
    Frame {path} d (replaceFile tmp d path data perm).2 := by
  rcases d.createTemp_cases tmp path.dir with ⟨d₁, hcreate, -, hframe⟩ | hcreate
  · have hfill := frame_fillTemp d₁ (tempPath tmp d path) path data perm
    have hremove := (fillTemp d₁ (tempPath tmp d path) path data perm).2.frame_remove
      (tempPath tmp d path)
    have hresult : ((fillTemp d₁ (tempPath tmp d path) path data perm).2.remove
        (tempPath tmp d path)).1 ≠ .error .io := by
      intro herror
      simp only [removalAfter, hcreate] at h
      exact h (congrArg some herror)
    simp only [FileSystem.replaceFile, hcreate]
    intro q hq
    by_cases htemp : q = tempPath tmp d path
    · subst htemp
      exact (Disk.file_remove _ hresult).trans (file_tempPath tmp d path).symm
    · have hboth : q ∉ ({tempPath tmp d path, path} : Set Path) := by
        rintro (heq | heq)
        · exact htemp heq
        · exact hq heq
      exact ((hremove q htemp).trans (hfill q hboth)).trans (hframe q htemp)
  · simp only [FileSystem.replaceFile, hcreate]
    exact .of_files d.next_files

/-- Without a failed removal nothing but the file and its backup differs. -/
theorem frame_writeAtomic (h : removal tmp d path data perm ≠ some (.error .io)) :
    Frame {path, path.backup} d (writeAtomic tmp d path data perm).2 := by
  have hprepared := prepare_spec d path data perm
  unfold removal at h
  rw [writeAtomic_eq]
  generalize prepare d path data perm = course at hprepared h ⊢
  cases hprepared with
  | same _ => exact .of_files d.next_files
  | failed e hframe => exact hframe.mono (by simp)
  | copied _ _ _ hframe _ =>
      exact (hframe.mono (by simp)).trans ((frame_replaceFile h).mono (by simp))
  | unread _ =>
      exact Frame.trans (.of_files d.next_files) ((frame_replaceFile h).mono (by simp))

theorem file_of_replaceFile_error (hne : tempPath tmp d path ≠ path) {e : DiskErr}
    (h : (replaceFile tmp d path data perm).1 = .error e) :
    (replaceFile tmp d path data perm).2.file path = d.file path := by
  rcases replaceFile_cases tmp d hne data perm with ⟨d', hrun, -⟩ | ⟨e', d', hrun, hframe⟩
  · rw [hrun] at h
    cases h
  · rw [hrun]
    exact hframe path hne.symm

/-- A write that returns an error has not touched the file. -/
theorem file_of_writeAtomic_error (hne : tempPath tmp d path ≠ path) {e : DiskErr}
    (h : (writeAtomic tmp d path data perm).1 = .error e) :
    (writeAtomic tmp d path data perm).2.file path = d.file path := by
  have hprepared := prepare_spec d path data perm
  have hbackup := path.backup_ne.symm
  rw [writeAtomic_eq] at h ⊢
  generalize prepare d path data perm = course at hprepared h ⊢
  cases hprepared with
  | same _ => cases h
  | failed _ hframe => exact hframe path hbackup
  | @copied f d₁ hfile _ _ hframe _ =>
      have hfile₁ : d₁.file path = d.file path := hframe path hbackup
      have htemp : tempPath tmp d₁ path ≠ path := tempPath_ne_of_file tmp (hfile₁.trans hfile)
      exact (file_of_replaceFile_error htemp h).trans hfile₁
  | unread _ =>
      have htemp : tempPath tmp d.next.2 path ≠ path := by rwa [tempPath_next]
      exact (file_of_replaceFile_error htemp h).trans (d.file_next path)

end Replacing

/-- A write leaves the old file or the new one: the old one when it returns an error, the new one
with the given mode when it returns true. When it returns false nothing has changed, and unless
the temp file cannot be removed no other file than the backup has. `os.CreateTemp` picks a name
that is not in use and not that of the file, should there be none yet. -/
theorem writeAtomic_all_or_nothing (tmp : TempNamer) (d : Disk) (path : Path)
    (hne : tempPath tmp d path ≠ path) (data : Bytes) (perm : UInt32) :
    let out := writeAtomic tmp d path data perm
    (out.2.file path = d.file path ∨ out.2.file path = some ⟨data, perm⟩) ∧
    (∀ e, out.1 = .error e → out.2.file path = d.file path) ∧
    (out.1 = .ok true → out.2.file path = some ⟨data, perm⟩) ∧
    (out.1 = .ok false → out.2.files = d.files) ∧
    (removal tmp d path data perm ≠ some (.error .io) →
      ∀ q, q ≠ path → q ≠ path.backup → out.2.file q = d.file q) := by
  intro out
  have hend : WriteEnd path data perm d out := writeAtomic_ends tmp d hne data perm
  have herror (e : DiskErr) (h : out.1 = .error e) : out.2.file path = d.file path :=
    file_of_writeAtomic_error hne h
  have htrue (h : out.1 = .ok true) : out.2.file path = some ⟨data, perm⟩ := by
    generalize out = r at hend h
    cases hend with
    | replaced d' hfile _ _ => exact hfile
    | same d' _ _ => cases h
    | failed e d' temp _ _ _ _ => cases h
  have hfalse (h : out.1 = .ok false) : out.2.files = d.files := by
    generalize out = r at hend h
    cases hend with
    | replaced d' _ _ _ => cases h
    | same d' _ hfiles => exact hfiles
    | failed e d' temp _ _ _ _ => cases h
  refine ⟨?_, herror, htrue, hfalse, fun hremoved q hq hqb => ?_⟩
  · rcases hresult : out.1 with e | _ | _
    · exact Or.inl (herror e hresult)
    · exact Or.inl (congrArg (AList.lookup path) (hfalse hresult))
    · exact Or.inr (htrue hresult)
  · exact frame_writeAtomic hremoved q (by simp [hq, hqb])

/-- A file on a disk where the process stops after one byte of the temp file. -/
def tornDisk : Disk where
  files := (∅ : FileMap).insert ⟨ascii "/d", ascii "f"⟩ ⟨[1], 0o644⟩
  umask := 0o022
  faults := [.pass, .pass, .pass, .pass, .stop (some 1)]
  stopped := false

/-- The old file is left when the process stops in the middle of the temp file. -/
theorem torn_write_leaves_file :
    let out := writeAtomic .longer tornDisk ⟨ascii "/d", ascii "f"⟩ [2, 3] 0o600
    out.2.stopped = true ∧ out.2.file ⟨ascii "/d", ascii "f"⟩ = some ⟨[1], 0o644⟩ := by
  intro out
  have herror : out.1 = .error .io := by decide
  have hwhole := writeAtomic_all_or_nothing .longer tornDisk ⟨ascii "/d", ascii "f"⟩ (by decide)
    [2, 3] 0o600
  exact ⟨by decide, (hwhole.2.1 .io herror).trans (by decide)⟩

end Lbsync.Files
