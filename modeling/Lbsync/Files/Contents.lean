import Lbsync.Files.Failures

/-!
# Which contents a disk can come to hold

Fix for every path the contents that may stand there, the same for a file and its backup, and
anything for temp files. Writes of such contents and restored backups keep a disk to them,
whatever calls fail. A write that is cut off can leave a torn backup, which a restore puts in
place; so either no write is cut off or torn contents have to be among the ones that may stand
there.
-/

namespace Lbsync.Files

/-- The bytes that a call leaves behind when it is cut off. -/
def Fault.written : Fault → Option Nat
  | .pass => none
  | .fail w => w
  | .stop w => w

/-- No write is cut off: a call that fails has no effect. -/
def Disk.Untorn (d : Disk) : Prop := ∀ f ∈ d.faults, f.written = none

/-- The contents that may stand at each path. -/
structure Contents where
  may : Path → Set Bytes
  backup : ∀ path, may path.backup = may path
  temp : ∀ dir digits, may ⟨dir, ascii ".tmp-" ++ digits⟩ = Set.univ

/-- What is left of a content may stand where the content may. -/
def Contents.AllowsTorn (C : Contents) : Prop :=
  ∀ path data k, data ∈ C.may path → data.take k ∈ C.may path

/-- The disk holds contents that may stand where they are, and goes on so. -/
structure Conforms (C : Contents) (d : Disk) : Prop where
  content : ∀ path f, d.file path = some f → f.content ∈ C.may path
  torn : d.Untorn ∨ C.AllowsTorn

variable {α : Type*} {d : Disk}

section Faults

/-- No new failures lie ahead. -/
def Disk.Later (d d' : Disk) : Prop := ∀ f ∈ d'.faults, f ∈ d.faults

theorem Disk.Later.trans {d₁ d₂ : Disk} (h₁ : d.Later d₁) (h₂ : d₁.Later d₂) : d.Later d₂ :=
  fun f hf => h₁ f (h₂ f hf)

theorem Disk.Untorn.later {d' : Disk} (h : d.Untorn) (hlater : d.Later d') : d'.Untorn :=
  fun f hf => h f (hlater f hf)

namespace Disk

theorem later_of_faults {d' : Disk} (h : d'.faults = d.faults) : d.Later d' := fun _ hf => h ▸ hf

theorem later_next (d : Disk) : d.Later d.next.2 := by
  intro f hf
  unfold next at hf
  split_ifs at hf
  · exact hf
  · cases hfaults : d.faults with
    | nil => simp [hfaults] at hf
    | cons g rest =>
        rw [hfaults] at hf
        exact List.mem_cons_of_mem g (by cases g <;> exact hf)

theorem Untorn.next_written (h : d.Untorn) : d.next.1.written = none := by
  unfold next
  split_ifs
  · rfl
  · cases hfaults : d.faults with
    | nil => rfl
    | cons f rest =>
        have hf := h f (by rw [hfaults]; exact List.mem_cons_self)
        cases f <;> exact hf

theorem later_call {effect : Disk → Except DiskErr α × Disk} {torn : Nat → Disk → Disk}
    (heffect : ∀ d, (effect d).2.faults = d.faults) (htorn : ∀ k d, (torn k d).faults = d.faults) :
    d.Later (d.call effect torn).2 := by
  refine d.later_next.trans (later_of_faults ?_)
  unfold call
  generalize d.next = result
  obtain ⟨fault, d'⟩ := result
  cases fault with
  | pass => exact heffect d'
  | fail w => cases w <;> simp [htorn]
  | stop w => cases w <;> simp [htorn]

theorem later_simpleCall {effect : Disk → Except DiskErr α × Disk}
    (heffect : ∀ d, (effect d).2.faults = d.faults) : d.Later (d.simpleCall effect).2 :=
  later_call heffect fun _ _ => rfl

theorem modify_faults (d : Disk) (path : Path) (g : File → File) :
    (d.modify path g).faults = d.faults := by
  unfold modify
  cases d.file path <;> rfl

variable (d)

theorem later_createTemp (tmp : TempNamer) (dir : GoString) : d.Later (d.createTemp tmp dir).2 :=
  later_simpleCall fun _ => rfl

theorem later_write (path : Path) (data : Bytes) : d.Later (d.write path data).2 :=
  later_call (fun d => d.modify_faults path _) fun _ d => d.modify_faults path _

theorem later_chmod (path : Path) (perm : UInt32) : d.Later (d.chmod path perm).2 :=
  later_simpleCall fun d => d.modify_faults path _

theorem later_close : d.Later d.close.2 := later_simpleCall fun _ => rfl

theorem later_rename (old new : Path) : d.Later (d.rename old new).2 :=
  later_simpleCall fun d => by
    cases d.file old with
    | none => rfl
    | some f =>
        simp only
        split_ifs <;> rfl

theorem later_remove (path : Path) : d.Later (d.remove path).2 :=
  later_simpleCall fun d => by cases d.file path <;> rfl

end Disk

theorem later_fillTemp (d : Disk) (temp path : Path) (data : Bytes) (perm : UInt32) :
    d.Later (fillTemp d temp path data perm).2 :=
  FileCalls.fillTemp_keeps (P := d.Later) (fun d₁ h => h.trans (d₁.later_write temp data))
    (fun d₁ h => h.trans (d₁.later_chmod temp perm)) (fun d₁ h => h.trans d₁.later_close)
    (fun d₁ h => h.trans (d₁.later_rename temp path)) (Disk.later_of_faults rfl)

theorem later_replaceFile (tmp : TempNamer) (d : Disk) (path : Path) (data : Bytes)
    (perm : UInt32) : d.Later (replaceFile tmp d path data perm).2 := by
  have hcreate := d.later_createTemp tmp path.dir
  rcases hrun : d.createTemp tmp path.dir with ⟨_ | temp, d₁⟩ <;> rw [hrun] at hcreate
  · simpa only [FileSystem.replaceFile, hrun] using hcreate
  · simp only [FileSystem.replaceFile, hrun]
    exact (hcreate.trans (later_fillTemp d₁ temp path data perm)).trans (Disk.later_remove _ temp)

end Faults

section Keeping

variable {C : Contents}

namespace Conforms

/-- A disk that differs in files that may be there. -/
theorem of_file (h : Conforms C d) {d' : Disk} (hlater : d.Later d')
    (hfile : ∀ path f, d'.file path = some f → d.file path = some f ∨ f.content ∈ C.may path) :
    Conforms C d' where
  content path f hf := (hfile path f hf).elim (h.content path f) id
  torn := h.torn.imp (fun huntorn => huntorn.later hlater) id

theorem of_files (h : Conforms C d) {d' : Disk} (hlater : d.Later d')
    (hfiles : d'.files = d.files) : Conforms C d' := by
  refine h.of_file hlater fun path f hf => Or.inl ?_
  rwa [Disk.file, ← hfiles]

theorem next (h : Conforms C d) : Conforms C d.next.2 := h.of_files d.later_next d.next_files

theorem set (h : Conforms C d) {path : Path} {f : File} (hf : f.content ∈ C.may path) :
    Conforms C (d.set path f) := by
  refine h.of_file (Disk.later_of_faults rfl) fun q g hg => ?_
  by_cases hq : q = path
  · subst hq
    rw [Disk.file_set_self] at hg
    exact Or.inr (Option.some.inj hg ▸ hf)
  · rw [Disk.file_set_of_ne d f hq] at hg
    exact Or.inl hg

theorem erase (h : Conforms C d) (path : Path) : Conforms C (d.erase path) := by
  refine h.of_file (Disk.later_of_faults rfl) fun q g hg => Or.inl ?_
  by_cases hq : q = path
  · simp [hq] at hg
  · rwa [Disk.file_erase_of_ne d hq] at hg

theorem overwrite (h : Conforms C d) {path : Path} {data : Bytes} (hdata : data ∈ C.may path)
    (perm : UInt32) : Conforms C (d.overwrite path data perm) := by
  unfold Disk.overwrite
  cases d.file path with
  | none => exact h.set hdata
  | some f => exact h.set hdata

/-- A call keeps to the contents when its effect does, and what it leaves torn. -/
theorem call (h : Conforms C d) {effect : Disk → Except DiskErr α × Disk}
    {torn : Nat → Disk → Disk} (heffect : ∀ d', d'.files = d.files → Conforms C d' →
      Conforms C (effect d').2)
    (htorn : C.AllowsTorn → ∀ k d', Conforms C d' → Conforms C (torn k d')) :
    Conforms C (d.call effect torn).2 := by
  have hnext := h.next
  have hfiles := d.next_files
  have hwritten : d.next.1.written = none ∨ C.AllowsTorn :=
    h.torn.imp Disk.Untorn.next_written id
  unfold Disk.call
  generalize d.next = result at hnext hfiles hwritten
  obtain ⟨fault, d'⟩ := result
  have hcut (w : Option Nat) (hw : w = none ∨ C.AllowsTorn) :
      Conforms C ((w.map fun k => torn k d').getD d') := by
    cases w with
    | none => exact hnext
    | some k => exact htorn (hw.resolve_left (by simp)) k d' hnext
  cases fault with
  | pass => exact heffect d' hfiles hnext
  | fail w => exact hcut w hwritten
  | stop w => exact hcut w hwritten

theorem simpleCall (h : Conforms C d) {effect : Disk → Except DiskErr α × Disk}
    (heffect : ∀ d', d'.files = d.files → Conforms C d' → Conforms C (effect d').2) :
    Conforms C (d.simpleCall effect).2 := h.call heffect fun _ _ _ h => h

theorem readFile (h : Conforms C d) (path : Path) : Conforms C (d.readFile path).2 :=
  h.simpleCall fun d' _ h' => by cases d'.file path <;> exact h'

theorem stat (h : Conforms C d) (path : Path) : Conforms C (d.stat path).2 :=
  h.simpleCall fun d' _ h' => by cases d'.file path <;> exact h'

theorem readDir (h : Conforms C d) (dir : GoString) : Conforms C (d.readDir dir).2 :=
  h.simpleCall fun _ _ h' => h'

theorem mkdirAll (h : Conforms C d) : Conforms C d.mkdirAll.2 := h.simpleCall fun _ _ h' => h'

theorem writeFile (h : Conforms C d) {path : Path} {data : Bytes} (hdata : data ∈ C.may path)
    (perm : UInt32) : Conforms C (d.writeFile path data perm).2 :=
  h.call (fun _ _ h' => h'.overwrite hdata perm)
    fun htorn k _ h' => h'.overwrite (htorn path data k hdata) perm

theorem rename (h : Conforms C d) {old new : Path} (hle : C.may old ⊆ C.may new) :
    Conforms C (d.rename old new).2 :=
  h.simpleCall fun d' _ h' => by
    cases hfile : d'.file old with
    | none => exact h'
    | some f =>
        simp only
        split_ifs
        · exact h'
        · exact (h'.erase old).set (hle (h'.content old f hfile))

/-- Copying to where the same contents may stand. -/
theorem copyFile (h : Conforms C d) {src dst : Path} (hle : C.may src ⊆ C.may dst)
    (perm : UInt32) : Conforms C (copyFile d src dst perm).2 := by
  have hread := h.readFile src
  simp only [FileCalls.copyFile]
  rcases d.readFile_cases src with ⟨f, hf, -, hrun⟩ | ⟨e, hrun, -⟩
  · rw [hrun] at hread
    simp only [hrun]
    exact hread.writeFile (hle (h.content src f hf)) perm
  · rw [hrun] at hread
    simpa only [hrun] using hread

theorem replaceFile (h : Conforms C d) {tmp : TempNamer} {path : Path}
    (havoids : tmp.Avoids path) {data : Bytes} (hdata : data ∈ C.may path) (perm : UInt32) :
    Conforms C (replaceFile tmp d path data perm).2 := by
  have hlater := later_replaceFile tmp d path data perm
  rcases replaceFile_cases tmp d (havoids.tempPath_ne d) data perm with
    ⟨d', hrun, hfile, hframe⟩ | ⟨e, d', hrun, hframe⟩ <;> rw [hrun] at hlater ⊢
  · refine h.of_file hlater fun q f hf => ?_
    by_cases hq : q = path
    · subst hq
      exact Or.inr (Option.some.inj (hfile.symm.trans hf) ▸ hdata)
    · exact Or.inl ((hframe q hq).symm.trans hf)
  · refine h.of_file hlater fun q f hf => ?_
    by_cases hq : q = tempPath tmp d path
    · obtain ⟨digits, hdigits⟩ := tmp.named d.files path.dir
      have huniv : C.may q = Set.univ := by
        rw [hq, tempPath, hdigits]
        exact C.temp path.dir digits
      exact Or.inr (huniv ▸ Set.mem_univ _)
    · exact Or.inl ((hframe q hq).symm.trans hf)

/-- A write of a content that may stand at its path, however it ends. -/
theorem writeAtomic (h : Conforms C d) {tmp : TempNamer} {path : Path}
    (havoids : tmp.Avoids path) {data : Bytes} (hdata : data ∈ C.may path) (perm : UInt32) :
    Conforms C (writeAtomic tmp d path data perm).2 :=
  FileSystem.writeAtomic_keeps (P := Conforms C) (fun _ hd => hd.readFile path)
    (fun _ hd => hd.copyFile (C.backup path).ge perm)
    (fun _ hd => hd.replaceFile havoids hdata perm) h

theorem restore (h : Conforms C d) (path : Path) : Conforms C (restore d path).2 := by
  have hstat := h.stat path.backup
  unfold Files.restore
  generalize d.stat path.backup = out at hstat ⊢
  obtain ⟨e | _, d₁⟩ := out
  · cases e <;> exact hstat
  · exact Conforms.rename hstat (C.backup path).le

theorem restoreDir (h : Conforms C d) (dir : GoString) : Conforms C (restoreDir d dir).2 :=
  FileCalls.restoreDir_keeps (P := Conforms C) (h.readDir dir)
    fun _ _ _ orig _ _ hd => hd.rename (C.backup ⟨dir, orig⟩).le

end Conforms

end Keeping

end Lbsync.Files
