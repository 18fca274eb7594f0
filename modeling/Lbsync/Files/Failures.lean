import Lbsync.Files.AtomicFile

/-!
# Writes that may fail

What `writeAtomic` leaves behind when any of its calls may fail or the process may
stop in one. A write that returns an error has not touched the file: at most the
backup and a temp file differ. A write that returns without one has the file in
place; the backup is made only if the first read went through.
-/

namespace Lbsync.Files

/-- Every file outside the set is as it was. -/
def Frame (touched : Set Path) (d d' : Disk) : Prop := ∀ q ∉ touched, d'.file q = d.file q

namespace Frame

variable {S T : Set Path} {d d₁ d₂ : Disk}

theorem of_files (h : d₁.files = d.files) : Frame S d d₁ := fun q _ => by
  simp only [Disk.file, h]

theorem trans (h₁ : Frame S d d₁) (h₂ : Frame S d₁ d₂) : Frame S d d₂ :=
  fun q hq => (h₂ q hq).trans (h₁ q hq)

theorem mono (h : Frame S d d₁) (hle : S ⊆ T) : Frame T d d₁ :=
  fun q hq => h q fun hs => hq (hle hs)

end Frame

namespace Disk

variable {α : Type*} (d : Disk)

@[simp] theorem next_files : d.next.2.files = d.files := by
  unfold next
  split_ifs
  · rfl
  · split <;> rfl

theorem file_next (path : Path) : d.next.2.file path = d.file path := by
  simp [file]

/-- A call does its effect, or fails and leaves at most a cut off write. -/
theorem call_cases (effect : Disk → Except DiskErr α × Disk) (torn : Nat → Disk → Disk) :
    d.next.1 = .pass ∧ d.call effect torn = effect d.next.2 ∨
      d.next.1 ≠ .pass ∧ (d.call effect torn = (.error .io, d.next.2) ∨
        ∃ k, d.call effect torn = (.error .io, torn k d.next.2)) := by
  unfold call
  rcases d.next with ⟨fault, d₁⟩
  cases fault with
  | pass => exact Or.inl ⟨rfl, rfl⟩
  | fail w =>
      refine Or.inr ⟨by simp, ?_⟩
      cases w with
      | none => exact Or.inl rfl
      | some k => exact Or.inr ⟨k, rfl⟩
  | stop w =>
      refine Or.inr ⟨by simp, ?_⟩
      cases w with
      | none => exact Or.inl rfl
      | some k => exact Or.inr ⟨k, rfl⟩

/-- A call without a cut off write does its effect or fails and leaves the files alone. -/
theorem simpleCall_cases (effect : Disk → Except DiskErr α × Disk) :
    d.next.1 = .pass ∧ d.simpleCall effect = effect d.next.2 ∨
      d.next.1 ≠ .pass ∧ d.simpleCall effect = (.error .io, d.next.2) := by
  rcases d.call_cases effect fun _ d => d with h | ⟨hne, h | ⟨_, h⟩⟩
  · exact Or.inl h
  · exact Or.inr ⟨hne, h⟩
  · exact Or.inr ⟨hne, h⟩

variable {d} in
theorem simpleCall_of_pass (h : d.next.1 = .pass) (effect : Disk → Except DiskErr α × Disk) :
    d.simpleCall effect = effect d.next.2 := by
  rcases d.simpleCall_cases effect with ⟨_, hrun⟩ | ⟨hne, _⟩
  · exact hrun
  · exact absurd h hne

variable {d} in
theorem simpleCall_of_not_pass (h : d.next.1 ≠ .pass)
    (effect : Disk → Except DiskErr α × Disk) : d.simpleCall effect = (.error .io, d.next.2) := by
  rcases d.simpleCall_cases effect with ⟨hpass, _⟩ | ⟨_, hrun⟩
  · exact absurd hpass h
  · exact hrun

theorem frame_set (path : Path) (f : File) : Frame {path} d (d.set path f) :=
  fun _ hq => file_set_of_ne d f hq

theorem frame_modify (path : Path) (g : File → File) : Frame {path} d (d.modify path g) := by
  unfold modify
  cases d.file path with
  | none => exact .of_files rfl
  | some f => exact d.frame_set path (g f)

theorem frame_overwrite (path : Path) (data : Bytes) (perm : UInt32) :
    Frame {path} d (d.overwrite path data perm) := by
  unfold overwrite
  cases d.file path <;> exact d.frame_set path _

theorem content_overwrite (path : Path) (data : Bytes) (perm : UInt32) :
    (d.overwrite path data perm).content path = some data := by
  unfold overwrite
  cases d.file path <;> simp [content]

theorem file_modify {path : Path} {f : File} (h : d.file path = some f) (g : File → File) :
    (d.modify path g).file path = some (g f) := by
  simp [modify, h]

/-- A read returns the content, or fails; only a read that is not passed fails on a file. -/
theorem readFile_cases (path : Path) :
    (∃ f, d.file path = some f ∧ d.next.1 = .pass ∧
        d.readFile path = (.ok f.content, d.next.2)) ∨
      ∃ e, d.readFile path = (.error e, d.next.2) ∧ (d.next.1 = .pass → d.file path = none) := by
  by_cases hpass : d.next.1 = .pass
  · rw [readFile, simpleCall_of_pass hpass, file_next]
    cases hf : d.file path with
    | none => exact Or.inr ⟨.notExist, rfl, fun _ => rfl⟩
    | some f => exact Or.inl ⟨f, rfl, hpass, rfl⟩
  · exact Or.inr ⟨.io, simpleCall_of_not_pass hpass _, fun h => absurd h hpass⟩

theorem writeFile_cases (path : Path) (data : Bytes) (perm : UInt32) :
    ∃ d', Frame {path} d d' ∧ ((d.writeFile path data perm = (.ok (), d') ∧
        d'.content path = some data) ∨ d.writeFile path data perm = (.error .io, d')) := by
  have hnext : Frame {path} d d.next.2 := .of_files d.next_files
  rcases d.call_cases (fun d => (Except.ok (), d.overwrite path data perm))
      fun k d => d.overwrite path (data.take k) perm with ⟨_, h⟩ | ⟨_, h | ⟨k, h⟩⟩
  · exact ⟨_, hnext.trans (d.next.2.frame_overwrite path data perm),
      Or.inl ⟨h, d.next.2.content_overwrite path data perm⟩⟩
  · exact ⟨_, hnext, Or.inr h⟩
  · exact ⟨_, hnext.trans (d.next.2.frame_overwrite path _ perm), Or.inr h⟩

theorem write_cases {path : Path} {f : File} (hf : d.file path = some f) (data : Bytes) :
    ∃ d', Frame {path} d d' ∧ ((d.write path data = (.ok (), d') ∧
        d'.file path = some { f with content := data }) ∨
        d.write path data = (.error .io, d')) := by
  have hnext : Frame {path} d d.next.2 := .of_files d.next_files
  rcases d.call_cases (fun d => (Except.ok (), d.modify path fun f => { f with content := data }))
      fun k d => d.modify path fun f => { f with content := data.take k } with
    ⟨_, h⟩ | ⟨_, h | ⟨k, h⟩⟩
  · exact ⟨_, hnext.trans (d.next.2.frame_modify path _),
      Or.inl ⟨h, d.next.2.file_modify ((d.file_next path).trans hf) _⟩⟩
  · exact ⟨_, hnext, Or.inr h⟩
  · exact ⟨_, hnext.trans (d.next.2.frame_modify path _), Or.inr h⟩

theorem chmod_cases {path : Path} {f : File} (hf : d.file path = some f) (perm : UInt32) :
    ∃ d', Frame {path} d d' ∧ ((d.chmod path perm = (.ok (), d') ∧
        d'.file path = some { f with mode := perm }) ∨ d.chmod path perm = (.error .io, d')) := by
  have hnext : Frame {path} d d.next.2 := .of_files d.next_files
  rcases d.simpleCall_cases
      fun d => (Except.ok (), d.modify path fun f => { f with mode := perm }) with
    ⟨_, h⟩ | ⟨_, h⟩
  · exact ⟨_, hnext.trans (d.next.2.frame_modify path _),
      Or.inl ⟨h, d.next.2.file_modify ((d.file_next path).trans hf) _⟩⟩
  · exact ⟨_, hnext, Or.inr h⟩

theorem close_cases :
    d.close = (.ok (), d.next.2) ∨ d.close = (.error .io, d.next.2) := by
  rcases d.simpleCall_cases fun d => (Except.ok (), d) with ⟨_, h⟩ | ⟨_, h⟩
  · exact Or.inl h
  · exact Or.inr h

theorem mkdirAll_cases :
    d.mkdirAll = (.ok (), d.next.2) ∨ d.mkdirAll = (.error .io, d.next.2) := d.close_cases

theorem file_mkdirAll (path : Path) : d.mkdirAll.2.file path = d.file path := by
  rcases d.mkdirAll_cases with h | h <;> exact h ▸ d.file_next path

theorem file_readDir (dir : GoString) (path : Path) :
    (d.readDir dir).2.file path = d.file path := by
  rcases d.simpleCall_cases fun d => (Except.ok (d.names dir), d) with ⟨_, h⟩ | ⟨_, h⟩ <;>
    exact (congrArg (fun r => r.2.file path) h).trans (d.file_next path)

theorem createTemp_cases (tmp : TempNamer) (dir : GoString) :
    (∃ d', d.createTemp tmp dir = (.ok ⟨dir, tmp.pick d.files dir⟩, d') ∧
        (∃ f, d'.file ⟨dir, tmp.pick d.files dir⟩ = some f) ∧
        Frame {⟨dir, tmp.pick d.files dir⟩} d d') ∨
      d.createTemp tmp dir = (.error .io, d.next.2) := by
  rcases d.simpleCall_cases fun d : Disk =>
      let path : Path := ⟨dir, tmp.pick d.files dir⟩
      (Except.ok path, d.set path ⟨[], 0o600 &&& ~~~d.umask⟩) with ⟨_, h⟩ | ⟨_, h⟩
  · rw [next_files] at h
    refine Or.inl ⟨_, h, ⟨_, file_set_self _ _ _⟩, ?_⟩
    exact Frame.trans (.of_files d.next_files) (d.next.2.frame_set _ _)
  · exact Or.inr h

theorem rename_cases {old new : Path} {f : File} (hf : d.file old = some f) (hne : old ≠ new) :
    (∃ d', d.rename old new = (.ok (), d') ∧ d'.file new = some f ∧ d'.file old = none ∧
        Frame {old, new} d d') ∨
      ∃ e, d.rename old new = (.error e, d.next.2) := by
  by_cases hpass : d.next.1 = .pass
  · simp only [rename, simpleCall_of_pass hpass, file_next, hf]
    by_cases hname : IsDots new.name
    · exact Or.inr ⟨.io, if_pos hname⟩
    · refine Or.inl ⟨_, if_neg hname, by simp, by simp [hne], fun q hq => ?_⟩
      obtain ⟨hold, hnew⟩ : q ≠ old ∧ q ≠ new := by simpa using hq
      simp [hold, hnew, file_next]
  · exact Or.inr ⟨.io, simpleCall_of_not_pass hpass _⟩

/-- Removing takes the file away or leaves it, and touches no other. -/
theorem remove_cases (path : Path) :
    (d.remove path).2 = d.next.2 ∨ (d.remove path).2 = d.next.2.erase path := by
  by_cases hpass : d.next.1 = .pass
  · rw [remove, simpleCall_of_pass hpass]
    cases d.next.2.file path with
    | none => exact Or.inl rfl
    | some f => exact Or.inr rfl
  · exact Or.inl (congrArg Prod.snd (simpleCall_of_not_pass hpass _))

theorem frame_remove (path : Path) : Frame {path} d (d.remove path).2 := by
  have hnext : Frame {path} d d.next.2 := .of_files d.next_files
  rcases d.remove_cases path with h | h
  · rwa [h]
  · rw [h]
    exact hnext.trans fun q hq => file_erase_of_ne _ hq

theorem frame_call {S : Set Path} {effect : Disk → Except DiskErr α × Disk}
    {torn : Nat → Disk → Disk} (heffect : ∀ d, Frame S d (effect d).2)
    (htorn : ∀ k d, Frame S d (torn k d)) : Frame S d (d.call effect torn).2 := by
  have hnext : Frame S d d.next.2 := .of_files d.next_files
  rcases d.call_cases effect torn with ⟨_, h⟩ | ⟨_, h | ⟨k, h⟩⟩
  · rw [h]
    exact hnext.trans (heffect d.next.2)
  · rwa [h]
  · rw [h]
    exact hnext.trans (htorn k d.next.2)

theorem frame_write (path : Path) (data : Bytes) : Frame {path} d (d.write path data).2 :=
  d.frame_call (fun d => d.frame_modify path _) fun _ d => d.frame_modify path _

theorem frame_chmod (path : Path) (perm : UInt32) : Frame {path} d (d.chmod path perm).2 :=
  d.frame_call (fun d => d.frame_modify path _) fun _ _ => .of_files rfl

theorem frame_close (S : Set Path) : Frame S d d.close.2 :=
  d.frame_call (fun _ => .of_files rfl) fun _ _ => .of_files rfl

theorem frame_rename (old new : Path) : Frame {old, new} d (d.rename old new).2 := by
  refine d.frame_call (fun d => ?_) fun _ _ => .of_files rfl
  cases d.file old with
  | none => exact .of_files rfl
  | some f =>
      simp only
      split_ifs
      · exact .of_files rfl
      · intro q hq
        obtain ⟨hold, hnew⟩ : q ≠ old ∧ q ≠ new := by simpa using hq
        simp [hold, hnew]

/-- A removal that does not fail leaves no file. -/
theorem file_remove {path : Path} (h : (d.remove path).1 ≠ .error .io) :
    (d.remove path).2.file path = none := by
  by_cases hpass : d.next.1 = .pass
  · rw [remove, simpleCall_of_pass hpass]
    cases hf : d.next.2.file path with
    | none => exact hf
    | some f => exact file_erase_self _ _
  · exact absurd (congrArg Prod.fst (simpleCall_of_not_pass hpass _)) h

theorem file_remove_of_none {path : Path} (h : d.file path = none) :
    (d.remove path).2.file path = none := by
  rcases d.remove_cases path with heq | heq
  · rw [heq, file_next, h]
  · rw [heq, file_erase_self]

end Disk

/-- Filling a temp file ends with the file in its place, or with nothing but the temp file
touched. -/
theorem fillTemp_cases (d : Disk) {temp path : Path} (hne : temp ≠ path) {f : File}
    (hf : d.file temp = some f) (data : Bytes) (perm : UInt32) :
    (∃ d', fillTemp d temp path data perm = (.ok true, d') ∧
        d'.file path = some ⟨data, perm⟩ ∧ d'.file temp = none ∧ Frame {temp, path} d d') ∨
      ∃ e d', fillTemp d temp path data perm = (.error e, d') ∧ Frame {temp} d d' := by
  obtain ⟨d₁, hframe₁, ⟨hwrite, hfile₁⟩ | hwrite⟩ := d.write_cases hf data
  swap
  · exact Or.inr ⟨.io, d₁.close.2, by simp [FileCalls.fillTemp, hwrite],
      hframe₁.trans (d₁.frame_close _)⟩
  obtain ⟨d₂, hframe₂, ⟨hchmod, hfile₂⟩ | hchmod⟩ := d₁.chmod_cases hfile₁ perm
  swap
  · exact Or.inr ⟨.io, d₂.close.2, by simp [FileCalls.fillTemp, hwrite, hchmod],
      (hframe₁.trans hframe₂).trans (d₂.frame_close _)⟩
  have hframe₃ : Frame {temp} d d₂.next.2 :=
    (hframe₁.trans hframe₂).trans (.of_files d₂.next_files)
  rcases d₂.close_cases with hclosed | hclosed
  swap
  · exact Or.inr ⟨.io, d₂.next.2, by simp [FileCalls.fillTemp, hwrite, hchmod, hclosed], hframe₃⟩
  have hfile₃ := (d₂.file_next temp).trans hfile₂
  rcases d₂.next.2.rename_cases hfile₃ hne with ⟨d₄, hrename, hnew, hold, hframe₄⟩ | ⟨e, hrename⟩
  · refine Or.inl ⟨d₄, ?_, hnew, hold, (hframe₃.mono (by simp)).trans hframe₄⟩
    simp [FileCalls.fillTemp, hwrite, hchmod, hclosed, hrename]
  · refine Or.inr ⟨e, d₂.next.2.next.2, ?_, hframe₃.trans (.of_files d₂.next.2.next_files)⟩
    simp [FileCalls.fillTemp, hwrite, hchmod, hclosed, hrename]

/-- However it ends, filling a temp file touches nothing but that and the file. -/
theorem frame_fillTemp (d : Disk) (temp path : Path) (data : Bytes) (perm : UInt32) :
    Frame {temp, path} d (fillTemp d temp path data perm).2 := by
  have hle : ({temp} : Set Path) ⊆ {temp, path} := by simp
  exact FileCalls.fillTemp_keeps (P := Frame {temp, path} d)
    (fun d₁ h => h.trans ((d₁.frame_write temp data).mono hle))
    (fun d₁ h => h.trans ((d₁.frame_chmod temp perm).mono hle))
    (fun d₁ h => h.trans (d₁.frame_close _)) (fun d₁ h => h.trans (d₁.frame_rename temp path))
    (.of_files rfl)

/-- The temp file `os.CreateTemp` would make beside a path. -/
def tempPath (tmp : TempNamer) (d : Disk) (path : Path) : Path :=
  ⟨path.dir, tmp.pick d.files path.dir⟩

theorem file_tempPath (tmp : TempNamer) (d : Disk) (path : Path) :
    d.file (tempPath tmp d path) = none := tmp.unused d.files path.dir

theorem tempPath_next (tmp : TempNamer) (d : Disk) (path : Path) :
    tempPath tmp d.next.2 path = tempPath tmp d path := by
  rw [tempPath, tempPath, d.next_files]

theorem TempNamer.Avoids.tempPath_ne {tmp : TempNamer} {path : Path} (h : tmp.Avoids path)
    (d : Disk) : tempPath tmp d path ≠ path := fun heq => h d.files (congrArg Path.name heq)

/-- The temp file is another file than one that is there. -/
theorem tempPath_ne_of_file (tmp : TempNamer) {d : Disk} {path q : Path} {f : File}
    (hf : d.file q = some f) : tempPath tmp d path ≠ q := by
  rintro rfl
  cases hf.symm.trans (file_tempPath tmp d path)

/-- Going through a temp file ends with the file in its place and nothing else touched, or
with nothing but a temp file left over. -/
theorem replaceFile_cases (tmp : TempNamer) (d : Disk) {path : Path}
    (hne : tempPath tmp d path ≠ path) (data : Bytes) (perm : UInt32) :
    (∃ d', replaceFile tmp d path data perm = (.ok true, d') ∧
        d'.file path = some ⟨data, perm⟩ ∧ Frame {path} d d') ∨
      ∃ e d', replaceFile tmp d path data perm = (.error e, d') ∧
        Frame {tempPath tmp d path} d d' := by
  have hunused := file_tempPath tmp d path
  rcases d.createTemp_cases tmp path.dir with ⟨d₁, hcreate, ⟨f, hf⟩, hframe₁⟩ | hcreate
  swap
  · exact Or.inr ⟨.io, d.next.2, by simp [FileSystem.replaceFile, hcreate], .of_files d.next_files⟩
  rcases fillTemp_cases d₁ hne hf data perm with
    ⟨d₂, hfill, hpath, htemp, hframe₂⟩ | ⟨e, d₂, hfill, hframe₂⟩
  · have hremoved := d₂.frame_remove (tempPath tmp d path)
    refine Or.inl ⟨(d₂.remove (tempPath tmp d path)).2, ?_, ?_, fun q hq => ?_⟩
    · simp only [FileSystem.replaceFile, hcreate]
      rw [show Disk.calls.fillTemp ⟨path.dir, tmp.pick d.files path.dir⟩ path data perm d₁ = _
        from hfill]
      rfl
    · rw [hremoved path hne.symm, hpath]
    · by_cases hqt : q = tempPath tmp d path
      · rw [hqt, d₂.file_remove_of_none htemp, hunused]
      · rw [hremoved q hqt, hframe₂ q (by simp [hqt, Set.mem_singleton_iff.not.mp hq]),
          hframe₁ q hqt]
  · refine Or.inr ⟨e, (d₂.remove (tempPath tmp d path)).2, ?_, ?_⟩
    · simp only [FileSystem.replaceFile, hcreate]
      rw [show Disk.calls.fillTemp ⟨path.dir, tmp.pick d.files path.dir⟩ path data perm d₁ = _
        from hfill]
      rfl
    · exact (Frame.trans hframe₁ hframe₂).trans (d₂.frame_remove _)

/-- How a write can end. -/
inductive WriteEnd (path : Path) (data : Bytes) (perm : UInt32) (d : Disk) :
    Except DiskErr Bool × Disk → Prop
  | same (d' : Disk) (hsame : d.content path = some data) (hfiles : d'.files = d.files) :
      WriteEnd path data perm d (.ok false, d')
  | replaced (d' : Disk) (hfile : d'.file path = some ⟨data, perm⟩)
      (hbackup : d'.content path.backup =
        if d.next.1 = .pass then (d.content path).or (d.content path.backup)
        else d.content path.backup)
      (hframe : Frame {path, path.backup} d d') : WriteEnd path data perm d (.ok true, d')
  | failed (e : DiskErr) (d' : Disk) (temp : Path) (hdir : temp.dir = path.dir)
      (hnamed : ∃ digits, temp.name = ascii ".tmp-" ++ digits) (hunused : d.file temp = none)
      (hframe : Frame {path.backup, temp} d d') : WriteEnd path data perm d (.error e, d')

/-- A failed write has left a temp file at most. -/
theorem WriteEnd.of_error (tmp : TempNamer) {path : Path} {data : Bytes} {perm : UInt32}
    {d d₁ d' : Disk} (hframe₁ : Frame {path.backup} d d₁)
    (hunused : d.file (tempPath tmp d₁ path) = none) (e : DiskErr)
    (hframe : Frame {path.backup, tempPath tmp d₁ path} d₁ d') :
    WriteEnd path data perm d (.error e, d') :=
  .failed e d' (tempPath tmp d₁ path) rfl (tmp.named _ _) hunused
    ((hframe₁.mono (by simp)).trans hframe)

/-- Copying a file ends with its content in the copy, or in an error; nothing else is
touched. -/
theorem copyFile_cases (d : Disk) {src : Path} {f : File} (hf : d.file src = some f)
    (dst : Path) (perm : UInt32) :
    ∃ d', Frame {dst} d d' ∧ ((copyFile d src dst perm = (.ok (), d') ∧
        d'.content dst = some f.content) ∨ ∃ e, copyFile d src dst perm = (.error e, d')) := by
  rcases d.readFile_cases src with ⟨f', hf', _, hread⟩ | ⟨e, hread, _⟩
  · obtain rfl : f = f' := Option.some.inj (hf.symm.trans hf')
    obtain ⟨d', hframe, ⟨hwrite, hcontent⟩ | hwrite⟩ :=
      d.next.2.writeFile_cases dst f.content perm
    · exact ⟨d', Frame.trans (.of_files d.next_files) hframe,
        Or.inl ⟨by simp [FileCalls.copyFile, hread, hwrite], hcontent⟩⟩
    · exact ⟨d', Frame.trans (.of_files d.next_files) hframe,
        Or.inr ⟨.io, by simp [FileCalls.copyFile, hread, hwrite]⟩⟩
  · exact ⟨d.next.2, .of_files d.next_files, Or.inr ⟨e, by simp [FileCalls.copyFile, hread]⟩⟩

/-- What `writeAtomic` does before it goes to a temp file: it is done, with a result, or it goes
on with the disk it has then. -/
def prepare (d : Disk) (path : Path) (data : Bytes) (perm : UInt32) :
    (Except DiskErr Bool × Disk) ⊕ Disk :=
  match d.readFile path with
  | (.ok existing, d) =>
      if existing = data then .inl (.ok false, d)
      else
        match copyFile d path path.backup perm with
        | (.error e, d) => .inl (.error e, d)
        | (.ok _, d) => .inr d
  | (.error _, d) => .inr d

theorem writeAtomic_eq (tmp : TempNamer) (d : Disk) (path : Path) (data : Bytes) (perm : UInt32) :
    writeAtomic tmp d path data perm =
      (prepare d path data perm).elim id fun d => replaceFile tmp d path data perm := by
  simp only [FileSystem.writeAtomic, prepare]
  rcases d.readFile path with ⟨_ | existing, d₁⟩
  · rfl
  · simp only
    split_ifs
    · rfl
    · rcases hcopy : copyFile d₁ path path.backup perm with ⟨_ | _, d₂⟩
      · simp only [hcopy]
        rfl
      · simp only [hcopy]
        rfl

/-- How the preparation of a write can end. -/
inductive Prepared (path : Path) (data : Bytes) (d : Disk) :
    (Except DiskErr Bool × Disk) ⊕ Disk → Prop
  | same (hsame : d.content path = some data) : Prepared path data d (.inl (.ok false, d.next.2))
  | failed (e : DiskErr) {d' : Disk} (hframe : Frame {path.backup} d d') :
      Prepared path data d (.inl (.error e, d'))
  | copied {f : File} {d' : Disk} (hfile : d.file path = some f) (hpass : d.next.1 = .pass)
      (hne : f.content ≠ data) (hframe : Frame {path.backup} d d')
      (hcopy : d'.content path.backup = some f.content) : Prepared path data d (.inr d')
  | unread (habsent : d.next.1 = .pass → d.file path = none) :
      Prepared path data d (.inr d.next.2)

theorem prepare_spec (d : Disk) (path : Path) (data : Bytes) (perm : UInt32) :
    Prepared path data d (prepare d path data perm) := by
  have hnext : Frame {path.backup} d d.next.2 := .of_files d.next_files
  rcases d.readFile_cases path with ⟨f, hf, hpass, hread⟩ | ⟨e, hread, habsent⟩
  · by_cases hsame : f.content = data
    · simp only [prepare, hread, if_pos hsame]
      exact .same (by simp [Disk.content, hf, hsame])
    · obtain ⟨d₁, hframe, ⟨hcopy, hcontent⟩ | ⟨e, hcopy⟩⟩ :=
        copyFile_cases d.next.2 ((d.file_next path).trans hf) path.backup perm
      · simp only [prepare, hread, if_neg hsame, hcopy]
        exact .copied hf hpass hsame (hnext.trans hframe) hcontent
      · simp only [prepare, hread, if_neg hsame, hcopy]
        exact .failed e (hnext.trans hframe)
  · simp only [prepare, hread]
    exact .unread habsent

/-- Every write ends in one of these ways, when the temp file is not the file itself. -/
theorem writeAtomic_ends (tmp : TempNamer) (d : Disk) {path : Path}
    (hne : tempPath tmp d path ≠ path) (data : Bytes) (perm : UInt32) :
    WriteEnd path data perm d (writeAtomic tmp d path data perm) := by
  have hbackup := path.backup_ne
  have hprepared := prepare_spec d path data perm
  rw [writeAtomic_eq]
  generalize prepare d path data perm = course at hprepared ⊢
  cases hprepared with
  | same hsame => exact .same _ hsame d.next_files
  | failed e hframe =>
      exact .of_error tmp (.of_files rfl) (file_tempPath tmp d path) e (hframe.mono (by simp))
  | @copied f d₁ hfile hpass hother hframe hcopy =>
      have hfile₁ : d₁.file path = some f := (hframe path hbackup.symm).trans hfile
      rcases replaceFile_cases tmp d₁ (tempPath_ne_of_file tmp hfile₁) data perm with
        ⟨d', hreplace, hplaced, hframe'⟩ | ⟨e, d', hreplace, hframe'⟩
      · simp only [Sum.elim_inr, hreplace]
        refine .replaced d' hplaced ?_ ((hframe.mono (by simp)).trans (hframe'.mono (by simp)))
        have hkept : d'.content path.backup = d₁.content path.backup := by
          rw [Disk.content, Disk.content, hframe' _ hbackup]
        rw [hkept, hcopy, if_pos hpass]
        simp [Disk.content, hfile]
      · obtain ⟨copy, hcopied, -⟩ := Option.map_eq_some_iff.mp hcopy
        have htemp : tempPath tmp d₁ path ≠ path.backup := tempPath_ne_of_file tmp hcopied
        simp only [Sum.elim_inr, hreplace]
        refine .of_error tmp hframe ?_ e (hframe'.mono (by simp))
        rw [← hframe _ htemp]
        exact file_tempPath tmp d₁ path
  | unread habsent =>
      have hnext : Frame {path.backup} d d.next.2 := .of_files d.next_files
      have hne' : tempPath tmp d.next.2 path ≠ path := by rwa [tempPath_next]
      rcases replaceFile_cases tmp d.next.2 hne' data perm with
        ⟨d', hreplace, hplaced, hframe'⟩ | ⟨e, d', hreplace, hframe'⟩
      · simp only [Sum.elim_inr, hreplace]
        refine .replaced d' hplaced ?_ ((hnext.mono (by simp)).trans (hframe'.mono (by simp)))
        have hkept : d'.content path.backup = d.content path.backup := by
          rw [Disk.content, Disk.content, hframe' _ hbackup, d.file_next]
        rw [hkept]
        split_ifs with hpass
        · simp [Disk.content, habsent hpass]
        · rfl
      · simp only [Sum.elim_inr, hreplace]
        refine .of_error tmp hnext ?_ e (hframe'.mono (by simp))
        rw [tempPath_next]
        exact file_tempPath tmp d path

section Ended

variable {path : Path} {data : Bytes} {perm : UInt32} {d : Disk} {r : Except DiskErr Bool × Disk}

/-- A write touches nothing but its file, the backup and temp files. -/
theorem WriteEnd.file_of_ne (h : WriteEnd path data perm d r) {q : Path} (hne : q ≠ path)
    (hbackup : q ≠ path.backup) (htemp : ∀ digits, q.name ≠ ascii ".tmp-" ++ digits) :
    r.2.file q = d.file q := by
  cases h with
  | same d' _ hfiles => exact congrArg (AList.lookup q) hfiles
  | replaced d' _ _ hframe => exact hframe q (by simp [hne, hbackup])
  | failed e d' temp _ hnamed _ hframe =>
      refine hframe q ?_
      obtain ⟨digits, hdigits⟩ := hnamed
      have hqt : q ≠ temp := fun heq => htemp digits (heq ▸ hdigits)
      simp [hbackup, hqt]

/-- A write touches no other directory. -/
theorem WriteEnd.file_of_dir (h : WriteEnd path data perm d r) {q : Path}
    (hdir : q.dir ≠ path.dir) : r.2.file q = d.file q := by
  have hne : q ≠ path := fun heq => hdir (heq ▸ rfl)
  have hbackup : q ≠ path.backup := fun heq => hdir (heq ▸ rfl)
  cases h with
  | same d' _ hfiles => exact congrArg (AList.lookup q) hfiles
  | replaced d' _ _ hframe => exact hframe q (by simp [hne, hbackup])
  | failed e d' temp htemp _ _ hframe =>
      have hqt : q ≠ temp := fun heq => hdir (heq ▸ htemp)
      exact hframe q (by simp [hbackup, hqt])

/-- A write that returns without an error has its data in place. -/
theorem WriteEnd.content {changed : Bool} {d' : Disk}
    (h : WriteEnd path data perm d (.ok changed, d')) : d'.content path = some data := by
  cases h with
  | same _ hsame hfiles =>
      rw [← hsame]
      exact congrArg (Option.map File.content) (congrArg (AList.lookup path) hfiles)
  | replaced _ hfile _ _ => simp [Disk.content, hfile]

end Ended

end Lbsync.Files
