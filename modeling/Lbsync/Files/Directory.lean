import Lbsync.Files.AtomicFile
import Lbsync.Files.Filepath

/-!
# Work in one directory

Replacing a file and restoring backups only ever works in one directory: what all calls
there keep, the code keeps.
-/

namespace Lbsync.Files

variable {σ : Type*}

/-- A relation that all calls in one directory keep. Names of files there are proper
components; only a rename may also be asked to go to a directory. -/
structure KeptIn (fs : FileSystem σ) (kept : σ → σ → Prop) (dir : GoString) : Prop where
  refl : ∀ s, kept s s
  trans : ∀ {s₁ s₂ s₃}, kept s₁ s₂ → kept s₂ s₃ → kept s₁ s₃
  mkdirAll : ∀ s, kept s (fs.mkdirAll dir s).2
  readFile : ∀ path s, kept s (fs.readFile path s).2
  writeFile : ∀ {name}, IsComponent name → ∀ data perm s,
    kept s (fs.writeFile ⟨dir, name⟩ data perm s).2
  createTemp : ∀ s, kept s (fs.createTemp dir s).2
  temp : ∀ {s path s'}, fs.createTemp dir s = (.ok path, s') →
    path.dir = dir ∧ IsComponent path.name
  write : ∀ {name}, IsComponent name → ∀ data s, kept s (fs.write ⟨dir, name⟩ data s).2
  chmod : ∀ {name}, IsComponent name → ∀ perm s, kept s (fs.chmod ⟨dir, name⟩ perm s).2
  close : ∀ s, kept s (fs.close s).2
  rename : ∀ {old new}, IsComponent old → IsComponent new ∨ Disk.IsDots new → ∀ s,
    kept s (fs.rename ⟨dir, old⟩ ⟨dir, new⟩ s).2
  remove : ∀ {name}, IsComponent name → ∀ s, kept s (fs.remove ⟨dir, name⟩ s).2
  readDir : ∀ s, kept s (fs.readDir dir s).2
  entries : ∀ {s names s'}, fs.readDir dir s = (.ok names, s') → ∀ name ∈ names, IsComponent name

theorem isComponent_backup {name : GoString} (h : IsComponent name) :
    IsComponent (name ++ backupSuffix) := by
  obtain ⟨hslash, hnil, _, _⟩ := h
  refine ⟨?_, by simp [hnil], fun heq => ?_, fun heq => ?_⟩
  · rw [List.mem_append, not_or]
    exact ⟨hslash, by decide⟩
  · exact absurd (congrArg List.length heq) (by simp [backupSuffix, ascii])
  · exact absurd (congrArg List.length heq) (by simp [backupSuffix, ascii])

theorem isComponent_or_isDots {name : GoString} (h : IsComponent (name ++ backupSuffix)) :
    IsComponent name ∨ Disk.IsDots name := by
  by_cases hdots : Disk.IsDots name
  · exact Or.inr hdots
  · obtain ⟨hnil, hdot, hup⟩ : name ≠ [] ∧ name ≠ ascii "." ∧ name ≠ ascii ".." := by
      simpa [Disk.IsDots] using hdots
    exact Or.inl ⟨fun hslash => h.1 (List.mem_append_left _ hslash), hnil, hdot, hup⟩

namespace KeptIn

variable {fs : FileSystem σ} {kept : σ → σ → Prop} {dir : GoString} (h : KeptIn fs kept dir)

include h

theorem copyFile (src : GoString) {dst : GoString} (hdst : IsComponent dst) (perm : UInt32)
    (s : σ) :
    kept s (fs.copyFile ⟨dir, src⟩ ⟨dir, dst⟩ perm s).2 := by
  unfold FileCalls.copyFile
  have hread := h.readFile ⟨dir, src⟩ s
  generalize fs.readFile ⟨dir, src⟩ s = out at hread ⊢
  obtain ⟨_ | data, s₁⟩ := out
  · exact hread
  · exact h.trans hread (h.writeFile hdst data perm s₁)

theorem fillTemp {temp name : GoString} (htemp : IsComponent temp) (hname : IsComponent name)
    (data : Bytes) (perm : UInt32) (s : σ) :
    kept s (fs.fillTemp ⟨dir, temp⟩ ⟨dir, name⟩ data perm s).2 :=
  FileCalls.fillTemp_keeps (P := kept s) (fun s₁ hs => h.trans hs (h.write htemp data s₁))
    (fun s₁ hs => h.trans hs (h.chmod htemp perm s₁)) (fun s₁ hs => h.trans hs (h.close s₁))
    (fun s₁ hs => h.trans hs (h.rename htemp (Or.inl hname) s₁)) (h.refl s)

/-- What is left to do once the temp file is there. -/
theorem after_createTemp {name : GoString} (hname : IsComponent name) (data : Bytes)
    (perm : UInt32) {s s₁ : σ} {temp : Path} (hrun : fs.createTemp dir s = (.ok temp, s₁)) :
    kept s₁ (fs.replaceFile ⟨dir, name⟩ data perm s).2 := by
  obtain ⟨hdir, htemp⟩ := h.temp hrun
  obtain ⟨tempDir, tempName⟩ := temp
  subst hdir
  simp only [FileSystem.replaceFile, hrun]
  exact h.trans (h.fillTemp htemp hname data perm s₁) (h.remove htemp _)

theorem replaceFile {name : GoString} (hname : IsComponent name) (data : Bytes) (perm : UInt32)
    (s : σ) : kept s (fs.replaceFile ⟨dir, name⟩ data perm s).2 := by
  have hcreate := h.createTemp s
  rcases hrun : fs.createTemp dir s with ⟨_ | temp, s₁⟩
  · rw [hrun] at hcreate
    simpa only [FileSystem.replaceFile, hrun] using hcreate
  · rw [hrun] at hcreate
    exact h.trans hcreate (h.after_createTemp hname data perm hrun)

theorem writeAtomic {name : GoString} (hname : IsComponent name) (data : Bytes) (perm : UInt32)
    (s : σ) : kept s (fs.writeAtomic ⟨dir, name⟩ data perm s).2 :=
  FileSystem.writeAtomic_keeps (P := kept s) (fun s₁ hs => h.trans hs (h.readFile _ s₁))
    (fun s₁ hs => h.trans hs (h.copyFile name (isComponent_backup hname) perm s₁))
    (fun s₁ hs => h.trans hs (h.replaceFile hname data perm s₁)) (h.refl s)

theorem restoreDir (s : σ) : kept s (fs.restoreDir dir s).2 := by
  refine FileCalls.restoreDir_keeps (P := kept s) (h.readDir s)
    fun names s₁ hrun orig hmem s₂ hs => h.trans hs ?_
  have hname := h.entries hrun _ hmem
  exact h.rename hname (isComponent_or_isDots hname) s₂

end KeptIn

end Lbsync.Files
