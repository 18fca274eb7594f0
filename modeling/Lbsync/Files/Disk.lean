import Lbsync.GoString
import Mathlib.Data.List.AList
import Mathlib.Data.List.Sort

/-!
# A disk

Files are found by directory and name. Directories are there when they are
needed and hold files only, and symbolic links do not occur. Every call may fail,
also in the middle of a write, and the process may stop in it; the coming failures
are part of the state. Once the process has stopped no call has an effect.
-/

namespace Lbsync.Files

/-- Where a file is. -/
structure Path where
  dir : GoString
  name : GoString
  deriving DecidableEq, Repr

/-- A file, with the permission bits of `os.FileMode`. -/
structure File where
  content : Bytes
  mode : UInt32
  deriving DecidableEq, Repr

/-- The files by path. -/
abbrev FileMap := AList (fun _ : Path => File)

/-- How a call goes. A write that fails or is cut off may have written some bytes. -/
inductive Fault where
  | pass
  | fail (written : Option Nat)
  | stop (written : Option Nat)
  deriving DecidableEq, Repr

/-- What the code distinguishes about an error. -/
inductive DiskErr where
  | notExist | io
  deriving DecidableEq, Repr

/-- The files, the umask, how the coming calls go, and whether the process has
stopped. -/
structure Disk where
  files : FileMap
  umask : UInt32
  faults : List Fault
  stopped : Bool

/-- The choice of `os.CreateTemp` for the pattern `.tmp-*`: a name that is not in use. -/
structure TempNamer where
  pick : FileMap → GoString → GoString
  unused : ∀ (files : FileMap) (dir : GoString), files.lookup ⟨dir, pick files dir⟩ = none
  named : ∀ files dir, ∃ digits, pick files dir = ascii ".tmp-" ++ digits

/-- The choice is never the name of the file at the path, also when there is none. -/
def TempNamer.Avoids (tmp : TempNamer) (path : Path) : Prop :=
  ∀ files, tmp.pick files path.dir ≠ path.name

/-- A name of another shape is never chosen. -/
theorem TempNamer.avoids_of_not_temp (tmp : TempNamer) {path : Path}
    (h : ∀ digits, path.name ≠ ascii ".tmp-" ++ digits) : tmp.Avoids path := by
  intro files heq
  obtain ⟨digits, hdigits⟩ := tmp.named files path.dir
  exact h digits (heq.symm.trans hdigits)

/-- A choice that is longer than every name in use. -/
def TempNamer.longer : TempNamer where
  pick files _ := ascii ".tmp-" ++ List.replicate (files.keys.map Path.name).flatten.length 48
  unused files dir := by
    rw [AList.lookup_eq_none, AList.mem_keys]
    intro hmem
    have hle := (List.sublist_flatten_of_mem (List.mem_map_of_mem (f := Path.name) hmem)).length_le
    simp only [List.length_append, List.length_replicate] at hle
    have hpos : (ascii ".tmp-").length = 5 := rfl
    omega
  named _ _ := ⟨_, rfl⟩

namespace Disk

variable {α : Type*}

/-- The file at a path. -/
def file (d : Disk) (path : Path) : Option File := d.files.lookup path

/-- The content at a path. -/
def content (d : Disk) (path : Path) : Option Bytes := (d.file path).map File.content

/-- Put a file at a path. -/
def set (d : Disk) (path : Path) (f : File) : Disk := { d with files := d.files.insert path f }

/-- Take the file at a path away. -/
def erase (d : Disk) (path : Path) : Disk := { d with files := d.files.erase path }

/-- How the next call goes. -/
def next (d : Disk) : Fault × Disk :=
  if d.stopped then (.stop none, d)
  else
    match d.faults with
    | [] => (.pass, d)
    | .pass :: rest => (.pass, { d with faults := rest })
    | .fail w :: rest => (.fail w, { d with faults := rest })
    | .stop w :: rest => (.stop w, { d with faults := rest, stopped := true })

/-- Make a call that does `effect` when it passes and leaves `torn k` behind when it
is cut off after `k` bytes. -/
def call (d : Disk) (effect : Disk → Except DiskErr α × Disk) (torn : Nat → Disk → Disk) :
    Except DiskErr α × Disk :=
  match d.next with
  | (.pass, d) => effect d
  | (.fail w, d) => (.error .io, (w.map fun k => torn k d).getD d)
  | (.stop w, d) => (.error .io, (w.map fun k => torn k d).getD d)

/-- A call that writes no data. -/
def simpleCall (d : Disk) (effect : Disk → Except DiskErr α × Disk) : Except DiskErr α × Disk :=
  d.call effect fun _ d => d

/-- `os.ReadFile`. -/
def readFile (d : Disk) (path : Path) : Except DiskErr Bytes × Disk :=
  d.simpleCall fun d =>
    match d.file path with
    | some f => (.ok f.content, d)
    | none => (.error .notExist, d)

/-- What `os.WriteFile` leaves: the mode applies to a new file only. -/
def overwrite (d : Disk) (path : Path) (data : Bytes) (perm : UInt32) : Disk :=
  match d.file path with
  | some f => d.set path { f with content := data }
  | none => d.set path ⟨data, perm &&& ~~~d.umask⟩

/-- `os.WriteFile`. -/
def writeFile (d : Disk) (path : Path) (data : Bytes) (perm : UInt32) :
    Except DiskErr Unit × Disk :=
  d.call (fun d => (.ok (), d.overwrite path data perm))
    fun k d => d.overwrite path (data.take k) perm

/-- `os.CreateTemp` in a directory. -/
def createTemp (tmp : TempNamer) (d : Disk) (dir : GoString) : Except DiskErr Path × Disk :=
  d.simpleCall fun d =>
    let path : Path := ⟨dir, tmp.pick d.files dir⟩
    (.ok path, d.set path ⟨[], 0o600 &&& ~~~d.umask⟩)

/-- Change a file that is there. -/
def modify (d : Disk) (path : Path) (g : File → File) : Disk :=
  match d.file path with
  | some f => d.set path (g f)
  | none => d

/-- `Write` on the open temp file. -/
def write (d : Disk) (path : Path) (data : Bytes) : Except DiskErr Unit × Disk :=
  d.call (fun d => (.ok (), d.modify path fun f => { f with content := data }))
    fun k d => d.modify path fun f => { f with content := data.take k }

/-- `Chmod` on the open temp file. -/
def chmod (d : Disk) (path : Path) (perm : UInt32) : Except DiskErr Unit × Disk :=
  d.simpleCall fun d => (.ok (), d.modify path fun f => { f with mode := perm })

/-- `Close`. -/
def close (d : Disk) : Except DiskErr Unit × Disk := d.simpleCall fun d => (.ok (), d)

/-- A name that leads to a directory: to the one it is in, or to the one above. -/
def IsDots (name : GoString) : Prop := name = [] ∨ name = ascii "." ∨ name = ascii ".."

instance (name : GoString) : Decidable (IsDots name) := inferInstanceAs (Decidable (_ ∨ _ ∨ _))

/-- `os.Rename`. A file does not replace a directory. -/
def rename (d : Disk) (old new : Path) : Except DiskErr Unit × Disk :=
  d.simpleCall fun d =>
    match d.file old with
    | none => (.error .notExist, d)
    | some f => if IsDots new.name then (.error .io, d) else (.ok (), (d.erase old).set new f)

/-- `os.Remove`. -/
def remove (d : Disk) (path : Path) : Except DiskErr Unit × Disk :=
  d.simpleCall fun d =>
    match d.file path with
    | none => (.error .notExist, d)
    | some _ => (.ok (), d.erase path)

/-- `os.Stat`. -/
def stat (d : Disk) (path : Path) : Except DiskErr Unit × Disk :=
  d.simpleCall fun d =>
    match d.file path with
    | none => (.error .notExist, d)
    | some _ => (.ok (), d)

/-- The names in a directory, sorted. -/
def names (d : Disk) (dir : GoString) : List GoString :=
  ((d.files.keys.filter fun path => path.dir = dir).map Path.name).insertionSort (· ≤ ·)

/-- `os.ReadDir`. -/
def readDir (d : Disk) (dir : GoString) : Except DiskErr (List GoString) × Disk :=
  d.simpleCall fun d => (.ok (d.names dir), d)

/-- `os.MkdirAll`. -/
def mkdirAll (d : Disk) : Except DiskErr Unit × Disk := d.simpleCall fun d => (.ok (), d)

@[simp] theorem file_set_self (d : Disk) (path : Path) (f : File) :
    (d.set path f).file path = some f := by
  simp [file, set]

@[simp] theorem file_set_of_ne (d : Disk) {path q : Path} (f : File) (h : q ≠ path) :
    (d.set path f).file q = d.file q := by
  simp [file, set, AList.lookup_insert_ne h]

@[simp] theorem file_erase_self (d : Disk) (path : Path) : (d.erase path).file path = none := by
  simp [file, erase]

@[simp] theorem file_erase_of_ne (d : Disk) {path q : Path} (h : q ≠ path) :
    (d.erase path).file q = d.file q := by
  simp [file, erase, AList.lookup_erase_ne h]

/-- The names of a directory are those of its files, each once and in order. -/
theorem mem_names {d : Disk} {dir name : GoString} :
    name ∈ d.names dir ↔ d.file ⟨dir, name⟩ ≠ none := by
  unfold names file
  rw [List.mem_insertionSort, List.mem_map, ← Option.isSome_iff_ne_none, AList.lookup_isSome,
    AList.mem_keys]
  constructor
  · rintro ⟨⟨dir', name'⟩, hmem, rfl⟩
    obtain ⟨hkey, hdir⟩ := List.mem_filter.mp hmem
    obtain rfl : dir' = dir := by simpa using hdir
    exact hkey
  · intro hkey
    exact ⟨⟨dir, name⟩, List.mem_filter.mpr ⟨hkey, by simp⟩, rfl⟩

theorem names_pairwise (d : Disk) (dir : GoString) : (d.names dir).Pairwise (· < ·) := by
  have hsorted : (d.names dir).Pairwise (· ≤ ·) := List.pairwise_insertionSort _ _
  have hnodup : (d.names dir).Nodup := by
    unfold names
    rw [(List.perm_insertionSort _ _).nodup_iff]
    refine List.Nodup.map_on ?_ (d.files.keys_nodup.filter _)
    rintro ⟨dir₁, name₁⟩ h₁ ⟨dir₂, name₂⟩ h₂ rfl
    have hd₁ : dir₁ = dir := by simpa using (List.mem_filter.mp h₁).2
    have hd₂ : dir₂ = dir := by simpa using (List.mem_filter.mp h₂).2
    rw [hd₁, hd₂]
  exact hsorted.imp₂ (fun _ _ hle hne => lt_of_le_of_ne hle hne) hnodup

/-- No call fails and the process runs. -/
def Healthy (d : Disk) : Prop := d.faults = [] ∧ d.stopped = false

instance decidableHealthy (d : Disk) : Decidable d.Healthy :=
  inferInstanceAs (Decidable (_ ∧ _))

theorem call_healthy {d : Disk} (h : d.Healthy) (effect : Disk → Except DiskErr α × Disk)
    (torn : Nat → Disk → Disk) : d.call effect torn = effect d := by
  obtain ⟨hfaults, hstopped⟩ := h
  simp [call, next, hfaults, hstopped]

end Disk

end Lbsync.Files
