import Lbsync.Files.Disk

/-!
# The calls to a file system

The code is written over any file system, so that it runs on a `Disk` and also on one that
knows directories.
-/

namespace Lbsync.Files

/-- The calls the code makes on files it knows the name of. -/
structure FileCalls (σ : Type*) where
  mkdirAll : GoString → σ → Except DiskErr Unit × σ
  readFile : Path → σ → Except DiskErr Bytes × σ
  writeFile : Path → Bytes → UInt32 → σ → Except DiskErr Unit × σ
  write : Path → Bytes → σ → Except DiskErr Unit × σ
  chmod : Path → UInt32 → σ → Except DiskErr Unit × σ
  close : σ → Except DiskErr Unit × σ
  rename : Path → Path → σ → Except DiskErr Unit × σ
  remove : Path → σ → Except DiskErr Unit × σ
  readDir : GoString → σ → Except DiskErr (List GoString) × σ

/-- Besides, temp files get a name that is not in use. -/
structure FileSystem (σ : Type*) extends FileCalls σ where
  createTemp : GoString → σ → Except DiskErr Path × σ

/-- The calls on a disk. -/
@[reducible] def Disk.calls : FileCalls Disk where
  mkdirAll _ d := d.mkdirAll
  readFile path d := d.readFile path
  writeFile path data perm d := d.writeFile path data perm
  write path data d := d.write path data
  chmod path perm d := d.chmod path perm
  close d := d.close
  rename old new d := d.rename old new
  remove path d := d.remove path
  readDir dir d := d.readDir dir

/-- A disk as a file system. -/
@[reducible] def Disk.fileSystem (tmp : TempNamer) : FileSystem Disk where
  toFileCalls := Disk.calls
  createTemp dir d := d.createTemp tmp dir

end Lbsync.Files
