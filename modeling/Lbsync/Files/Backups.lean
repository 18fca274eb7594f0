import Lbsync.Files.Fates
import Lbsync.Lib.Backup

/-!
# Files with their backups

A file and its backup are a place with one backup. While nothing fails,
`writeAtomic` is a write to that place, and `restoreDir` restores every place of
a directory whose only backups are those of plain names.
-/

namespace Lbsync.Files

open Backup

/-- A file and its backup. -/
def Disk.slot (d : Disk) (path : Path) : Slot Bytes := ⟨d.content path, d.content path.backup⟩

/-- A name of a file that is neither that of a backup nor that of a temp file. -/
structure Plain (name : GoString) : Prop where
  proper : ¬ Disk.IsDots name
  not_backup : trimBackup name = none
  not_temp : ∀ digits, name ≠ ascii ".tmp-" ++ digits

theorem Plain.ne_backup {name : GoString} (h : Plain name) (orig : GoString) :
    name ≠ orig ++ backupSuffix := by
  rintro rfl
  have := h.not_backup
  rw [trimBackup_eq_some.mpr rfl] at this
  cases this

/-- The backups of a directory belong to the names of a list. -/
def BackupsAmong (names : List GoString) (dir : GoString) (d : Disk) : Prop :=
  ∀ name, d.file ⟨dir, name ++ backupSuffix⟩ ≠ none → name ∈ names

/-- What work inside one directory keeps while nothing fails. -/
structure KeptOutside (names : List GoString) (dir : GoString) (d d' : Disk) : Prop where
  healthy : d'.Healthy
  backups : BackupsAmong names dir d'
  other : ∀ q, q.dir ≠ dir → d'.file q = d.file q

/-- Files of another directory look the same. -/
theorem KeptOutside.slot {names : List GoString} {dir : GoString} {d d' : Disk}
    (h : KeptOutside names dir d d') {path : Path} (hdir : path.dir ≠ dir) :
    d'.slot path = d.slot path := by
  have hbackup : d'.file path.backup = d.file path.backup := h.other path.backup hdir
  simp only [Disk.slot, Disk.content, h.other path hdir, hbackup]

section Healthy

variable {d : Disk}

theorem Disk.Healthy.running (h : d.Healthy) : d.Running := ⟨h.2, by simp [h.1]⟩

/-- A write is a write to the file and its backup and leaves the other files alone. -/
theorem writeAtomic_slot (tmp : TempNamer) (h : d.Healthy) (path : Path)
    (hname : ¬ Disk.IsDots path.name) (havoid : tmp.Avoids path) (data : Bytes) (perm : UInt32) :
    ∃ d', writeAtomic tmp d path data perm = (.ok (decide (d.content path ≠ some data)), d') ∧
      d'.Healthy ∧ d'.slot path = (d.slot path).write data ∧
      ∀ q ≠ path, q ≠ path.backup → d'.file q = d.file q := by
  obtain ⟨hleaves, hfaults, hrunning⟩ :=
    writeAtomic_fate tmp h.running hname havoid data perm
  rcases hrun : writeAtomic tmp d path data perm with ⟨result, d'⟩
  rw [h.1, writeFate_nil, hrun] at hleaves hfaults
  rw [hrun] at hrunning
  have hhealthy : d'.Healthy := ⟨hfaults, hrunning.1⟩
  have hother (hframe : Frame {path, path.backup} d d') :
      ∀ q ≠ path, q ≠ path.backup → d'.file q = d.file q :=
    fun q hq hqb => hframe q (by simp [hq, hqb])
  by_cases hsame : d.content path = some data
  · simp only [if_pos hsame] at hleaves
    obtain ⟨rfl, -, hfiles⟩ := hleaves
    have hfile (q : Path) : d'.file q = d.file q := congrArg (AList.lookup q) hfiles
    refine ⟨d', by simp [hsame], hhealthy, ?_, fun q _ _ => hfile q⟩
    have hslot : d'.slot path = d.slot path := by simp only [Disk.slot, Disk.content, hfile]
    rw [hslot, Slot.write, if_pos (show (d.slot path).current = some data from hsame)]
  · rw [Slot.write_of_ne hsame]
    simp only [if_neg hsame] at hleaves
    have hwritten (hfile : d'.file path = some ⟨data, perm⟩) : d'.content path = some data := by
      simp [Disk.content, hfile]
    by_cases hold : d.content path = none
    · simp only [if_pos hold] at hleaves
      obtain ⟨rfl, hfile, hbackup, hframe⟩ := hleaves
      refine ⟨d', by simp [hsame], hhealthy, Slot.ext (hwritten hfile) ?_, hother hframe⟩
      change d'.content path.backup = (d.content path).or (d.content path.backup)
      rw [hold, Option.none_or]
      exact hbackup
    · simp only [if_neg hold] at hleaves
      obtain ⟨rfl, hfile, hpresent, hbackup, hframe⟩ := hleaves
      refine ⟨d', by simp [hsame], hhealthy, Slot.ext (hwritten hfile) ?_, hother hframe⟩
      change d'.content path.backup = (d.content path).or (d.content path.backup)
      rw [Option.or_of_isSome (Option.isSome_iff_ne_none.mpr hpresent)]
      exact hbackup

/-- Restoring a file moves its backup back and leaves the other files alone. -/
theorem restore_slot (h : d.Healthy) (path : Path) (hname : ¬ Disk.IsDots path.name) :
    ∃ d', restore d path = (.ok (), d') ∧ d'.Healthy ∧
      d'.slot path = (d.slot path).restore ∧
      ∀ q ≠ path, q ≠ path.backup → d'.file q = d.file q := by
  cases hback : d.file path.backup with
  | none =>
      have hstat : d.stat path.backup = (.error .notExist, d) := by
        rw [Disk.stat, Disk.simpleCall, Disk.call_healthy h, hback]
      refine ⟨d, by simp [restore, hstat], h, ?_, fun _ _ _ => rfl⟩
      rw [Slot.restore_of_none (by simp [Disk.slot, Disk.content, hback])]
  | some f =>
      have hne := path.backup_ne
      have hstat : d.stat path.backup = (.ok (), d) := by
        rw [Disk.stat, Disk.simpleCall, Disk.call_healthy h, hback]
      refine ⟨(d.erase path.backup).set path f, ?_, h, ?_, fun q hq hqb => by simp [hq, hqb]⟩
      · simp only [restore, hstat]
        exact rename_healthy h hback hname
      · rw [Slot.restore_of_some (b := f.content) (by simp [Disk.slot, Disk.content, hback])]
        simp [Disk.slot, Disk.content, hne]

/-- Two files that have neither their names nor their backups in common. -/
structure Apart (path q : Path) : Prop where
  ne : q ≠ path
  ne_backup : q ≠ path.backup
  backup_ne : q.backup ≠ path

/-- What is done to one file and its backup leaves a file apart from it alone. -/
theorem Apart.slot {path q : Path} (h : Apart path q) {d' : Disk}
    (hother : ∀ q ≠ path, q ≠ path.backup → d'.file q = d.file q) :
    d'.slot q = d.slot q := by
  have hbackup : q.backup ≠ path.backup := fun heq => h.ne (Path.backup_injective heq)
  simp only [Disk.slot, Disk.content, hother q h.ne h.ne_backup,
    hother q.backup h.backup_ne hbackup]

/-- Restoring a directory restores each of its places. -/
theorem restoreDir_slots (h : d.Healthy) {names : List GoString} {dir : GoString}
    (hplain : ∀ n ∈ names, Plain n) (hb : BackupsAmong names dir d) :
    ∃ d', restoreDir d dir = (.ok (), d') ∧ KeptOutside names dir d d' ∧
      ∀ n ∈ names, d'.slot ⟨dir, n⟩ = (d.slot ⟨dir, n⟩).restore := by
  have habsent : ∀ orig, ¬ Plain orig → d.file ⟨dir, orig ++ backupSuffix⟩ = none := by
    intro orig hnot
    by_contra hfile
    exact hnot (hplain orig (hb orig hfile))
  have hdouble (orig : GoString) :
      d.file ⟨dir, orig ++ backupSuffix ++ backupSuffix⟩ = none :=
    habsent _ fun hp => hp.ne_backup orig rfl
  obtain ⟨d', hrun, hhealthy, hother, hfiles⟩ :=
    restoreDir_healthy h dir fun orig hdots => habsent orig fun hp => hp.proper hdots
  have hgone (orig : GoString) : d'.file ⟨dir, orig ++ backupSuffix⟩ = none := by
    rw [hfiles, hdouble, trimBackup_eq_some.mpr rfl]
    simp
  refine ⟨d', hrun, ⟨hhealthy, fun n hn => absurd (hgone n) hn, hother⟩, fun n hn => ?_⟩
  have hfile := hfiles n
  rw [(hplain n hn).not_backup] at hfile
  cases hback : d.file ⟨dir, n ++ backupSuffix⟩ with
  | none =>
      rw [Slot.restore_of_none (by simp [Disk.slot, Disk.content, Path.backup, hback])]
      simp only [Disk.slot, Disk.content, Path.backup, hgone, hfile, hback]
      simp
  | some f =>
      rw [Slot.restore_of_some (b := f.content)
        (by simp [Disk.slot, Disk.content, Path.backup, hback])]
      simp only [Disk.slot, Disk.content, Path.backup, hgone, hfile, hback]
      simp

end Healthy

end Lbsync.Files
