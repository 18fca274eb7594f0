import Lbsync.Files.FileSystem

/-!
# Atomic replacement with a backup

`writeAtomic` replaces a file by writing a temp file and renaming it, after
copying the old content to the backup. `restoreDir` moves every backup in a
directory over its original, whether or not the last write made it. The code runs on
any file system; its results here and below are about a `Disk`.
-/

namespace Lbsync.Files

/-- What is appended to a name for the backup. -/
def backupSuffix : GoString := ascii ".bak"

/-- Where the backup of a file is. -/
def Path.backup (path : Path) : Path := { path with name := path.name ++ backupSuffix }

/-- The name a backup belongs to. -/
def trimBackup (name : GoString) : Option GoString :=
  let kept := name.length - backupSuffix.length
  if name.drop kept = backupSuffix then some (name.take kept) else none

theorem trimBackup_eq_some {name orig : GoString} :
    trimBackup name = some orig ↔ name = orig ++ backupSuffix := by
  unfold trimBackup
  constructor
  · intro h
    simp only at h
    split_ifs at h with hdrop
    · rw [← Option.some.inj h]
      conv_lhs => rw [← List.take_append_drop (name.length - backupSuffix.length) name, hdrop]
  · rintro rfl
    simp

theorem lt_backup (name : GoString) : name < name ++ backupSuffix := by
  induction name with
  | nil => decide
  | cons b name ih => exact List.cons_lt_cons_self.mpr ih

theorem Path.backup_ne (path : Path) : path.backup ≠ path := by
  intro h
  exact (lt_backup path.name).ne' (congrArg Path.name h)

theorem Path.backup_injective : Function.Injective Path.backup := by
  rintro ⟨dir, name⟩ ⟨dir', name'⟩ h
  obtain ⟨hdir, hname⟩ : dir = dir' ∧ name ++ backupSuffix = name' ++ backupSuffix := by
    simpa [Path.backup] using h
  rw [hdir, List.append_cancel_right hname]

section Code

variable {σ : Type*}

namespace FileCalls

variable (fs : FileCalls σ)

/-- Copy a file. -/
def copyFile (src dst : Path) (perm : UInt32) (s : σ) : Except DiskErr Unit × σ :=
  match fs.readFile src s with
  | (.error e, s) => (.error e, s)
  | (.ok data, s) => fs.writeFile dst data perm s

/-- Fill the temp file and rename it to its place. -/
def fillTemp (temp path : Path) (data : Bytes) (perm : UInt32) (s : σ) :
    Except DiskErr Bool × σ :=
  match fs.write temp data s with
  | (.error e, s) => (.error e, (fs.close s).2)
  | (.ok _, s) =>
      match fs.chmod temp perm s with
      | (.error e, s) => (.error e, (fs.close s).2)
      | (.ok _, s) =>
          match fs.close s with
          | (.error e, s) => (.error e, s)
          | (.ok _, s) =>
              match fs.rename temp path s with
              | (.error e, s) => (.error e, s)
              | (.ok _, s) => (.ok true, s)

/-- Restore the backups among the names, in order. -/
def restoreNames (dir : GoString) : List GoString → σ → Except DiskErr Unit × σ
  | [], s => (.ok (), s)
  | name :: rest, s =>
      match trimBackup name with
      | none => restoreNames dir rest s
      | some orig =>
          match fs.rename ⟨dir, name⟩ ⟨dir, orig⟩ s with
          | (.error e, s) => (.error e, s)
          | (.ok _, s) => restoreNames dir rest s

/-- Restore every backup of a directory. -/
def restoreDir (dir : GoString) (s : σ) : Except DiskErr Unit × σ :=
  match fs.readDir dir s with
  | (.error .notExist, s) => (.ok (), s)
  | (.error e, s) => (.error e, s)
  | (.ok names, s) => fs.restoreNames dir names s

end FileCalls

namespace FileSystem

variable (fs : FileSystem σ)

/-- The part of `WriteAtomic` that goes through the temp file. The temp file is
removed at the end, which fails when it has been renamed. -/
def replaceFile (path : Path) (data : Bytes) (perm : UInt32) (s : σ) : Except DiskErr Bool × σ :=
  match fs.createTemp path.dir s with
  | (.error e, s) => (.error e, s)
  | (.ok temp, s) =>
      let filled := fs.fillTemp temp path data perm s
      (filled.1, (fs.remove temp filled.2).2)

/-- Replace a file unless it has the content already. Reports whether it did. -/
def writeAtomic (path : Path) (data : Bytes) (perm : UInt32) (s : σ) : Except DiskErr Bool × σ :=
  match fs.readFile path s with
  | (.ok existing, s) =>
      if existing = data then (.ok false, s)
      else
        match fs.copyFile path path.backup perm s with
        | (.error e, s) => (.error e, s)
        | (.ok _, s) => fs.replaceFile path data perm s
  | (.error _, s) => fs.replaceFile path data perm s

end FileSystem

section Keeps

variable {P : σ → Prop} {path : Path} {data : Bytes} {perm : UInt32} {s : σ}

/-- What the four calls keep, filling the temp file keeps. -/
theorem FileCalls.fillTemp_keeps {fs : FileCalls σ} {temp : Path}
    (hwrite : ∀ s, P s → P (fs.write temp data s).2)
    (hchmod : ∀ s, P s → P (fs.chmod temp perm s).2) (hclose : ∀ s, P s → P (fs.close s).2)
    (hrename : ∀ s, P s → P (fs.rename temp path s).2) (h : P s) :
    P (fs.fillTemp temp path data perm s).2 := by
  have hwritten := hwrite s h
  unfold fillTemp
  generalize fs.write temp data s = out at hwritten ⊢
  obtain ⟨_ | _, s₁⟩ := out
  · exact hclose s₁ hwritten
  have hset := hchmod s₁ hwritten
  simp only
  generalize fs.chmod temp perm s₁ = out at hset ⊢
  obtain ⟨_ | _, s₂⟩ := out
  · exact hclose s₂ hset
  have hclosed := hclose s₂ hset
  simp only
  generalize fs.close s₂ = out at hclosed ⊢
  obtain ⟨_ | _, s₃⟩ := out
  · exact hclosed
  have hrenamed := hrename s₃ hclosed
  simp only
  generalize fs.rename temp path s₃ = out at hrenamed ⊢
  obtain ⟨_ | _, s₄⟩ := out
  · exact hrenamed
  · exact hrenamed

/-- What the read, the backup and the replacement keep, a write keeps. -/
theorem FileSystem.writeAtomic_keeps {fs : FileSystem σ}
    (hread : ∀ s, P s → P (fs.readFile path s).2)
    (hcopy : ∀ s, P s → P (fs.copyFile path path.backup perm s).2)
    (hreplace : ∀ s, P s → P (fs.replaceFile path data perm s).2) (h : P s) :
    P (fs.writeAtomic path data perm s).2 := by
  have hknown := hread s h
  unfold writeAtomic
  generalize fs.readFile path s = out at hknown ⊢
  obtain ⟨_ | existing, s₁⟩ := out
  · exact hreplace s₁ hknown
  simp only
  split_ifs with hsame
  · exact hknown
  have hcopied := hcopy s₁ hknown
  generalize fs.copyFile path path.backup perm s₁ = out at hcopied ⊢
  obtain ⟨_ | _, s₂⟩ := out
  · exact hcopied
  · exact hreplace s₂ hcopied

/-- What the rename of a backup to its original keeps, restoring names keeps. -/
theorem FileCalls.restoreNames_keeps {fs : FileCalls σ} {dir : GoString} {names : List GoString}
    (hrename : ∀ orig, orig ++ backupSuffix ∈ names → ∀ s, P s →
      P (fs.rename (Path.backup ⟨dir, orig⟩) ⟨dir, orig⟩ s).2) (h : P s) :
    P (fs.restoreNames dir names s).2 := by
  induction names generalizing s with
  | nil => exact h
  | cons name rest ih =>
      have hrest := fun s => ih (s := s) fun orig hmem => hrename orig (List.mem_cons_of_mem _ hmem)
      unfold restoreNames
      cases htrim : trimBackup name with
      | none => exact hrest s h
      | some orig =>
          obtain rfl := trimBackup_eq_some.mp htrim
          have hrenamed := hrename orig List.mem_cons_self s h
          simp only [Path.backup] at hrenamed ⊢
          generalize fs.rename ⟨dir, orig ++ backupSuffix⟩ ⟨dir, orig⟩ s = out at hrenamed ⊢
          obtain ⟨_ | _, s₁⟩ := out
          · exact hrenamed
          · exact hrest s₁ hrenamed

/-- So does restoring a directory, if reading it keeps it. -/
theorem FileCalls.restoreDir_keeps {fs : FileCalls σ} {dir : GoString}
    (hread : P (fs.readDir dir s).2)
    (hrename : ∀ names s₁, fs.readDir dir s = (.ok names, s₁) →
      ∀ orig, orig ++ backupSuffix ∈ names → ∀ s, P s →
        P (fs.rename (Path.backup ⟨dir, orig⟩) ⟨dir, orig⟩ s).2) :
    P (fs.restoreDir dir s).2 := by
  unfold restoreDir
  rcases hrun : fs.readDir dir s with ⟨e | names, s₁⟩ <;> rw [hrun] at hread
  · cases e <;> exact hread
  · exact restoreNames_keeps (hrename names s₁ hrun) hread

end Keeps

end Code

/-- Copy a file on a disk. -/
abbrev copyFile (d : Disk) (src dst : Path) (perm : UInt32) : Except DiskErr Unit × Disk :=
  Disk.calls.copyFile src dst perm d

/-- Fill a temp file on a disk. -/
abbrev fillTemp (d : Disk) (temp path : Path) (data : Bytes) (perm : UInt32) :
    Except DiskErr Bool × Disk :=
  Disk.calls.fillTemp temp path data perm d

/-- Go through a temp file on a disk. -/
abbrev replaceFile (tmp : TempNamer) (d : Disk) (path : Path) (data : Bytes) (perm : UInt32) :
    Except DiskErr Bool × Disk :=
  (Disk.fileSystem tmp).replaceFile path data perm d

/-- Replace a file on a disk. -/
abbrev writeAtomic (tmp : TempNamer) (d : Disk) (path : Path) (data : Bytes) (perm : UInt32) :
    Except DiskErr Bool × Disk :=
  (Disk.fileSystem tmp).writeAtomic path data perm d

/-- Restore the backup of one file, if there is one. -/
def restore (d : Disk) (path : Path) : Except DiskErr Unit × Disk :=
  match d.stat path.backup with
  | (.error .notExist, d) => (.ok (), d)
  | (.error e, d) => (.error e, d)
  | (.ok _, d) => d.rename path.backup path

/-- Restore backups on a disk. -/
abbrev restoreNames (dir : GoString) (names : List GoString) (d : Disk) :
    Except DiskErr Unit × Disk :=
  Disk.calls.restoreNames dir names d

/-- Restore a directory of a disk. -/
abbrev restoreDir (d : Disk) (dir : GoString) : Except DiskErr Unit × Disk :=
  Disk.calls.restoreDir dir d

/-- No file is renamed to a directory. -/
theorem rename_dots_ne_ok (d : Disk) (old : Path) {new : Path} (hnew : Disk.IsDots new.name)
    (d' : Disk) : d.rename old new ≠ (.ok (), d') := by
  unfold Disk.rename Disk.simpleCall Disk.call
  rcases d.next with ⟨fault, d₁⟩
  cases fault with
  | pass => cases hf : d₁.file old <;> simp [hf, hnew]
  | fail w => simp
  | stop w => simp

/-- A list of names is restored without an error only if none of them is the backup of a
directory. -/
theorem notMem_of_restoreNames_ok {dir : GoString} {names : List GoString} {d d' : Disk}
    (h : restoreNames dir names d = (.ok (), d')) {orig : GoString} (horig : Disk.IsDots orig) :
    orig ++ backupSuffix ∉ names := by
  induction names generalizing d with
  | nil => exact List.not_mem_nil
  | cons first rest ih =>
      rw [List.mem_cons, not_or]
      cases htrim : trimBackup first with
      | none =>
          simp only [FileCalls.restoreNames, htrim] at h
          refine ⟨?_, ih h⟩
          rintro rfl
          cases htrim.symm.trans (trimBackup_eq_some.mpr rfl)
      | some trimmed =>
          rcases hrename : d.rename ⟨dir, first⟩ ⟨dir, trimmed⟩ with ⟨result, d₁⟩
          simp only [FileCalls.restoreNames, htrim, hrename] at h
          cases result with
          | error e => cases congrArg Prod.fst h
          | ok u =>
              refine ⟨?_, ih h⟩
              rintro rfl
              obtain rfl : trimmed = orig :=
                Option.some.inj (htrim.symm.trans (trimBackup_eq_some.mpr rfl))
              exact rename_dots_ne_ok d _ horig d₁ hrename

section Healthy

variable {d : Disk}

theorem rename_healthy (h : d.Healthy) {old new : Path} {f : File} (hf : d.file old = some f)
    (hnew : ¬ Disk.IsDots new.name) : d.rename old new = (.ok (), (d.erase old).set new f) := by
  refine (Disk.call_healthy h _ _).trans ?_
  simp [hf, hnew]

/-- What moving one backup to its place leaves. -/
structure Moved (dir orig : GoString) (d d' : Disk) : Prop where
  healthy : d'.Healthy
  restored : d'.file ⟨dir, orig⟩ = d.file ⟨dir, orig ++ backupSuffix⟩
  gone : d'.file ⟨dir, orig ++ backupSuffix⟩ = none
  other : ∀ name ≠ orig, name ≠ orig ++ backupSuffix → d'.file ⟨dir, name⟩ = d.file ⟨dir, name⟩
  outside : ∀ q, q.dir ≠ dir → d'.file q = d.file q

theorem rename_backup (h : d.Healthy) {dir orig : GoString} (horig : ¬ Disk.IsDots orig)
    (hpresent : d.file ⟨dir, orig ++ backupSuffix⟩ ≠ none) :
    ∃ d', d.rename ⟨dir, orig ++ backupSuffix⟩ ⟨dir, orig⟩ = (.ok (), d') ∧
      Moved dir orig d d' := by
  obtain ⟨f, hf⟩ := Option.ne_none_iff_exists'.mp hpresent
  have hne : orig ++ backupSuffix ≠ orig := (lt_backup orig).ne'
  refine ⟨_, rename_healthy h hf horig, h, by simp [hf], by simp [hne], ?_, ?_⟩
  · intro name ho hb
    simp [ho, hb]
  · intro q hq
    have hq₁ : q ≠ ⟨dir, orig⟩ := fun heq => hq (by rw [heq])
    have hq₂ : q ≠ ⟨dir, orig ++ backupSuffix⟩ := fun heq => hq (by rw [heq])
    simp [hq₁, hq₂]

/-- What restoring a list of names leaves: a backup among them moves to its place. The
names are in order, so no file is moved over a backup that is still to come. -/
theorem restoreNames_healthy {dir : GoString} {names : List GoString} (h : d.Healthy)
    (hsorted : names.Pairwise (· < ·)) (hpresent : ∀ name ∈ names, d.file ⟨dir, name⟩ ≠ none)
    (hproper : ∀ orig, Disk.IsDots orig → orig ++ backupSuffix ∉ names) :
    ∃ d', restoreNames dir names d = (.ok (), d') ∧ d'.Healthy ∧
      (∀ q, q.dir ≠ dir → d'.file q = d.file q) ∧
      ∀ name, d'.file ⟨dir, name⟩ =
        if name ++ backupSuffix ∈ names then d.file ⟨dir, name ++ backupSuffix⟩
        else if name ∈ names ∧ (trimBackup name).isSome then none
        else d.file ⟨dir, name⟩ := by
  induction names generalizing d with
  | nil => exact ⟨d, rfl, h, fun _ _ => rfl, fun name => by simp⟩
  | cons first rest ih =>
      obtain ⟨hfirst, hrest⟩ := List.pairwise_cons.mp hsorted
      have hlater : ∀ orig, Disk.IsDots orig → orig ++ backupSuffix ∉ rest :=
        fun orig hdots hmem => hproper orig hdots (List.mem_cons_of_mem _ hmem)
      cases htrim : trimBackup first with
      | none =>
          obtain ⟨d', hrun, hhealthy, hdirs, hfiles⟩ :=
            ih h hrest (fun name hname => hpresent name (List.mem_cons_of_mem _ hname)) hlater
          refine ⟨d', by simp [FileCalls.restoreNames, htrim, hrun], hhealthy, hdirs,
            fun name => ?_⟩
          have hback : name ++ backupSuffix ≠ first := by
            rintro rfl
            rw [trimBackup_eq_some.mpr rfl] at htrim
            cases htrim
          rw [hfiles name]
          by_cases hname : name = first
          · subst hname
            simp [hback, htrim]
          · simp [hback, hname]
      | some orig =>
          obtain rfl : first = orig ++ backupSuffix := trimBackup_eq_some.mp htrim
          have horig : ¬ Disk.IsDots orig := fun hdots => hproper orig hdots List.mem_cons_self
          have hfirstNot : orig ++ backupSuffix ∉ rest := fun hmem => (hfirst _ hmem).false
          have horigNot : orig ∉ rest :=
            fun hmem => ((lt_backup orig).trans (hfirst orig hmem)).false
          obtain ⟨moved, hrename, hmoved⟩ := rename_backup h horig
            (hpresent (orig ++ backupSuffix) List.mem_cons_self)
          have hkept : ∀ name ∈ rest, moved.file ⟨dir, name⟩ = d.file ⟨dir, name⟩ := by
            intro name hname
            exact hmoved.other name (fun heq => horigNot (heq ▸ hname))
              fun heq => hfirstNot (heq ▸ hname)
          obtain ⟨d', hrun, hhealthy, hdirs, hfiles⟩ := ih hmoved.healthy hrest
            (fun name hname => hkept name hname ▸ hpresent name (List.mem_cons_of_mem _ hname))
            hlater
          refine ⟨d', by simp [FileCalls.restoreNames, htrim, hrename, hrun], hhealthy,
            fun q hq => (hdirs q hq).trans (hmoved.outside q hq), fun name => ?_⟩
          rw [hfiles name]
          by_cases hback : name ++ backupSuffix ∈ rest
          · simp [hback, hkept _ hback]
          · by_cases hname : name = orig
            · subst hname
              simp [hback, horigNot, hmoved.restored]
            · have hnot : name ++ backupSuffix ∉ (orig ++ backupSuffix) :: rest := by
                rw [List.mem_cons, not_or]
                exact ⟨fun heq => hname (List.append_cancel_right heq), hback⟩
              rw [if_neg hback, if_neg hnot]
              by_cases hgone : name = orig ++ backupSuffix
              · subst hgone
                simp [hfirstNot, htrim, hmoved.gone]
              · simp [hgone, hmoved.other name hname hgone]

/-- Restoring a directory puts every backup in its place and leaves the rest alone. -/
theorem restoreDir_healthy (h : d.Healthy) (dir : GoString)
    (hproper : ∀ orig, Disk.IsDots orig → d.file ⟨dir, orig ++ backupSuffix⟩ = none) :
    ∃ d', restoreDir d dir = (.ok (), d') ∧ d'.Healthy ∧
      (∀ q, q.dir ≠ dir → d'.file q = d.file q) ∧
      ∀ name, d'.file ⟨dir, name⟩ =
        if d.file ⟨dir, name ++ backupSuffix⟩ ≠ none then d.file ⟨dir, name ++ backupSuffix⟩
        else if (trimBackup name).isSome then none
        else d.file ⟨dir, name⟩ := by
  obtain ⟨d', hrun, hhealthy, hdirs, hfiles⟩ := restoreNames_healthy h (d.names_pairwise dir)
    (fun name hname => Disk.mem_names.mp hname)
    fun orig hdots hmem => Disk.mem_names.mp hmem (hproper orig hdots)
  refine ⟨d', ?_, hhealthy, hdirs, fun name => ?_⟩
  · have hread : d.readDir dir = (.ok (d.names dir), d) := Disk.call_healthy h _ _
    simp only [FileCalls.restoreDir, hread, hrun]
  · rw [hfiles name]
    simp only [Disk.mem_names]
    by_cases hname : d.file ⟨dir, name⟩ = none
    · simp [hname]
    · simp [hname]

/-- A directory restored without an error holds no backup of a directory. -/
theorem file_of_restoreDir_ok (h : d.Healthy) {dir : GoString} {d' : Disk}
    (hok : restoreDir d dir = (.ok (), d')) {orig : GoString} (horig : Disk.IsDots orig) :
    d.file ⟨dir, orig ++ backupSuffix⟩ = none := by
  have hread : d.readDir dir = (.ok (d.names dir), d) := Disk.call_healthy h _ _
  simp only [FileCalls.restoreDir, hread] at hok
  by_contra hfile
  exact notMem_of_restoreNames_ok hok horig (Disk.mem_names.mpr hfile)

end Healthy

end Lbsync.Files
