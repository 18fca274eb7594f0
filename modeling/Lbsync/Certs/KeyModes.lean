import Lbsync.Files.Modes
import Lbsync.Certs.Serving

/-!
# The mode of the private key

Private keys are written with a mode that is closed to the group and to others. Two paths
do not get there: a key that is on disk already is not written, and a backup that is there
is overwritten in place. So a key is left open exactly when it was found that way. From
directories whose keys and backups are closed, no call opens one, also when calls fail.
-/

namespace Lbsync.Certs

open Files Engine

/-- The private key in a directory. -/
def keyPath (dir : GoString) : Path := ⟨dir, BundleFile.key.fileName⟩

/-- The private key in a directory, its backup, the backup of that, and so on. -/
def keyFiles (dir : GoString) : Set Path := {q | ∃ n, q = Path.backup^[n] (keyPath dir)}

theorem keyPath_mem_keyFiles (dir : GoString) : keyPath dir ∈ keyFiles dir := ⟨0, rfl⟩

theorem backupClosed_keyFiles (dir : GoString) : BackupClosed (keyFiles dir) := by
  rintro path ⟨n, rfl⟩
  exact ⟨n + 1, (Function.iterate_succ_apply' Path.backup n (keyPath dir)).symm⟩

theorem name_of_mem_keyFiles {dir : GoString} {q : Path} (h : q ∈ keyFiles dir) :
    ∃ rest, q.name = BundleFile.key.fileName ++ rest := by
  obtain ⟨n, rfl⟩ := h
  induction n with
  | zero => exact ⟨[], by simp [keyPath]⟩
  | succ n ih =>
      obtain ⟨rest, hrest⟩ := ih
      refine ⟨rest ++ backupSuffix, ?_⟩
      rw [Function.iterate_succ_apply']
      simp [Path.backup, hrest]

theorem not_temp_of_mem_keyFiles {dir : GoString} {q : Path} (h : q ∈ keyFiles dir)
    (digits : GoString) : q.name ≠ ascii ".tmp-" ++ digits := by
  obtain ⟨rest, hrest⟩ := name_of_mem_keyFiles h
  rw [hrest]
  intro heq
  exact absurd (congrArg List.head? heq) (by simp [BundleFile.fileName, ascii])

/-- A bundle file among them is the key. -/
theorem eq_key_of_mem_keyFiles {dir dir' : GoString} {f : BundleFile}
    (h : (⟨dir', f.fileName⟩ : Path) ∈ keyFiles dir) : f = .key := by
  obtain ⟨n, hn⟩ := h
  cases n with
  | zero => exact BundleFile.fileName_injective (congrArg Path.name hn)
  | succ n =>
      rw [Function.iterate_succ_apply'] at hn
      exact absurd (congrArg Path.name hn)
        ((BundleFile.plain_of_mem_names _ f.fileName_mem_names).ne_backup _)

/-- So is a bundle file whose backup is among them. -/
theorem eq_key_of_backup_mem_keyFiles {dir dir' : GoString} {f : BundleFile}
    (h : Path.backup ⟨dir', f.fileName⟩ ∈ keyFiles dir) : f = .key := by
  obtain ⟨n, hn⟩ := h
  cases n with
  | zero =>
      exact absurd (congrArg Path.name hn).symm
        ((BundleFile.plain_of_mem_names _ (BundleFile.fileName_mem_names .key)).ne_backup _)
  | succ n =>
      rw [Function.iterate_succ_apply'] at hn
      exact eq_key_of_mem_keyFiles ⟨n, Path.backup_injective hn⟩

theorem closedMode_key : ClosedMode BundleFile.key.perm := by decide

section Kept

variable {dir : GoString} {d : Disk}

/-- Writing a bundle file opens none of the key files of a directory. -/
theorem closed_writeAtomic_file (tmp : TempNamer) (dir' : GoString) (f : BundleFile) (data : Bytes)
    (h : ∀ q ∈ keyFiles dir, d.Closed q) :
    ∀ q ∈ keyFiles dir, (writeAtomic tmp d ⟨dir', f.fileName⟩ data f.perm).2.Closed q := by
  intro q hq
  have htemp := not_temp_of_mem_keyFiles hq
  by_cases hown : q = ⟨dir', f.fileName⟩
  · subst hown
    obtain rfl := eq_key_of_mem_keyFiles hq
    exact (h _ hq).writeAtomic htemp closedMode_key
  · rw [closed_writeAtomic_iff (f.avoids tmp dir') hown htemp]
    · exact h q hq
    · rintro rfl
      obtain rfl := eq_key_of_backup_mem_keyFiles hq
      exact closedMode_key

/-- `Apply` opens none of the key files of a directory, also when it fails. -/
theorem closed_apply (cfg : Config) (r : Record) {w : World}
    (h : ∀ q ∈ keyFiles dir, w.serving.Closed q) :
    ∀ q ∈ keyFiles dir, (apply cfg r w).2.serving.Closed q := by
  refine applyOn_keeps (P := fun d : Disk => ∀ q ∈ keyFiles dir, d.Closed q) (fun d hd q hq => ?_)
    (fun f d _ hd => closed_writeAtomic_file cfg.temp (cfg.dir r.key) f _ hd) h
  exact (hd q hq).congr (d.file_mkdirAll q)

/-- Neither does `Rollback`. -/
theorem closed_rollbackKeys (cfg : Config) (keys : List GoString)
    (h : ∀ q ∈ keyFiles dir, d.Closed q) :
    ∀ q ∈ keyFiles dir, (rollbackKeys cfg keys d).2.Closed q :=
  rollbackKeysOn_keeps (P := fun d : Disk => ∀ q ∈ keyFiles dir, d.Closed q)
    (fun key _ hd => closed_restoreDir (backupClosed_keyFiles dir) (cfg.dir key) hd) keys h

end Kept

section OneApply

variable {tmp : TempNamer} {dir : GoString} {b : Bundle} {d d' : Disk}

theorem writeFiles_append (pre post : List BundleFile) {changed wrote : Bool}
    (h : writeFiles tmp dir b (pre ++ post) changed d = ((wrote, none), d')) :
    ∃ wrote₁ d₁, writeFiles tmp dir b pre changed d = ((wrote₁, none), d₁) ∧
      writeFiles tmp dir b post wrote₁ d₁ = ((wrote, none), d') := by
  induction pre generalizing changed d with
  | nil => exact ⟨changed, d, rfl, h⟩
  | cons f pre ih =>
      simp only [List.cons_append, writeFilesOn] at h
      simp only [writeFilesOn]
      split_ifs at h ⊢
      · exact ih h
      · rcases hrun : writeAtomic tmp d ⟨dir, f.fileName⟩ (b.data f) f.perm with
          ⟨_ | wrote₁, d₁⟩ <;> simp only [hrun] at h ⊢
        · cases h
        · exact ih h

/-- Writing the other files of a bundle leaves the key and its backup alone. -/
theorem file_writeFiles_others (tmp : TempNamer) (b : Bundle) (d : Disk) {fs : List BundleFile}
    (hfs : .key ∉ fs) (changed : Bool) {q : Path} (hq : q ∈ keyFiles dir) :
    (writeFiles tmp dir b fs changed d).2.file q = d.file q := by
  refine writeFilesOn_keeps (P := fun d₁ : Disk => d₁.file q = d.file q) (fun f hf d₁ _ hkept => ?_)
    changed rfl
  have hother : f ≠ .key := fun heq => hfs (heq ▸ hf)
  have hown : q ≠ ⟨dir, f.fileName⟩ := by
    rintro rfl
    exact hother (eq_key_of_mem_keyFiles hq)
  have hbackup : q ≠ Path.backup ⟨dir, f.fileName⟩ := by
    rintro rfl
    exact hother (eq_key_of_backup_mem_keyFiles hq)
  have hend := writeAtomic_ends tmp d₁ ((f.avoids tmp dir).tempPath_ne d₁) (b.data f) f.perm
  exact (hend.file_of_ne hown hbackup (not_temp_of_mem_keyFiles hq)).trans hkept

/-- In a bundle that is written without an error, the key is written by one call, before and
after which the key files are those of the whole. -/
theorem key_written {changed : Bool} (hkey : b.keyPEM ≠ [])
    (h : b.writeAtomic tmp dir d = ((changed, none), d')) :
    ∃ d₁ wrote d₂, writeAtomic tmp d₁ (keyPath dir) b.keyPEM BundleFile.key.perm =
        (.ok wrote, d₂) ∧
      (∀ q ∈ keyFiles dir, d₁.file q = d.file q ∧ d'.file q = d₂.file q) ∧
      (d.Healthy → d₁.Healthy) := by
  rcases d.mkdirAll_cases with hmkdir | hmkdir
  swap
  · simp [Bundle.writeAtomicOn, hmkdir] at h
  simp only [Bundle.writeAtomicOn, hmkdir] at h
  obtain ⟨wrote₁, d₁, hcert, hrest⟩ :=
    writeFiles_append [.cert] [.key, .chain, .fullchain] h
  have hdata : b.data .key ≠ [] := hkey
  rw [writeFiles, writeFilesOn, if_neg hdata] at hrest
  rcases hwrite : writeAtomic tmp d₁ ⟨dir, BundleFile.key.fileName⟩ (b.data .key)
      BundleFile.key.perm with ⟨_ | wrote, d₂⟩
  · simp [hwrite] at hrest
  simp only [hwrite] at hrest
  refine ⟨d₁, wrote, d₂, hwrite, fun q hq => ⟨?_, ?_⟩, fun hhealthy => ?_⟩
  · have hother : BundleFile.key ∉ [BundleFile.cert] := by decide
    have hbefore := file_writeFiles_others tmp b d.next.2 hother false hq
    rw [hcert] at hbefore
    exact hbefore.trans (d.file_next q)
  · have hother : BundleFile.key ∉ [BundleFile.chain, BundleFile.fullchain] := by decide
    have hafter := file_writeFiles_others tmp b d₂ hother (wrote₁ || wrote) hq
    rwa [writeFiles, hrest] at hafter
  · have hnext : d.next.2.Healthy := by
      simp [Disk.Healthy, Disk.next, hhealthy.1, hhealthy.2]
    obtain ⟨_, d₁', hrun, hhealthy₁, _⟩ :=
      writeFiles_slots tmp dir b (List.nodup_singleton BundleFile.cert) false hnext
    rw [hcert] at hrun
    obtain ⟨-, rfl⟩ := Prod.mk.inj hrun
    exact hhealthy₁

end OneApply

/-- What the engine asks of the provider about the serving directories. -/
inductive ServingCall where
  | apply (r : Record)
  | rollback (keys : List GoString)

variable (cfg : Config)

/-- Make one call. -/
def ServingCall.run (w : World) : ServingCall → World
  | .apply r => (Certs.apply cfg r w).2
  | .rollback keys => ((provider cfg).rollback keys w).2

/-- Neither the private key of a lineage nor its backup is open to others. -/
def KeyClosed (w : World) (key : GoString) : Prop :=
  w.serving.Closed (keyPath (cfg.dir key)) ∧ w.serving.Closed (keyPath (cfg.dir key)).backup

/-- The call is an `Apply` with a key that returns no error. -/
def InstallsKey (w : World) (r : Record) : Prop :=
  r.blob (ascii "key") ≠ [] ∧ ∃ changed, (apply cfg r w).1 = .ok changed

/-- An `Apply` that installs a key leaves it closed. -/
def LeavesClosed (w : World) : ServingCall → Prop
  | .apply r => InstallsKey cfg w r → KeyClosed cfg (apply cfg r w).2 r.key
  | .rollback _ => True

/-- An `Apply` that installs a key finds no open backup, and no open file that holds the key. -/
def FindsClosed (w : World) : ServingCall → Prop
  | .apply r => InstallsKey cfg w r →
      w.serving.Closed (keyPath (cfg.dir r.key)).backup ∧
        (w.serving.Closed (keyPath (cfg.dir r.key)) ∨
          w.serving.content (keyPath (cfg.dir r.key)) ≠ some (r.blob (ascii "key")))
  | .rollback _ => True

/-- Something holds of every call of a run, in the state it is made in. -/
def Throughout (P : World → ServingCall → Prop) (w : World) (calls : List ServingCall) : Prop :=
  ∀ pre call post, calls = pre ++ call :: post → P (pre.foldl (ServingCall.run cfg) w) call

section Runs

variable {cfg} {w : World}

/-- The one write that decides about the key files of an `Apply`. -/
theorem key_written_apply {r : Record} (h : InstallsKey cfg w r) :
    ∃ d₁ wrote d₂, writeAtomic cfg.temp d₁ (keyPath (cfg.dir r.key)) (r.blob (ascii "key"))
        BundleFile.key.perm = (.ok wrote, d₂) ∧
      (∀ q ∈ keyFiles (cfg.dir r.key), d₁.file q = w.serving.file q ∧
        (apply cfg r w).2.serving.file q = d₂.file q) ∧
      (w.serving.Healthy → d₁.Healthy) := by
  obtain ⟨hkey, changed, hok⟩ := h
  rw [serving_apply]
  rcases hrun : (fromRecord r).writeAtomic cfg.temp (cfg.dir r.key) w.serving with
    ⟨⟨wrote, _ | e⟩, d'⟩
  · exact key_written hkey hrun
  · simp [apply, applyOn, hrun] at hok

/-- The backup is left as open as it was found. -/
theorem closed_backup_apply_iff {r : Record} (h : InstallsKey cfg w r) :
    (apply cfg r w).2.serving.Closed (keyPath (cfg.dir r.key)).backup ↔
      w.serving.Closed (keyPath (cfg.dir r.key)).backup := by
  have hmem := backupClosed_keyFiles (cfg.dir r.key) _ (keyPath_mem_keyFiles _)
  have havoid : cfg.temp.Avoids (keyPath (cfg.dir r.key)) := BundleFile.avoids cfg.temp _ .key
  obtain ⟨d₁, wrote, d₂, hwrite, hfiles, -⟩ := key_written_apply h
  have hkept := modeKept_backup cfg.temp d₁ (r.blob (ascii "key")) BundleFile.key.perm havoid
    (not_temp_of_mem_keyFiles hmem)
  rw [hwrite] at hkept
  calc (apply cfg r w).2.serving.Closed (keyPath (cfg.dir r.key)).backup
      ↔ d₂.Closed (keyPath (cfg.dir r.key)).backup := Disk.closed_congr (hfiles _ hmem).2
    _ ↔ d₁.Closed (keyPath (cfg.dir r.key)).backup := hkept.closed_iff closedMode_key
    _ ↔ w.serving.Closed (keyPath (cfg.dir r.key)).backup := Disk.closed_congr (hfiles _ hmem).1

/-- The key is left closed unless it was found open. -/
theorem closed_key_apply {r : Record} (h : InstallsKey cfg w r)
    (hfound : w.serving.Closed (keyPath (cfg.dir r.key)) ∨
      w.serving.content (keyPath (cfg.dir r.key)) ≠ some (r.blob (ascii "key"))) :
    (apply cfg r w).2.serving.Closed (keyPath (cfg.dir r.key)) := by
  have hmem := keyPath_mem_keyFiles (cfg.dir r.key)
  have havoid : cfg.temp.Avoids (keyPath (cfg.dir r.key)) := BundleFile.avoids cfg.temp _ .key
  obtain ⟨d₁, wrote, d₂, hwrite, hfiles, -⟩ := key_written_apply h
  rw [Disk.closed_congr (hfiles _ hmem).2]
  apply closed_of_writeAtomic_ok havoid closedMode_key hwrite
  rwa [Disk.closed_congr (hfiles _ hmem).1, Disk.content, (hfiles _ hmem).1]

/-- When no call fails, a key that was found open is left open. -/
theorem found_of_closed_key_apply {r : Record} (h : InstallsKey cfg w r)
    (hhealthy : w.serving.Healthy)
    (hclosed : (apply cfg r w).2.serving.Closed (keyPath (cfg.dir r.key))) :
    w.serving.Closed (keyPath (cfg.dir r.key)) ∨
      w.serving.content (keyPath (cfg.dir r.key)) ≠ some (r.blob (ascii "key")) := by
  have hmem := keyPath_mem_keyFiles (cfg.dir r.key)
  obtain ⟨d₁, wrote, d₂, hwrite, hfiles, hhealthy₁⟩ := key_written_apply h
  obtain ⟨hbefore, hafter⟩ := hfiles _ hmem
  by_cases hsame : w.serving.content (keyPath (cfg.dir r.key)) = some (r.blob (ascii "key"))
  · have hsame₁ : d₁.content (keyPath (cfg.dir r.key)) = some (r.blob (ascii "key")) := by
      rwa [Disk.content, hbefore]
    rw [writeAtomic_same cfg.temp (hhealthy₁ hhealthy) hsame₁] at hwrite
    obtain ⟨-, rfl⟩ := Prod.mk.inj hwrite
    rw [Disk.closed_congr hafter, Disk.closed_congr hbefore] at hclosed
    exact Or.inl hclosed
  · exact Or.inr hsame

theorem leavesClosed_of_findsClosed {call : ServingCall} (h : FindsClosed cfg w call) :
    LeavesClosed cfg w call := by
  cases call with
  | rollback keys => trivial
  | apply r =>
      intro hinstalls
      obtain ⟨hbackup, hown⟩ := h hinstalls
      exact ⟨closed_key_apply hinstalls hown, (closed_backup_apply_iff hinstalls).mpr hbackup⟩

theorem findsClosed_of_leavesClosed {call : ServingCall} (hhealthy : w.serving.Healthy)
    (h : LeavesClosed cfg w call) : FindsClosed cfg w call := by
  cases call with
  | rollback keys => trivial
  | apply r =>
      intro hinstalls
      obtain ⟨hown, hbackup⟩ := h hinstalls
      exact ⟨(closed_backup_apply_iff hinstalls).mp hbackup,
        found_of_closed_key_apply hinstalls hhealthy hown⟩

/-- No call opens a key file. -/
theorem closed_run (call : ServingCall) {dir : GoString}
    (h : ∀ q ∈ keyFiles dir, w.serving.Closed q) :
    ∀ q ∈ keyFiles dir, (call.run cfg w).serving.Closed q := by
  cases call with
  | apply r => exact closed_apply cfg r h
  | rollback keys =>
      have hkept := closed_rollbackKeys cfg keys h
      rwa [← serving_rollback] at hkept

theorem healthy_rollbackKeys (cfg : Config) (keys : List GoString) {d : Disk} (h : d.Healthy) :
    (rollbackKeys cfg keys d).2.Healthy :=
  rollbackKeysOn_keeps (P := Disk.Healthy) (fun key _ hd => hd.restoreDir (cfg.dir key)) keys h

theorem healthy_run (call : ServingCall) (h : w.serving.Healthy) :
    (call.run cfg w).serving.Healthy := by
  cases call with
  | apply r =>
      obtain ⟨wrote, d', hrun, hhealthy, -⟩ :=
        (fromRecord r).writeAtomic_slots cfg.temp (cfg.dir r.key) h
      have hserving := serving_apply cfg r w
      rw [hrun] at hserving
      exact hserving ▸ hhealthy
  | rollback keys =>
      have hkept := healthy_rollbackKeys cfg keys h
      rwa [← serving_rollback] at hkept

/-- What every call keeps holds after a run. -/
theorem foldl_run (I : World → Prop) (hstep : ∀ w call, I w → I (ServingCall.run cfg w call))
    (calls : List ServingCall) (h : I w) : I (calls.foldl (ServingCall.run cfg) w) := by
  induction calls generalizing w with
  | nil => exact h
  | cons call calls ih => exact ih (hstep w call h)

end Runs

/-- In every run of `Apply` and `Rollback` calls, also when calls fail: if every `Apply` that
installs a key finds no open backup and no open file with that key, every such `Apply` leaves
the key and its backup closed; when no call fails, only then. From directories whose key files
are closed, every run is of this kind. -/
theorem keys_left_closed (cfg : Config) (w : World) (calls : List ServingCall) :
    (Throughout cfg (FindsClosed cfg) w calls → Throughout cfg (LeavesClosed cfg) w calls) ∧
    (w.serving.Healthy →
      (Throughout cfg (LeavesClosed cfg) w calls ↔ Throughout cfg (FindsClosed cfg) w calls)) ∧
    ((∀ key, ∀ q ∈ keyFiles (cfg.dir key), w.serving.Closed q) →
      Throughout cfg (FindsClosed cfg) w calls) := by
  have hleaves : Throughout cfg (FindsClosed cfg) w calls →
      Throughout cfg (LeavesClosed cfg) w calls :=
    fun h pre call post heq => leavesClosed_of_findsClosed (h pre call post heq)
  refine ⟨hleaves, fun hhealthy => ⟨fun h pre call post heq => ?_, hleaves⟩,
    fun hclosed pre call post _ => ?_⟩
  · exact findsClosed_of_leavesClosed
      (foldl_run (fun w => w.serving.Healthy) (fun _ call hw => healthy_run call hw) pre hhealthy)
      (h pre call post heq)
  · have hkept : ∀ key, ∀ q ∈ keyFiles (cfg.dir key),
        (pre.foldl (ServingCall.run cfg) w).serving.Closed q :=
      foldl_run (fun w => ∀ key, ∀ q ∈ keyFiles (cfg.dir key), w.serving.Closed q)
        (fun _ call hw key => closed_run call (hw key)) pre hclosed
    cases call with
    | rollback keys => trivial
    | apply r =>
        intro _
        have hmem := keyPath_mem_keyFiles (cfg.dir r.key)
        exact ⟨hkept r.key _ (backupClosed_keyFiles _ _ hmem), Or.inl (hkept r.key _ hmem)⟩

/-- A lineage whose key is closed, next to a backup that everybody may read. -/
def openBackupWorld : World where
  scanned := .ok []
  reads _ := ⟨.error .notExist, .error .notExist, .error .notExist, .error .notExist,
    .error .notExist⟩
  serving := ⟨(AList.insert (keyPath (ascii "/s/a")) ⟨[1], 0o600⟩ ∅).insert
    (keyPath (ascii "/s/a")).backup ⟨[0], 0o644⟩, 0o022, [], false⟩
  commands := ⟨fun _ => true, 0⟩

/-- A record with nothing but a new key. -/
def renewedKey : Record :=
  ⟨kind, ascii "a", ⟨1, 0, []⟩, [(ascii "key", [2])], [], ascii "h"⟩

/-- The replaced key ends up in a file that everybody may read. -/
theorem open_backup_gets_key :
    (apply sampleConfig renewedKey openBackupWorld).1 = .ok true ∧
      (apply sampleConfig renewedKey openBackupWorld).2.serving.file
        (keyPath (ascii "/s/a")).backup = some ⟨[1], 0o644⟩ ∧
      ¬ Throughout sampleConfig (LeavesClosed sampleConfig) openBackupWorld
        [.apply renewedKey] := by
  refine ⟨by decide, by decide, fun h => ?_⟩
  have hclosed := h [] (.apply renewedKey) [] rfl ⟨by decide, true, by decide⟩
  exact absurd (hclosed.2 ⟨[1], 0o644⟩ (by decide)) (by decide)

end Lbsync.Certs
