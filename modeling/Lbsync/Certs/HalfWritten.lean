import Lbsync.Certs.History
import Lbsync.Certs.Retry
import Lbsync.Files.Calls

/-!
# A bundle that is written in part

The files of a bundle are replaced one after the other. When a later one fails,
`Apply` returns an error, the engine forgets that earlier ones changed and rolls
nothing back. Which calls fail, and which backups are there, decides whether the
served certificate and key belong together at the end of the tick.
-/

namespace Lbsync.Certs

open Files Engine Backup

/-- The fate of a file among those that are written in order; none when it is not reached. -/
def fateFrom (old : BundleFile → Option Bytes) (b : Bundle) (f : BundleFile) :
    List BundleFile → List Fault → Option Fate
  | [], _ => none
  | g :: rest, faults =>
      if g = f then some (fileFate (old g) (b.data g) faults).1
      else if (fileFate (old g) (b.data g) faults).1 = .failed then none
      else fateFrom old b f rest (fileFate (old g) (b.data g) faults).2

/-- The number of the first call for a file among those that are written in order from the given
number on. -/
def startFrom (old : BundleFile → Option Bytes) (b : Bundle) (faults : List Fault)
    (f : BundleFile) : List BundleFile → Nat → Nat
  | [], i => i
  | g :: rest, i =>
      if g = f then i
      else startFrom old b faults f rest
        (i + (writeCalls (passes faults i) (old g) (b.data g)).length)

/-- No vital call for a file fails, when the files are written in order from the given number
on. -/
def PassedFrom (old : BundleFile → Option Bytes) (b : Bundle) (faults : List Fault)
    (f : BundleFile) (fs : List BundleFile) (i : Nat) : Prop :=
  let first := startFrom old b faults f fs i
  NoneFails (writeCalls (passes faults first) (old f) (b.data f)) faults first

instance (old : BundleFile → Option Bytes) (b : Bundle) (faults : List Fault) (f : BundleFile)
    (fs : List BundleFile) (i : Nat) : Decidable (PassedFrom old b faults f fs i) :=
  inferInstanceAs (Decidable (NoneFails _ _ _))

/-- What a fate makes of a file and its backup. -/
def SlotAfter (data : Bytes) (s s' : Slot Bytes) : Option Fate → Prop
  | none | some .same => s' = s
  | some .failed => s'.current = s.current
  | some .backedUp => s.current ≠ none ∧ s' = ⟨some data, s.current⟩
  | some .blind => s' = ⟨some data, s.backup⟩

/-- The file was replaced. -/
def Replaced (fate : Option Fate) : Prop := fate = some .backedUp ∨ fate = some .blind

/-- The write was reached and did not fail. -/
def Succeeded (fate : Option Fate) : Prop := fate ≠ none ∧ fate ≠ some .failed

instance (fate : Option Fate) : Decidable (Replaced fate) := inferInstanceAs (Decidable (_ ∨ _))

instance (fate : Option Fate) : Decidable (Succeeded fate) := inferInstanceAs (Decidable (_ ∧ _))

theorem BundleFile.backup_not_temp (f : BundleFile) (digits : GoString) :
    f.fileName ++ backupSuffix ≠ ascii ".tmp-" ++ digits := by
  intro heq
  have hhead := congrArg List.head? heq
  cases f <;> exact absurd hhead (by simp [BundleFile.fileName, ascii])

/-- A write returns an error when it fails, and otherwise whether it replaced the file. -/
theorem result_of_leaves {path : Path} {data : Bytes} {perm : UInt32} {d : Disk}
    {r : Except DiskErr Bool × Disk} {fate : Fate} (h : fate.Leaves path data perm d r) :
    fate = .failed ∧ (∃ e, r.1 = .error e) ∨
      fate ≠ .failed ∧ r.1 = .ok (decide (Replaced (some fate))) := by
  cases fate with
  | same => exact Or.inr ⟨nofun, h.1.trans (by simp [Replaced])⟩
  | failed =>
      obtain ⟨e, _, herror, _⟩ := h
      exact Or.inl ⟨rfl, e, herror⟩
  | backedUp => exact Or.inr ⟨nofun, h.1.trans (by simp [Replaced])⟩
  | blind => exact Or.inr ⟨nofun, h.1.trans (by simp [Replaced])⟩

/-- A write leaves its file and the backup as its fate says. -/
theorem slotAfter_of_leaves {path : Path} (hplain : Plain path.name) {data : Bytes}
    {perm : UInt32} {d : Disk} {r : Except DiskErr Bool × Disk} {fate : Fate}
    (h : fate.Leaves path data perm d r) :
    SlotAfter data (d.slot path) (r.2.slot path) (some fate) := by
  have hcontent (hfile : r.2.file path = some ⟨data, perm⟩) : r.2.content path = some data := by
    simp [Disk.content, hfile]
  cases fate with
  | same =>
      obtain ⟨_, _, hfiles⟩ := h
      have hfile (q : Path) : r.2.file q = d.file q := congrArg (AList.lookup q) hfiles
      simp only [SlotAfter, Disk.slot, Disk.content, hfile]
  | failed =>
      obtain ⟨e, temp, _, _, ⟨digits, hdigits⟩, _, hframe⟩ := h
      have hne : path ≠ temp :=
        fun heq => hplain.not_temp digits ((congrArg Path.name heq).trans hdigits)
      have hfile : r.2.file path = d.file path :=
        hframe _ (by simp [hne, (Path.backup_ne _).symm])
      exact congrArg (Option.map File.content) hfile
  | backedUp =>
      obtain ⟨_, hfile, hpresent, hbackup, _⟩ := h
      exact ⟨hpresent, Slot.ext (hcontent hfile) hbackup⟩
  | blind =>
      obtain ⟨_, hfile, hbackup, _⟩ := h
      exact Slot.ext (hcontent hfile) hbackup

/-- One write of a bundle: its own file is as its fate says, and no other file of the bundle
is touched. -/
theorem writeAtomic_slotAfter (tmp : TempNamer) (dir : GoString) (g : BundleFile) (data : Bytes)
    {d : Disk} (h : d.Running) :
    let fate := writeFate (d.content ⟨dir, g.fileName⟩) data d.faults
    let r := Files.writeAtomic tmp d ⟨dir, g.fileName⟩ data g.perm
    r.2.Running ∧ r.2.faults = fate.2 ∧
      (fate.1 = .failed ∧ (∃ e, r.1 = .error e) ∨
        fate.1 ≠ .failed ∧ r.1 = .ok (decide (Replaced (some fate.1)))) ∧
      SlotAfter data (d.slot ⟨dir, g.fileName⟩) (r.2.slot ⟨dir, g.fileName⟩) (some fate.1) ∧
      (∀ f ≠ g, r.2.slot ⟨dir, f.fileName⟩ = d.slot ⟨dir, f.fileName⟩) ∧
      ∀ q, Foreign dir q → (∀ digits, q.name ≠ ascii ".tmp-" ++ digits) →
        r.2.file q = d.file q := by
  intro fate r
  have hplain := BundleFile.plain_of_mem_names _ g.fileName_mem_names
  have hend := writeAtomic_ends tmp d ((g.avoids tmp dir).tempPath_ne d) data g.perm
  obtain ⟨hleaves, hfaults, hrunning⟩ :=
    writeAtomic_fate tmp h hplain.proper (g.avoids tmp dir) data g.perm
  refine ⟨hrunning, hfaults, result_of_leaves hleaves, slotAfter_of_leaves hplain hleaves,
    fun f hne => ?_, fun q hq htemp => hend.file_of_ne (hq g).1 (hq g).2 htemp⟩
  have hplain' := BundleFile.plain_of_mem_names _ f.fileName_mem_names
  have happart := BundleFile.apart dir hne
  have hfile : r.2.file ⟨dir, f.fileName⟩ = d.file ⟨dir, f.fileName⟩ :=
    hend.file_of_ne happart.ne happart.ne_backup hplain'.not_temp
  have hback : r.2.file (Path.backup ⟨dir, f.fileName⟩) =
      d.file (Path.backup ⟨dir, f.fileName⟩) :=
    hend.file_of_ne happart.backup_ne (fun heq => happart.ne (Path.backup_injective heq))
      f.backup_not_temp
  simp only [Disk.slot, Disk.content, hfile, hback]

theorem fateFrom_of_notMem {old : BundleFile → Option Bytes} {b : Bundle} {f : BundleFile}
    {fs : List BundleFile} (h : f ∉ fs) (faults : List Fault) :
    fateFrom old b f fs faults = none := by
  induction fs generalizing faults with
  | nil => rfl
  | cons g rest ih =>
      rw [fateFrom, if_neg (List.ne_of_not_mem_cons h).symm]
      split_ifs
      · rfl
      · exact ih (List.not_mem_of_not_mem_cons h) _

/-- A file is written when no vital call for an earlier one fails, and the write fails when one of
its own does. -/
theorem fateFrom_eq (old : BundleFile → Option Bytes) (b : Bundle) (faults : List Fault)
    {f : BundleFile} {fs : List BundleFile} (hf : f ∈ fs) (hfs : fs.Nodup) (i : Nat) :
    fateFrom old b f fs (faults.drop i) =
      if ∀ g ∈ fs.takeWhile (· ≠ f), PassedFrom old b faults g fs i then
        some (if PassedFrom old b faults f fs i then
          fateOf (passes faults (startFrom old b faults f fs i)) (old f) (b.data f) else .failed)
      else none := by
  induction fs generalizing i with
  | nil => cases hf
  | cons g rest ih =>
      obtain ⟨hg, hrest⟩ := List.nodup_cons.mp hfs
      have hstart : startFrom old b faults g (g :: rest) i = i := if_pos rfl
      have hpassed : PassedFrom old b faults g (g :: rest) i ↔
          NoneFails (writeCalls (passes faults i) (old g) (b.data g)) faults i := by
        rw [PassedFrom, hstart]
      obtain ⟨hfails, hgoes⟩ := fileFate_drop (old g) (b.data g) faults i
      by_cases hgf : g = f
      · subst hgf
        have hnone : (g :: rest).takeWhile (· ≠ g) = [] := by simp
        rw [hnone, if_pos (by simp), fateFrom, if_pos rfl, hstart]
        by_cases hp : PassedFrom old b faults g (g :: rest) i
        · rw [if_pos hp, hgoes (hpassed.mp hp)]
        · rw [if_neg hp, hfails (mt hpassed.mpr hp)]
      · have hmore : (g :: rest).takeWhile (· ≠ f) = g :: rest.takeWhile (· ≠ f) := by
          simp [hgf]
        simp only [hmore, List.forall_mem_cons, fateFrom, if_neg hgf]
        by_cases hp : PassedFrom old b faults g (g :: rest) i
        · let j := i + (writeCalls (passes faults i) (old g) (b.data g)).length
          have hlater : ∀ h ∈ rest, startFrom old b faults h (g :: rest) i =
              startFrom old b faults h rest j :=
            fun h hh => if_neg (ne_of_mem_of_not_mem hh hg).symm
          have hpassed' : ∀ h ∈ rest, PassedFrom old b faults h (g :: rest) i ↔
              PassedFrom old b faults h rest j := fun h hh => by
            rw [PassedFrom, PassedFrom, hlater h hh]
          have hf' : f ∈ rest := (List.mem_cons.mp hf).resolve_left (Ne.symm hgf)
          have hall : (∀ h ∈ rest.takeWhile (· ≠ f), PassedFrom old b faults h (g :: rest) i) ↔
              ∀ h ∈ rest.takeWhile (· ≠ f), PassedFrom old b faults h rest j :=
            forall₂_congr fun h hh => hpassed' h ((List.takeWhile_sublist _).subset hh)
          rw [hgoes (hpassed.mp hp), if_neg (fateOf_ne_failed _ _ _), ih hf' hrest j, hlater f hf']
          simp only [hp, true_and, hall, hpassed' f hf']
        · rw [hfails (mt hpassed.mpr hp), if_pos rfl, if_neg fun hall => hp hall.1]

/-- The first of the writes fails and ends the loop, or the loop goes on after it. -/
theorem writeFiles_step (tmp : TempNamer) (dir : GoString) (b : Bundle) (g : BundleFile)
    (rest : List BundleFile) (changed : Bool) {d : Disk} (h : d.Running) :
    let fate := fileFate (d.content ⟨dir, g.fileName⟩) (b.data g) d.faults
    ∃ d₁, d₁.Running ∧ d₁.faults = fate.2 ∧
      (fate.1 = .failed ∧
          (∃ e, writeFiles tmp dir b (g :: rest) changed d = ((changed, some e), d₁)) ∨
        fate.1 ≠ .failed ∧ writeFiles tmp dir b (g :: rest) changed d =
          writeFiles tmp dir b rest (changed || decide (Replaced (some fate.1))) d₁) ∧
      SlotAfter (b.data g) (d.slot ⟨dir, g.fileName⟩) (d₁.slot ⟨dir, g.fileName⟩)
        (some fate.1) ∧
      (∀ f ≠ g, d₁.slot ⟨dir, f.fileName⟩ = d.slot ⟨dir, f.fileName⟩) ∧
      ∀ q, Foreign dir q → (∀ digits, q.name ≠ ascii ".tmp-" ++ digits) →
        d₁.file q = d.file q := by
  intro fate
  by_cases hdata : b.data g = []
  · have hfate : fate = (.same, d.faults) := if_pos hdata
    rw [hfate]
    refine ⟨d, h, rfl, Or.inr ⟨nofun, ?_⟩, rfl, fun _ _ => rfl, fun _ _ _ => rfl⟩
    simp [writeFilesOn, hdata, Replaced]
  · have hfate : fate = writeFate (d.content ⟨dir, g.fileName⟩) (b.data g) d.faults :=
      if_neg hdata
    obtain ⟨hrunning, hfaults, hresult, hslot, hother, hforeign⟩ :=
      writeAtomic_slotAfter tmp dir g (b.data g) h
    rw [hfate]
    refine ⟨_, hrunning, hfaults, ?_, hslot, hother, hforeign⟩
    simp only [writeFilesOn, if_neg hdata]
    rcases hrun : Files.writeAtomic tmp d ⟨dir, g.fileName⟩ (b.data g) g.perm with ⟨result, d₁⟩
    rw [hrun] at hresult
    simp only [hrun]
    rcases hresult with ⟨hfailed, e, rfl⟩ | ⟨hok, rfl⟩
    · exact Or.inl ⟨hfailed, e, rfl⟩
    · exact Or.inr ⟨hok, rfl⟩

/-- Writing a bundle leaves each file as its fate says, and reports an error when one of the
writes fails and a change when one of them replaces its file. -/
theorem writeFiles_fates (tmp : TempNamer) (dir : GoString) (b : Bundle)
    (old : BundleFile → Option Bytes) {fs : List BundleFile} (hfs : fs.Nodup) (changed : Bool)
    {d : Disk} (h : d.Running) (hold : ∀ f ∈ fs, d.content ⟨dir, f.fileName⟩ = old f) :
    let r := writeFiles tmp dir b fs changed d
    let fate := fun f => fateFrom old b f fs d.faults
    r.2.Running ∧
      (∀ f, SlotAfter (b.data f) (d.slot ⟨dir, f.fileName⟩) (r.2.slot ⟨dir, f.fileName⟩)
        (fate f)) ∧
      (r.1.2 = none ↔ ∀ f ∈ fs, Succeeded (fate f)) ∧
      (r.1.2 = none → (r.1.1 = true ↔ changed = true ∨ ∃ f ∈ fs, Replaced (fate f))) ∧
      ∀ q, Foreign dir q → (∀ digits, q.name ≠ ascii ".tmp-" ++ digits) →
        r.2.file q = d.file q := by
  induction fs generalizing changed d with
  | nil => exact ⟨h, fun _ => rfl, by simp [writeFilesOn], by simp [writeFilesOn], fun _ _ _ => rfl⟩
  | cons g rest ih =>
      obtain ⟨hg, hrest⟩ := List.nodup_cons.mp hfs
      have hne : ∀ f ∈ rest, f ≠ g := fun f hf heq => hg (heq ▸ hf)
      obtain ⟨d₁, hrunning₁, hfaults₁, hstep, hslot₁, hother₁, hforeign₁⟩ :=
        writeFiles_step tmp dir b g rest changed h
      rw [hold g List.mem_cons_self] at hfaults₁ hstep hslot₁
      intro r fate
      have hown : fate g = some (fileFate (old g) (b.data g) d.faults).1 := if_pos rfl
      rcases hstep with ⟨hfailed, e, hrun⟩ | ⟨hok, hrun⟩
      · have hlater : ∀ f ≠ g, fate f = none := fun f hf => by
          simp only [fate, fateFrom, if_neg hf.symm, if_pos hfailed]
        have hr : r = ((changed, some e), d₁) := hrun
        rw [hr]
        refine ⟨hrunning₁, fun f => ?_, iff_of_false (by simp) fun hall => ?_, by simp, hforeign₁⟩
        · by_cases hf : f = g
          · rw [hf, hown]
            exact hslot₁
          · rw [hlater f hf]
            exact hother₁ f hf
        · exact (hall g List.mem_cons_self).2 (hown.trans (congrArg some hfailed))
      · have hlater : ∀ f ≠ g, fate f = fateFrom old b f rest d₁.faults := fun f hf => by
          simp only [fate, fateFrom, if_neg hf.symm, if_neg hok, hfaults₁]
        have hr : r = writeFiles tmp dir b rest
            (changed || decide (Replaced (fate g))) d₁ := by
          rw [hown]
          exact hrun
        have hold₁ : ∀ f ∈ rest, d₁.content ⟨dir, f.fileName⟩ = old f := fun f hf =>
          (congrArg Slot.current (hother₁ f (hne f hf))).trans
            (hold f (List.mem_cons_of_mem _ hf))
        obtain ⟨hrunning, hslots, herror, hchanged, hforeign⟩ :=
          ih hrest (changed || decide (Replaced (fate g))) hrunning₁ hold₁
        rw [← hr] at hrunning hslots herror hchanged hforeign
        have hsucceeded : Succeeded (fate g) := by
          rw [hown]
          exact ⟨by simp, fun heq => hok (Option.some.inj heq)⟩
        refine ⟨hrunning, fun f => ?_, herror.trans ?_, fun hr₂ => (hchanged hr₂).trans ?_,
          fun q hq htemp => (hforeign q hq htemp).trans (hforeign₁ q hq htemp)⟩
        · by_cases hf : f = g
          · have hkept : SlotAfter (b.data g) _ _ (fateFrom old b g rest d₁.faults) := hslots g
            rw [fateFrom_of_notMem hg] at hkept
            rw [hf, hown, show r.2.slot ⟨dir, g.fileName⟩ = _ from hkept]
            exact hslot₁
          · rw [hlater f hf, ← hother₁ f hf]
            exact hslots f
        · rw [List.forall_mem_cons, and_iff_right hsucceeded]
          exact forall₂_congr fun f hf => by rw [hlater f (hne f hf)]
        · rw [List.exists_mem_cons_iff, Bool.or_eq_true, decide_eq_true_eq, or_assoc]
          refine or_congr_right (or_congr_right ?_)
          exact exists_congr fun f => and_congr_right fun hf => by rw [hlater f (hne f hf)]

variable (cfg : Config)

/-- The fate of a file in an `Apply`; none when an earlier call ends it. -/
def applyFate (w : World) (r : Record) (f : BundleFile) : Option Fate :=
  if (takeFault w.serving.faults).1 then
    fateFrom (w.served cfg r.key) (fromRecord r) f BundleFile.all (takeFault w.serving.faults).2
  else none

variable {cfg} {w : World} {r : Record}

theorem mkdirAll_takes {d : Disk} (h : d.Running) : Disk.Takes true d d.mkdirAll :=
  Disk.close_takes h

/-- `Apply` leaves each file as its fate says, returns an error when one of the writes fails
and reports a change when one of them replaces its file. -/
theorem apply_fates (cfg : Config) (r : Record) (h : w.serving.Running) :
    let out := apply cfg r w
    out.2.serving.Running ∧
      (∀ f, SlotAfter (r.blob f.blobName) (w.slot cfg r.key f) (out.2.slot cfg r.key f)
        (applyFate cfg w r f)) ∧
      ((∀ f, Succeeded (applyFate cfg w r f)) →
        out.1 = .ok (decide (∃ f ∈ BundleFile.all, Replaced (applyFate cfg w r f)))) ∧
      ((¬ ∀ f, Succeeded (applyFate cfg w r f)) → ∃ e, out.1 = .error e) ∧
      ∀ q, Foreign (cfg.dir r.key) q → (∀ digits, q.name ≠ ascii ".tmp-" ++ digits) →
        out.2.serving.file q = w.serving.file q := by
  intro out
  have hmkdir := mkdirAll_takes h
  rcases htake : takeFault w.serving.faults with ⟨_ | _, rest⟩
  · obtain ⟨e, d₁, hrun, _, hrunning⟩ := hmkdir.error htake
    have hfile (q : Path) : d₁.file q = w.serving.file q := by
      simpa only [hrun] using w.serving.file_mkdirAll q
    have hnone (f : BundleFile) : applyFate cfg w r f = none := by simp [applyFate, htake]
    have hout : out = (.error .io, { w with serving := d₁ }) := by
      simp only [out, apply, applyOn, Bundle.writeAtomicOn, hrun]
    rw [hout]
    refine ⟨hrunning, fun f => ?_, fun hall => absurd rfl ((hnone .cert ▸ hall .cert).1),
      fun _ => ⟨.io, rfl⟩, fun q _ _ => hfile q⟩
    rw [hnone f]
    simp only [SlotAfter, World.slot, Disk.slot, Disk.content, hfile]
  · obtain ⟨_, d₁, hrun, rfl, hrunning⟩ := hmkdir.ok htake
    have hfile (q : Path) : d₁.file q = w.serving.file q := by
      simpa only [hrun] using w.serving.file_mkdirAll q
    have hslot (f : BundleFile) : d₁.slot ⟨cfg.dir r.key, f.fileName⟩ = w.slot cfg r.key f := by
      simp only [World.slot, Disk.slot, Disk.content, hfile]
    obtain ⟨hrunning', hslots, herror, hchanged, hforeign⟩ := writeFiles_fates cfg.temp
      (cfg.dir r.key) (fromRecord r) (w.served cfg r.key) (show BundleFile.all.Nodup by decide)
      false hrunning fun f _ => congrArg Slot.current (hslot f)
    have hfate (f : BundleFile) : fateFrom (w.served cfg r.key) (fromRecord r) f BundleFile.all
        d₁.faults = applyFate cfg w r f := by simp [applyFate, htake]
    simp only [hfate, BundleFile.mem_all, true_imp_iff, hslot, data_fromRecord, true_and,
      Bool.false_eq_true, false_or] at hslots herror hchanged
    rcases hwrite : writeFiles cfg.temp (cfg.dir r.key) (fromRecord r) BundleFile.all false d₁
      with ⟨⟨changed, error⟩, d₂⟩
    rw [hwrite] at hrunning' hslots herror hchanged hforeign
    have hforeign' : ∀ q, Foreign (cfg.dir r.key) q →
        (∀ digits, q.name ≠ ascii ".tmp-" ++ digits) → d₂.file q = w.serving.file q :=
      fun q hq htemp => (hforeign q hq htemp).trans (hfile q)
    cases error with
    | none =>
        have hout : out = (.ok changed, { w with serving := d₂ }) := by
          simp only [out, apply, applyOn, Bundle.writeAtomicOn, hrun, hwrite]
        rw [hout]
        refine ⟨hrunning', hslots, fun _ => ?_, fun hnot => absurd (herror.mp rfl) hnot,
          hforeign'⟩
        exact congrArg Except.ok (Bool.eq_iff_iff.mpr ((hchanged rfl).trans (by simp)))
    | some e =>
        have hout : out = (.error .io, { w with serving := d₂ }) := by
          simp only [out, apply, applyOn, Bundle.writeAtomicOn, hrun, hwrite]
        rw [hout]
        exact ⟨hrunning', hslots, fun hall => absurd (herror.mpr hall) (by simp),
          fun _ => ⟨.io, rfl⟩, hforeign'⟩

variable (cfg)

/-- The served certificate and key are both as before, or both the record's. -/
def Together (w w' : World) (r : Record) : Prop :=
  w'.served cfg r.key .cert = w.served cfg r.key .cert ∧
      w'.served cfg r.key .key = w.served cfg r.key .key ∨
    w'.served cfg r.key .cert = some (r.blob (ascii "cert")) ∧
      w'.served cfg r.key .key = some (r.blob (ascii "key"))

/-- The world after the first of the calls of a tick. -/
def afterCalls (calls : List (GoString × Record)) (w : World) : World :=
  (calls.foldl (applyCall (provider cfg)) (w, [])).1

/-- Nothing fails in the rollback of the tick, if there is one. -/
def QuietRollback (calls : List (GoString × Record)) (w : World) : Prop :=
  FlushFails (provider cfg) calls w →
    (afterCalls cfg calls w).serving.faults = [] ∧ RolledBack cfg calls w

/-- The number of the first call for a file, among the calls of an `Apply` in which no vital one
has failed before. The first of all makes the directory. -/
def firstCall (w : World) (r : Record) (f : BundleFile) : Nat :=
  startFrom (w.served cfg r.key) (fromRecord r) w.serving.faults f BundleFile.all 1

/-- The first read of a file passes. -/
def reads (w : World) (r : Record) (f : BundleFile) : Bool :=
  passes w.serving.faults (firstCall cfg w r f)

/-- The calls for a file. -/
def callsOf (w : World) (r : Record) (f : BundleFile) : List WriteCall :=
  writeCalls (reads cfg w r f) (w.served cfg r.key f) ((fromRecord r).data f)

/-- No call for a file fails from the backup of the old content up to the rename. -/
def Passed (w : World) (r : Record) (f : BundleFile) : Prop :=
  NoneFails (callsOf cfg w r f) w.serving.faults (firstCall cfg w r f)

instance (w : World) (r : Record) (f : BundleFile) : Decidable (Passed cfg w r f) :=
  inferInstanceAs (Decidable (NoneFails _ _ _))

/-- No call of the `Apply` fails that may not, some file is to be replaced, and the hook fails. -/
structure Undone (w : World) (r : Record) : Prop where
  mkdir : passes w.serving.faults 0
  passed : ∀ f, Passed cfg w r f
  renames : ∃ f, .rename ∈ callsOf cfg w r f
  hook : (cfg.runner.run w.commands).1 ≠ .ok ()

/-- The rollback finds the served content in the backup: a new one is made, or the older one holds
it, or there is none and the file is not replaced. -/
def BringsBack (w : World) (r : Record) (f : BundleFile) : Prop :=
  let data := r.blob f.blobName
  data ≠ [] ∧ reads cfg w r f = true ∧ w.served cfg r.key f ≠ some data ∨
    w.backup cfg r.key f = w.served cfg r.key f ∨
    w.backup cfg r.key f = none ∧
      (data = [] ∨ reads cfg w r f = true ∨ w.served cfg r.key f = some data)

/-- The rollback finds the record's content: no new backup is made, and the older one holds it, or
there is none and the file is replaced or has it already. -/
def LeavesNew (w : World) (r : Record) (f : BundleFile) : Prop :=
  let data := r.blob f.blobName
  (data = [] ∨ reads cfg w r f = false ∨ w.served cfg r.key f = some data) ∧
    (w.backup cfg r.key f = some data ∨
      w.backup cfg r.key f = none ∧
        (data ≠ [] ∧ reads cfg w r f = false ∨ w.served cfg r.key f = some data))

/-- Without a rollback, once `cert.pem` has got to its place no call for `privkey.pem` may fail up
to its rename, unless one of them has the record's content already; a record without one of the
two contents may replace neither. With a rollback the backups decide. -/
structure StaysWhole (w : World) (r : Record) : Prop where
  kept : ¬ Undone cfg w r → w.served cfg r.key .cert ≠ some (r.blob (ascii "cert")) →
    w.served cfg r.key .key ≠ some (r.blob (ascii "key")) →
    passes w.serving.faults 0 → Passed cfg w r .cert →
      r.blob (ascii "cert") ≠ [] ∧ r.blob (ascii "key") ≠ [] ∧ Passed cfg w r .key ∨
      r.blob (ascii "cert") = [] ∧ (r.blob (ascii "key") = [] ∨ ¬ Passed cfg w r .key)
  undone : Undone cfg w r →
    (BringsBack cfg w r .cert ∧ BringsBack cfg w r .key) ∨
      (LeavesNew cfg w r .cert ∧ LeavesNew cfg w r .key)

variable {cfg}

/-- The fate of a file of a record, from the calls that fail. -/
theorem applyFate_eq (w : World) (r : Record) (f : BundleFile) :
    applyFate cfg w r f =
      if passes w.serving.faults 0 ∧ ∀ g ∈ BundleFile.all.takeWhile (· ≠ f), Passed cfg w r g then
        some (if Passed cfg w r f then
          fateOf (reads cfg w r f) (w.served cfg r.key f) ((fromRecord r).data f) else .failed)
      else none := by
  have htake := takeFault_drop w.serving.faults 0
  rw [List.drop_zero] at htake
  rw [applyFate, htake]
  by_cases hpass : passes w.serving.faults 0 = true
  · rw [if_pos hpass, fateFrom_eq _ _ _ f.mem_all (by decide) 1]
    simp only [hpass, true_and]
    rfl
  · rw [if_neg hpass, if_neg fun hboth => hpass hboth.1]

theorem SlotAfter.current {data : Bytes} {s s' : Slot Bytes} {fate : Option Fate}
    (h : SlotAfter data s s' fate) :
    s'.current = if Replaced fate then some data else s.current := by
  rcases fate with _ | kind
  · rw [show s' = s from h]
    simp [Replaced]
  · cases kind with
    | same =>
        rw [show s' = s from h]
        simp [Replaced]
    | failed =>
        rw [show s'.current = s.current from h]
        simp [Replaced]
    | backedUp => simp [h.2, Replaced]
    | blind =>
        rw [show s' = ⟨some data, s.backup⟩ from h]
        simp [Replaced]

/-- What a rollback leaves of a write that has not failed: what was there when the write has backed
it up, and else what an older backup holds or, without one, what the write has left. -/
theorem SlotAfter.restored {data : Bytes} {s s' : Slot Bytes} {reads : Bool}
    (h : SlotAfter data s s' (some (fateOf reads s.current data))) (hcurrent : s.current ≠ none) :
    s'.restore.current =
      if data ≠ [] ∧ reads = true ∧ s.current ≠ some data then s.current
      else s.backup.or (if data ≠ [] ∧ reads = false then some data else s.current) := by
  obtain ⟨c, hc⟩ := Option.ne_none_iff_exists'.mp hcurrent
  unfold fateOf at h
  split_ifs at h with hsame hread
  · rw [show s' = s from h]
    cases hback : s.backup <;> simp only [Slot.restore, hback] <;> grind
  · obtain ⟨_, rfl⟩ := h
    simp only [Slot.restore, hc]
    grind
  · rw [show s' = ⟨some data, s.backup⟩ from h]
    cases hback : s.backup <;> simp only [Slot.restore] <;> grind

section Calls

variable (w r)

/-- A write that has not failed replaces its file exactly when it comes to the rename. -/
theorem replaced_fateOf (reads : Bool) (old : Option Bytes) (data : Bytes) :
    Replaced (some (fateOf reads old data)) ↔ .rename ∈ writeCalls reads old data := by
  unfold fateOf writeCalls
  split_ifs <;> simp_all [Replaced, replaceCalls]

theorem succeeded_iff : (∀ f, Succeeded (applyFate cfg w r f)) ↔
    passes w.serving.faults 0 = true ∧ ∀ f, Passed cfg w r f := by
  constructor
  · intro hall
    have hgoes (f : BundleFile) : passes w.serving.faults 0 = true ∧ Passed cfg w r f := by
      obtain ⟨hnone, hfailed⟩ := hall f
      rw [applyFate_eq] at hnone hfailed
      split_ifs at hnone hfailed with hearlier hown
      · exact ⟨hearlier.1, hown⟩
      · exact absurd rfl hfailed
      · exact absurd rfl hnone
    exact ⟨(hgoes .cert).1, fun f => (hgoes f).2⟩
  · rintro ⟨hmkdir, hpassed⟩ f
    rw [applyFate_eq, if_pos ⟨hmkdir, fun g _ => hpassed g⟩, if_pos (hpassed f)]
    exact ⟨by simp, by simpa using fateOf_ne_failed _ _ _⟩

/-- A file is replaced when no vital call fails before its rename, and there is one. -/
theorem replaced_iff (f : BundleFile) : Replaced (applyFate cfg w r f) ↔
    (passes w.serving.faults 0 = true ∧
      ∀ g ∈ BundleFile.all.takeWhile (· ≠ f), Passed cfg w r g) ∧
      Passed cfg w r f ∧ .rename ∈ callsOf cfg w r f := by
  rw [applyFate_eq]
  split_ifs with hearlier hown
  · rw [replaced_fateOf, and_iff_right hearlier, and_iff_right hown]
    rfl
  · simp [Replaced, hown]
  · exact iff_of_false (by simp [Replaced]) fun hall => hearlier hall.1

/-- A file with other content is to be replaced when the record has content for it. -/
theorem rename_mem_callsOf {f : BundleFile} (h : w.served cfg r.key f ≠ some (r.blob f.blobName)) :
    .rename ∈ callsOf cfg w r f ↔ r.blob f.blobName ≠ [] := by
  rw [← data_fromRecord] at h ⊢
  unfold callsOf writeCalls
  split_ifs <;> simp_all [replaceCalls]

/-- What a rollback leaves of a file is what was served, or the record's content, as the first read
and the older backup say. -/
theorem restored_iff {f : BundleFile} (hserved : w.served cfg r.key f ≠ none) {s' : Slot Bytes}
    (h : SlotAfter (r.blob f.blobName) (w.slot cfg r.key f) s'
      (some (fateOf (reads cfg w r f) (w.served cfg r.key f) ((fromRecord r).data f)))) :
    (s'.restore.current = w.served cfg r.key f ↔ BringsBack cfg w r f) ∧
      (s'.restore.current = some (r.blob f.blobName) ↔ LeavesNew cfg w r f) := by
  rw [data_fromRecord] at h
  have hrestored := h.restored hserved
  have hslot : w.slot cfg r.key f = ⟨w.served cfg r.key f, w.backup cfg r.key f⟩ := rfl
  rw [hslot] at hrestored
  simp only [hrestored, BringsBack, LeavesNew]
  obtain ⟨c, hc⟩ := Option.ne_none_iff_exists'.mp hserved
  cases hback : w.backup cfg r.key f <;> cases reads cfg w r f <;>
    simp only [hc, Option.none_or, Option.some_or] <;> grind

end Calls

/-- Two values of which some are replaced are both the old or both the new ones exactly when one
of them does not change or both are replaced or neither. -/
theorem both_old_or_both_new_iff {α : Type*} {p q : Prop} [Decidable p] [Decidable q]
    {c k c' k' : α} :
    ((if p then c' else c) = c ∧ (if q then k' else k) = k ∨
      (if p then c' else c) = c' ∧ (if q then k' else k) = k') ↔ c = c' ∨ k = k' ∨ (p ↔ q) := by
  by_cases hp : p
  · by_cases hq : q
    · simp [hp, hq]
    · simp [hp, hq, eq_comm]
  · by_cases hq : q
    · simp [hp, hq, or_comm, eq_comm]
    · simp [hp, hq]

/-- `Apply` reports a change when no write fails and one replaces its file. -/
theorem apply_changed_iff (cfg : Config) (r : Record) (h : w.serving.Running) :
    (apply cfg r w).1 = .ok true ↔ (∀ f, Succeeded (applyFate cfg w r f)) ∧
      ∃ f ∈ BundleFile.all, Replaced (applyFate cfg w r f) := by
  obtain ⟨_, _, hok, herror, _⟩ := apply_fates cfg r h
  by_cases hall : ∀ f, Succeeded (applyFate cfg w r f)
  · rw [hok hall, and_iff_right hall]
    simp
  · obtain ⟨e, he⟩ := herror hall
    exact iff_of_false (by simp [he]) fun hboth => hall hboth.1

/-- `Apply` reports a change and the hook fails exactly when the record is rolled back. -/
theorem changed_and_fails_iff (r : Record) (h : w.serving.Running) :
    (apply cfg r w).1 = .ok true ∧ (cfg.runner.run w.commands).1 ≠ .ok () ↔ Undone cfg w r := by
  rw [apply_changed_iff cfg r h, succeeded_iff]
  constructor
  · rintro ⟨⟨⟨hmkdir, hpassed⟩, f, _, hreplaced⟩, hhook⟩
    exact ⟨hmkdir, hpassed, ⟨f, ((replaced_iff w r f).mp hreplaced).2.2⟩, hhook⟩
  · rintro ⟨hmkdir, hpassed, ⟨f, hrename⟩, hhook⟩
    refine ⟨⟨⟨hmkdir, hpassed⟩, f, f.mem_all, ?_⟩, hhook⟩
    exact (replaced_iff w r f).mpr ⟨⟨hmkdir, fun g _ => hpassed g⟩, hpassed f, hrename⟩

theorem Undone.applyFate_eq (h : Undone cfg w r) (f : BundleFile) :
    applyFate cfg w r f =
      some (fateOf (reads cfg w r f) (w.served cfg r.key f) ((fromRecord r).data f)) := by
  rw [Certs.applyFate_eq, if_pos ⟨h.mkdir, fun g _ => h.passed g⟩, if_pos (h.passed f)]

/-- The two files are replaced alike, or one of them need not be, exactly when no call for
`privkey.pem` fails after `cert.pem` has got to its place, or there is nothing to put there. -/
theorem replaced_alike_iff (w : World) (r : Record) :
    (w.served cfg r.key .cert = some (r.blob (ascii "cert")) ∨
      w.served cfg r.key .key = some (r.blob (ascii "key")) ∨
      (Replaced (applyFate cfg w r .cert) ↔ Replaced (applyFate cfg w r .key))) ↔
    (w.served cfg r.key .cert ≠ some (r.blob (ascii "cert")) →
      w.served cfg r.key .key ≠ some (r.blob (ascii "key")) →
      passes w.serving.faults 0 = true → Passed cfg w r .cert →
        r.blob (ascii "cert") ≠ [] ∧ r.blob (ascii "key") ≠ [] ∧ Passed cfg w r .key ∨
        r.blob (ascii "cert") = [] ∧ (r.blob (ascii "key") = [] ∨ ¬ Passed cfg w r .key)) := by
  by_cases hcert : w.served cfg r.key .cert = some (r.blob (ascii "cert"))
  · simp [hcert]
  by_cases hkey : w.served cfg r.key .key = some (r.blob (ascii "key"))
  · simp [hkey]
  have hearlier : BundleFile.all.takeWhile (· ≠ .cert) = [] ∧
      BundleFile.all.takeWhile (· ≠ .key) = [.cert] := by decide
  have hcert' : Replaced (applyFate cfg w r .cert) ↔
      passes w.serving.faults 0 = true ∧ Passed cfg w r .cert ∧ r.blob (ascii "cert") ≠ [] := by
    rw [replaced_iff, hearlier.1, rename_mem_callsOf w r hcert]
    simp only [List.not_mem_nil, false_imp_iff, implies_true, and_true, BundleFile.blobName]
  have hkey' : Replaced (applyFate cfg w r .key) ↔
      (passes w.serving.faults 0 = true ∧ Passed cfg w r .cert) ∧ Passed cfg w r .key ∧
        r.blob (ascii "key") ≠ [] := by
    rw [replaced_iff, hearlier.2, rename_mem_callsOf w r hkey]
    simp only [List.mem_singleton, forall_eq, BundleFile.blobName]
  rw [hcert', hkey', or_iff_right hcert, or_iff_right hkey]
  simp only [ne_eq, hcert, hkey, not_false_eq_true, true_imp_iff]
  by_cases hpassed : passes w.serving.faults 0 = true ∧ Passed cfg w r .cert
  · by_cases hc : r.blob (ascii "cert") = []
    · simp [hpassed.1, hpassed.2, hc, imp_iff_or_not, or_comm]
    · simp [hpassed.1, hpassed.2, hc, and_comm]
  · exact iff_of_true (iff_of_false (fun h => hpassed ⟨h.1, h.2.1⟩) fun h => hpassed h.1)
      fun hmkdir hcert => absurd ⟨hmkdir, hcert⟩ hpassed

/-- What the calls for other lineages keep: the files of the lineage, and whether it is among
the changed ones. -/
structure Undisturbed (cfg : Config) (key : GoString) (acc acc' : World × List GoString) :
    Prop where
  running : acc'.1.serving.Running
  slots : ∀ f, acc'.1.slot cfg key f = acc.1.slot cfg key f
  changed : key ∈ acc'.2 ↔ key ∈ acc.2

theorem undisturbed_applyCall {key : GoString} {call : GoString × Record} (hkey : call.1 ≠ key)
    (hdir : cfg.dir call.2.key ≠ cfg.dir key) {acc : World × List GoString}
    (h : acc.1.serving.Running) :
    Undisturbed cfg key acc (applyCall (provider cfg) acc call) := by
  obtain ⟨hrunning, _, _, _, hforeign⟩ := apply_fates cfg call.2 h
  have hworld : (applyCall (provider cfg) acc call).1 = (apply cfg call.2 acc.1).2 :=
    applyCall_fst _ _ _
  have hother : ∀ q : Path, q.dir = cfg.dir key → Foreign (cfg.dir call.2.key) q := by
    intro q hq g
    exact ⟨fun heq => hdir ((congrArg Path.dir heq).symm.trans hq),
      fun heq => hdir ((congrArg Path.dir heq).symm.trans hq)⟩
  refine ⟨hworld ▸ hrunning, fun f => ?_, ?_⟩
  · have hplain := BundleFile.plain_of_mem_names _ f.fileName_mem_names
    have hfile := hforeign ⟨cfg.dir key, f.fileName⟩ (hother _ rfl) hplain.not_temp
    have hback := hforeign (Path.backup ⟨cfg.dir key, f.fileName⟩) (hother _ rfl)
      f.backup_not_temp
    rw [hworld]
    simp only [World.slot, Disk.slot, Disk.content, hfile, hback]
  · rw [applyCall_snd, List.mem_append, or_iff_left]
    split_ifs
    · exact fun hmem => hkey (List.mem_singleton.mp hmem).symm
    · exact List.not_mem_nil

theorem undisturbed_foldl {key : GoString} {calls : List (GoString × Record)}
    (hcalls : ∀ call ∈ calls, call.1 ≠ key ∧ cfg.dir call.2.key ≠ cfg.dir key)
    {acc : World × List GoString} (h : acc.1.serving.Running) :
    Undisturbed cfg key acc (calls.foldl (applyCall (provider cfg)) acc) := by
  induction calls generalizing acc with
  | nil => exact ⟨h, fun _ => rfl, Iff.rfl⟩
  | cons call rest ih =>
      obtain ⟨hkey, hdir⟩ := hcalls call List.mem_cons_self
      have hfirst := undisturbed_applyCall hkey hdir h
      have hrest := ih (fun c hc => hcalls c (List.mem_cons_of_mem _ hc)) hfirst.running
      exact ⟨hrest.running, fun f => (hrest.slots f).trans (hfirst.slots f),
        hrest.changed.trans hfirst.changed⟩

/-- The hook of a tick changes no file when it succeeds, and restores the changed lineages when
it fails. -/
theorem serving_finishTick (cfg : Config) (changed : List GoString) (w : World) :
    (finishTick (provider cfg) changed w).serving =
      if changed = [] ∨ (cfg.runner.run w.commands).1 = .ok () then w.serving
      else (rollbackKeys cfg changed w.serving).2 := by
  have hflush : (provider cfg).flush w = ((cfg.runner.run w.commands).1,
      { w with commands := (cfg.runner.run w.commands).2 }) := rfl
  by_cases hnone : changed = []
  · rw [finishTick, if_pos hnone, if_pos (Or.inl hnone)]
  · rw [finishTick, if_neg hnone, hflush]
    cases hhook : (cfg.runner.run w.commands).1 with
    | ok u => simp
    | error e =>
        simp only [hnone, reduceCtorEq, or_self, if_false]
        exact serving_rollback changed _

section Tick

variable {lineages : Set GoString} {before after : List (GoString × Record)}

/-- The other calls of a tick are for other directories. -/
theorem others_apart (hdirs : Set.InjOn cfg.dir lineages)
    (hcalls : WinnerCalls lineages (before ++ (r.key, r) :: after)) :
    ∀ call, call ∈ before ∨ call ∈ after →
      call.1 ≠ r.key ∧ cfg.dir call.2.key ≠ cfg.dir r.key := by
  intro call hcall
  have hmem : call ∈ before ++ (r.key, r) :: after := by
    rcases hcall with hcall | hcall <;> simp [hcall]
  have hne : call.1 ≠ r.key := by
    intro heq
    have hnodup := hcalls.nodup
    rw [List.map_append, List.map_cons, List.nodup_append] at hnodup
    obtain ⟨_, hlater, hapart⟩ := hnodup
    rcases hcall with hcall | hcall
    · exact hapart call.1 (List.mem_map_of_mem hcall) r.key List.mem_cons_self heq
    · have hmap : call.1 ∈ after.map Prod.fst := List.mem_map_of_mem hcall
      exact (List.nodup_cons.mp hlater).1 (heq ▸ hmap)
  obtain ⟨hkey, hown⟩ := hcalls.own call hmem
  have hr := (hcalls.own (r.key, r) (by simp)).1
  exact ⟨hne, fun heq => hne (hdirs hkey hr (hown ▸ heq))⟩

section Winner

variable (hdirs : Set.InjOn cfg.dir lineages)
  (hcalls : WinnerCalls lineages (before ++ (r.key, r) :: after)) (h : w.serving.Running)

include hdirs hcalls h

/-- The calls before that of a winner leave its files alone. -/
theorem undisturbed_before :
    Undisturbed cfg r.key (w, []) (before.foldl (applyCall (provider cfg)) (w, [])) :=
  undisturbed_foldl (fun call hcall => others_apart hdirs hcalls call (Or.inl hcall)) h

/-- All calls of a tick leave the files of a winner as its own call does. -/
theorem applied_winner :
    let out := apply cfg r (afterCalls cfg before w)
    let acc := (before ++ (r.key, r) :: after).foldl (applyCall (provider cfg)) (w, [])
    acc.1.serving.Running ∧ (∀ f, acc.1.slot cfg r.key f = out.2.slot cfg r.key f) ∧
      (r.key ∈ acc.2 ↔ out.1 = .ok true) := by
  intro out acc
  have hbefore := undisturbed_before hdirs hcalls h
  let acc₁ := applyCall (provider cfg) (before.foldl (applyCall (provider cfg)) (w, [])) (r.key, r)
  have hworld : acc₁.1 = out.2 := applyCall_fst _ _ _
  have hrunning : acc₁.1.serving.Running := hworld ▸ (apply_fates cfg r hbefore.running).1
  have hafter := undisturbed_foldl (fun call hcall => others_apart hdirs hcalls call (Or.inr hcall))
    hrunning
  have hacc : acc = after.foldl (applyCall (provider cfg)) acc₁ := by
    simp only [acc, acc₁, List.foldl_append, List.foldl_cons]
  have hfirst : r.key ∉ (before.foldl (applyCall (provider cfg)) (w, [])).2 :=
    fun hmem => List.not_mem_nil (hbefore.changed.mp hmem)
  have hown : r.key ∈ acc₁.2 ↔ out.1 = .ok true := by
    have hsnd : acc₁.2 = _ ++ if out.1 = .ok true then [r.key] else [] := applyCall_snd _ _ _
    rw [hsnd, List.mem_append, or_iff_right hfirst]
    by_cases hchanged : out.1 = .ok true <;> simp [hchanged]
  rw [hacc]
  exact ⟨hafter.running, fun f => (hafter.slots f).trans (by rw [hworld]),
    hafter.changed.trans hown⟩

/-- What a tick serves for one of its winners: the written files, or their restored backups
when a change was reported and the hook fails. -/
theorem served_tick (hquiet : QuietRollback cfg (before ++ (r.key, r) :: after) w)
    (f : BundleFile) :
    let out := apply cfg r (afterCalls cfg before w)
    (applyTick (provider cfg) (before ++ (r.key, r) :: after) w).served cfg r.key f =
      if out.1 = .ok true ∧ (cfg.runner.run w.commands).1 ≠ .ok () then
        (out.2.slot cfg r.key f).restore.current
      else (out.2.slot cfg r.key f).current := by
  intro out
  let acc := (before ++ (r.key, r) :: after).foldl (applyCall (provider cfg)) (w, [])
  obtain ⟨hrunning, hslots, hchanged⟩ :
      acc.1.serving.Running ∧ (∀ f, acc.1.slot cfg r.key f = out.2.slot cfg r.key f) ∧
        (r.key ∈ acc.2 ↔ out.1 = .ok true) := applied_winner hdirs hcalls h
  have hcommands : acc.1.commands = w.commands := commands_foldl_applyCall cfg _ (w, [])
  have hserving := serving_finishTick cfg acc.2 acc.1
  rw [hcommands] at hserving
  change (finishTick (provider cfg) acc.2 acc.1).served cfg r.key f = _
  by_cases hkept : acc.2 = [] ∨ (cfg.runner.run w.commands).1 = .ok ()
  · rw [if_pos hkept] at hserving
    rw [World.served, hserving, if_neg, ← hslots f]
    · rfl
    · rintro ⟨htrue, hhook⟩
      rcases hkept with hnone | hok
      · exact List.not_mem_nil (hnone ▸ hchanged.mpr htrue)
      · exact hhook hok
  · rw [if_neg hkept] at hserving
    obtain ⟨hsome, hhook⟩ := not_or.mp hkept
    have hfails : FlushFails (provider cfg) (before ++ (r.key, r) :: after) w := by
      refine ⟨hsome, ?_⟩
      have hflush : ((provider cfg).flush acc.1).1 = (cfg.runner.run w.commands).1 := by
        rw [← hcommands]
        rfl
      cases hrun : (cfg.runner.run w.commands).1 with
      | ok u => exact absurd hrun hhook
      | error e => exact ⟨e, hflush.trans hrun⟩
    obtain ⟨hfaults, _, hok⟩ := hquiet hfails
    obtain ⟨d, hroll, _⟩ := rollback_of_ok hok
    have hroll' : rollbackKeys cfg acc.2 acc.1.serving = (.ok (), d) := hroll
    obtain ⟨hnodup, hmem⟩ : acc.2.Nodup ∧ ∀ key ∈ acc.2, key ∈ lineages :=
      hcalls.changed (provider cfg) w
    have hhealthy : acc.1.serving.Healthy := ⟨hfaults, hrunning.1⟩
    obtain ⟨_, hcontent⟩ := rollbackKeys_content hdirs hnodup hmem hhealthy hroll'
    have hkey := (hcalls.own (r.key, r) (by simp)).1
    rw [World.served, hserving, hroll', hcontent r.key hkey f, ← hslots f]
    simp only [hchanged, ne_eq, hhook, not_false_eq_true, and_true]
    rfl

/-- At the end of a tick, whatever calls failed before the rollback, the served certificate and
key of a winner belong together exactly in these cases. -/
theorem together_iff (hserved : ∀ f, w.served cfg r.key f ≠ none)
    (hquiet : QuietRollback cfg (before ++ (r.key, r) :: after) w) :
    Together cfg w (applyTick (provider cfg) (before ++ (r.key, r) :: after) w) r ↔
      StaysWhole cfg (afterCalls cfg before w) r := by
  have hbefore := undisturbed_before hdirs hcalls h
  let w₁ := afterCalls cfg before w
  have hrunning : w₁.serving.Running := hbefore.running
  have hslot (f : BundleFile) : w₁.slot cfg r.key f = w.slot cfg r.key f := hbefore.slots f
  have hold (f : BundleFile) : w₁.served cfg r.key f = w.served cfg r.key f :=
    congrArg Slot.current (hslot f)
  have hcommands : w₁.commands = w.commands := commands_foldl_applyCall cfg before (w, [])
  obtain ⟨_, hafter, _⟩ := apply_fates cfg r hrunning
  have hafterTick := served_tick hdirs hcalls h hquiet
  have hundone : (apply cfg r w₁).1 = .ok true ∧ (cfg.runner.run w.commands).1 ≠ .ok () ↔
      Undone cfg w₁ r := by
    rw [← hcommands]
    exact changed_and_fails_iff r hrunning
  rw [Together, ← hold, ← hold]
  by_cases hu : Undone cfg w₁ r
  · have hrestored (f : BundleFile) := restored_iff w₁ r (hold f ▸ hserved f)
      (hu.applyFate_eq f ▸ hafter f)
    have hcond : StaysWhole cfg w₁ r ↔ _ := ⟨fun hw => hw.undone hu,
      fun hw => ⟨fun hnot => absurd hu hnot, fun _ => hw⟩⟩
    rw [hcond, hafterTick, hafterTick, if_pos (hundone.mpr hu), if_pos (hundone.mpr hu)]
    exact or_congr (and_congr (hrestored .cert).1 (hrestored .key).1)
      (and_congr (hrestored .cert).2 (hrestored .key).2)
  · have hcurrent (f : BundleFile) :=
      (hafterTick f).trans ((if_neg (mt hundone.mp hu)).trans (hafter f).current)
    have hcond : StaysWhole cfg w₁ r ↔ _ := ⟨fun hw => hw.kept hu,
      fun hw => ⟨fun _ => hw, fun hyes => absurd hyes hu⟩⟩
    rw [hcond, hcurrent, hcurrent]
    exact both_old_or_both_new_iff.trans (replaced_alike_iff w₁ r)

end Winner

end Tick

/-- The first twelve calls: all pass but the second read of the old key. -/
def keyReadFails : List Fault := List.replicate 11 .pass ++ [.fail none]

/-- The certificate is replaced and the backup of the key fails. `Apply` returns an error,
nothing is rolled back, and the new certificate is served with the old key. -/
theorem new_certificate_old_key :
    (sampleWorld.facing keyReadFails).serving.Running ∧
    (apply sampleConfig (sampleWinner [2] [2]).2 (sampleWorld.facing keyReadFails)).1 =
      .error .io ∧
    (let w := applyTick (provider sampleConfig) [sampleWinner [2] [2]]
      (sampleWorld.facing keyReadFails)
     BundleFile.all.map (sampleWorld.served sampleConfig (ascii "a")) =
        [some [1], some [1], some [1], some [1]] ∧
      w.served sampleConfig (ascii "a") .cert = some [2] ∧
      w.served sampleConfig (ascii "a") .key = some [1]) :=
  ⟨⟨rfl, by simp [World.facing, keyReadFails]⟩, by decide, by decide, by decide, by decide⟩

/-- When the write of the certificate fails both files stay. -/
theorem failed_certificate_whole :
    Together sampleConfig (sampleWorld.facing [.pass, .pass, .fail none])
      (applyTick (provider sampleConfig) [sampleWinner [2] [2]]
        (sampleWorld.facing [.pass, .pass, .fail none])) (sampleWinner [2] [2]).2 := by
  have hcalls : WinnerCalls sampleLineages
      ([] ++ ((sampleWinner [2] [2]).2.key, (sampleWinner [2] [2]).2) :: []) :=
    winnerCalls_sampleWinner [2] [2]
  have hrunning : (sampleWorld.facing [.pass, .pass, .fail none]).serving.Running :=
    ⟨rfl, by simp [World.facing]⟩
  have hserved : ∀ f, (sampleWorld.facing [.pass, .pass, .fail none]).served sampleConfig
      (sampleWinner [2] [2]).2.key f ≠ none := fun f => by cases f <;> decide
  have hfails : ¬ Passed sampleConfig (sampleWorld.facing [.pass, .pass, .fail none])
      (sampleWinner [2] [2]).2 .cert := by decide
  refine (together_iff sampleLineages_dirs hcalls hrunning hserved fun hfail => ?_).mpr
    ⟨fun _ _ _ _ hpassed => absurd hpassed hfails, fun hundone => ?_⟩
  · exact absurd (by decide) hfail.1
  · exact absurd (hundone.passed .cert) hfails

end Lbsync.Certs
