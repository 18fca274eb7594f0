import Lbsync.Files.Failures

/-!
# The fate of a write

Where the process does not stop, the content that is there and how the coming
calls go decide how a write ends. The fates below read this off the list of coming
failures, call by call, and the write returns and leaves what its fate says.
-/

namespace Lbsync.Files

/-- Whether the next call passes, and what comes after it. -/
def takeFault : List Fault → Bool × List Fault
  | [] => (true, [])
  | .pass :: rest => (true, rest)
  | .fail _ :: rest => (false, rest)
  | .stop _ :: rest => (false, rest)

/-- Whether a temp file that was made gets to its place. -/
def fillFate (faults : List Fault) : Bool × List Fault :=
  match takeFault faults with
  | (false, faults) => (false, (takeFault faults).2)
  | (true, faults) =>
      match takeFault faults with
      | (false, faults) => (false, (takeFault faults).2)
      | (true, faults) =>
          match takeFault faults with
          | (false, faults) => (false, faults)
          | (true, faults) => takeFault faults

/-- Whether a file gets to its place through a temp file. -/
def replaceFate (faults : List Fault) : Bool × List Fault :=
  match takeFault faults with
  | (false, faults) => (false, faults)
  | (true, faults) => ((fillFate faults).1, (takeFault (fillFate faults).2).2)

/-- How a write ends: it finds the content in place, it fails, or it replaces the file, with
or without a backup of what was there. -/
inductive Fate where
  | same | failed | backedUp | blind
  deriving DecidableEq, Repr

/-- How replacing a file ends. -/
def replaceAs (fate : Fate) (faults : List Fault) : Fate × List Fault :=
  (if (replaceFate faults).1 then fate else .failed, (replaceFate faults).2)

/-- How a write ends, from the content that is there and the coming failures. A read that
fails is taken for a missing file. -/
def writeFate (old : Option Bytes) (data : Bytes) (faults : List Fault) : Fate × List Fault :=
  match takeFault faults, old with
  | (true, faults), some content =>
      if content = data then (.same, faults)
      else
        match takeFault faults with
        | (false, faults) => (.failed, faults)
        | (true, faults) =>
            match takeFault faults with
            | (false, faults) => (.failed, faults)
            | (true, faults) => replaceAs .backedUp faults
  | (_, faults), _ => replaceAs .blind faults

namespace Disk

variable {α : Type*}

/-- The process runs and will not be stopped. -/
def Running (d : Disk) : Prop := d.stopped = false ∧ ∀ w, .stop w ∉ d.faults

/-- Whether the calls went well, and what is to come after them. -/
structure Ends (fate : Bool × List Fault) (r : Except DiskErr α × Disk) : Prop where
  isOk : r.1.isOk = fate.1
  faults : r.2.faults = fate.2
  running : r.2.Running

/-- One call goes well if it passes and nothing else is in its way. -/
abbrev Takes (free : Bool) (d : Disk) (r : Except DiskErr α × Disk) : Prop :=
  Ends ((takeFault d.faults).1 && free, (takeFault d.faults).2) r

theorem next_running {d : Disk} (h : d.Running) :
    (d.next.1 = .pass ↔ (takeFault d.faults).1 = true) ∧
      d.next.2.faults = (takeFault d.faults).2 ∧ d.next.2.Running := by
  obtain ⟨hstopped, hstop⟩ := h
  unfold next Running
  rw [if_neg (by simp [hstopped])]
  rcases hfaults : d.faults with _ | ⟨fault, rest⟩
  · simp [takeFault, hstopped, hfaults]
  · rw [hfaults] at hstop
    have hrest : ∀ w, Fault.stop w ∉ rest := fun w hw => hstop w (List.mem_cons_of_mem _ hw)
    cases fault with
    | pass => simp [takeFault, hstopped, hrest]
    | fail w => simp [takeFault, hstopped, hrest]
    | stop w => exact absurd List.mem_cons_self (hstop w)

/-- What a call does to the coming failures, when its effect and its cut off write leave
them alone. -/
theorem call_takes {d : Disk} (h : d.Running) {effect : Disk → Except DiskErr α × Disk}
    {torn : Nat → Disk → Disk} {free : Bool}
    (heffect : (effect d.next.2).2.faults = d.next.2.faults ∧
      (effect d.next.2).2.stopped = d.next.2.stopped)
    (htorn : ∀ k, (torn k d.next.2).faults = d.next.2.faults ∧
      (torn k d.next.2).stopped = d.next.2.stopped)
    (hfree : (effect d.next.2).1.isOk = free) : Takes free d (d.call effect torn) := by
  obtain ⟨hpass, hfaults, hrunning⟩ := next_running h
  have hkeeps {d' : Disk} (hd' : d'.faults = d.next.2.faults ∧ d'.stopped = d.next.2.stopped) :
      d'.faults = (takeFault d.faults).2 ∧ d'.Running := by
    refine ⟨hd'.1.trans hfaults, ?_⟩
    unfold Running
    rw [hd'.1, hd'.2]
    exact hrunning
  rcases d.call_cases effect torn with ⟨hok, hcall⟩ | ⟨hnot, hcall | ⟨k, hcall⟩⟩
  · rw [hcall]
    exact ⟨by simp [hpass.mp hok, hfree], (hkeeps heffect).1, (hkeeps heffect).2⟩
  · rw [hcall]
    have hno := Bool.eq_false_iff.mpr (mt hpass.mpr hnot)
    exact ⟨by simp [hno, Except.isOk, Except.toBool], (hkeeps ⟨rfl, rfl⟩).1,
      (hkeeps ⟨rfl, rfl⟩).2⟩
  · rw [hcall]
    have hno := Bool.eq_false_iff.mpr (mt hpass.mpr hnot)
    exact ⟨by simp [hno, Except.isOk, Except.toBool], (hkeeps (htorn k)).1,
      (hkeeps (htorn k)).2⟩

theorem overwrite_outlook (d : Disk) (path : Path) (data : Bytes) (perm : UInt32) :
    (d.overwrite path data perm).faults = d.faults ∧
      (d.overwrite path data perm).stopped = d.stopped := by
  unfold overwrite
  cases d.file path <;> exact ⟨rfl, rfl⟩

theorem modify_outlook (d : Disk) (path : Path) (g : File → File) :
    (d.modify path g).faults = d.faults ∧ (d.modify path g).stopped = d.stopped := by
  unfold modify
  cases d.file path <;> exact ⟨rfl, rfl⟩

section Takes

variable {d : Disk} (h : d.Running)

include h

theorem readFile_takes (path : Path) : Takes (d.file path).isSome d (d.readFile path) := by
  refine call_takes h ?_ (fun _ => ⟨rfl, rfl⟩) ?_
  · cases hf : d.next.2.file path <;> exact ⟨rfl, rfl⟩
  · rw [← d.file_next path]
    cases hf : d.next.2.file path <;> rfl

theorem writeFile_takes (path : Path) (data : Bytes) (perm : UInt32) :
    Takes true d (d.writeFile path data perm) :=
  call_takes h (overwrite_outlook _ _ _ _) (fun _ => overwrite_outlook _ _ _ _) rfl

theorem createTemp_takes (tmp : TempNamer) (dir : GoString) :
    Takes true d (d.createTemp tmp dir) :=
  call_takes h ⟨rfl, rfl⟩ (fun _ => ⟨rfl, rfl⟩) rfl

theorem write_takes (path : Path) (data : Bytes) : Takes true d (d.write path data) :=
  call_takes h (modify_outlook _ _ _) (fun _ => modify_outlook _ _ _) rfl

theorem chmod_takes (path : Path) (perm : UInt32) : Takes true d (d.chmod path perm) :=
  call_takes h (modify_outlook _ _ _) (fun _ => ⟨rfl, rfl⟩) rfl

theorem close_takes : Takes true d d.close := call_takes h ⟨rfl, rfl⟩ (fun _ => ⟨rfl, rfl⟩) rfl

theorem rename_takes {old new : Path} {f : File} (hf : d.file old = some f)
    (hname : ¬ Disk.IsDots new.name) : Takes true d (d.rename old new) := by
  have hf' := (d.file_next old).trans hf
  refine call_takes h ?_ (fun _ => ⟨rfl, rfl⟩) ?_
  · simp [hf', hname, set, erase]
  · simp [hf', hname, Except.isOk, Except.toBool]

theorem remove_takes (path : Path) : Takes (d.file path).isSome d (d.remove path) := by
  refine call_takes h ?_ (fun _ => ⟨rfl, rfl⟩) ?_
  · cases hf : d.next.2.file path <;> exact ⟨rfl, rfl⟩
  · rw [← d.file_next path]
    cases hf : d.next.2.file path <;> rfl

end Takes

theorem Takes.ok {d : Disk} {r : Except DiskErr α × Disk} {rest : List Fault}
    (h : Takes true d r) (htake : takeFault d.faults = (true, rest)) :
    ∃ a d', r = (.ok a, d') ∧ d'.faults = rest ∧ d'.Running := by
  obtain ⟨hok, hfaults, hrunning⟩ := h
  rw [htake] at hok hfaults
  rcases r with ⟨_ | a, d'⟩
  · exact absurd hok (by simp [Except.isOk, Except.toBool])
  · exact ⟨a, d', rfl, hfaults, hrunning⟩

theorem Takes.error {free : Bool} {d : Disk} {r : Except DiskErr α × Disk} {rest : List Fault}
    (h : Takes free d r) (htake : takeFault d.faults = (false, rest)) :
    ∃ e d', r = (.error e, d') ∧ d'.faults = rest ∧ d'.Running := by
  obtain ⟨hok, hfaults, hrunning⟩ := h
  rw [htake] at hok hfaults
  rcases r with ⟨e | a, d'⟩
  · exact ⟨e, d', rfl, hfaults, hrunning⟩
  · exact absurd hok (by simp [Except.isOk, Except.toBool])

end Disk

open Disk

/-- Filling a temp file ends as its fate says. -/
theorem fillTemp_ends {d : Disk} (h : d.Running) {temp path : Path} {f : File}
    (hf : d.file temp = some f) (hname : ¬ Disk.IsDots path.name) (data : Bytes) (perm : UInt32) :
    Ends (fillFate d.faults) (fillTemp d temp path data perm) := by
  have hgiveUp {d : Disk} (hd : d.Running) {rest : List Fault} (hrest : d.faults = rest)
      (e : DiskErr) :
      Ends (false, (takeFault rest).2) ((.error e : Except DiskErr Bool), d.close.2) :=
    ⟨rfl, by rw [(close_takes hd).faults, hrest], (close_takes hd).running⟩
  rcases htake₁ : takeFault d.faults with ⟨_ | _, rest₁⟩
  · obtain ⟨e, d₁, hwrite, hfaults₁, hrunning₁⟩ := (write_takes h temp data).error htake₁
    simp only [fillFate, htake₁, FileCalls.fillTemp, hwrite]
    exact hgiveUp hrunning₁ hfaults₁ e
  obtain ⟨_, d₁, hwrite, hfaults₁, hrunning₁⟩ := (write_takes h temp data).ok htake₁
  have hfile₁ : ∃ f₁, d₁.file temp = some f₁ := by
    obtain ⟨d', _, ⟨hrun, hfile⟩ | hrun⟩ := d.write_cases hf data
    · obtain ⟨_, rfl⟩ := Prod.mk.inj (hwrite.symm.trans hrun)
      exact ⟨_, hfile⟩
    · cases congrArg Prod.fst (hwrite.symm.trans hrun)
  obtain ⟨f₁, hfile₁⟩ := hfile₁
  rcases htake₂ : takeFault rest₁ with ⟨_ | _, rest₂⟩
  · obtain ⟨e, d₂, hchmod, hfaults₂, hrunning₂⟩ :=
      (chmod_takes hrunning₁ temp perm).error (hfaults₁ ▸ htake₂)
    simp only [fillFate, htake₁, htake₂, FileCalls.fillTemp, hwrite, hchmod]
    exact hgiveUp hrunning₂ hfaults₂ e
  obtain ⟨_, d₂, hchmod, hfaults₂, hrunning₂⟩ :=
    (chmod_takes hrunning₁ temp perm).ok (hfaults₁ ▸ htake₂)
  have hfile₂ : ∃ f₂, d₂.file temp = some f₂ := by
    obtain ⟨d', _, ⟨hrun, hfile⟩ | hrun⟩ := d₁.chmod_cases hfile₁ perm
    · obtain ⟨_, rfl⟩ := Prod.mk.inj (hchmod.symm.trans hrun)
      exact ⟨_, hfile⟩
    · cases congrArg Prod.fst (hchmod.symm.trans hrun)
  obtain ⟨f₂, hfile₂⟩ := hfile₂
  rcases htake₃ : takeFault rest₂ with ⟨_ | _, rest₃⟩
  · obtain ⟨e, d₃, hclose, hfaults₃, hrunning₃⟩ :=
      (close_takes hrunning₂).error (hfaults₂ ▸ htake₃)
    simp only [fillFate, htake₁, htake₂, htake₃, FileCalls.fillTemp, hwrite, hchmod, hclose]
    exact ⟨rfl, hfaults₃, hrunning₃⟩
  obtain ⟨_, d₃, hclose, hfaults₃, hrunning₃⟩ := (close_takes hrunning₂).ok (hfaults₂ ▸ htake₃)
  have hfile₃ : d₃.file temp = some f₂ := by
    have hnext : d₃ = d₂.next.2 := by
      rcases d₂.close_cases with hrun | hrun
      · exact congrArg Prod.snd (hclose.symm.trans hrun)
      · exact congrArg Prod.snd (hclose.symm.trans hrun)
    rw [hnext, d₂.file_next, hfile₂]
  have hrename := rename_takes hrunning₃ hfile₃ hname
  simp only [fillFate, htake₁, htake₂, htake₃, FileCalls.fillTemp, hwrite, hchmod, hclose]
  rcases htake₄ : takeFault rest₃ with ⟨_ | _, rest₄⟩
  · obtain ⟨e, d₄, hrun, hfaults₄, hrunning₄⟩ := hrename.error (hfaults₃ ▸ htake₄)
    rw [hrun]
    exact ⟨rfl, hfaults₄, hrunning₄⟩
  · obtain ⟨_, d₄, hrun, hfaults₄, hrunning₄⟩ := hrename.ok (hfaults₃ ▸ htake₄)
    rw [hrun]
    exact ⟨rfl, hfaults₄, hrunning₄⟩

/-- Going through a temp file ends as its fate says. -/
theorem replaceFile_ends (tmp : TempNamer) {d : Disk} (h : d.Running) {path : Path}
    (hname : ¬ Disk.IsDots path.name) (data : Bytes) (perm : UInt32) :
    Ends (replaceFate d.faults) (replaceFile tmp d path data perm) := by
  have hcreate := createTemp_takes h tmp path.dir
  rcases htake : takeFault d.faults with ⟨_ | _, rest⟩
  · obtain ⟨e, d₁, hrun, hfaults, hrunning⟩ := hcreate.error htake
    simp only [replaceFate, htake, FileSystem.replaceFile, hrun]
    exact ⟨rfl, hfaults, hrunning⟩
  · obtain ⟨temp, d₁, hrun, hfaults, hrunning⟩ := hcreate.ok htake
    have hfile : ∃ f, d₁.file temp = some f := by
      rcases d.createTemp_cases tmp path.dir with ⟨d', hrun', ⟨f, hf⟩, _⟩ | hrun'
      · obtain ⟨htemp, hd⟩ := Prod.mk.inj (hrun.symm.trans hrun')
        exact ⟨f, hd ▸ Except.ok.inj htemp ▸ hf⟩
      · cases congrArg Prod.fst (hrun.symm.trans hrun')
    obtain ⟨f, hf⟩ := hfile
    obtain ⟨hok, hfaults', hrunning'⟩ := fillTemp_ends hrunning hf hname data perm
    have hremove := remove_takes hrunning' temp
    simp only [replaceFate, htake, FileSystem.replaceFile, hrun]
    rw [hfaults] at hok hfaults'
    exact ⟨hok, by rw [hremove.faults, hfaults'], hremove.running⟩

/-- What a write with a given fate returns and leaves. -/
def Fate.Leaves (path : Path) (data : Bytes) (perm : UInt32) (d : Disk)
    (r : Except DiskErr Bool × Disk) : Fate → Prop
  | .same => r.1 = .ok false ∧ d.content path = some data ∧ r.2.files = d.files
  | .failed => ∃ e temp, r.1 = .error e ∧ temp.dir = path.dir ∧
      (∃ digits, temp.name = ascii ".tmp-" ++ digits) ∧ d.file temp = none ∧
      Frame {path.backup, temp} d r.2
  | .backedUp => r.1 = .ok true ∧ r.2.file path = some ⟨data, perm⟩ ∧ d.content path ≠ none ∧
      r.2.content path.backup = d.content path ∧ Frame {path, path.backup} d r.2
  | .blind => r.1 = .ok true ∧ r.2.file path = some ⟨data, perm⟩ ∧
      r.2.content path.backup = d.content path.backup ∧ Frame {path, path.backup} d r.2

/-- What a write returns, and what is to come after it. -/
structure Fate.Returns (fate : Fate × List Fault) (r : Except DiskErr Bool × Disk) : Prop where
  isOk : r.1.isOk = decide (fate.1 ≠ .failed)
  same : r.1 = .ok false ↔ fate.1 = .same
  faults : r.2.faults = fate.2
  running : r.2.Running

theorem replaceFile_returns (tmp : TempNamer) {d : Disk} (h : d.Running) {path : Path}
    (hname : ¬ Disk.IsDots path.name) (havoid : tmp.Avoids path) (data : Bytes) (perm : UInt32)
    {fate : Fate} (hfate : fate ≠ .failed ∧ fate ≠ .same) :
    Fate.Returns (replaceAs fate d.faults) (replaceFile tmp d path data perm) := by
  obtain ⟨hok, hfaults, hrunning⟩ := replaceFile_ends tmp h hname data perm
  have hnot : (replaceFile tmp d path data perm).1 ≠ .ok false := by
    rcases replaceFile_cases tmp d (havoid.tempPath_ne d) data perm with
      ⟨d', hrun, _⟩ | ⟨e, d', hrun, _⟩
    · simp [hrun]
    · simp [hrun]
  refine ⟨?_, iff_of_false hnot ?_, hfaults, hrunning⟩
  · rw [hok, replaceAs]
    cases (replaceFate d.faults).1 <;> simp [hfate.1]
  · rw [replaceAs]
    cases (replaceFate d.faults).1 <;> simp [hfate.2]

/-- The fate of a write decides what it returns. -/
theorem writeAtomic_returns (tmp : TempNamer) {d : Disk} (h : d.Running) {path : Path}
    (hname : ¬ Disk.IsDots path.name) (havoid : tmp.Avoids path) (data : Bytes) (perm : UInt32) :
    Fate.Returns (writeFate (d.content path) data d.faults) (writeAtomic tmp d path data perm) := by
  have hblind {d₁ : Disk} (hrunning₁ : d₁.Running) :
      Fate.Returns (replaceAs .blind d₁.faults) (replaceFile tmp d₁ path data perm) :=
    replaceFile_returns tmp hrunning₁ hname havoid data perm ⟨by simp, by simp⟩
  have hread := readFile_takes h path
  rcases htake : takeFault d.faults with ⟨_ | _, rest⟩
  · obtain ⟨e, d₁, hrun, rfl, hrunning₁⟩ := hread.error htake
    simp only [writeFate, htake, FileSystem.writeAtomic, hrun]
    exact hblind hrunning₁
  cases hf : d.file path with
  | none =>
      have hcontent : d.content path = none := by simp [Disk.content, hf]
      rw [hf] at hread
      obtain ⟨hok, hfaults, hrunning₁⟩ := hread
      rcases hrun : d.readFile path with ⟨e | existing, d₁⟩
      · rw [hrun, htake] at hfaults
        rw [hrun] at hrunning₁
        obtain rfl : d₁.faults = rest := hfaults
        simp only [writeFate, htake, hcontent, FileSystem.writeAtomic, hrun]
        exact hblind hrunning₁
      · simp [hrun, Except.isOk, Except.toBool] at hok
  | some f =>
      have hcontent : d.content path = some f.content := by simp [Disk.content, hf]
      rw [hf] at hread
      obtain ⟨existing, d₁, hrun, rfl, hrunning₁⟩ := hread.ok htake
      obtain ⟨rfl, hfile₁⟩ : existing = f.content ∧ d₁.file path = some f := by
        rcases d.readFile_cases path with ⟨f', hf', _, hrun'⟩ | ⟨e, hrun', _⟩
        · obtain ⟨hdata, rfl⟩ := Prod.mk.inj (hrun.symm.trans hrun')
          obtain rfl : f = f' := Option.some.inj (hf.symm.trans hf')
          exact ⟨Except.ok.inj hdata, (d.file_next path).trans hf⟩
        · cases congrArg Prod.fst (hrun.symm.trans hrun')
      simp only [writeFate, htake, hcontent, FileSystem.writeAtomic, hrun]
      by_cases hsame : f.content = data
      · rw [if_pos hsame, if_pos hsame]
        exact ⟨by simp [Except.isOk, Except.toBool], by simp, rfl, hrunning₁⟩
      rw [if_neg hsame, if_neg hsame]
      have hfailed {d₂ : Disk} (hrunning₂ : d₂.Running) (e : DiskErr) :
          Fate.Returns (.failed, d₂.faults) (.error e, d₂) :=
        ⟨by simp [Except.isOk, Except.toBool], by simp, rfl, hrunning₂⟩
      have hcopyRead := readFile_takes hrunning₁ path
      rw [hfile₁] at hcopyRead
      rcases htake₂ : takeFault d₁.faults with ⟨_ | _, rest₂⟩
      · obtain ⟨e, d₂, hrun₂, rfl, hrunning₂⟩ := hcopyRead.error htake₂
        simp only [FileCalls.copyFile, hrun₂]
        exact hfailed hrunning₂ e
      obtain ⟨copied, d₂, hrun₂, rfl, hrunning₂⟩ := hcopyRead.ok htake₂
      have hcopyWrite := writeFile_takes hrunning₂ path.backup copied perm
      rcases htake₃ : takeFault d₂.faults with ⟨_ | _, rest₃⟩
      · obtain ⟨e, d₃, hrun₃, rfl, hrunning₃⟩ := hcopyWrite.error htake₃
        simp only [htake₃, FileCalls.copyFile, hrun₂, hrun₃]
        exact hfailed hrunning₃ e
      · obtain ⟨_, d₃, hrun₃, rfl, hrunning₃⟩ := hcopyWrite.ok htake₃
        simp only [htake₃, FileCalls.copyFile, hrun₂, hrun₃]
        exact replaceFile_returns tmp hrunning₃ hname havoid data perm ⟨by simp, by simp⟩

/-- Without failures a write ends well. -/
theorem writeFate_nil (old : Option Bytes) (data : Bytes) :
    writeFate old data [] = (if old = some data then .same
      else if old = none then .blind else .backedUp, []) := by
  cases old with
  | none => rfl
  | some content =>
      by_cases hsame : content = data
      · simp [writeFate, takeFault, hsame]
      · simp [writeFate, takeFault, replaceAs, replaceFate, fillFate, hsame]

/-- A write with a backup found a file with other content and was let to read it. -/
theorem of_writeFate_backedUp {old : Option Bytes} {data : Bytes} {faults : List Fault}
    (h : (writeFate old data faults).1 = .backedUp) :
    (takeFault faults).1 = true ∧ old ≠ none ∧ old ≠ some data := by
  rcases htake : takeFault faults with ⟨_ | _, rest⟩
  · simp only [writeFate, htake, replaceAs] at h
    split_ifs at h
  · cases old with
    | none =>
        simp only [writeFate, htake, replaceAs] at h
        split_ifs at h
    | some content =>
        refine ⟨rfl, nofun, fun heq => ?_⟩
        obtain rfl : content = data := Option.some.inj heq
        simp [writeFate, htake] at h

/-- A write without one was not let to read the file, or there was none. -/
theorem of_writeFate_blind {old : Option Bytes} {data : Bytes} {faults : List Fault}
    (h : (writeFate old data faults).1 = .blind) : (takeFault faults).1 = false ∨ old = none := by
  rcases htake : takeFault faults with ⟨_ | _, rest⟩
  · exact Or.inl rfl
  · cases old with
    | none => exact Or.inr rfl
    | some content =>
        simp only [writeFate, htake, replaceAs] at h
        split_ifs at h
        split at h
        · cases h
        · split at h
          · cases h
          · split_ifs at h

/-- The fate of a write decides what it returns and what it leaves. -/
theorem writeAtomic_fate (tmp : TempNamer) {d : Disk} (h : d.Running) {path : Path}
    (hname : ¬ Disk.IsDots path.name) (havoid : tmp.Avoids path) (data : Bytes) (perm : UInt32) :
    (writeFate (d.content path) data d.faults).1.Leaves path data perm d
        (writeAtomic tmp d path data perm) ∧
      (writeAtomic tmp d path data perm).2.faults =
        (writeFate (d.content path) data d.faults).2 ∧
      (writeAtomic tmp d path data perm).2.Running := by
  obtain ⟨hok, hsame, hfaults, hrunning⟩ := writeAtomic_returns tmp h hname havoid data perm
  refine ⟨?_, hfaults, hrunning⟩
  have hend := writeAtomic_ends tmp d (havoid.tempPath_ne d) data perm
  rcases hrun : writeAtomic tmp d path data perm with ⟨result, d'⟩
  rw [hrun] at hok hsame hend
  cases hend with
  | same _ hcontent hfiles =>
      rw [hsame.mp rfl]
      exact ⟨rfl, hcontent, hfiles⟩
  | failed e _ temp hdir hnamed hunused hframe =>
      have hfailed : (writeFate (d.content path) data d.faults).1 = .failed := by
        simpa [Except.isOk, Except.toBool] using hok
      rw [hfailed]
      exact ⟨e, temp, rfl, hdir, hnamed, hunused, hframe⟩
  | replaced _ hfile hbackup hframe =>
      have hpass := (next_running h).1
      cases hfate : (writeFate (d.content path) data d.faults).1 with
      | same => cases hsame.mpr hfate
      | failed => simp [hfate, Except.isOk, Except.toBool] at hok
      | backedUp =>
          obtain ⟨htake, hpresent, _⟩ := of_writeFate_backedUp hfate
          rw [if_pos (hpass.mpr htake)] at hbackup
          refine ⟨rfl, hfile, hpresent, ?_, hframe⟩
          rw [hbackup, Option.or_of_isSome (Option.isSome_iff_ne_none.mpr hpresent)]
      | blind =>
          refine ⟨rfl, hfile, ?_, hframe⟩
          rcases of_writeFate_blind hfate with htake | habsent
          · rw [if_neg (by simp [hpass, htake])] at hbackup
            exact hbackup
          · rw [habsent, Option.none_or, ite_self] at hbackup
            exact hbackup

end Lbsync.Files
