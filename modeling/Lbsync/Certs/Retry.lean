import Lbsync.Certs.Rollback

/-!
# When a failed hook is retried

Nothing remembers that a hook failed. The next tick runs it again only if the
rollback made some served file differ from what the winners have for it. That
takes other content to go back to: the content that was served, or an older
backup of the file. A lineage that is installed for the first time has neither,
and what failed the hook stays.
-/

namespace Lbsync.Certs

open Files Engine Backup Runs

variable (cfg : Config) (lineages : Set GoString)

/-- The hook of the tick fails, and the changed lineages are restored without an error. -/
def RolledBack (calls : List (GoString × Record)) (w : World) : Prop :=
  let applied := calls.foldl (applyCall (provider cfg)) (w, [])
  FlushFails (provider cfg) calls w ∧
    ((provider cfg).rollback applied.2 ((provider cfg).flush applied.1).2).1 = .ok ()

/-- A tick with these winners reports a change and runs the hook. -/
def RunsHook (calls : List (GoString × Record)) (w : World) : Prop :=
  (calls.foldl (applyCall (provider cfg)) (w, [])).2 ≠ [] ∧
    w.commands.ran < (applyTick (provider cfg) calls w).commands.ran

/-- There is content other than the record's to go back to: what is served or, when that is
nothing or the record's own, the backup. -/
def HasOther (w : World) (r : Record) (f : BundleFile) : Prop :=
  ∃ b ≠ r.blob f.blobName, w.served cfg r.key f = some b ∨
    (w.served cfg r.key f = none ∨ w.served cfg r.key f = some (r.blob f.blobName)) ∧
      w.backup cfg r.key f = some b

/-- Some lineage the calls change has a file they have content for with other content to go
back to. -/
def Reverts (calls : List (GoString × Record)) (w : World) : Prop :=
  ∃ call ∈ calls, (∃ f, ¬ Leaves cfg w call.2 f) ∧
    ∃ f : BundleFile, call.2.blob f.blobName ≠ [] ∧ HasOther cfg w call.2 f

variable {cfg lineages}

theorem commands_foldl_applyCall (cfg : Config) (calls : List (GoString × Record))
    (acc : World × List GoString) :
    (calls.foldl (applyCall (provider cfg)) acc).1.commands = acc.1.commands := by
  induction calls generalizing acc with
  | nil => rfl
  | cons call rest ih =>
      rw [List.foldl_cons, ih, applyCall_fst]
      rfl

/-- A tick that reports a change runs the hook if there is a command to run. -/
theorem runsHook_iff (hcommand : cfg.runner.verify ≠ [] ∨ cfg.runner.reload ≠ [])
    {calls : List (GoString × Record)} {w : World} :
    RunsHook cfg calls w ↔ (calls.foldl (applyCall (provider cfg)) (w, [])).2 ≠ [] := by
  refine ⟨fun h => h.1, fun hne => ⟨hne, ?_⟩⟩
  rcases hrun : calls.foldl (applyCall (provider cfg)) (w, []) with ⟨w₁, changed⟩
  have hcommands : w₁.commands = w.commands := by
    simpa [hrun] using commands_foldl_applyCall cfg calls (w, [])
  rw [hrun] at hne
  have hflush : ((provider cfg).flush w₁).2.commands = (cfg.runner.run w.commands).2 := by
    rw [← hcommands]
    rfl
  have hlast : (finishTick (provider cfg) changed w₁).commands =
      (cfg.runner.run w.commands).2 := by
    rw [finishTick, if_neg hne, ← hflush]
    rcases (provider cfg).flush w₁ with ⟨result, w₂⟩
    cases result with
    | ok _ => rfl
    | error e =>
        simp only [provider]
        split <;> rfl
  have hran := Runner.ran_lt hcommand w.commands
  simp only [applyTick, hrun, hlast]
  exact hran

/-- A rollback that returns no error restored every lineage. -/
theorem rollback_of_ok {keys : List GoString} {w : World}
    (hok : ((provider cfg).rollback keys w).1 = .ok ()) :
    ∃ d, rollbackKeys cfg keys w.serving = (.ok (), d) ∧
      ((provider cfg).rollback keys w).2 = { w with serving := d } := by
  rcases hroll : rollbackKeys cfg keys w.serving with ⟨result, d⟩
  simp only [provider, hroll] at hok ⊢
  cases result with
  | ok u => exact ⟨d, rfl, rfl⟩
  | error e => cases hok

section Retry

variable (hdirs : Set.InjOn cfg.dir lineages)

include hdirs

/-- The files of lineages in different directories are places `Apply` offers to. -/
theorem offers_provider : Offers (provider cfg) (fun w => w.serving.Healthy) lineages
    (fun w => w.slot cfg) (fun r => (fromRecord r).offered) where
  apply r w hw hkey := by
    obtain ⟨changed, d, hrun, hhealthy, hforeign, hchanged, hslots⟩ :=
      (fromRecord r).writeAtomic_slots cfg.temp (cfg.dir r.key) hw
    have happly : (provider cfg).apply r w = (.ok changed, { w with serving := d }) := by
      simp only [provider, apply, applyOn, hrun]
    refine ⟨changed, { w with serving := d }, happly, hhealthy, hchanged, fun k hk f => ?_⟩
    by_cases hk' : k = r.key
    · subst hk'
      rw [if_pos rfl]
      exact hslots f
    · have hdir : cfg.dir k ≠ cfg.dir r.key := fun heq => hk' (hdirs hk hkey heq)
      have hother : ∀ q : Path, q.dir ≠ cfg.dir r.key → d.file q = w.serving.file q :=
        fun q hq => hforeign q fun _ => ⟨fun heq => hq (heq ▸ rfl), fun heq => hq (heq ▸ rfl)⟩
      rw [if_neg hk']
      simp only [World.slot, Disk.slot, Disk.content, hother ⟨cfg.dir k, f.fileName⟩ hdir,
        hother (Path.backup ⟨cfg.dir k, f.fileName⟩) hdir]

/-- A rollback without an error gives the files of its lineages the content of their
backups. -/
theorem rollbackKeys_content {keys : List GoString} (hnodup : keys.Nodup)
    (hkeys : ∀ k ∈ keys, k ∈ lineages) {d d' : Disk} (hd : d.Healthy)
    (hok : rollbackKeys cfg keys d = (.ok (), d')) :
    d'.Healthy ∧ ∀ k ∈ lineages, ∀ f : BundleFile, d'.content ⟨cfg.dir k, f.fileName⟩ =
      if k ∈ keys then (d.slot ⟨cfg.dir k, f.fileName⟩).restore.current
      else d.content ⟨cfg.dir k, f.fileName⟩ := by
  induction keys generalizing d with
  | nil =>
      obtain rfl : d = d' := congrArg Prod.snd hok
      exact ⟨hd, by simp⟩
  | cons key rest ih =>
      obtain ⟨hnot, hrest⟩ := List.nodup_cons.mp hnodup
      have hkey : key ∈ lineages := hkeys key List.mem_cons_self
      rcases hrestore : restoreDir d (cfg.dir key) with ⟨result, d₁⟩
      simp only [rollbackKeysOn, rollbackOn, hrestore] at hok
      cases result with
      | error e => cases congrArg Prod.fst hok
      | ok u =>
          obtain ⟨d₂, hrun, hhealthy, houtside, hfiles⟩ :=
            restoreDir_healthy hd (cfg.dir key) fun _ => file_of_restoreDir_ok hd hrestore
          obtain rfl : d₁ = d₂ := congrArg Prod.snd (hrestore.symm.trans hrun)
          obtain ⟨hhealthy', hcontent⟩ :=
            ih hrest (fun k hk => hkeys k (List.mem_cons_of_mem _ hk)) hhealthy hok
          refine ⟨hhealthy', fun k hk f => ?_⟩
          rw [hcontent k hk f]
          by_cases hk' : k = key
          · subst hk'
            have hfile := hfiles f.fileName
            rw [(BundleFile.plain_of_mem_names _ f.fileName_mem_names).not_backup] at hfile
            rw [if_neg hnot, if_pos List.mem_cons_self]
            cases hback : d.file ⟨cfg.dir k, f.fileName ++ backupSuffix⟩ with
            | none => simp [Disk.slot, Disk.content, Path.backup, hfile, hback, Slot.restore]
            | some b => simp [Disk.slot, Disk.content, Path.backup, hfile, hback, Slot.restore]
          · have hdir : cfg.dir k ≠ cfg.dir key := fun heq => hk' (hdirs hk hkey heq)
            simp only [Disk.slot, Disk.content, List.mem_cons, hk', false_or,
              houtside ⟨cfg.dir k, f.fileName⟩ hdir,
              houtside (Path.backup ⟨cfg.dir k, f.fileName⟩) hdir]

/-- What is served after a tick whose hook failed: the content of the backups in the
lineages that changed, and the rest as before. -/
theorem served_of_rolledBack {calls : List (GoString × Record)}
    (hcalls : WinnerCalls lineages calls) {w : World} (hw : w.serving.Healthy)
    (hfail : RolledBack cfg calls w) :
    (applyTick (provider cfg) calls w).serving.Healthy ∧
    ∀ call ∈ calls,
      ((∃ g, (w.slot cfg call.1 g).Changes ((fromRecord call.2).offered g)) →
        ∀ f, (applyTick (provider cfg) calls w).served cfg call.1 f =
          ((w.slot cfg call.1 f).offer ((fromRecord call.2).offered f)).restore.current) ∧
      ((¬ ∃ g, (w.slot cfg call.1 g).Changes ((fromRecord call.2).offered g)) →
        ∀ f, (applyTick (provider cfg) calls w).served cfg call.1 f =
          w.served cfg call.1 f) := by
  obtain ⟨w₁, changed, hrun, hhealthy, hchanged, hslots⟩ :=
    (offers_provider hdirs).foldl_applyCall hcalls [] hw
  obtain ⟨hnodup, hmem⟩ := hcalls.changed (provider cfg) w
  rw [hrun] at hnodup hmem
  simp only [RolledBack, FlushFails, hrun] at hfail
  obtain ⟨⟨hne, e, hflush⟩, hok⟩ := hfail
  obtain ⟨d, hroll, hlast⟩ := rollback_of_ok hok
  obtain ⟨hhealthy', hcontent⟩ := rollbackKeys_content hdirs hnodup hmem hhealthy hroll
  have htick : (applyTick (provider cfg) calls w).serving = d := by
    have hpair : (provider cfg).flush w₁ = (.error e, ((provider cfg).flush w₁).2) :=
      Prod.ext hflush rfl
    simp only [applyTick, hrun, finishTick, if_neg hne]
    rw [hpair]
    simp only [hlast]
  refine ⟨by rwa [htick], fun call hcall => ?_⟩
  have hkey := (hcalls.own call hcall).1
  have hserved (f : BundleFile) := hcontent call.1 hkey f
  simp only [← htick] at hserved
  have hslot (f : BundleFile) : ((provider cfg).flush w₁).2.serving.slot
      ⟨cfg.dir call.1, f.fileName⟩ =
        (w.slot cfg call.1 f).offer ((fromRecord call.2).offered f) := by
    have hoffered := hslots call.1 hkey f
    rwa [hcalls.offeredAt_eq hcall] at hoffered
  have hiff : call.1 ∈ changed ↔
      ∃ g, (w.slot cfg call.1 g).Changes ((fromRecord call.2).offered g) :=
    (hchanged call.1).trans ((or_iff_right List.not_mem_nil).trans (hcalls.changesAt_iff hcall))
  refine ⟨fun hch f => ?_, fun hch f => ?_⟩
  · refine (hserved f).trans ?_
    rw [if_pos (hiff.mpr hch)]
    exact congrArg (fun s => s.restore.current) (hslot f)
  · have hkept := Slot.offer_of_not_changes fun hc => hch ⟨f, hc⟩
    refine (hserved f).trans ?_
    rw [if_neg (mt hiff.mp hch)]
    exact congrArg Slot.current ((hslot f).trans hkept)

/-- After a tick whose hook failed, the next tick with the same winners, in any order,
reports a change and runs the hook again exactly when some changed lineage has a file with
other content to go back to. -/
theorem hook_retried_iff {calls : List (GoString × Record)} (hcalls : WinnerCalls lineages calls)
    {w : World} (hw : w.serving.Healthy) (hfail : RolledBack cfg calls w)
    {calls' : List (GoString × Record)} (hperm : calls'.Perm calls) :
    RunsHook cfg calls' (applyTick (provider cfg) calls w) ↔ Reverts cfg calls w := by
  obtain ⟨hhealthy, hserved⟩ := served_of_rolledBack hdirs hcalls hw hfail
  obtain ⟨⟨_, e, hflush⟩, _⟩ := hfail
  have hcalls' : WinnerCalls lineages calls' :=
    ⟨(hperm.map Prod.fst).nodup_iff.mpr hcalls.nodup,
      fun call hcall => hcalls.own call (hperm.mem_iff.mp hcall)⟩
  rw [runsHook_iff (Runner.has_command_of_error hflush),
    (offers_provider hdirs).changed_ne_nil_iff hcalls' hhealthy]
  simp only [hperm.mem_iff]
  refine exists_congr fun call => and_congr_right fun hcall => ?_
  have hkey := (hcalls.own call hcall).2
  have hchanges : (∃ g, (w.slot cfg call.1 g).Changes ((fromRecord call.2).offered g)) ↔
      ∃ g, ¬ Leaves cfg w call.2 g := by
    rw [← hkey]
    exact exists_congr fun g => changes_iff_not_leaves
  rw [← hchanges]
  by_cases hch : ∃ g, (w.slot cfg call.1 g).Changes ((fromRecord call.2).offered g)
  · rw [and_iff_right hch]
    refine exists_congr fun f => ?_
    have hcurrent := (hserved call hcall).1 hch f
    by_cases hdata : call.2.blob f.blobName = []
    · simp [Bundle.offered, data_fromRecord, hdata, Slot.Changes]
    · have hoffered : (fromRecord call.2).offered f = some (call.2.blob f.blobName) := by
        simp [Bundle.offered, data_fromRecord, hdata]
      have hother := Slot.current_restore_write_ne_iff
        (a := call.2.blob f.blobName) (s := w.slot cfg call.1 f)
      have hslot : ((applyTick (provider cfg) calls w).slot cfg call.1 f).current =
          ((w.slot cfg call.1 f).write (call.2.blob f.blobName)).restore.current := by
        refine hcurrent.trans ?_
        rw [hoffered]
        rfl
      rw [hoffered]
      simp only [Slot.Changes, Option.some.injEq, exists_eq_left', hslot, hother]
      rw [and_iff_right hdata, HasOther, hkey]
      rfl
  · have hnot : ∀ f, ¬ ((applyTick (provider cfg) calls w).slot cfg call.1 f).Changes
        ((fromRecord call.2).offered f) := by
      intro f hc
      have hcurrent := (hserved call hcall).2 hch f
      obtain ⟨a, ha, hne⟩ := hc
      exact hch ⟨f, a, ha, fun heq => hne (hcurrent.trans heq)⟩
    exact iff_of_false (not_exists.mpr hnot) fun h => hch h.1

end Retry

/-- A node with the given files on which every command fails. -/
def failingWorld (files : FileMap) : World :=
  { sampleWorld with
    serving := { sampleWorld.serving with files := files }
    commands := ⟨fun _ => false, 0⟩ }

theorem sampleLineages_dirs : Set.InjOn sampleConfig.dir sampleLineages := by
  rintro k rfl k' rfl _
  rfl

/-- The lineage `a` is not served yet and the hook of its first tick fails. The next tick
with the same winner finds what it would write, does not run the hook, and the certificate
that failed it stays. -/
theorem first_install_not_retried :
    (failingWorld ∅).serving.Healthy ∧
    WinnerCalls sampleLineages [sampleWinner [2] [2]] ∧
    RolledBack sampleConfig [sampleWinner [2] [2]] (failingWorld ∅) ∧
    (let w := applyTick (provider sampleConfig) [sampleWinner [2] [2]] (failingWorld ∅)
     ¬ RunsHook sampleConfig [sampleWinner [2] [2]] w ∧
      w.served sampleConfig (ascii "a") .cert = some [2]) :=
  ⟨⟨rfl, rfl⟩, winnerCalls_sampleWinner _ _, ⟨⟨by decide, .verify, rfl⟩, rfl⟩,
    fun h => h.1 (by decide), by decide⟩

/-- A lineage that was served goes back to what it had, and its hook is run again. -/
theorem served_lineage_retried :
    RunsHook sampleConfig [sampleWinner [2] [2]]
      (applyTick (provider sampleConfig) [sampleWinner [2] [2]]
        (failingWorld sampleWorld.serving.files)) := by
  refine (hook_retried_iff sampleLineages_dirs (winnerCalls_sampleWinner [2] [2]) ⟨rfl, rfl⟩
    ⟨⟨by decide, .verify, rfl⟩, by decide⟩ (List.Perm.refl _)).mpr ?_
  refine ⟨_, List.mem_singleton_self _, ⟨.cert, by decide⟩, .cert, by decide, [1], by decide, ?_⟩
  exact Or.inl (by decide)

end Lbsync.Certs
