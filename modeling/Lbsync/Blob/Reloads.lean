import Lbsync.Blob.Rollback

/-!
# What was reloaded and what is on disk

`Flush` runs the hook of every resource that changed, whatever happened to the
others, and keeps the first error. The engine then rolls back every key that
changed. A resource whose own reload succeeded is rolled back with the rest: its
service runs with a content that is no longer on disk.
-/

namespace Lbsync.Blob

open Files Engine Backup

variable (cfg : Config)

/-- One hook of a `Flush`: its resource, how it ended and the disk it ran on. -/
structure HookRun where
  res : Resource
  result : Except Err Unit
  disk : Disk

/-- The hook ended with an error. -/
def HookRun.Failed (h : HookRun) : Prop := ∃ e, h.result = .error e

/-- The reload command of the hook was run, and it succeeded as did the verify command. -/
def HookRun.Reloaded (h : HookRun) : Prop := h.result = .ok () ∧ h.res.runner.reload ≠ []

/-- The hooks that `runHooks` runs for the given names. -/
def hooksRun : List GoString → World → List HookRun
  | [], _ => []
  | name :: rest, w =>
      match cfg.byName name with
      | none => hooksRun rest w
      | some res =>
          let r := res.runner.run w.commands
          ⟨res, r.1, w.dests⟩ :: hooksRun rest { w with commands := r.2 }

/-- The provider when the loop of a tick is over, and the keys that changed. -/
def Tick.applied (t : Tick) (w : World) : World × List GoString :=
  t.calls.foldl (applyCall (provider cfg)) (t.enter w, [])

/-- The hooks of a tick. `Flush` is not called when nothing changed. -/
def Tick.hooks (t : Tick) (w : World) : List HookRun :=
  let applied := t.applied cfg w
  if applied.2 = [] then []
  else hooksRun cfg (applied.1.order.visit applied.1.pending) applied.1

/-- Every resource that was reloaded in the tick has on disk what was there when its reload
ran. -/
def Tick.ServesDisk (t : Tick) (w : World) : Prop :=
  ∀ h ∈ t.hooks cfg w, h.Reloaded →
    (t.run cfg w).dests.content h.res.dest = h.disk.content h.res.dest

variable {cfg}

/-- A hook belongs to one of the names and runs on the disk `Flush` found. -/
theorem of_mem_hooksRun {names : List GoString} {w : World} {h : HookRun}
    (hmem : h ∈ hooksRun cfg names w) :
    h.disk = w.dests ∧ h.res.name ∈ names ∧ cfg.byName h.res.name = some h.res := by
  induction names generalizing w with
  | nil => cases hmem
  | cons name rest ih =>
      unfold hooksRun at hmem
      cases hfound : cfg.byName name with
      | none =>
          obtain ⟨hdisk, hin, hres⟩ := ih (w := w) (by simpa [hfound] using hmem)
          exact ⟨hdisk, List.mem_cons_of_mem name hin, hres⟩
      | some res =>
          simp only [hfound] at hmem
          rcases List.mem_cons.mp hmem with rfl | hlater
          · obtain rfl := (Config.mem_of_byName hfound).2
            exact ⟨rfl, List.mem_cons_self, hfound⟩
          · obtain ⟨hdisk, hin, hres⟩ := ih (w := { w with commands := _ }) hlater
            exact ⟨hdisk, List.mem_cons_of_mem name hin, hres⟩

/-- `runHooks` returns an error exactly when one of its hooks fails. -/
theorem runHooks_eq_none_iff (cfg : Config) (names : List GoString) (w : World) :
    (runHooks cfg names w.commands).1 = none ↔ ∀ h ∈ hooksRun cfg names w, ¬ h.Failed := by
  induction names generalizing w with
  | nil => simp [runHooks, hooksRun]
  | cons name rest ih =>
      unfold runHooks hooksRun
      cases hfound : cfg.byName name with
      | none => exact ih w
      | some res =>
          rcases hrun : res.runner.run w.commands with ⟨e | u, cs⟩
          · simp [hrun, HookRun.Failed]
          · simpa [hrun, HookRun.Failed] using ih { w with commands := cs }

theorem flush_error_iff (cfg : Config) (w : World) :
    (∃ e, (flush cfg w).1 = .error e) ↔
      ∃ h ∈ hooksRun cfg (w.order.visit w.pending) w, h.Failed := by
  have hnone := runHooks_eq_none_iff cfg (w.order.visit w.pending) w
  unfold flush
  rcases hrun : runHooks cfg (w.order.visit w.pending) w.commands with ⟨_ | e, cs⟩
  · simpa [hrun] using hnone
  · simpa [hrun] using hnone

theorem dests_flush (cfg : Config) (w : World) : (flush cfg w).2.dests = w.dests := by
  unfold flush
  split <;> rfl

/-- Only resources that changed are pending. -/
theorem pending_applyCall {acc : World × List GoString} {call : GoString × Record}
    (hown : call.2.key = call.1) (hacc : ∀ key ∈ acc.1.pending, key ∈ acc.2) :
    ∀ key ∈ (applyCall (provider cfg) acc call).1.pending,
      key ∈ (applyCall (provider cfg) acc call).2 := by
  obtain ⟨w, changed⟩ := acc
  intro key hkey
  simp only [applyCall, provider, apply] at hkey ⊢
  cases hfound : cfg.byName call.2.key with
  | none =>
      simp only [hfound] at hkey ⊢
      exact hacc key hkey
  | some res =>
      rcases hwrite : writeAtomic cfg.temp w.dests res.dest (call.2.blob (ascii "data")) 0o644
        with ⟨e | wrote, d⟩
      · simp only [hfound, hwrite] at hkey ⊢
        exact hacc key hkey
      · cases wrote with
        | false =>
            simp only [hfound, hwrite] at hkey ⊢
            exact hacc key hkey
        | true =>
            simp only [hfound, hwrite] at hkey ⊢
            rcases List.mem_insert_iff.mp hkey with rfl | hold
            · simp [hown]
            · exact List.mem_append_left _ (hacc key hold)

theorem pending_applied {t : Tick} (hown : ∀ call ∈ t.calls, call.2.key = call.1) (w : World) :
    ∀ key ∈ (t.applied cfg w).1.pending, key ∈ (t.applied cfg w).2 := by
  have hloop (calls : List (GoString × Record)) (hcalls : ∀ call ∈ calls, call.2.key = call.1)
      (acc : World × List GoString) (hacc : ∀ key ∈ acc.1.pending, key ∈ acc.2) :
      ∀ key ∈ (calls.foldl (applyCall (provider cfg)) acc).1.pending,
        key ∈ (calls.foldl (applyCall (provider cfg)) acc).2 := by
    induction calls generalizing acc with
    | nil => exact hacc
    | cons call rest ih =>
        apply ih fun c hc => hcalls c (List.mem_cons_of_mem call hc)
        exact pending_applyCall (hcalls call List.mem_cons_self) hacc
  exact hloop t.calls hown _ nofun

/-- A tick fails when a hook does. -/
theorem flushFails_iff (t : Tick) (w : World) :
    FlushFails (provider cfg) t.calls (t.enter w) ↔ ∃ h ∈ t.hooks cfg w, h.Failed := by
  have hflush := flush_error_iff cfg (t.applied cfg w).1
  by_cases hnil : (t.applied cfg w).2 = []
  · have hnone : t.hooks cfg w = [] := by simp [Tick.hooks, hnil]
    simp only [hnone, List.not_mem_nil, false_and, exists_false, iff_false]
    exact fun hf => hf.1 hnil
  · have hhooks : t.hooks cfg w = hooksRun cfg
        ((t.applied cfg w).1.order.visit (t.applied cfg w).1.pending) (t.applied cfg w).1 := by
      simp [Tick.hooks, hnil]
    rw [hhooks, ← hflush]
    exact ⟨fun hf => hf.2, fun hf => ⟨hnil, hf⟩⟩

/-- Without a failing hook the destinations stay as `Apply` left them. -/
theorem dests_run_of_not_failed {t : Tick} {w : World}
    (h : ¬ FlushFails (provider cfg) t.calls (t.enter w)) :
    (t.run cfg w).dests = (t.applied cfg w).1.dests := by
  change (finishTick (provider cfg) (t.applied cfg w).2 (t.applied cfg w).1).dests = _
  unfold finishTick
  by_cases hnil : (t.applied cfg w).2 = []
  · rw [if_pos hnil]
  · rw [if_neg hnil]
    have hdests := dests_flush cfg (t.applied cfg w).1
    have hok : ∀ e, (flush cfg (t.applied cfg w).1).1 ≠ .error e :=
      fun e he => h ⟨hnil, e, he⟩
    generalize hout : (provider cfg).flush (t.applied cfg w).1 = out
    have hrun : flush cfg (t.applied cfg w).1 = out := hout
    rw [hrun] at hdests hok
    rcases out with ⟨e | u, w'⟩
    · exact absurd rfl (hok e)
    · exact hdests

/-- A hook of a tick runs on the disk the loop left, for a resource that is pending. -/
theorem of_mem_hooks {t : Tick} {w : World} {h : HookRun} (hmem : h ∈ t.hooks cfg w) :
    h.disk = (t.applied cfg w).1.dests ∧ h.res.name ∈ (t.applied cfg w).1.pending ∧
      cfg.byName h.res.name = some h.res := by
  unfold Tick.hooks at hmem
  by_cases hnil : (t.applied cfg w).2 = []
  · simp [hnil] at hmem
  · simp only [hnil, if_false] at hmem
    obtain ⟨hdisk, hin, hres⟩ := of_mem_hooksRun hmem
    exact ⟨hdisk, ((t.applied cfg w).1.order.perm _).mem_iff.mp hin, hres⟩

/-- A rolled back destination does not hold what was reloaded. -/
theorem content_run_of_failed (hdistinct : cfg.Distinct) (hwritable : cfg.Writable) {t : Tick}
    {w : World} (hw : w.dests.Healthy) (hcalls : WinnerCalls Set.univ t.calls)
    (hfail : FlushFails (provider cfg) t.calls (t.enter w)) {res : Resource}
    (hfound : cfg.byName res.name = some res) (hchanged : res.name ∈ (t.applied cfg w).2)
    (hpresent : w.dests.content res.dest ≠ none) :
    (t.run cfg w).dests.content res.dest ≠ (t.applied cfg w).1.dests.content res.dest := by
  have hplaces := restores_provider hdistinct.toSeparate hwritable
  obtain ⟨w₁, changed, hrun, _, hmem, hslots⟩ :=
    hplaces.foldl_applyCall hcalls [] (w := t.enter w) hw
  have happlied : t.applied cfg w = (w₁, changed) := hrun
  have hcontent (w : World) : w.dests.content res.dest = (w.slot cfg res.name ()).current := by
    simp [World.slot, hfound, Disk.slot]
  rw [happlied] at hchanged ⊢
  have hch := ((hmem res.name).mp hchanged).resolve_left List.not_mem_nil
  obtain ⟨_, _, hfailed⟩ := hplaces.applyTick hcalls (w := t.enter w) hw
  have hafter := (hfailed hfail res.name trivial).1 hch ()
  obtain ⟨_, hchanges⟩ := hch
  have hthere : ((t.enter w).slot cfg res.name ()).current ≠ none := by
    rwa [← hcontent (t.enter w)]
  have hback : (t.run cfg w).dests.content res.dest =
      ((t.enter w).slot cfg res.name ()).current := by
    rw [hcontent, Tick.run, hafter, Slot.restore_offer_of_changes hthere hchanges]
  obtain ⟨a, ha, hne⟩ := hchanges
  have hwritten : w₁.dests.content res.dest = some a := by
    rw [hcontent, hslots res.name trivial (), ha]
    simp [Slot.offer, Slot.write_of_ne hne]
  rw [hback, hwritten]
  exact hne

/-- When no hook of a tick fails, or none reloads, every reloaded resource has on disk what
was there when its reload ran. Over destinations that are there and are not each other's
backup, only then. -/
theorem reloads_on_disk_iff (cfg : Config) (t : Tick) (w : World) :
    (((∀ h ∈ t.hooks cfg w, ¬ h.Failed) ∨ ∀ h ∈ t.hooks cfg w, ¬ h.Reloaded) →
      t.ServesDisk cfg w) ∧
    (cfg.Distinct → cfg.Writable → w.dests.Healthy → WinnerCalls Set.univ t.calls →
      (∀ res ∈ cfg.resources, res.name ∈ t.calls.map Prod.fst →
        w.dests.content res.dest ≠ none) →
      (t.ServesDisk cfg w ↔
        (∀ h ∈ t.hooks cfg w, ¬ h.Failed) ∨ ∀ h ∈ t.hooks cfg w, ¬ h.Reloaded)) := by
  have hsuffices : ((∀ h ∈ t.hooks cfg w, ¬ h.Failed) ∨ ∀ h ∈ t.hooks cfg w, ¬ h.Reloaded) →
      t.ServesDisk cfg w := by
    rintro (hnone | hnone) h hmem hreloaded
    · have hok : ¬ FlushFails (provider cfg) t.calls (t.enter w) := by
        rw [flushFails_iff]
        exact fun ⟨h', hmem', hfailed⟩ => hnone h' hmem' hfailed
      rw [dests_run_of_not_failed hok, (of_mem_hooks hmem).1]
    · exact absurd hreloaded (hnone h hmem)
  refine ⟨hsuffices, fun hdistinct hwritable hw hcalls hpresent => ⟨fun hserves => ?_, hsuffices⟩⟩
  by_contra hmixed
  simp only [not_or, not_forall, not_not] at hmixed
  obtain ⟨⟨h', hmem', hfailed⟩, h, hmem, hreloaded⟩ := hmixed
  obtain ⟨hdisk, hpending, hfound⟩ := of_mem_hooks hmem
  have hchanged := pending_applied (fun call hcall => (hcalls.own call hcall).2) w _ hpending
  have hres := (Config.mem_of_byName hfound).1
  have hcall : h.res.name ∈ t.calls.map Prod.fst := by
    obtain ⟨more, hmore, hsub⟩ := foldl_applyCall_sublist (provider cfg) t.calls (t.enter w, [])
    have happlied : (t.applied cfg w).2 = more := hmore
    exact hsub.subset (happlied ▸ hchanged)
  have hfails := (flushFails_iff t w).mpr ⟨h', hmem', hfailed⟩
  refine content_run_of_failed hdistinct hwritable hw hcalls hfails hfound hchanged
    (hpresent h.res hres hcall) ?_
  rw [hserves h hmem hreloaded, hdisk]

/-- The resource of the given name with a destination in `/d`, a verify and a reload command. -/
def reloadingResource (name : GoString) : Resource where
  name := name
  source := ascii "/src/" ++ name
  dest := ⟨ascii "/d", name⟩
  strategy := ascii "sha"
  runner := ⟨[ascii "verify"], [ascii "reload"]⟩

/-- A provider of two such resources. -/
def pairConfig : Config :=
  { sampleConfig with resources := [reloadingResource (ascii "f"), reloadingResource (ascii "g")] }

/-- Both destinations hold `[1]`; the third command fails. -/
def pairWorld : World :=
  { sampleWorld (((∅ : FileMap).insert ⟨ascii "/d", ascii "f"⟩ ⟨[1], 0o644⟩).insert
      ⟨ascii "/d", ascii "g"⟩ ⟨[1], 0o644⟩) with commands := ⟨fun n => n ≠ 2, 0⟩ }

/-- A tick whose winners for the given names hold `[2]`. -/
def pairTick (names : List GoString) : Tick :=
  { sampleTick with calls := names.map fun name =>
      (name, ⟨kind, name, ⟨0, 0, []⟩, [(ascii "data", [2])], [], []⟩) }

theorem pairConfig_distinct : pairConfig.Distinct where
  names := by decide
  dests := by decide
  backups := by
    intro a ha b hb
    rcases List.mem_pair.mp ha with rfl | rfl
    · rcases List.mem_pair.mp hb with rfl | rfl <;> decide
    · rcases List.mem_pair.mp hb with rfl | rfl <;> decide

theorem pairConfig_writable : pairConfig.Writable := by
  have hwritable (name : GoString) (hfirst : name.head? ≠ some 46) (hname : ¬ Disk.IsDots name) :
      ¬ Disk.IsDots (reloadingResource name).dest.name ∧
        pairConfig.temp.Avoids (reloadingResource name).dest :=
    ⟨hname, TempNamer.avoids_of_not_temp _ fun _ h => hfirst (congrArg List.head? h)⟩
  intro res hres
  rcases List.mem_pair.mp hres with rfl | rfl
  · exact hwritable (ascii "f") (by decide) (by decide)
  · exact hwritable (ascii "g") (by decide) (by decide)

/-- The reload of `f` runs with `[2]` on disk and succeeds; then the verify command of `g`
fails. Both are rolled back to `[1]`. -/
theorem reloaded_resource_rolled_back :
    pairConfig.Distinct ∧ pairConfig.Writable ∧ pairWorld.dests.Healthy ∧
    let t := pairTick [ascii "g", ascii "f"]
    WinnerCalls Set.univ t.calls ∧
    (t.hooks pairConfig pairWorld).map (fun h => (h.res.name, decide (h.result = .ok ()),
        h.disk.content (reloadingResource (ascii "f")).dest)) =
      [(ascii "f", true, some [2]), (ascii "g", false, some [2])] ∧
    (t.run pairConfig pairWorld).dests.content (reloadingResource (ascii "f")).dest = some [1] := by
  refine ⟨pairConfig_distinct, pairConfig_writable, ⟨rfl, rfl⟩, ⟨by decide, ?_⟩, by decide,
    by decide⟩
  intro call hcall
  rcases List.mem_pair.mp hcall with rfl | rfl
  · exact ⟨trivial, rfl⟩
  · exact ⟨trivial, rfl⟩

end Lbsync.Blob
