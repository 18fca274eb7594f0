import Lbsync.Agent.Startup
import Lbsync.LocalRuns
import Lbsync.Olric.LockSafety

/-!
# The hooks of a started agent

A configuration gives commands to the certs module only. So the hook of a blob provider that
`startModules` has registered never fails and never runs a command, and no blob is ever taken
back, on either backend and whatever fails. On the network nodes may also restart.
-/

namespace Lbsync.Blob

open Engine

variable {cfg : Config}

/-- No file has a command. -/
def Config.Silent (cfg : Config) : Prop := ∀ res ∈ cfg.resources, res.runner = ⟨[], []⟩

theorem runHooks_silent (h : cfg.Silent) (names : List GoString) (cs : Commands) :
    runHooks cfg names cs = (none, cs) := by
  induction names with
  | nil => rfl
  | cons name rest ih =>
      rw [runHooks]
      cases hres : cfg.byName name with
      | none => exact ih
      | some res =>
          have hrun : res.runner.run cs = (.ok (), cs) := by
            rw [h res (Config.mem_of_byName hres).1]
            rfl
          simp only [hrun, ih]

theorem flush_silent (h : cfg.Silent) (w : World) :
    (flush cfg w).1 = .ok () ∧ (flush cfg w).2.commands = w.commands := by
  simp [flush, runHooks_silent h]

/-- What the engine calls leaves the commands alone. -/
theorem upkeep_commands (h : cfg.Silent) (cs : Commands) :
    Upkeep (provider cfg) (fun w => w.commands = cs) Set.univ where
  locals w hw := hw
  apply w hw r _ := by
    change (apply cfg r w).2.commands = cs
    unfold apply
    cases cfg.byName r.key with
    | none => exact hw
    | some res =>
        simp only
        generalize Files.writeAtomic cfg.temp w.dests res.dest (r.blob (ascii "data")) 0o644 = out
        obtain ⟨_ | changed, d⟩ := out
        · exact hw
        · cases changed <;> exact hw
  flush w hw := (flush_silent h w).2.trans hw
  rollback w hw keys := by
    simp only [provider]
    generalize restoreKeys cfg keys w.dests = out
    obtain ⟨_ | _, d⟩ := out <;> exact hw

end Lbsync.Blob

namespace Lbsync.Agent

open Engine Config

/-- A node that can only run silent hooks neither rolls back nor runs a command. -/
theorem unhooked_of_localRun {cfg : Blob.Config} (hsilent : cfg.Silent) {cs : Commands}
    {s t : Pc × Blob.World} (hidle : s.1 = .idle) (hcs : s.2.commands = cs)
    (hrun : Runs.Run (localStep (Blob.provider cfg))
      (fun _ a => a.Respects fun w => w.commands = cs) s t) :
    t.1.rollsBack = false ∧ t.2.commands = cs := by
  refine hrun.invariant (I := fun s => s.1.rollsBack = false ∧ s.2.commands = cs)
    (fun s a t hs ha hstep => ⟨?_, ?_⟩) ⟨by rw [hidle]; rfl, hcs⟩
  · by_contra hrolls
    rcases rollsBack_of_localStep hstep (by simpa using hrolls) with hrolled | ⟨f, e, -, hflush⟩
    · rw [hs.1] at hrolled
      cases hrolled
    · cases (Blob.flush_silent hsilent s.2).1.symm.trans hflush
  · exact (Blob.upkeep_commands hsilent cs).next hstep ha (fun _ _ => trivial) hs.2

section Fleets

variable {N : Type*} [DecidableEq N] {lib : N → Libraries} {ord : N → MapOrder}
  {cfg : N → Settings} {started : N → Started} {bcfg : N → Blob.Config}

/-- No blob is ever taken back. In a fleet whose blob providers were registered by
`startModules`, whatever the configurations are: no tick ever rolls back and no command is ever
run for a blob, on either backend and whatever fails; on the network also whenever nodes
restart. -/
theorem blob_never_undone (peers : N → List N)
    (hstarted : ∀ n, startModules (lib n) (initialRegistry (ord n)) (cfg n) = .ok (started n))
    (hblob : ∀ n, .blob (bcfg n) ∈ (started n).providers) (cs : N → Commands) :
    (∀ s t : Olric.Nodes N Blob.World, Olric.Initial s → (∀ n, (s.world n).commands = cs n) →
      Runs.Run (Olric.Nodes.step fun n => Blob.provider (bcfg n))
        (fun _ a => Olric.Changes (fun n w => w.commands = cs n) a) s t →
      ∀ n, (t.pc n).rollsBack = false ∧ (t.world n).commands = cs n) ∧
    ∀ s t : Wan.Nodes N Blob.World, Wan.Initial s → (∀ n, (s.world n).commands = cs n) →
      Runs.Run (Wan.Nodes.next peers fun n => Blob.provider (bcfg n))
        (fun _ e => Wan.Changes (fun n w => w.commands = cs n) e) s t →
      ∀ n, (t.pc n).rollsBack = false ∧ (t.world n).commands = cs n := by
  have hsilent (n : N) : (bcfg n).Silent := blob_without_commands (hstarted n) (hblob n)
  constructor
  · intro s t hinit hcs hrun n
    exact unhooked_of_localRun (hsilent n) (hinit.idle n) (hcs n) (Olric.local_run hrun n)
  · intro s t hinit hcs hrun n
    exact unhooked_of_localRun (hsilent n) (hinit.idle n) (hcs n) (Wan.local_run hrun n)

end Fleets

/-- Both modules, and one file. -/
def sampleSettings : Settings where
  letsencryptPath := ascii "/etc/letsencrypt"
  servingDir := ascii "/s"
  blobResources := ascii "f=/src/f:/d/f:sha"
  modules := ascii "certs, blob"
  verifyCmd := ascii "nginx -t"
  reloadCmd := []
  hostname := ascii "h"

def sampleLibraries : Libraries := ⟨Certs.sampleCrypto, .longer⟩

/-- The blob provider of these settings. -/
def sampleBlob : Blob.Config :=
  blobProvider sampleLibraries [⟨ascii "f", ascii "/src/f", ascii "/d/f", ascii "sha", [], []⟩]
    (ascii "h")

/-- A node on which every command would fail. -/
def hookedNodes : Olric.Nodes Unit Blob.World where
  cluster := ⟨fun _ => ⟨fun _ => none, []⟩, fun _ => true⟩
  pc _ := .idle
  world _ :=
    { sources := fun _ => ⟨.ok [2], .ok 0⟩
      dests := ⟨∅, 0o022, [], false⟩
      pending := []
      order := .insertion
      commands := ⟨fun _ => false, 0⟩ }
  applied _ := []

theorem sampleBlob_started : ∃ started,
    startModules sampleLibraries (initialRegistry .insertion) sampleSettings = .ok started ∧
      .blob sampleBlob ∈ started.providers := by
  have hparse : parseBlobResources sampleSettings.blobResources =
      .ok [⟨ascii "f", ascii "/src/f", ascii "/d/f", ascii "sha", [], []⟩] := by decide +kernel
  obtain ⟨started, hstarted⟩ : ∃ started,
      startModules sampleLibraries (initialRegistry .insertion) sampleSettings = .ok started :=
    startModules_isOk_iff.mpr ⟨⟨_, hparse⟩, by decide +kernel⟩
  refine ⟨started, hstarted, ?_⟩
  obtain ⟨resources, hresources, hproviders, -⟩ := startModules_eq_ok hstarted
  obtain rfl := Except.ok.inj (hparse.symm.trans hresources)
  rw [hproviders]
  exact List.mem_filterMap.mpr ⟨ascii "blob", by decide +kernel, rfl⟩

/-- The node publishes its file, writes it and runs the hook. -/
theorem blob_never_undone_sample :
    ∃ t, Runs.Run (Olric.Nodes.step fun _ => Blob.provider sampleBlob)
        (fun _ a => a.isChange = false) hookedNodes t ∧
      (t.world ()).dests.content ⟨ascii "/d", ascii "f"⟩ = some [2] ∧
      (t.pc ()).rollsBack = false ∧ (t.world ()).commands = ⟨fun _ => false, 0⟩ := by
  obtain ⟨t, hrun, hcontent⟩ : ∃ t, Runs.Run (Olric.Nodes.step fun _ => Blob.provider sampleBlob)
      (fun _ a => a.isChange = false) hookedNodes t ∧
      (t.world ()).dests.content ⟨ascii "/d", ascii "f"⟩ = some [2] :=
    Runs.Run.exists_of_replay [.begin () .insertion, .call (), .call (), .call (), .call (),
      .call (), .call (), .call ()] (by decide +kernel)
  obtain ⟨started, hstarted, hblob⟩ := sampleBlob_started
  have hinvariant := (blob_never_undone (fun _ : Unit => []) (fun _ => hstarted) (fun _ => hblob)
    fun _ => ⟨fun _ => false, 0⟩).1 hookedNodes t ⟨fun _ => rfl, fun _ => rfl⟩ (fun _ => rfl)
    (hrun.mono fun _ _ hquiet => .of_not_isChange hquiet) ()
  exact ⟨t, hrun, hcontent, hinvariant⟩

end Lbsync.Agent
