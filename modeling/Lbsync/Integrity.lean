import Lbsync.Blob.Rollback
import Lbsync.Certs.Serving
import Lbsync.Files.Contents
import Lbsync.Fleet
import Lbsync.LocalRuns
import Lbsync.Olric.Provenance

/-!
# What the files of a fleet can hold

Every content that a node serves was there at the start or was in a record that some node had
for the same key, in the blob of the same file. That holds on both backends while calls to
the cluster and to the disk fail and locks expire, and on the network also while pushes are
lost and nodes restart. A content is whole unless a write was cut off.
-/

namespace Lbsync.Certs

open Files Engine

variable {cfg : Config} {C : Contents}

/-- What a record has for a file may stand in the directory of its lineage. -/
def Suits (cfg : Config) (C : Contents) (r : Record) : Prop :=
  ∀ f : BundleFile, r.blob f.blobName ≠ [] →
    r.blob f.blobName ∈ C.may ⟨cfg.dir r.key, f.fileName⟩

/-- The provider keeps its serving directories to the contents it is offered. -/
theorem upkeep (cfg : Config) (C : Contents) :
    Upkeep (provider cfg) (fun w => Conforms C w.serving) {r | Suits cfg C r} where
  locals w h := by
    have hsame : (locals cfg w).2 = w := by
      unfold locals
      cases w.scanned <;> rfl
    change Conforms C (locals cfg w).2.serving
    rwa [hsame]
  apply w h r hr :=
    applyOn_keeps (P := Conforms C) (fun _ hd => hd.mkdirAll)
      (fun f _ hdata hd => hd.writeAtomic (f.avoids cfg.temp _) (hr f hdata) f.perm) h
  flush w h := h
  rollback w h keys := by
    rw [serving_rollback]
    exact rollbackKeysOn_keeps (P := Conforms C) (fun key _ hd => hd.restoreDir (cfg.dir key))
      keys h

end Lbsync.Certs

namespace Lbsync.Blob

open Files Engine

/-- What a record has for a configured file may stand at its destination. -/
def Suits (cfg : Config) (C : Contents) (r : Record) : Prop :=
  ∀ res, cfg.byName r.key = some res → r.blob (ascii "data") ∈ C.may res.dest

theorem conforms_restoreKeys {C : Contents} (cfg : Config) (keys : List GoString) {d : Disk}
    (h : Conforms C d) : Conforms C (restoreKeys cfg keys d).2 := by
  induction keys generalizing d with
  | nil => exact h
  | cons key rest ih =>
      rw [restoreKeys]
      cases cfg.byName key with
      | none => exact ih h
      | some res =>
          have hrestore := h.restore res.dest
          simp only
          generalize restore d res.dest = out at hrestore ⊢
          obtain ⟨_ | _, d₁⟩ := out <;> exact ih hrestore

/-- The provider keeps its destinations to the contents it is offered. -/
theorem upkeep {cfg : Config} (hwritable : cfg.Writable) (C : Contents) :
    Upkeep (provider cfg) (fun w => Conforms C w.dests) {r | Suits cfg C r} where
  locals w h := h
  apply w h r hr := by
    change Conforms C (apply cfg r w).2.dests
    unfold apply
    cases hres : cfg.byName r.key with
    | none => exact h
    | some res =>
        have hwrite := h.writeAtomic (hwritable res (Config.mem_of_byName hres).1).2
          (hr res hres) 0o644
        simp only
        generalize writeAtomic cfg.temp w.dests res.dest (r.blob (ascii "data")) 0o644 = out
          at hwrite ⊢
        obtain ⟨_ | changed, d⟩ := out
        · exact hwrite
        · cases changed <;> exact hwrite
  flush w h := by
    have hsame : (flush cfg w).2.dests = w.dests := by
      unfold flush
      generalize runHooks cfg (w.order.visit w.pending) w.commands = out
      obtain ⟨_ | _, cs⟩ := out <;> rfl
    change Conforms C (flush cfg w).2.dests
    rwa [hsame]
  rollback w h keys := by
    have hall := conforms_restoreKeys cfg keys h
    change Conforms C ((provider cfg).rollback keys w).2.dests
    simp only [provider]
    generalize restoreKeys cfg keys w.dests = out at hall ⊢
    obtain ⟨_ | _, d⟩ := out <;> exact hall

end Lbsync.Blob

namespace Lbsync.Olric

open Engine

variable {N P : Type*}

/-- What the calls of the engine keep holds along every run. -/
theorem world_invariant [DecidableEq N] {p : N → Provider P} {kind : GoString}
    (hkind : ∀ n, (p n).kind = kind) {G : GoString → Set Record} {I : N → P → Prop}
    (hup : ∀ n, Upkeep (p n) (I n) {r | ∃ key, r ∈ G key}) {named₀ : List GoString}
    {s t : Nodes N P} (hs : Attributed kind G named₀ s) (hworld : ∀ n, I n (s.world n))
    (hrun : Runs.Run (Nodes.step p) (fun s a => Lists p G s a ∧ Changes I a) s t) :
    ∀ n, I n (t.world n) := by
  refine (hrun.invariant (I := fun s => Attributed kind G named₀ s ∧ ∀ n, I n (s.world n))
    (fun s a t hs ha hstep => ⟨attributed_step hkind hs.1 ha.1 hstep, fun n => ?_⟩)
    ⟨hs, hworld⟩).2
  rcases local_step ha.2 hstep n with hsame | ⟨b, hb, hlocal⟩
  · rw [(Prod.mk.inj hsame).2]
    exact hs.2 n
  · exact (hup n).next hlocal hb (fun c hc => ⟨c.1, (hs.1.carries n).applied hc⟩) (hs.2 n)

end Lbsync.Olric

namespace Lbsync.Wan

open Engine

variable {N P : Type*}

/-- What the calls of the engine keep holds along every run, also with restarts. -/
theorem world_invariant [DecidableEq N] {peers : N → List N} {p : N → Provider P}
    {kind : GoString} (hkind : ∀ n, (p n).kind = kind) {G : GoString → Set Record}
    {I : N → P → Prop} (hup : ∀ n, Upkeep (p n) (I n) {r | ∃ key, r ∈ G key}) {s t : Nodes N P}
    (hs : Attributed kind G s) (hworld : ∀ n, I n (s.world n))
    (hrun : Runs.Run (Nodes.next peers p) (fun s e => Lists p G s e ∧ Changes I e) s t) :
    ∀ n, I n (t.world n) := by
  refine (hrun.invariant (I := fun s => Attributed kind G s ∧ ∀ n, I n (s.world n))
    (fun s e t hs he hstep => ⟨attributed_next hkind hs.1 he.1 hstep, fun n => ?_⟩)
    ⟨hs, hworld⟩).2
  rcases local_step he.2 hstep n with hsame | ⟨b, hb, hlocal⟩
  · rw [(Prod.mk.inj hsame).2]
    exact hs.2 n
  · exact (hup n).next hlocal hb (fun c hc => ⟨c.1, (hs.1.carries n).applied hc⟩) (hs.2 n)

end Lbsync.Wan

namespace Lbsync

open Engine Files

variable {N P : Type*} [DecidableEq N]

/-- On both backends, whatever fails: when `G` has, for each key, the record stored at the
start and the local records that any node has for it when it starts a tick, and the
providers' states are as they should be at the start and when they are changed from outside,
they always are. -/
def Maintains (peers : N → List N) (p : N → Provider P) (kind : GoString)
    (G : GoString → Set Record) (I : N → P → Prop) : Prop :=
  (∀ s t : Olric.Nodes N P, Olric.Initial s →
    (∀ key r, (s.cluster.dmaps kind).stored key = some r → r ∈ G key) →
    (∀ n, I n (s.world n)) →
    Runs.Run (Olric.Nodes.step p) (fun s a => Olric.Lists p G s a ∧ Olric.Changes I a) s t →
    ∀ n, I n (t.world n)) ∧
  ∀ s t : Wan.Nodes N P, Wan.Initial s → (∀ n, I n (s.world n)) →
    Runs.Run (Wan.Nodes.next peers p) (fun s e => Wan.Lists p G s e ∧ Wan.Changes I e) s t →
    ∀ n, I n (t.world n)

theorem maintains_of_upkeep {peers : N → List N} {p : N → Provider P} {kind : GoString}
    (hkind : ∀ n, (p n).kind = kind) {G : GoString → Set Record} {I : N → P → Prop}
    (hup : ∀ n, Upkeep (p n) (I n) {r | ∃ key, r ∈ G key}) : Maintains peers p kind G I :=
  ⟨fun _ _ hinit hstored hworld hrun =>
      Olric.world_invariant hkind hup (hinit.attributed hstored) hworld hrun,
    fun _ _ hinit hworld hrun => Wan.world_invariant hkind hup hinit.attributed hworld hrun⟩

/-- Nothing but what was published is served. Fix for every node the contents that may stand at
each of its paths. If what the records of a key have for its files may stand there on every
node, then every file that a node serves, and its backup, always holds a content that may
stand there: for the certs provider and for the blob provider, on both backends, and
whatever fails, on the disk too. -/
theorem served_contents (peers : N → List N) (C : N → Contents) (G : GoString → Set Record) :
    (∀ cfg : N → Certs.Config, (∀ n key, ∀ r ∈ G key, Certs.Suits (cfg n) (C n) r) →
      Maintains peers (fun n => Certs.provider (cfg n)) Certs.kind G
        fun n w => Conforms (C n) w.serving) ∧
    ∀ cfg : N → Blob.Config, (∀ n, (cfg n).Writable) →
      (∀ n key, ∀ r ∈ G key, Blob.Suits (cfg n) (C n) r) →
      Maintains peers (fun n => Blob.provider (cfg n)) Blob.kind G
        fun n w => Conforms (C n) w.dests := by
  constructor
  · intro cfg hsuits
    refine maintains_of_upkeep (p := fun n => Certs.provider (cfg n))
      (I := fun n w => Conforms (C n) w.serving) (fun _ => rfl)
      fun n => (Certs.upkeep (cfg n) (C n)).mono ?_
    rintro r ⟨key, hr⟩
    exact hsuits n key r hr
  · intro cfg hwritable hsuits
    refine maintains_of_upkeep (p := fun n => Blob.provider (cfg n))
      (I := fun n w => Conforms (C n) w.dests) (fun _ => rfl)
      fun n => (Blob.upkeep (hwritable n) (C n)).mono ?_
    rintro r ⟨key, hr⟩
    exact hsuits n key r hr

/-- Any content at most paths; at one of them and at its backups only the given ones. -/
def Files.Contents.at (path : Path) (S : Set Bytes) (hbackup : ∀ q : Path, path ≠ q.backup)
    (htemp : path.name.head? ≠ some 46 ∧ path.name ≠ []) : Contents where
  may q := {data | ∀ k, q = Path.backup^[k] path → data ∈ S}
  backup q := by
    ext data
    constructor
    · intro h k hk
      exact h (k + 1) (by rw [Function.iterate_succ_apply', hk])
    · intro h k hk
      cases k with
      | zero => exact absurd hk.symm (hbackup q)
      | succ k =>
          rw [Function.iterate_succ_apply'] at hk
          exact h k (Path.backup_injective hk)
  temp dir digits := by
    have hhead (k : ℕ) : (Path.backup^[k] path).name.head? = path.name.head? := by
      induction k with
      | zero => rfl
      | succ k ih =>
          rw [Function.iterate_succ_apply', Path.backup, List.head?_append, ih]
          obtain ⟨b, rest, hname⟩ := List.exists_cons_of_ne_nil htemp.2
          rw [hname]
          rfl
    refine Set.eq_univ_of_forall fun data k hk => absurd ?_ htemp.1
    rw [← hhead k, ← hk]
    rfl

/-- At the destination of the two nodes: the old content and the published one. -/
def sampleContents : Contents :=
  .at Blob.sampleResource.dest {[1], [2]} (fun q hq => by
    have hname := congrArg (fun p => p.name.getLast?) hq
    simp [Blob.sampleResource, Path.backup, backupSuffix, ascii] at hname) (by decide)

/-- The first node has the source of the file. The second one serves an old content, and on its
disk one call fails; so does its hook. -/
def failingNodes : Olric.Nodes Bool Blob.World where
  cluster := ⟨fun _ => ⟨fun _ => none, []⟩, fun _ => true⟩
  pc _ := .idle
  world n :=
    if n then
      { Blob.sampleWorld ∅ with
        dests := ⟨(∅ : FileMap).insert Blob.sampleResource.dest ⟨[1], 0o644⟩, 0o022,
          [.pass, .pass, .fail none], false⟩ }
    else { Blob.sampleWorld ∅ with sources := fun _ => ⟨.ok [2], .ok 0⟩ }
  applied _ := []

/-- The record that the first node publishes. -/
def publishedCopies (key : GoString) : Set Record :=
  {r | key = ascii "f" ∧ fleetCopies false = some r}

instance decidableMemPublishedCopies (key : GoString) (r : Record) :
    Decidable (r ∈ publishedCopies key) :=
  inferInstanceAs (Decidable (key = ascii "f" ∧ fleetCopies false = some r))

theorem conforms_failingNodes (n : Bool) :
    Conforms sampleContents (failingNodes.world n).dests := by
  have hempty (faults : List Fault) (hfaults : ∀ f ∈ faults, f.written = none) :
      Conforms sampleContents ⟨∅, 0o022, faults, false⟩ :=
    ⟨fun path f hf => by simp [Disk.file] at hf, .inl hfaults⟩
  cases n with
  | false => exact hempty [] (by simp)
  | true =>
      have hold : Conforms sampleContents (Disk.set ⟨∅, 0o022, [.pass, .pass, .fail none], false⟩
          Blob.sampleResource.dest ⟨[1], 0o644⟩) :=
        (hempty _ (by decide)).set fun _ _ => .inl rfl
      exact hold

/-- What the two nodes do: nobody changes their files. -/
def failingAllowed (s : Olric.Nodes Bool Blob.World) (a : Olric.Action Bool Blob.World) : Prop :=
  Olric.Lists (fun _ => Blob.provider Blob.sampleConfig) publishedCopies s a ∧ a.isChange = false

instance decidableFailingAllowed (s : Olric.Nodes Bool Blob.World)
    (a : Olric.Action Bool Blob.World) : Decidable (failingAllowed s a) :=
  inferInstanceAs (Decidable (Olric.Lists (fun _ => Blob.provider Blob.sampleConfig)
    publishedCopies s a ∧ a.isChange = false))

/-- The second node fails to write the published content, then writes it and takes it back. -/
def failingActions : List (Olric.Action Bool Blob.World) :=
  [.begin false .insertion, .call false, .call false, .call false, .call false, .call false,
    .begin true .insertion, .call true, .call true,
    .begin true .insertion, .call true, .call true, .call true, .call true]

theorem served_contents_failing :
    ∃ t, Runs.Run (Olric.Nodes.step fun _ => Blob.provider Blob.sampleConfig) failingAllowed
        failingNodes t ∧
      ((t.applied true).map fun a => a.2.blob (ascii "data")) = [[2], [2]] ∧
      Conforms sampleContents (t.world true).dests := by
  obtain ⟨t, hrun, happlied⟩ : ∃ t,
      Runs.Run (Olric.Nodes.step fun _ => Blob.provider Blob.sampleConfig) failingAllowed
        failingNodes t ∧ ((t.applied true).map fun a => a.2.blob (ascii "data")) = [[2], [2]] :=
    Runs.Run.exists_of_replay failingActions (by decide +kernel)
  have hsuits : ∀ (n : Bool) key, ∀ r ∈ publishedCopies key,
      Blob.Suits Blob.sampleConfig sampleContents r := by
    rintro n key r ⟨-, hr⟩ res hres k -
    obtain rfl := Option.some.inj hr
    exact .inr rfl
  have hchanges : ∀ s a, failingAllowed s a →
      Olric.Lists (fun _ => Blob.provider Blob.sampleConfig) publishedCopies s a ∧
        Olric.Changes (fun _ w => Conforms sampleContents w.dests) a := by
    rintro s a ⟨hlists, hquiet⟩
    exact ⟨hlists, by cases a <;> trivial⟩
  have hmaintains := (served_contents (fun _ : Bool => []) (fun _ => sampleContents)
    publishedCopies).2 (fun _ => Blob.sampleConfig) (fun _ => Blob.sampleConfig_writable) hsuits
  exact ⟨t, hrun, happlied, hmaintains.1 failingNodes t ⟨fun _ => rfl, fun _ => rfl⟩
    (fun key r hr => by simp [failingNodes, Olric.DMap.stored] at hr) conforms_failingNodes
    (hrun.mono hchanges) true⟩

end Lbsync
