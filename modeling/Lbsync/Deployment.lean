import Lbsync.Fleet
import Lbsync.Olric.Agents

/-!
# A fleet that runs both modules

Every node runs the certs and the blob module on one cluster. The two have different kinds, so
what holds for a fleet with one of them holds for both at once: the nodes come to serve the
newest bundle of every lineage and the newest content of every file.
-/

namespace Lbsync

open Engine Files Olric Slices

section Allowed

variable {N P ι α : Type*} [DecidableEq N] {p : N → Provider P} {kind : GoString}
  {s t : Nodes N P} {a : Action N P}

theorem callOk_congr (hkind : ∀ n, (p n).kind = kind) (hs : Proper kind s)
    (h : SameKind kind s t) (n : N) :
    callOk (p n).kind n s.cluster (s.pc n) = callOk (p n).kind n t.cluster (t.pc n) := by
  have hput : ∀ l, putAt (s.pc n) = some l → l.kind = kind := fun l hl => hs.put hl
  rw [← h.pc, hkind n]
  cases hpc : s.pc n with
  | get f key =>
      exact congrArg (fun r => !isError r) (((kv_perKind n).get kind key).result h.slice)
  | lock f key l c =>
      exact congrArg (fun r => !isError r) (((kv_perKind n).lock kind key).result h.slice)
  | recheck f key l c locked =>
      exact congrArg (fun r => !isError r) (((kv_perKind n).get kind key).result h.slice)
  | put f key l c locked =>
      have hl : l.kind = kind := hput l (by rw [hpc]; rfl)
      exact congrArg (fun r => !isError r) (((kv_perKind n).put kind l hl).result h.slice)
  | _ => rfl

/-- What nodes that serve a key may do depends on the kind only. -/
theorem Tended.congr {good : N → P → Prop} {keys : Set GoString}
    {slot : N → P → GoString → ι → Backup.Slot α} {key : GoString} {own : N → Option Record}
    (hkind : ∀ n, (p n).kind = kind) (hs : Proper kind s) (h : SameKind kind s t)
    (ha : Tended p good keys slot key own s a) : Tended p good keys slot key own t a := by
  obtain ⟨⟨hallowed, hcopies⟩, hundisturbed⟩ := ha
  cases a with
  | begin n ord =>
      have hkeys : ((kv n).keys (p n).kind s.cluster).1 = ((kv n).keys (p n).kind t.cluster).1 := by
        rw [hkind n]
        exact ((kv_perKind n).keys kind).result h.slice
      simp only [Copies, Undisturbed, h.world, hkeys] at hcopies hundisturbed
      exact ⟨⟨trivial, hcopies⟩, hundisturbed⟩
  | call n =>
      refine ⟨⟨?_, trivial⟩, ?_⟩
      · rw [Allowed, ← callOk_congr hkind hs h n]
        exact hallowed
      · rw [Undisturbed, ← h.pc]
        exact hundisturbed
  | change n w =>
      refine ⟨⟨trivial, trivial⟩, ?_⟩
      rw [Undisturbed, ← h.world]
      exact hundisturbed
  | expire k name =>
      refine ⟨⟨?_, trivial⟩, trivial⟩
      rw [Allowed, ← h.pc]
      exact hallowed

end Allowed

section Serving

variable {N M : Type*} [DecidableEq N] [DecidableEq M] {P : M → Type*}

/-- A module of a node starts and completes a tick in a run of nodes with all modules. -/
def ModuleTicked (p : ∀ m, N → Provider (P m))
    (joint : Agents N P → (Σ m, Action N (P m)) → Prop) (m : M) (n : N) (s t : Agents N P) :
    Prop :=
  ∃ ord, Runs.Passes (Agents.step p) joint ⟨m, .begin n ord⟩ (fun c => isIdle (c.pc m n) = true) s t

variable {p : ∀ m, N → Provider (P m)} {kind : M → GoString}
  {allowed : ∀ m, Nodes N (P m) → Action N (P m) → Prop} {s t u : Agents N P}
  (hkind : ∀ m n, (p m n).kind = kind m) (hinj : Function.Injective kind)
  (hallowed : ∀ m s t a, Proper (kind m) s → SameKind (kind m) s t → allowed m s a →
    allowed m t a)

include hkind

theorem proper_run (hs : ∀ m, Proper (kind m) (s.only m))
    (hrun : Runs.Run (Agents.step p) (Agents.Joint kind allowed) s t) :
    ∀ m, Proper (kind m) (t.only m) :=
  hrun.invariant (I := fun s => ∀ m, Proper (kind m) (s.only m))
    (fun _ _ _ hs _ hstep => Agents.proper_step hkind hs hstep) hs

include hinj hallowed

theorem ModuleTicked.alone {m : M} {n : N}
    (h : ModuleTicked p (Agents.Joint kind allowed) m n s t)
    (hs : ∀ m, Proper (kind m) (s.only m)) (c₀ : Cluster N) :
    Ticked (p m) (allowed m) n (s.alone kind c₀ m) (t.alone kind c₀ m) := by
  obtain ⟨ord, a, b, c, hsa, ha, hbegin, hbc, hidle, hct⟩ := h
  have hproper := proper_run hkind hs hsa
  have hproper' := Agents.proper_step hkind hproper hbegin
  exact ⟨ord, a.alone kind c₀ m, b.alone kind c₀ m, c.alone kind c₀ m,
    Agents.run_alone hkind hinj hallowed c₀ hs hsa m,
    hallowed m _ _ _ (hproper m) (Agents.sameKind_alone kind c₀ m a) ha.1,
    Agents.step_alone hkind c₀ (hproper m) ha.2 hbegin,
    Agents.run_alone hkind hinj hallowed c₀ hproper' hbc m, hidle,
    Agents.run_alone hkind hinj hallowed c₀ (proper_run hkind hproper' hbc) hct m⟩

end Serving

/-- The modules that have a provider. -/
inductive Service where
  | certs | blob
  deriving DecidableEq

/-- The configuration of a node for both modules. -/
structure NodeConfig where
  certs : Certs.Config
  blob : Blob.Config

namespace Service

/-- What the provider of a module works on. -/
def World : Service → Type
  | certs => Certs.World
  | blob => Blob.World

/-- The kind of a module. -/
def kind : Service → GoString
  | certs => Certs.kind
  | blob => Blob.kind

/-- The provider of a module on a node. -/
def provider (cfg : NodeConfig) : ∀ m : Service, Provider m.World
  | certs => Certs.provider cfg.certs
  | blob => Blob.provider cfg.blob

end Service

section Both

variable {N : Type*} [DecidableEq N]

/-- What the nodes may do while they serve a lineage and a file: the calls succeed, the local
copies of the two are fixed, and only the nodes write the files they serve. -/
def tended (cfg : N → NodeConfig) (lineage file : GoString)
    (bundles contents : N → Option Record) :
    ∀ m : Service, Nodes N m.World → Action N m.World → Prop
  | .certs => Tended (fun n => Certs.provider (cfg n).certs) (fun _ w => w.serving.Healthy)
      {k | IsComponent k} (fun n w => w.slot (cfg n).certs) lineage bundles
  | .blob => Tended (fun n => Blob.provider (cfg n).blob) (fun _ w => w.dests.Healthy)
      Set.univ (fun n w => w.slot (cfg n).blob) file contents

end Both

instance fintypeBundleFile : Fintype Certs.BundleFile :=
  ⟨⟨Certs.BundleFile.all, by decide⟩, fun f => by cases f <;> decide⟩

instance decidableServiceTended {N : Type*} [DecidableEq N] [Fintype N] (cfg : N → NodeConfig)
    (lineage file : GoString) (bundles contents : N → Option Record) (m : Service)
    (s : Nodes N m.World) (a : Action N m.World) :
    Decidable (tended cfg lineage file bundles contents m s a) :=
  match m with
  | .certs => decidableTended _ _ _ _ _ _ s a
  | .blob => decidableTended _ _ _ _ _ _ s a

end Lbsync
