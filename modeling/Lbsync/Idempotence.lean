import Lbsync.Blob.Idle
import Lbsync.Certs.Idle
import Lbsync.Olric.Idempotence
import Lbsync.Wan.NextTick

/-!
# Ticks are idempotent

Once a tick has completed, the next one with the same local records writes nothing:
it makes no `Put`, changes no file and does not run the hook. This is proved for any
provider whose places are files, on the facade and on the network, and the certs and
the blob provider are such providers.
-/

namespace Lbsync

open Engine Backup Files

variable {K P ω : Type*}

/-- No cluster call of the tick fails, and neither does the hook if it is run. -/
structure Completes (cl : ClusterKV K) (p : Provider P) (ord : MapOrder) (s : K) (w : P) :
    Prop where
  errorFree : ErrorFree cl p ord s w
  flush : ¬ FlushFails p (tickLoop cl p ord s w).calls (p.locals w).2

/-- The tick that follows a completed tick writes nothing. The first tick visits some of the
given keys, and the map orders of the two ticks need not agree. -/
def Idempotent (cl cl' : ClusterKV K) (p : Provider P) (good : P → Prop) (keys : Set GoString)
    (files : P → ω) (s : K) : Prop :=
  ∀ ord ord' w w', good w → good w' →
    (∀ k ∈ unionKeys ord (localMap (p.locals w).1) (cl.keys p.kind s).1, k ∈ keys) →
    Completes cl p ord s w → Follows p files w (tickProvider cl p ord s w).2 w' →
    WritesNothing cl' p files ord' (tickProvider cl p ord s w).1 w'

/-- Ticks are idempotent on a facade whose calls do not fail from outside, and on a network
where the same peers answer. The stores hold records under their own keys. -/
structure IdempotentTicks (T N : Type*) [DecidableEq T] [DecidableEq N] (p : Provider P)
    (good : P → Prop) (keys : Set GoString) (files : P → ω) : Prop where
  olric : ∀ (t : T) (c : Olric.Cluster T), (c.dmaps p.kind).Up → (c.dmaps p.kind).Keyed →
    Idempotent (Olric.kv t) (Olric.kv t) p good keys files c
  wan : ∀ (peers : N → List N) (answers : N → Bool) (visit visit' : MapOrder) (n : N)
    (net : Wan.Net N), (∀ q, OwnKeys (net.stored q p.kind)) →
    Idempotent (Wan.backend peers answers visit n) (Wan.backend peers answers visit' n) p good
      keys files net

theorem idempotentTicks_of_filePlaces {T N ι α : Type*} [DecidableEq T] [DecidableEq N]
    [DecidableEq α] {p : Provider P} {good : P → Prop} {keys : Set GoString}
    {slot : P → GoString → ι → Slot α} {offered : Record → ι → Option α} {files : P → ω}
    (h : FilePlaces p good keys slot offered files) : IdempotentTicks T N p good keys files where
  olric t c hup hkeyed ord ord' w w' hw hw' hkeys hcompletes hfollows := by
    obtain ⟨hfree, hflush⟩ := hcompletes
    have hmerges := Olric.merges_of_errorFree hfree
    obtain ⟨quiet, known, hrests, hquiet, hknown⟩ := Olric.rests_after_tick hfree hup
    have hvisited : {k | Olric.Knows p c w k} ⊆ keys := by
      obtain ⟨ks, c₀, hlisted, hindexed, -⟩ := Olric.knownKeys_of_errorFree hfree
      intro k hk
      refine hkeys k ?_
      rw [hlisted]
      exact (Olric.mem_unionKeys_iff hindexed).mpr hk
    exact h.writesNothing hmerges (hmerges.winnerCalls hkeyed hvisited) hflush hrests hquiet
      hknown hw hw' hfollows ord'
  wan peers answers visit visit' n net hkeyed ord ord' w w' hw hw' hkeys hcompletes hfollows := by
    have hmerges := Wan.merges_backend peers answers visit n ord net w (p := p)
    obtain ⟨known, hrests, hknown⟩ := Wan.rests_after_tick peers answers visit n visit' ord net w
      (p := p)
    have hvisited : Wan.Visits (peers n) answers n p net w ⊆ keys := by
      intro k hk
      exact hkeys k (mem_unionKeys.mpr (hk.imp_right (visit.perm _).mem_iff.mpr))
    exact h.writesNothing hmerges (hmerges.winnerCalls (Wan.ownKeys_lookup hkeyed) hvisited)
      hcompletes.flush (hrests.mono (Set.subset_univ _)) rfl hknown hw hw' hfollows ord'

/-- Ticks of the certs provider are idempotent when the keys are single path components, and
those of the blob provider when the destinations are distinct and none is another's backup. -/
theorem ticks_idempotent (T N : Type*) [DecidableEq T] [DecidableEq N] :
    (∀ cfg : Certs.Config, IdempotentTicks T N (Certs.provider cfg) (fun w => w.serving.Healthy)
      {k | IsComponent k} fun w => w.serving.files) ∧
    ∀ cfg : Blob.Config, cfg.Separate → cfg.Writable →
      IdempotentTicks T N (Blob.provider cfg) (fun w => w.dests.Healthy) Set.univ
        fun w => w.dests.files := by
  constructor
  · intro cfg
    have hdirs : Set.InjOn cfg.dir {k | IsComponent k} :=
      fun a ha b hb heq => join_injective ha hb heq
    exact idempotentTicks_of_filePlaces (Certs.filePlaces_provider hdirs)
  · intro cfg hseparate hwritable
    exact idempotentTicks_of_filePlaces (Blob.filePlaces_provider hseparate hwritable)

/-- A cluster without records. -/
def emptyCluster : Olric.Cluster Unit := ⟨fun _ => ⟨fun _ => none, []⟩, fun _ => true⟩

/-- A node whose source holds `[2]`, with no destination yet, on which every command works. -/
def sourceWorld : Blob.World :=
  { Blob.sampleWorld ∅ with sources := fun _ => ⟨.ok [2], .ok 0⟩, commands := ⟨fun _ => true, 0⟩ }

/-- The first tick publishes the source and writes the destination; the second writes nothing. -/
theorem published_source_settles :
    let p := Blob.provider Blob.sampleConfig
    let first := tickProvider (Olric.kv ()) p .insertion emptyCluster sourceWorld
    let next : Blob.World := { sourceWorld with dests := first.2.dests }
    Completes (Olric.kv ()) p .insertion emptyCluster sourceWorld ∧
    ((first.1.dmaps p.kind).stored (ascii "f")).isSome ∧
    next.dests.content Blob.sampleResource.dest = some [2] ∧
    WritesNothing (Olric.kv ()) p (fun w => w.dests.files) .insertion first.1 next := by
  intro p first next
  let last := tickLoop (Olric.kv ()) p .insertion emptyCluster sourceWorld
  have hflush : (p.flush last.provider).1 = .ok () := by decide
  have hcompletes : Completes (Olric.kv ()) p .insertion emptyCluster sourceWorld := by
    have hfree : ErrorFree (Olric.kv ()) p .insertion emptyCluster sourceWorld := by decide
    refine ⟨hfree, ?_⟩
    rintro ⟨-, e, he⟩
    rw [← tickLoop_applied] at he
    cases hflush.symm.trans he
  have hhealthy : next.dests.Healthy := ⟨by decide, by decide⟩
  have hfollows : Follows p (fun w => w.dests.files) sourceWorld first.2 next :=
    Blob.follows_dests Blob.sampleConfig sourceWorld first.2
  have hstored : ((first.1.dmaps p.kind).stored (ascii "f")).isSome := by decide
  have hwritten : next.dests.content Blob.sampleResource.dest = some [2] := by decide
  refine ⟨hcompletes, hstored, hwritten, ?_⟩
  exact ((ticks_idempotent Unit Unit).2 Blob.sampleConfig Blob.sampleConfig_distinct.toSeparate
    Blob.sampleConfig_writable).olric () emptyCluster rfl nofun .insertion .insertion
    sourceWorld next ⟨rfl, rfl⟩ hhealthy (fun _ _ => trivial) hcompletes hfollows

end Lbsync
