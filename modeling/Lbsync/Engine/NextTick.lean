import Lbsync.Engine.Merges
import Lbsync.Engine.Resting

/-!
# The tick after a tick

When the cluster is at rest after a tick that merged and `Local` returns the same
records, the next tick finds the same winners: on a tie it takes the stored copy of
the record the first tick took from its own list. So it has nothing to publish and
nothing to write.
-/

namespace Lbsync.Engine

open Backup

variable {K P ι α ω : Type*}

section Tick

variable {cl cl' : ClusterKV K} {p : Provider P} {ord : MapOrder} {s : K} {w w' : P}
  {visited : Set GoString} {before after : GoString → Option Record}

/-- A tick that nobody disturbs writes nothing: it makes no `Put`, changes no file and does
not run the hook. -/
def WritesNothing (cl : ClusterKV K) (p : Provider P) (files : P → ω) (ord : MapOrder) (s : K)
    (w : P) : Prop :=
  let out := tickProvider cl.shared p.logged ord ⟨s, [], []⟩ (w, [])
  (∀ call ∈ out.1.made, ∃ r, call.2 = .got r) ∧ files out.2.1 = files w ∧ NothingApplied out.2.2

/-- The next tick starts with the files as they were left, and `Local` returns the same
records. -/
structure Follows (p : Provider P) (files : P → ω) (w left w' : P) : Prop where
  files : files w' = files left
  locals : (p.locals w').1 = (p.locals w).1

/-- The tick that follows one that merged writes nothing. -/
theorem FilePlaces.writesNothing [DecidableEq α] {good : P → Prop} {keys : Set GoString}
    {slot : P → GoString → ι → Slot α} {offered : Record → ι → Option α} {files : P → ω}
    (h : FilePlaces p good keys slot offered files)
    (hmerges : Merges (localMap (p.locals w).1) visited before after (tickLoop cl p ord s w).calls)
    (hcalls : WinnerCalls keys (tickLoop cl p ord s w).calls)
    (hflush : ¬ FlushFails p (tickLoop cl p ord s w).calls (p.locals w).2)
    {quiet : K → Prop} {known : List GoString} {s' : K}
    (hrests : Rests cl' p.kind quiet known after visited) (hquiet : quiet s')
    (hknown : ∀ k, k ∈ localMap (p.locals w).1 ∨ k ∈ known → k ∈ visited)
    (hw : good w) (hw' : good w') (hfollows : Follows p files w (tickProvider cl p ord s w).2 w')
    (ord' : MapOrder) : WritesNothing cl' p files ord' s' w' := by
  let start : Shared K := ⟨s', [], []⟩
  have hlocals : localMap (p.locals w').1 = localMap (p.locals w).1 :=
    congrArg localMap hfollows.locals
  have hvisited : ∀ k ∈ unionKeys ord' (localMap (p.locals w').1) (.ok known), k ∈ visited :=
    fun k hk => hknown k (hlocals ▸ mem_unionKeys.mp hk)
  obtain ⟨⟨-, -, hreads⟩, hcalls'⟩ := hrests.shared.tickLoop hvisited
    (fun k l hl => hmerges.keeps (hlocals ▸ hl)) (s := start) ⟨hquiet, rfl, nofun⟩
  have hfirst : Held slot offered (tickLoop cl p ord s w).calls (tickProvider cl p ord s w).2 := by
    rw [tickProvider_snd]
    exact h.toOffers.held_of_not_fails h.flush hcalls (h.locals w hw).1 hflush
  obtain ⟨hgood, hlisted⟩ := h.locals w' hw'
  have hheld : Held slot offered (tickLoop cl'.shared p ord' start w').calls (p.locals w').2 := by
    intro call hcall i a ha
    rw [hcalls'] at hcall
    obtain ⟨k, hk, hbest⟩ := List.mem_flatMap.mp hcall
    obtain ⟨r, hr, rfl⟩ := mem_bestCall.mp hbest
    rw [h.slots _ _ (hlisted.trans hfollows.files)]
    exact hfirst _ (hmerges.mem_calls (hvisited k hk) (hlocals ▸ hr)) i a ha
  obtain ⟨hsame, hnothing⟩ := h.toInert.tickProvider cl'.shared ord' start hgood hheld
  refine ⟨?_, hsame.trans hlisted, hnothing⟩
  rw [tickProvider_logged]
  exact hreads

end Tick

end Lbsync.Engine
