import Lbsync.Engine.NextTick
import Lbsync.Olric.Resting

/-!
# The tick after an error-free tick on the facade

An error-free tick leaves the index and the keys it knew readable, and the next tick
knows no others.
-/

namespace Lbsync.Olric

open Engine

variable {T P : Type*} [DecidableEq T] {t : T} {p : Provider P} {ord : MapOrder} {c : Cluster T}
  {w : P}

/-- The index lists no key the tick did not know. -/
theorem knows_of_indexed_after (h : ErrorFree (kv t) p ord c w) {ks : List GoString}
    (hks : ((tickProvider (kv t) p ord c w).1.dmaps p.kind).indexed = some ks) {k : GoString}
    (hk : k ∈ localMap (p.locals w).1 ∨ k ∈ ks) : Knows p c w k := by
  rcases hk with hown | hlisted
  · exact Or.inl (AList.lookup_isSome.mpr hown)
  · have hafter : ((tickProvider (kv t) p ord c w).1.dmaps p.kind).listed k = some true := by
      simp [DMap.listed, hks, hlisted]
    have hindex := ((tickEffect_of_errorFree h).index k).symm.trans hafter
    split_ifs at hindex with hlt
    · left
      cases hl : (localMap (p.locals w).1).lookup k with
      | none => simp [hl] at hlt
      | some l => rfl
    · exact Or.inr hindex

/-- While no call fails from outside, the facade is at rest after an error-free tick. -/
theorem rests_after_tick (h : ErrorFree (kv t) p ord c w) (hup : (c.dmaps p.kind).Up) :
    let c' := (tickProvider (kv t) p ord c w).1
    ∃ quiet known, Rests (kv t) p.kind quiet known (c'.dmaps p.kind).stored {k | Knows p c w k} ∧
      quiet c' ∧ ∀ k, k ∈ localMap (p.locals w).1 ∨ k ∈ known → Knows p c w k := by
  intro c'
  obtain ⟨hup', hopen', hreadable⟩ := readable_of_errorFree h hup
  obtain ⟨ks, hks⟩ := Option.isSome_iff_exists.mp (indexed_of_errorFree h)
  exact ⟨_, ks, (rests_kv t p.kind hks).mono hreadable, ⟨rfl, hup', hopen'⟩,
    fun k => knows_of_indexed_after h hks⟩

end Lbsync.Olric
