import Lbsync.Engine.Merges

/-!
# One register per key

What a cluster is for: a register per key that keeps the newest record it was
offered, the first one on a tie. A tick that nothing disturbs offers its local
records and then hands what the registers hold to `Apply`. The backends keep their
records in different places; each is compared with this model.
-/

namespace Lbsync.Engine

/-- The register of each key. -/
abbrev Registers := GoString → Option Record

namespace Registers

/-- The local records of a tick are offered. -/
def offer (regs : Registers) (own : LocalMap) : Registers :=
  fun k => pickNewer (own.lookup k) (regs k)

/-- Calls to `Apply` that hand out what the registers hold, each key once. -/
structure Handed (regs : Registers) (calls : List (GoString × Record)) : Prop where
  nodup : (calls.map Prod.fst).Nodup
  mem : ∀ k r, (k, r) ∈ calls ↔ regs k = some r

/-- The registers determine the calls up to their order. -/
theorem Handed.perm {regs : Registers} {calls calls' : List (GoString × Record)}
    (h : Handed regs calls) (h' : Handed regs calls') : calls.Perm calls' := by
  refine (List.perm_ext_iff_of_nodup (.of_map _ h.nodup) (.of_map _ h'.nodup)).mpr ?_
  rintro ⟨k, r⟩
  rw [h.mem, h'.mem]

end Registers

end Lbsync.Engine
