import Lbsync.Engine.Kinds
import Lbsync.Olric.Facade

/-!
# Kinds on the cluster facade

Every kind has a DMap of its own, and each call of the facade opens the DMap of its kind.
-/

namespace Lbsync.Olric

open Engine Slices

variable {T : Type*}

/-- What belongs to a kind: its DMap, and whether it opens. -/
def kindSlice (kind : GoString) (c : Cluster T) : DMap T × Bool := (c.dmaps kind, c.opens kind)

/-- A cluster is what belongs to its kinds. -/
theorem Cluster.ext_kinds {c c' : Cluster T} (h : ∀ kind, kindSlice kind c = kindSlice kind c') :
    c = c' := by
  obtain ⟨dmaps, opens⟩ := c
  obtain ⟨dmaps', opens'⟩ := c'
  rw [show dmaps = dmaps' from funext fun kind => congrArg Prod.fst (h kind),
    show opens = opens' from funext fun kind => congrArg Prod.snd (h kind)]

/-- The first cluster with what the second one has of a kind. -/
def Cluster.splice (kind : GoString) (c₀ c : Cluster T) : Cluster T :=
  ⟨Function.update c₀.dmaps kind (c.dmaps kind), Function.update c₀.opens kind (c.opens kind)⟩

theorem splice_congr {kind : GoString} {c c' : Cluster T}
    (h : kindSlice kind c = kindSlice kind c') (c₀ : Cluster T) :
    c₀.splice kind c = c₀.splice kind c' := by
  obtain ⟨hdmap, hopens⟩ := Prod.mk.inj h
  rw [Cluster.splice, Cluster.splice, hdmap, hopens]

theorem kindSlice_splice (kind : GoString) (c₀ c : Cluster T) :
    kindSlice kind (c₀.splice kind c) = kindSlice kind c := by
  simp [kindSlice, Cluster.splice]

theorem kindSlice_splice_of_ne {kind other : GoString} (h : other ≠ kind) (c₀ c : Cluster T) :
    kindSlice other (c₀.splice kind c) = kindSlice other c₀ := by
  simp [kindSlice, Cluster.splice, h]

theorem onDMap_confined {α : Type*} (kind : GoString) (call : DMap T → Except Err α × DMap T) :
    Confined kindSlice kind fun c : Cluster T => c.onDMap kind call := by
  refine ⟨fun {c c'} h => ?_, fun {c c'} h => ?_, fun {j} hj c => ?_⟩
  · obtain ⟨hdmap, hopens⟩ := Prod.mk.inj h
    simp only [Cluster.onDMap, hopens, hdmap]
    split_ifs <;> rfl
  · obtain ⟨hdmap, hopens⟩ := Prod.mk.inj h
    simp only [Cluster.onDMap, hopens, hdmap]
    split_ifs
    · simp [kindSlice, hopens]
    · exact h
  · unfold Cluster.onDMap
    split_ifs
    · simp [kindSlice, hj]
    · rfl

variable [DecidableEq T]

/-- The cluster facade keeps the kinds apart. -/
theorem kv_perKind (t : T) : PerKind id kindSlice (kv t) where
  get kind _ := onDMap_confined kind _
  put kind r hr := by
    obtain rfl : r.kind = kind := hr
    exact onDMap_confined r.kind _
  keys kind := onDMap_confined kind _
  lock kind _ := onDMap_confined kind _
  release kind key :=
    (onDMap_confined kind fun dm => (.ok (), releaseIn t key dm)).map fun _ => ()

end Lbsync.Olric
