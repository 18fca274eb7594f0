import Lbsync.Olric.CleanTick

/-!
# Repair of a lost index entry

`Put` writes the record before the index, and the index update may fail or be
lost afterwards. The engine decides from the record alone whether to call `Put`
again, so a later tick restores the index entry exactly when it has a strictly
newer record to publish. The owner of the stored record itself never does.
-/

namespace Lbsync.Olric

open Engine

variable {T P : Type*} [DecidableEq T] {t : T} {p : Provider P} {ord : MapOrder} {c : Cluster T}
  {w : P}

/-- When a record is stored but its key is missing from the index, the next
error-free tick of a node with a local record for that key makes `Keys` list the
key if and only if the local record is strictly newer. A local record that is
only as new as the stored one does not. -/
theorem lists_after_tick_iff {k : GoString} {l r : Record} (hfree : ErrorFree (kv t) p ord c w)
    (hstored : (c.dmaps p.kind).stored k = some r) (hmissing : ¬ c.Lists p.kind k)
    (hlocal : (localMap (p.locals w).1).lookup k = some l) :
    (tickProvider (kv t) p ord c w).1.Lists p.kind k ↔ l.version.newer r.version = true := by
  have heff := tickEffect_of_errorFree hfree
  have hindex := heff.index k
  simp only [hlocal, hstored] at hindex
  rw [Cluster.lists_iff] at hmissing ⊢
  rw [show (tickProvider (kv t) p ord c w).1 = (tickLoop (kv t) p ord c w).cluster from rfl,
    hindex, Version.newer_iff_lt]
  have hlt : versionOf (some r) < versionOf (some l) ↔ r.version < l.version := by simp
  split_ifs with h
  · simp [hlt.mp h]
  · simp [mt hlt.mpr h, hmissing]

/-- A cluster of kind `k` in which nothing is stored yet; the eighth call, the
write of the index, fails. -/
def failingIndexCluster : Cluster Nat where
  dmaps _ := ⟨fun _ => none, [false, false, false, false, false, false, false, true]⟩
  opens _ := true

/-- The cluster after the first tick of the owner of version 100: the record is
stored, its key is not indexed. -/
def unindexedCluster : Cluster Nat :=
  (tickProvider (kv 0) (fakeProvider (ascii "k")) MapOrder.insertion failingIndexCluster
    [sampleRecord 100]).1

/-- A second, error-free tick of the owner does not make `Keys` list the key. -/
theorem owner_tick_does_not_relist :
    ErrorFree (kv 0) (fakeProvider (ascii "k")) MapOrder.insertion unindexedCluster
      [sampleRecord 100] ∧
    (localMap ((fakeProvider (ascii "k")).locals [sampleRecord 100]).1).lookup (ascii "a") =
      some (sampleRecord 100) ∧
    (unindexedCluster.dmaps (ascii "k")).stored (ascii "a") = some (sampleRecord 100) ∧
    ¬ unindexedCluster.Lists (ascii "k") (ascii "a") ∧
    (sampleRecord 100).version.newer (sampleRecord 100).version = false ∧
    ¬ (tickProvider (kv 0) (fakeProvider (ascii "k")) MapOrder.insertion unindexedCluster
      [sampleRecord 100]).1.Lists (ascii "k") (ascii "a") := by
  refine ⟨by decide, by decide, by decide, ?_, by decide, ?_⟩
  · rw [Cluster.lists_iff]
    decide
  · rw [Cluster.lists_iff]
    decide

/-- A node with a strictly newer record restores the entry. -/
theorem newer_tick_relists :
    ¬ unindexedCluster.Lists (ascii "k") (ascii "a") ∧
    (tickProvider (kv 1) (fakeProvider (ascii "k")) MapOrder.insertion unindexedCluster
      [sampleRecord 101]).1.Lists (ascii "k") (ascii "a") := by
  have hmissing : ¬ unindexedCluster.Lists (ascii "k") (ascii "a") := by
    rw [Cluster.lists_iff]
    decide
  exact ⟨hmissing, (lists_after_tick_iff (l := sampleRecord 101) (r := sampleRecord 100)
    (p := fakeProvider (ascii "k")) (by decide) (by decide) hmissing
    (by decide)).mpr (by decide)⟩

end Lbsync.Olric
