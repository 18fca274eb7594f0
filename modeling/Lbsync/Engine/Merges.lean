import Lbsync.Engine.Places

/-!
# Ticks that merge

A tick without failures leaves under every key the winner of the local and the
stored record, and hands the winners of the keys it visits to `Apply`. The stored
winners are not older than the local records, so they are the winners again.
-/

namespace Lbsync.Engine

/-- The winners of the local and the stored records are stored afterwards, and those of the
visited keys are handed to `Apply`. -/
structure Merges (own : LocalMap) (visited : Set GoString) (before after : GoString → Option Record)
    (calls : List (GoString × Record)) : Prop where
  stored : ∀ k, after k = pickNewer (own.lookup k) (before k)
  calls : ∀ k r, (k, r) ∈ calls ↔ k ∈ visited ∧ pickNewer (own.lookup k) (before k) = some r

namespace Merges

variable {own : LocalMap} {visited : Set GoString} {before after : GoString → Option Record}
  {calls : List (GoString × Record)}

theorem le (h : Merges own visited before after calls) (k : GoString) :
    versionOf (own.lookup k) ≤ versionOf (after k) := by
  rw [h.stored, versionOf_pickNewer]
  exact le_max_left _ _

/-- The local record does not have to be published again. -/
theorem keeps (h : Merges own visited before after calls) {k : GoString} {l : Record}
    (hl : own.lookup k = some l) : keeps l (after k) = true := by
  rw [keeps_iff, ← hl]
  exact h.le k

/-- The winners stay the winners. -/
theorem mem_calls (h : Merges own visited before after calls) {k : GoString} {r : Record}
    (hk : k ∈ visited) (hwinner : pickNewer (own.lookup k) (after k) = some r) :
    (k, r) ∈ calls := by
  rw [pickNewer_of_le (h.le k), h.stored] at hwinner
  exact (h.calls k r).mpr ⟨hk, hwinner⟩

end Merges

section Tick

variable {K P : Type*} {cl : ClusterKV K} {p : Provider P} {ord : MapOrder} {s : K} {w : P}
  {visited : Set GoString} {before after : GoString → Option Record}

/-- Every record stands under its own key. -/
def OwnKeys (found : GoString → Option Record) : Prop := ∀ k r, found k = some r → r.key = k

/-- The winner of a local and a stored record of a key is a record of this key. -/
theorem OwnKeys.winner (h : OwnKeys before) {k : GoString} {r : Record}
    (hwinner : pickNewer ((localMap (p.locals w).1).lookup k) (before k) = some r) :
    r.key = k := by
  rw [pickNewer_eq_newest] at hwinner
  rcases NewestWins.newest_eq_or Record.version ((localMap (p.locals w).1).lookup k)
      (before k) with hown | hstored
  · exact (p.of_lookup (hown.symm.trans hwinner)).1
  · exact h _ _ (hstored.symm.trans hwinner)

/-- A tick keeps the records under their own keys. -/
theorem Merges.ownKeys
    (h : Merges (localMap (p.locals w).1) visited before after (tickLoop cl p ord s w).calls)
    (hkeyed : OwnKeys before) : OwnKeys after :=
  fun k _ hr => hkeyed.winner ((h.stored k).symm.trans hr)

/-- Each call is about a record of its key. -/
theorem Merges.winnerCalls
    (h : Merges (localMap (p.locals w).1) visited before after (tickLoop cl p ord s w).calls)
    (hkeyed : OwnKeys before) {keys : Set GoString} (hkeys : visited ⊆ keys) :
    WinnerCalls keys (tickLoop cl p ord s w).calls := by
  refine ⟨(tickLoop_winners cl p ord s w).1.nodup (unionKeys_nodup _ _ _), fun call hcall => ?_⟩
  obtain ⟨hvisited, hwinner⟩ := (h.calls call.1 call.2).mp hcall
  exact ⟨hkeys hvisited, hkeyed.winner hwinner⟩

end Tick

/-- Every call of the facade keeps a property of the cluster, also one that fails. -/
structure ClusterKV.Keeps {K : Type*} (cl : ClusterKV K) (inv : K → Prop) : Prop where
  get : ∀ kind key s, inv s → inv (cl.get kind key s).2
  put : ∀ r s, inv s → inv (cl.put r s).2
  keys : ∀ kind s, inv s → inv (cl.keys kind s).2
  lock : ∀ kind key s, inv s → inv (cl.lock kind key s).2
  release : ∀ kind key s, inv s → inv (cl.release kind key s)

section Keeps

variable {K P : Type*} {cl : ClusterKV K} {inv : K → Prop} (h : cl.Keeps inv)

include h

theorem ClusterKV.Keeps.maybePublish (kind key : GoString) (own clusterR : Option Record) {s : K}
    (hs : inv s) : inv (maybePublish cl kind key own clusterR s) := by
  unfold Engine.maybePublish
  cases own with
  | none => exact hs
  | some l =>
      simp only
      split_ifs with hkeeps hrecheck
      · exact hs
      · have hcur := h.get kind key _ (h.lock kind key s hs)
        cases (cl.lock kind key s).1 with
        | ok u => exact h.release kind key _ hcur
        | error e => exact hcur
      · have hput := h.put l _ (h.get kind key _ (h.lock kind key s hs))
        cases (cl.lock kind key s).1 with
        | ok u => exact h.release kind key _ hput
        | error e => exact hput

/-- What every call keeps, a tick keeps. -/
theorem ClusterKV.Keeps.tickProvider (p : Provider P) (ord : MapOrder) {s : K} (hs : inv s)
    (w : P) : inv (tickProvider cl p ord s w).1 := by
  have hloop (keys : List GoString) (st : TickState K P) (hst : inv st.cluster) :
      inv (keys.foldl (processKey cl p (localMap (p.locals w).1)) st).cluster := by
    induction keys generalizing st with
    | nil => exact hst
    | cons key keys ih => exact ih _ (h.maybePublish _ _ _ _ (h.get p.kind key _ hst))
  exact hloop _ _ (h.keys p.kind s hs)

end Keeps

end Lbsync.Engine
