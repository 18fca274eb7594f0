import Lbsync.Engine.Machine

/-!
# What a tick knows about a key

The record stored for a key may change between any two calls. As long as it only
gets newer, and the calls to `Apply` so far are bounded by what is stored, each
control point keeps a bound that the next call can rely on. Both backends use
these facts; they differ in why the stored record only gets newer.
-/

namespace Lbsync.Engine

/-- No call of the log for the key is newer than `v`. -/
def LogBound (log : List (GoString × Record)) (key : GoString) (v : WithBot Version) : Prop :=
  ∀ a ∈ log, a.1 = key → versionOf (some a.2) ≤ v

/-- A read of the key lies between the calls to `Apply` so far and what is stored now. -/
structure Seen (key : GoString) (stored : Option Record) (log : List (GoString × Record))
    (c : Option Record) : Prop where
  le : versionOf c ≤ versionOf stored
  logged : LogBound log key (versionOf c)

/-- What a tick knows about one key at a control point, given the record stored
for it and the calls to `Apply` so far. -/
def Knows (key : GoString) (stored : Option Record) (log : List (GoString × Record)) : Pc → Prop
  | .lock _ k _ c => k = key → Seen key stored log c
  | .recheck _ k _ c _ => k = key → Seen key stored log c
  | .put _ k l c _ => k = key → versionOf stored < versionOf (some l) ∧ Seen key stored log c
  | .release _ k l c => k = key → versionOf (some l) ≤ versionOf stored ∧ Seen key stored log c
  | .apply f k best => k = key → versionOf (f.localByKey.lookup key) ≤ versionOf stored ∧
      versionOf (some best) ≤ versionOf stored ∧ LogBound log key (versionOf (some best))
  | _ => True

section Points

variable {key k : GoString} {stored stored' : Option Record} {log log' : List (GoString × Record)}
  {f : Frame} {l : Record} {c : Option Record}

theorem knows_next (f : Frame) : Knows key stored log f.next := by
  unfold Frame.next
  cases f.rest with
  | nil => by_cases hchanged : f.changed = [] <;> simp [hchanged, Knows]
  | cons k rest => trivial

/-- `maybePublish` ends with the stored record not older than the local one. -/
theorem knows_decided
    (h : k = key → versionOf (f.localByKey.lookup key) ≤ versionOf stored ∧
      Seen key stored log c) :
    Knows key stored log (f.decided k c) := by
  have hbest := versionOf_pickNewer (f.localByKey.lookup k) c
  unfold Frame.decided
  cases hpick : pickNewer (f.localByKey.lookup k) c with
  | none => exact knows_next f
  | some best =>
      rw [hpick] at hbest
      intro hk
      subst hk
      obtain ⟨hown, hseen⟩ := h rfl
      refine ⟨hown, hbest ▸ max_le hown hseen.le, ?_⟩
      intro a ha hkey
      exact (hseen.logged a ha hkey).trans (hbest ▸ le_max_right _ _)

/-- A first read that returns the stored record bounds everything applied so far. -/
theorem knows_afterGet (hc : k = key → c = stored ∧ LogBound log key (versionOf stored)) :
    Knows key stored log (f.afterGet k c) := by
  have hseen : k = key → Seen key stored log c := by
    intro hk
    obtain ⟨rfl, hlog⟩ := hc hk
    exact ⟨le_rfl, hlog⟩
  unfold Frame.afterGet
  cases hl : f.localByKey.lookup k with
  | none => exact knows_decided fun hk => ⟨by rw [← hk, hl]; exact bot_le, hseen hk⟩
  | some l =>
      by_cases hkeep : keeps l c = true
      · simp only [hkeep, if_true]
        refine knows_decided fun hk => ⟨?_, hseen hk⟩
        rw [← hk, hl, ← (hc hk).1]
        exact keeps_iff.mp hkeep
      · simp only [hkeep, Bool.false_eq_true, if_false]
        exact hseen

theorem knows_afterPut (locked : Bool) (hl : f.localByKey.lookup k = some l)
    (h : k = key → versionOf (some l) ≤ versionOf stored ∧ Seen key stored log c) :
    Knows key stored log (f.afterPut k l c locked) := by
  cases locked with
  | false => exact knows_decided fun hk => ⟨by rw [← hk, hl]; exact (h hk).1, (h hk).2⟩
  | true => exact h

/-- A re-check that returns the stored record guards the write. -/
theorem knows_afterRecheck (locked : Bool) {cur : Option Record}
    (hl : f.localByKey.lookup k = some l) (hcur : k = key → cur = stored)
    (h : k = key → Seen key stored log c) :
    Knows key stored log (f.afterRecheck k l c locked cur) := by
  unfold Frame.afterRecheck
  by_cases hkeep : keeps l cur = true
  · simp only [hkeep, if_true]
    exact knows_afterPut locked hl fun hk => ⟨hcur hk ▸ keeps_iff.mp hkeep, h hk⟩
  · simp only [hkeep, Bool.false_eq_true, if_false]
    exact fun hk => ⟨hcur hk ▸ keeps_eq_false_iff.mp (by simpa using hkeep), h hk⟩

theorem knows_afterApply (res : Except Err Bool) : Knows key stored log (f.afterApply k res) := by
  cases res with
  | error e => exact knows_next f
  | ok b => cases b <;> exact knows_next _

theorem knows_afterFlush (res : Except Err Unit) : Knows key stored log (f.afterFlush res) := by
  cases res <;> trivial

theorem Seen.mono (h : Seen key stored log c) (hle : versionOf stored ≤ versionOf stored') :
    Seen key stored' log c := ⟨h.le.trans hle, h.logged⟩

/-- Knowledge survives a newer stored record, except right before the write. -/
theorem Knows.mono {pc : Pc} (h : Knows key stored log pc)
    (hle : versionOf stored ≤ versionOf stored')
    (hput : ∀ f l c locked, pc = .put f key l c locked → stored' = stored) :
    Knows key stored' log pc := by
  cases pc with
  | lock f k l c => exact fun hk => (h hk).mono hle
  | recheck f k l c locked => exact fun hk => (h hk).mono hle
  | put f k l c locked =>
      intro hk
      subst hk
      rw [hput f l c locked rfl]
      exact h rfl
  | release f k l c => exact fun hk => ⟨(h hk).1.trans hle, (h hk).2.mono hle⟩
  | apply f k best =>
      intro hk
      obtain ⟨hown, hseen, hlog⟩ := h hk
      exact ⟨hown.trans hle, hseen.trans hle, hlog⟩
  | _ => trivial

/-- What is about to be applied is stored and not older than what was applied before. -/
theorem Knows.applied {pc : Pc} (h : Knows key stored log pc) :
    ∀ a ∈ appliedAt pc, a.1 = key → versionOf (some a.2) ≤ versionOf stored ∧
      LogBound log key (versionOf (some a.2)) := by
  intro a ha hk
  cases pc with
  | apply f k best =>
      obtain rfl : a = (k, best) := by simpa [appliedAt] using ha
      exact (h hk).2
  | _ => simp [appliedAt] at ha

end Points

/-- The calls of the log for the key never get older. -/
def Ascending (key : GoString) (log : List (GoString × Record)) : Prop :=
  (log.filter fun a => a.1 = key).Pairwise fun a b => NotOlder (some a.2) (some b.2)

/-- The next call to `Apply` continues an ascending log below the stored record. -/
theorem Knows.extend {key : GoString} {stored stored' : Option Record}
    {log : List (GoString × Record)} {pc : Pc} (h : Knows key stored log pc)
    (hasc : Ascending key log) (hlog : LogBound log key (versionOf stored))
    (hle : versionOf stored ≤ versionOf stored') :
    Ascending key (log ++ appliedAt pc) ∧
      LogBound (log ++ appliedAt pc) key (versionOf stored') := by
  constructor
  · unfold Ascending
    rw [List.filter_append]
    refine List.pairwise_append.mpr ⟨hasc, (appliedAt_pairwise pc _).filter _, ?_⟩
    intro a ha b hb
    obtain ⟨ha, hka⟩ := List.mem_filter.mp ha
    obtain ⟨hb, hkb⟩ := List.mem_filter.mp hb
    exact notOlder_iff.mpr ((h.applied b hb (by simpa using hkb)).2 a ha (by simpa using hka))
  · intro a ha hk
    rcases List.mem_append.mp ha with ha | ha
    · exact (hlog a ha hk).trans hle
    · exact (h.applied a ha hk).1.trans hle

end Lbsync.Engine
