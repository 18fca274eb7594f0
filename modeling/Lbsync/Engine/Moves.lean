import Lbsync.Engine.Gather
import Lbsync.Engine.Machine
import Mathlib.Data.Set.Defs

/-!
# The control points of a tick

Which control point follows which, whatever the calls return. The backends differ in what
a read may find; that is the parameter of the relation. Every move takes a call off the
tick, so a tick ends. The keys are visited in order, and a key is left behind by an
`Apply` or when there is no record for it. A tick carries nothing but its local records and
what its reads have found.
-/

namespace Lbsync.Engine

/-- The control point after a call, when a read of a key may return what `found` says. -/
inductive Moves (found : GoString → Option Record → Prop) : Pc → Pc → Prop where
  | get {f key c} (hc : found key c) : Moves found (.get f key) (f.afterGet key c)
  | lock {f key l c} (locked : Bool) :
      Moves found (.lock f key l c) (.recheck f key l c locked)
  | recheck {f key l c locked cur} (hc : found key cur) :
      Moves found (.recheck f key l c locked) (f.afterRecheck key l c locked cur)
  | put {f key l c locked} : Moves found (.put f key l c locked) (f.afterPut key l c locked)
  | release {f key l c} : Moves found (.release f key l c) (f.decided key c)
  | apply {f key best} (res : Except Err Bool) :
      Moves found (.apply f key best) (f.afterApply key res)
  | flush {f} (res : Except Err Unit) : Moves found (.flush f) (f.afterFlush res)
  | rollback {f} : Moves found (.rollback f) .idle

/-- A step of the machine is a move in which the reads return what the cluster returns. -/
theorem moves_of_step {K P : Type*} {cl : ClusterKV K} {p : Provider P} {s t : Solo K P}
    (h : Solo.step cl p s = some t) :
    Moves (fun key c => c = gotRecord (cl.get p.kind key s.cluster).1) s.pc t.pc := by
  obtain ⟨pc, cluster, world⟩ := s
  cases pc with
  | idle => simp [Solo.step] at h
  | get f key =>
      obtain rfl := Option.some.inj h
      exact .get rfl
  | lock f key l c =>
      obtain rfl := Option.some.inj h
      exact .lock _
  | recheck f key l c locked =>
      obtain rfl := Option.some.inj h
      exact .recheck rfl
  | put f key l c locked =>
      obtain rfl := Option.some.inj h
      exact .put
  | release f key l c =>
      obtain rfl := Option.some.inj h
      exact .release
  | apply f key best =>
      obtain rfl := Option.some.inj h
      exact .apply _
  | flush f =>
      obtain rfl := Option.some.inj h
      exact .flush _
  | rollback f =>
      obtain rfl := Option.some.inj h
      exact .rollback

variable {found : GoString → Option Record → Prop} {pc pc' : Pc}

/-- A move keeps the local records of the tick and publishes nothing else. -/
theorem Moves.keepsLocals (h : Moves found pc pc') (hown : OwnRecord pc) :
    OwnRecord pc' ∧ ∀ m, localsAt pc' = some m → localsAt pc = some m := by
  cases h with
  | get hc => exact (Frame.keepsLocals_afterGet _ _ _).of_locals rfl
  | lock locked => exact ⟨hown, fun m hm => hm⟩
  | recheck hc => exact (Frame.keepsLocals_afterRecheck _ _ hown _ _ _).of_locals rfl
  | put => exact (Frame.keepsLocals_afterPut _ _ hown _ _).of_locals rfl
  | release => exact (Frame.keepsLocals_decided _ _ _).of_locals rfl
  | apply res => exact (Frame.keepsLocals_afterApply _ _ res).of_locals rfl
  | flush res => exact (Frame.keepsLocals_afterFlush _ res).of_locals rfl
  | rollback => exact ⟨trivial, fun m hm => by simp [localsAt] at hm⟩

/-- The record a tick is about to put. -/
def putAt : Pc → Option Record
  | .put _ _ l _ _ => some l
  | _ => none

section CallsLeft

/-- The most calls a tick can still make: six for each key, and two for the hook. -/
def callsLeft : Pc → ℕ
  | .idle => 0
  | .get f _ => 6 * f.rest.length + 8
  | .lock f _ _ _ => 6 * f.rest.length + 7
  | .recheck f _ _ _ _ => 6 * f.rest.length + 6
  | .put f _ _ _ _ => 6 * f.rest.length + 5
  | .release f _ _ _ => 6 * f.rest.length + 4
  | .apply f _ _ => 6 * f.rest.length + 3
  | .flush _ => 2
  | .rollback _ => 1

variable (f : Frame) (key : GoString) (l : Record) (c : Option Record)

theorem callsLeft_next : callsLeft f.next ≤ 6 * f.rest.length + 2 := by
  unfold Frame.next
  cases hrest : f.rest with
  | nil => by_cases hchanged : f.changed = [] <;> simp [hchanged, callsLeft]
  | cons k rest =>
      simp only [callsLeft, List.length_cons]
      omega

theorem callsLeft_decided : callsLeft (f.decided key c) ≤ 6 * f.rest.length + 3 := by
  unfold Frame.decided
  cases pickNewer (f.localByKey.lookup key) c with
  | none => exact (callsLeft_next f).trans (by omega)
  | some best => simp [callsLeft]

theorem callsLeft_afterPut (locked : Bool) :
    callsLeft (f.afterPut key l c locked) ≤ 6 * f.rest.length + 4 := by
  cases locked with
  | false => exact (callsLeft_decided f key c).trans (by omega)
  | true => simp [Frame.afterPut, callsLeft]

theorem callsLeft_afterGet : callsLeft (f.afterGet key c) ≤ 6 * f.rest.length + 7 := by
  have hdecided := (callsLeft_decided f key c).trans (Nat.add_le_add_left (by omega : 3 ≤ 7) _)
  unfold Frame.afterGet
  cases f.localByKey.lookup key with
  | none => exact hdecided
  | some l =>
      simp only
      split_ifs
      · exact hdecided
      · simp [callsLeft]

theorem callsLeft_afterRecheck (locked : Bool) (cur : Option Record) :
    callsLeft (f.afterRecheck key l c locked cur) ≤ 6 * f.rest.length + 5 := by
  unfold Frame.afterRecheck
  split_ifs
  · exact (callsLeft_afterPut f key l c locked).trans (by omega)
  · simp [callsLeft]

theorem callsLeft_afterApply (res : Except Err Bool) :
    callsLeft (f.afterApply key res) ≤ 6 * f.rest.length + 2 := by
  cases res with
  | error e => exact callsLeft_next f
  | ok b =>
      cases b with
      | false => exact callsLeft_next f
      | true => exact callsLeft_next { f with changed := f.changed ++ [key] }

/-- Every move takes at least one call off the tick. -/
theorem Moves.callsLeft_lt (h : Moves found pc pc') : callsLeft pc' < callsLeft pc := by
  cases h with
  | get hc => exact Nat.lt_succ_of_le (callsLeft_afterGet _ _ _)
  | lock locked => simp [callsLeft]
  | recheck hc => exact Nat.lt_succ_of_le (callsLeft_afterRecheck _ _ _ _ _ _)
  | put => exact Nat.lt_succ_of_le (callsLeft_afterPut _ _ _ _ _)
  | release => exact Nat.lt_succ_of_le (callsLeft_decided _ _ _)
  | apply res => exact Nat.lt_succ_of_le (callsLeft_afterApply _ _ res)
  | flush res => cases res <;> simp [Frame.afterFlush, callsLeft]
  | rollback => simp [callsLeft]

/-- A tick over the given keys. -/
theorem callsLeft_startTick (m : LocalMap) (keys : List GoString) :
    callsLeft (startTick m keys) ≤ 6 * keys.length + 2 := callsLeft_next ⟨m, keys, []⟩

end CallsLeft

section KeysLeft

/-- The key a tick is at and those still to come. -/
def keysLeft : Pc → List GoString
  | .idle => []
  | .get f k => k :: f.rest
  | .lock f k _ _ => k :: f.rest
  | .recheck f k _ _ _ => k :: f.rest
  | .put f k _ _ _ => k :: f.rest
  | .release f k _ _ => k :: f.rest
  | .apply f k _ => k :: f.rest
  | .flush _ => []
  | .rollback _ => []

@[simp] theorem keysLeft_next (f : Frame) : keysLeft f.next = f.rest := by
  unfold Frame.next
  cases hrest : f.rest with
  | nil => by_cases hchanged : f.changed = [] <;> simp [hchanged, keysLeft]
  | cons k rest => simp [keysLeft]

theorem keysLeft_startTick (m : LocalMap) (keys : List GoString) :
    keysLeft (startTick m keys) = keys := keysLeft_next ⟨m, keys, []⟩

theorem keysLeft_decided {f : Frame} {key : GoString} {c : Option Record} :
    keysLeft (f.decided key c) =
      if (pickNewer (f.localByKey.lookup key) c).isSome then key :: f.rest else f.rest := by
  unfold Frame.decided
  cases pickNewer (f.localByKey.lookup key) c with
  | none => simp
  | some best => simp [keysLeft]

@[simp] theorem keysLeft_afterApply (f : Frame) (key : GoString) (res : Except Err Bool) :
    keysLeft (f.afterApply key res) = f.rest := by
  cases res with
  | error e => exact keysLeft_next f
  | ok b => cases b <;> exact keysLeft_next _

theorem keysLeft_decided_own {f : Frame} {key : GoString} {l : Record} {c : Option Record}
    (hl : f.localByKey.lookup key = some l) : keysLeft (f.decided key c) = key :: f.rest := by
  obtain ⟨r, hr⟩ := exists_pickNewer l c
  rw [keysLeft_decided, hl, hr]
  rfl

theorem keysLeft_afterPut {f : Frame} {key : GoString} {l : Record} {c : Option Record}
    (hl : f.localByKey.lookup key = some l) (locked : Bool) :
    keysLeft (f.afterPut key l c locked) = key :: f.rest := by
  cases locked with
  | false => exact keysLeft_decided_own hl
  | true => rfl

/-- A move stays with the key, unless the key has been applied or a read has found no record
for a key without a local one. -/
theorem Moves.keysLeft (h : Moves found pc pc') (hown : OwnRecord pc) :
    keysLeft pc' = keysLeft pc ∨ ∃ key rest, keysLeft pc = key :: rest ∧ keysLeft pc' = rest ∧
      ((∃ f best, pc = .apply f key best) ∨
        ∃ f, pc = .get f key ∧ f.localByKey.lookup key = none ∧ found key none) := by
  cases h with
  | @get f key c hc =>
      unfold Frame.afterGet
      cases hl : f.localByKey.lookup key with
      | none =>
          rw [keysLeft_decided, hl]
          cases c with
          | none => exact Or.inr ⟨key, f.rest, rfl, rfl, Or.inr ⟨f, rfl, hl, hc⟩⟩
          | some r => exact Or.inl rfl
      | some l =>
          simp only
          split_ifs
          · exact Or.inl (keysLeft_decided_own hl)
          · exact Or.inl rfl
  | lock locked => exact Or.inl rfl
  | @recheck f key l c locked cur hc =>
      unfold Frame.afterRecheck
      split_ifs
      · exact Or.inl (keysLeft_afterPut hown locked)
      · exact Or.inl rfl
  | put => exact Or.inl (keysLeft_afterPut hown _)
  | release => exact Or.inl (keysLeft_decided_own hown)
  | @apply f key best res =>
      exact Or.inr ⟨key, f.rest, rfl, keysLeft_afterApply f key res, Or.inl ⟨f, best, rfl⟩⟩
  | flush res => cases res <;> exact Or.inl rfl
  | rollback => exact Or.inl rfl

/-- A key is left behind by an `Apply`, or when there is no record for it. -/
theorem Moves.leaves (h : Moves found pc pc') (hown : OwnRecord pc) {key : GoString}
    (hk : key ∈ Engine.keysLeft pc) (hk' : key ∉ Engine.keysLeft pc') :
    (∃ f best, pc = .apply f key best) ∨
      ∃ f, pc = .get f key ∧ f.localByKey.lookup key = none ∧ found key none := by
  rcases h.keysLeft hown with heq | ⟨k, rest, heq, heq', hleft⟩
  · rw [heq] at hk'
    exact absurd hk hk'
  · rw [heq'] at hk'
    rw [heq] at hk
    obtain rfl : key = k := (List.mem_cons.mp hk).resolve_right hk'
    exact hleft

end KeysLeft

section Settled

/-- A tick for which the record `r` is the newest one of the key does not publish the key and
applies nothing else for it. -/
def Settled (key : GoString) (r : Record) : Pc → Prop
  | .lock _ k _ _ => k ≠ key
  | .recheck _ k _ _ _ => k ≠ key
  | .put _ k _ _ _ => k ≠ key
  | .release _ k _ _ => k ≠ key
  | .apply _ k best => k = key → best = r
  | _ => True

variable {key k : GoString} {r l : Record} {f : Frame} {c : Option Record}

end Settled

section Carries

variable (G : GoString → Set Record)

/-- Each local record of a tick is one that `G` has for its key. -/
def Within (m : LocalMap) : Prop := ∀ k r, m.lookup k = some r → r ∈ G k

instance decidableWithin [∀ key r, Decidable (r ∈ G key)] (m : LocalMap) :
    Decidable (Within G m) :=
  decidable_of_iff (∀ e ∈ m.entries, e.2 ∈ G e.1) (by
    constructor
    · exact fun h k r hr => h ⟨k, r⟩ (AList.mem_lookup_iff.mp hr)
    · exact fun h e he => h e.1 e.2 (AList.mem_lookup_iff.mpr he))

/-- Each record a tick has at hand is one that `G` has for its key. -/
def Carries : Pc → Prop
  | .idle => True
  | .get f _ => Within G f.localByKey
  | .lock f k l c => Within G f.localByKey ∧ l ∈ G k ∧ ∀ r, c = some r → r ∈ G k
  | .recheck f k l c _ => Within G f.localByKey ∧ l ∈ G k ∧ ∀ r, c = some r → r ∈ G k
  | .put f k l c _ => Within G f.localByKey ∧ l ∈ G k ∧ ∀ r, c = some r → r ∈ G k
  | .release f k l c => Within G f.localByKey ∧ l ∈ G k ∧ ∀ r, c = some r → r ∈ G k
  | .apply f k best => Within G f.localByKey ∧ best ∈ G k
  | .flush f => Within G f.localByKey
  | .rollback f => Within G f.localByKey

variable {G} {f : Frame} {key : GoString} {l : Record} {c : Option Record}

theorem carries_next (h : Within G f.localByKey) : Carries G f.next := by
  unfold Frame.next
  cases f.rest with
  | nil => by_cases hchanged : f.changed = [] <;> simp [hchanged, Carries, h]
  | cons k rest => exact h

theorem carries_decided (h : Within G f.localByKey) (hc : ∀ r, c = some r → r ∈ G key) :
    Carries G (f.decided key c) := by
  unfold Frame.decided
  cases hpick : pickNewer (f.localByKey.lookup key) c with
  | none => exact carries_next h
  | some best =>
      refine ⟨h, ?_⟩
      rw [pickNewer_eq_newest] at hpick
      rcases NewestWins.newest_eq_or Record.version (f.localByKey.lookup key) c with hn | hn
      · exact h key best (hn.symm.trans hpick)
      · exact hc best (hn.symm.trans hpick)

theorem carries_afterPut (h : Within G f.localByKey) (hl : l ∈ G key)
    (hc : ∀ r, c = some r → r ∈ G key) (locked : Bool) : Carries G (f.afterPut key l c locked) := by
  cases locked with
  | false => exact carries_decided h hc
  | true => exact ⟨h, hl, hc⟩

/-- A tick carries its local records and what its reads have found, and nothing else. -/
theorem Moves.carries (h : Moves found pc pc') (hpc : Carries G pc)
    (hfound : ∀ key r, found key (some r) → r ∈ G key) : Carries G pc' := by
  cases h with
  | @get f key c hc =>
      have hread : ∀ r, c = some r → r ∈ G key := fun r hr => hfound key r (hr ▸ hc)
      unfold Frame.afterGet
      cases hl : f.localByKey.lookup key with
      | none => exact carries_decided hpc hread
      | some l =>
          simp only
          split_ifs
          · exact carries_decided hpc hread
          · exact ⟨hpc, hpc key l hl, hread⟩
  | lock locked => exact hpc
  | recheck hc =>
      unfold Frame.afterRecheck
      split_ifs
      · exact carries_afterPut hpc.1 hpc.2.1 hpc.2.2 _
      · exact hpc
  | put => exact carries_afterPut hpc.1 hpc.2.1 hpc.2.2 _
  | release => exact carries_decided hpc.1 hpc.2.2
  | @apply f key best res =>
      cases res with
      | error e => exact carries_next hpc.1
      | ok b =>
          cases b with
          | false => exact carries_next hpc.1
          | true => exact carries_next (f := { f with changed := f.changed ++ [key] }) hpc.1
  | flush res =>
      cases res with
      | ok _ => trivial
      | error e => exact hpc
  | rollback => trivial

theorem Carries.put {kind : GoString} (h : Carries G pc) (hown : OwnRecord pc)
    (hkinds : ∀ m, localsAt pc = some m → OfKind kind m) {r : Record} (hr : putAt pc = some r) :
    r ∈ G r.key := by
  cases pc with
  | put f k l c locked =>
      obtain rfl := Option.some.inj hr
      rw [(hkinds f.localByKey rfl k l hown).1]
      exact h.2.1
  | _ => simp [putAt] at hr

theorem Carries.applied (h : Carries G pc) {a : GoString × Record} (ha : a ∈ appliedAt pc) :
    a.2 ∈ G a.1 := by
  cases pc with
  | apply f k best =>
      obtain rfl : a = (k, best) := by simpa [appliedAt] using ha
      exact h.2
  | _ => simp [appliedAt] at ha

/-- A tick starts with its local records only. -/
theorem carries_startTick {m : LocalMap} (h : Within G m) (keys : List GoString) :
    Carries G (startTick m keys) := carries_next (f := ⟨m, keys, []⟩) h

end Carries

/-- The records of two nodes with one key. -/
def twoSources (_ : GoString) : Set Record := {r | r = sampleRecord 100 ∨ r = sampleRecord 200}

instance decidableTwoSources (key : GoString) (r : Record) : Decidable (r ∈ twoSources key) :=
  inferInstanceAs (Decidable (r = sampleRecord 100 ∨ r = sampleRecord 200))

end Lbsync.Engine
