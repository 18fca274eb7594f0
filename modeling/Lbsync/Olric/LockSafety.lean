import Lbsync.Engine.Gather
import Lbsync.Engine.Knowledge
import Lbsync.Olric.Interleaving

/-!
# Publishing under the lock

The stored record of a key changes only by the node that holds the key's lock,
and only to a strictly newer one. So no call of another node takes away what a
node knows about the key, and in particular not between its re-check and its
write.
-/

namespace Lbsync.Olric

open Engine

/-- A node past its `Lock` call holds the lock. -/
def Granted (pc : Pc) : Prop := ∀ key, checkKey pc = some key → heldAt pc = some key

section Held

variable (f : Frame) (key : GoString) (l : Record) (c : Option Record)

@[simp] theorem heldAt_next : heldAt f.next = none := by
  unfold Frame.next
  cases f.rest with
  | nil => by_cases hchanged : f.changed = [] <;> simp [hchanged, heldAt]
  | cons k rest => rfl

@[simp] theorem heldAt_decided : heldAt (f.decided key c) = none := by
  unfold Frame.decided
  cases pickNewer (f.localByKey.lookup key) c with
  | none => exact heldAt_next f
  | some best => rfl

@[simp] theorem heldAt_afterGet : heldAt (f.afterGet key c) = none := by
  unfold Frame.afterGet
  cases f.localByKey.lookup key with
  | none => exact heldAt_decided f key c
  | some l =>
      by_cases hkeep : keeps l c = true
      · simp [hkeep]
      · simp [hkeep, heldAt]

@[simp] theorem heldAt_afterPut (locked : Bool) :
    heldAt (f.afterPut key l c locked) = if locked then some key else none := by
  cases locked with
  | false => simp [Frame.afterPut]
  | true => rfl

@[simp] theorem heldAt_afterRecheck (locked : Bool) (cur : Option Record) :
    heldAt (f.afterRecheck key l c locked cur) = if locked then some key else none := by
  unfold Frame.afterRecheck
  by_cases hkeep : keeps l cur = true
  · simp [hkeep]
  · cases locked <;> simp [hkeep, heldAt]

@[simp] theorem heldAt_afterApply (res : Except Err Bool) :
    heldAt (f.afterApply key res) = none := by
  cases res with
  | error e => exact heldAt_next f
  | ok b => cases b <;> exact heldAt_next _

@[simp] theorem heldAt_afterFlush (res : Except Err Unit) : heldAt (f.afterFlush res) = none := by
  cases res <;> rfl

end Held

section Calls

variable {N : Type*} {dm dm' : DMap N} {kind key : GoString} {log : List (GoString × Record)}
  {pc pc' : Pc}

/-- A call changes the record of the locked key only, and only to a newer one. -/
theorem CallEffect.stored (h : CallEffect dm dm' pc pc') (hkey : ∀ f k l c locked,
      pc = .put f k l c locked → l.key = k) (hgranted : Granted pc)
    (hknows : Knows key (dm.stored key) log pc) :
    dm'.stored key = dm.stored key ∨
      heldAt pc = some key ∧ versionOf (dm.stored key) ≤ versionOf (dm'.stored key) := by
  cases h with
  | get same => exact Or.inl (congrFun (DMap.stored_congr same) key)
  | lock n free taken => exact Or.inl (congrFun (DMap.stored_of_token_added free taken) key)
  | recheck same => exact Or.inl (congrFun (DMap.stored_congr same) key)
  | @put f k l c locked effect =>
      rw [effect.stored key, hkey f k l c locked rfl]
      by_cases hk : key = k
      · subst hk
        exact Or.inr ⟨hgranted key rfl, by rw [if_pos rfl]; exact (hknows rfl).1.le⟩
      · exact Or.inl (if_neg hk)
  | release stored kept => exact Or.inl (congrFun stored key)
  | apply res same => exact Or.inl (by rw [same])
  | flush res same => exact Or.inl (by rw [same])
  | rollback same => exact Or.inl (by rw [same])

/-- Whoever holds a lock after a call held it before or has just taken a free one. -/
theorem CallEffect.acquired (h : CallEffect dm dm' pc pc') {k : GoString}
    (hk : heldAt pc' = some k) :
    heldAt pc = some k ∨ dm.entries (lockName k) = none ∧ dm'.entries (lockName k) ≠ none := by
  cases h with
  | get same => simp at hk
  | @lock f key l c n free taken =>
      obtain rfl : key = k := by simpa [heldAt] using hk
      exact Or.inr ⟨free, by simp [taken]⟩
  | @recheck f key l c locked same =>
      cases locked with
      | false => simp at hk
      | true => exact Or.inl (show some key = some k by simpa using hk)
  | @put f key l c locked effect =>
      cases locked with
      | false => simp at hk
      | true => exact Or.inl (show some key = some k by simpa using hk)
  | release stored kept => simp at hk
  | apply res same => simp at hk
  | flush res same => simp at hk
  | rollback same => simp [heldAt] at hk

/-- A call removes no lock entry but the one its node gives up. -/
theorem CallEffect.lock_kept (h : CallEffect dm dm' pc pc') {k : GoString}
    (hk : heldAt pc = some k → heldAt pc' = some k) (hne : dm.entries (lockName k) ≠ none) :
    dm'.entries (lockName k) ≠ none := by
  cases h with
  | get same => rwa [same]
  | @lock f key l c n free taken =>
      by_cases hname : lockName k = lockName key
      · simp [taken, hname]
      · rwa [taken, Function.update_of_ne hname]
  | recheck same => rwa [same]
  | put effect => exact fun hnone => hne (effect.kept _ hnone)
  | @release f key l c stored kept =>
      have hother : lockName k ≠ lockName key := by
        intro hname
        rw [lockName_injective hname] at hk
        simpa using hk rfl
      rwa [kept _ hother]
  | apply res same => rwa [same]
  | flush res same => rwa [same]
  | rollback same => rwa [same]

/-- A successful `Lock` is the only way past the `Lock` call. -/
theorem CallEffect.granted (h : CallEffect dm dm' pc pc') (hgranted : Granted pc) :
    Granted pc' := by
  intro k hk
  cases h with
  | lock n free taken => exact hk
  | @recheck f key l c locked same =>
      obtain rfl := eq_of_checkKey_afterRecheck hk
      have hheld := hgranted k rfl
      cases locked with
      | false => simp [heldAt] at hheld
      | true => simp
  | rollback same => simp [checkKey] at hk
  | _ => simp at hk

/-- A call leaves its node with what it has to know at the next control point. -/
theorem CallEffect.knows (h : CallEffect dm dm' pc pc') (hown : OwnRecord pc)
    (hkey : ∀ f k l c locked, pc = .put f k l c locked → l.key = k)
    (hknows : Knows key (dm.stored key) log pc)
    (hlog : LogBound log key (versionOf (dm.stored key))) :
    Knows key (dm'.stored key) (log ++ appliedAt pc) pc' := by
  cases h with
  | get same =>
      rw [DMap.stored_congr same]
      simpa [appliedAt] using knows_afterGet fun hk => ⟨by rw [hk], hlog⟩
  | lock n free taken =>
      rw [DMap.stored_of_token_added free taken]
      simpa [appliedAt, Knows] using hknows
  | recheck same =>
      rw [DMap.stored_congr same]
      simpa [appliedAt] using knows_afterRecheck _ hown (fun hk => by rw [hk]) hknows
  | @put f k l c locked effect =>
      simp only [appliedAt, List.append_nil]
      refine knows_afterPut locked hown fun hk => ?_
      have hnow : dm'.stored key = some l := by
        rw [effect.stored key, if_pos (hk.symm.trans (hkey f k l c locked rfl).symm)]
      obtain ⟨hlt, hseen⟩ := hknows hk
      rw [hnow]
      exact ⟨le_rfl, hseen.mono hlt.le⟩
  | @release f k l c stored kept =>
      rw [stored]
      simp only [appliedAt, List.append_nil]
      refine knows_decided fun hk => ⟨?_, (hknows hk).2⟩
      rw [← hk, show f.localByKey.lookup k = some l from hown]
      exact hk ▸ (hknows hk).1
  | apply res same => exact knows_afterApply res
  | flush res same => exact knows_afterFlush res
  | rollback same => trivial

/-- A call keeps the local records of the tick and publishes nothing else. -/
theorem CallEffect.keepsLocals (h : CallEffect dm dm' pc pc') (hown : OwnRecord pc) :
    OwnRecord pc' ∧ ∀ m, localsAt pc' = some m → localsAt pc = some m := by
  cases h with
  | get same => exact (Frame.keepsLocals_afterGet _ _ _).of_locals rfl
  | lock n free taken => exact ⟨hown, fun m hm => hm⟩
  | recheck same => exact (Frame.keepsLocals_afterRecheck _ _ hown _ _ _).of_locals rfl
  | put effect => exact (Frame.keepsLocals_afterPut _ _ hown _ _).of_locals rfl
  | release stored kept => exact (Frame.keepsLocals_decided _ _ _).of_locals rfl
  | apply res same => exact (Frame.keepsLocals_afterApply _ _ res).of_locals rfl
  | flush res same => exact (Frame.keepsLocals_afterFlush _ res).of_locals rfl
  | rollback same => exact ⟨trivial, fun m hm => by simp [localsAt] at hm⟩

end Calls

variable {N P : Type*}

/-- The invariant of the system. -/
structure Safe (kind : GoString) (s : Nodes N P) : Prop where
  own : ∀ n, OwnRecord (s.pc n)
  kinds : ∀ n m, localsAt (s.pc n) = some m → OfKind kind m
  granted : ∀ n, Granted (s.pc n)
  exclusive : ∀ n m key, heldAt (s.pc n) = some key → heldAt (s.pc m) = some key → n = m
  locked : ∀ n key, heldAt (s.pc n) = some key →
    (s.cluster.dmaps kind).entries (lockName key) ≠ none
  knows : ∀ n key, Knows key ((s.cluster.dmaps kind).stored key) (s.applied n) (s.pc n)
  logged : ∀ n key, LogBound (s.applied n) key (versionOf ((s.cluster.dmaps kind).stored key))
  ascending : ∀ n key, Ascending key (s.applied n)

/-- A record about to be put stands under its own key and has the kind of the tick. -/
theorem Safe.of_put {kind : GoString} {s : Nodes N P} (h : Safe kind s) {n : N} {f : Frame}
    {key : GoString} {l : Record} {c : Option Record} {locked : Bool}
    (hpc : s.pc n = .put f key l c locked) : l.key = key ∧ l.kind = kind := by
  have hown : OwnRecord (.put f key l c locked) := hpc ▸ h.own n
  exact h.kinds n f.localByKey (by rw [hpc]; rfl) key l hown

section Steps

variable [DecidableEq N] {kind : GoString} {s : Nodes N P}

/-- A successful call keeps the invariant and lowers no stored version. -/
theorem Safe.call (h : Safe kind s) (n : N) {cluster : Cluster N} {pc : Pc} (world : N → P)
    (heffect : CallEffect (s.cluster.dmaps kind) (cluster.dmaps kind) (s.pc n) pc) :
    Safe kind ⟨cluster, Function.update s.pc n pc, world,
        Function.update s.applied n (s.applied n ++ appliedAt (s.pc n))⟩ ∧
      ∀ key, versionOf ((s.cluster.dmaps kind).stored key) ≤
        versionOf ((cluster.dmaps kind).stored key) := by
  have hkey : ∀ f k l c locked, s.pc n = .put f k l c locked → l.key = k :=
    fun f k l c locked hpc => (h.of_put hpc).1
  have hstored := fun key => heffect.stored hkey (h.granted n) (h.knows n key)
  have hgrow : ∀ key, versionOf ((s.cluster.dmaps kind).stored key) ≤
      versionOf ((cluster.dmaps kind).stored key) := by
    intro key
    rcases hstored key with hsame | ⟨_, hle⟩
    · rw [hsame]
    · exact hle
  obtain ⟨hown, hlocals⟩ := heffect.keepsLocals (h.own n)
  refine ⟨⟨?_, ?_, ?_, ?_, ?_, ?_, ?_, ?_⟩, hgrow⟩
  · intro m
    by_cases hm : m = n
    · subst hm
      simpa only [Function.update_self] using hown
    · simpa only [Function.update_of_ne hm] using h.own m
  · intro m localByKey hl
    by_cases hm : m = n
    · subst hm
      simp only [Function.update_self] at hl
      exact h.kinds m _ (hlocals _ hl)
    · simp only [Function.update_of_ne hm] at hl
      exact h.kinds m _ hl
  · intro m
    by_cases hm : m = n
    · subst hm
      simpa only [Function.update_self] using heffect.granted (h.granted m)
    · simpa only [Function.update_of_ne hm] using h.granted m
  · intro a b key ha hb
    have hother : ∀ m ≠ n, heldAt pc = some key → heldAt (s.pc m) = some key → False := by
      intro m hm hn hk
      rcases heffect.acquired hn with hheld | ⟨hfree, _⟩
      · exact hm (h.exclusive m n key hk hheld)
      · exact h.locked m key hk hfree
    by_cases han : a = n
    · by_cases hbn : b = n
      · rw [han, hbn]
      · simp only [han, Function.update_self] at ha
        simp only [Function.update_of_ne hbn] at hb
        exact (hother b hbn ha hb).elim
    · simp only [Function.update_of_ne han] at ha
      by_cases hbn : b = n
      · simp only [hbn, Function.update_self] at hb
        exact (hother a han hb ha).elim
      · simp only [Function.update_of_ne hbn] at hb
        exact h.exclusive a b key ha hb
  · intro m key hk
    by_cases hm : m = n
    · subst hm
      simp only [Function.update_self] at hk
      rcases heffect.acquired hk with hheld | ⟨_, hnow⟩
      · exact heffect.lock_kept (fun _ => hk) (h.locked m key hheld)
      · exact hnow
    · simp only [Function.update_of_ne hm] at hk
      refine heffect.lock_kept (fun hheld => ?_) (h.locked m key hk)
      exact absurd (h.exclusive m n key hk hheld) hm
  · intro m key
    by_cases hm : m = n
    · subst hm
      simpa only [Function.update_self] using
        heffect.knows (h.own m) hkey (h.knows m key) (h.logged m key)
    · simp only [Function.update_of_ne hm]
      refine (h.knows m key).mono (hgrow key) fun f l c locked hpc => ?_
      rcases hstored key with hsame | ⟨hheld, _⟩
      · exact hsame
      · have hheld' := h.granted m key (by rw [hpc]; rfl)
        exact absurd (h.exclusive m n key hheld' hheld) hm
  · intro m key
    by_cases hm : m = n
    · subst hm
      simpa only [Function.update_self] using
        ((h.knows m key).extend (h.ascending m key) (h.logged m key) (hgrow key)).2
    · simp only [Function.update_of_ne hm]
      exact fun a ha hk => (h.logged m key a ha hk).trans (hgrow key)
  · intro m key
    by_cases hm : m = n
    · subst hm
      simpa only [Function.update_self] using
        ((h.knows m key).extend (h.ascending m key) (h.logged m key) (hgrow key)).1
    · simpa only [Function.update_of_ne hm] using h.ascending m key

/-- Starting a tick keeps the invariant. -/
theorem Safe.begin (h : Safe kind s) {n : N} (hidle : s.pc n = .idle) {cluster : Cluster N}
    (hsame : (cluster.dmaps kind).entries = (s.cluster.dmaps kind).entries) {f : Frame}
    (hkind : OfKind kind f.localByKey) (world : N → P) :
    Safe kind ⟨cluster, Function.update s.pc n f.next, world, s.applied⟩ := by
  have hstored := DMap.stored_congr hsame
  have hheld : ∀ m, heldAt (Function.update s.pc n f.next m) = heldAt (s.pc m) := by
    intro m
    by_cases hm : m = n
    · subst hm
      simp only [Function.update_self, heldAt_next, hidle]
      rfl
    · rw [Function.update_of_ne hm]
  -- a property of all control points that the first one of the tick has
  have hpoint {I : N → Pc → Prop} (hall : ∀ m, I m (s.pc m)) (hnext : I n f.next) :
      ∀ m, I m (Function.update s.pc n f.next m) := by
    intro m
    by_cases hm : m = n
    · subst hm
      simpa only [Function.update_self] using hnext
    · simpa only [Function.update_of_ne hm] using hall m
  refine ⟨?_, ?_, ?_, ?_, ?_, ?_, ?_, h.ascending⟩
  · exact hpoint h.own f.keepsLocals_next.2
  · exact hpoint (I := fun _ pc => ∀ m, localsAt pc = some m → OfKind kind m) h.kinds
      fun m hm => f.keepsLocals_next.1 m hm ▸ hkind
  · exact hpoint h.granted fun k hk => by simp at hk
  · intro a b key ha hb
    rw [hheld] at ha hb
    exact h.exclusive a b key ha hb
  · intro m key hk
    rw [hheld] at hk
    simpa only [hsame] using h.locked m key hk
  · intro m key
    simp only [hstored]
    exact hpoint (I := fun m pc => Knows key ((s.cluster.dmaps kind).stored key) (s.applied m) pc)
      (fun m => h.knows m key) (knows_next f) m
  · simpa only [hstored] using h.logged

omit [DecidableEq N] in
/-- A change that spares the records and the locks in use keeps the invariant. -/
theorem Safe.frame (h : Safe kind s) {cluster : Cluster N}
    (hstored : (cluster.dmaps kind).stored = (s.cluster.dmaps kind).stored)
    (hkept : ∀ n key, heldAt (s.pc n) = some key →
      (cluster.dmaps kind).entries (lockName key) =
        (s.cluster.dmaps kind).entries (lockName key)) :
    Safe kind { s with cluster := cluster } := by
  refine ⟨h.own, h.kinds, h.granted, h.exclusive, ?_, ?_, ?_, h.ascending⟩
  · intro n key hk
    simpa only [hkept n key hk] using h.locked n key hk
  · simpa only [hstored] using h.knows
  · simpa only [hstored] using h.logged

end Steps

/-- All nodes idle, nothing applied yet; the cluster holds anything. -/
structure Initial (s : Nodes N P) : Prop where
  idle : ∀ n, s.pc n = .idle
  applied : ∀ n, s.applied n = []

theorem Initial.safe {s : Nodes N P} (h : Initial s) (kind : GoString) : Safe kind s := by
  refine ⟨fun n => ?_, fun n m hm => ?_, fun n key hk => ?_, fun n m key hk => ?_,
    fun n key hk => ?_, fun n key => ?_, fun n key a ha => ?_, fun n key => ?_⟩
  · rw [h.idle n]
    trivial
  · simp [h.idle n, localsAt] at hm
  · simp [h.idle n, checkKey] at hk
  · simp [h.idle n, heldAt] at hk
  · simp [h.idle n, heldAt] at hk
  · rw [h.idle n]
    trivial
  · simp [h.applied n] at ha
  · simp [Ascending, h.applied n]

variable [DecidableEq N]

/-- Every allowed step keeps the invariant and lowers no stored version. -/
theorem safe_step {p : N → Provider P} {kind : GoString} (hkind : ∀ n, (p n).kind = kind)
    {s t : Nodes N P} {a : Action N P} (hs : Safe kind s) (ha : Allowed p s a)
    (hstep : Nodes.step p s a = some t) :
    Safe kind t ∧ ∀ key, versionOf ((s.cluster.dmaps kind).stored key) ≤
      versionOf ((t.cluster.dmaps kind).stored key) := by
  cases a with
  | begin n ord =>
      cases hpc : s.pc n with
      | idle =>
          simp only [Nodes.step, hpc, Option.some.injEq] at hstep
          subst hstep
          have hsame := keys_entries n kind s.cluster
          rw [hkind n]
          refine ⟨hs.begin hpc hsame ?_ _, fun key => ?_⟩
          · exact hkind n ▸ (p n).ofKind_locals (s.world n)
          · simp only [DMap.stored_congr hsame, le_refl]
      | _ => simp [Nodes.step, hpc] at hstep
  | call n =>
      simp only [Nodes.step, Option.map_eq_some_iff] at hstep
      obtain ⟨r, hr, rfl⟩ := hstep
      have hput : ∀ f key l c locked, s.pc n = .put f key l c locked → l.kind = (p n).kind :=
        fun f key l c locked hpc => (hs.of_put hpc).2.trans (hkind n).symm
      have heffect := callEffect_of_step (s := ⟨s.pc n, s.cluster, s.world n⟩) ha hput hr
      rw [hkind n] at heffect
      exact hs.call n _ heffect
  | change n w =>
      simp only [Nodes.step, Option.some.injEq] at hstep
      subst hstep
      exact ⟨⟨hs.own, hs.kinds, hs.granted, hs.exclusive, hs.locked, hs.knows, hs.logged,
        hs.ascending⟩, fun _ => le_rfl⟩
  | expire kind' name =>
      simp only [Nodes.step, Option.some.injEq] at hstep
      subst hstep
      by_cases hk : kind' = kind
      · subst hk
        obtain ⟨hstored, hkept⟩ := (s.cluster.dmaps kind').expire_effect name
        refine ⟨hs.frame (by simpa using hstored) fun n key hheld => ?_, fun key => ?_⟩
        · have hother : lockName key ≠ name := by
            intro hname
            exact ha n (hkind n) (by rw [hheld, Option.map_some, hname])
          simpa using hkept _ hother
        · simp [hstored]
      · have hsame : Function.update s.cluster.dmaps kind'
            ((s.cluster.dmaps kind').expire name) kind = s.cluster.dmaps kind :=
          Function.update_of_ne (Ne.symm hk) _ _
        refine ⟨hs.frame (by simp only [hsame]) fun n key _ => by simp only [hsame], fun key => ?_⟩
        simp only [hsame, le_refl]

/-- Publishing under the lock is safe in every interleaving. From any content of
the cluster: a stored version never decreases; once `maybePublish` is over, the
stored record is never again older than the local record of that tick; and the
records one node applies for a key never get older. -/
theorem publish_safety {p : N → Provider P} {kind : GoString} (hkind : ∀ n, (p n).kind = kind)
    {s₀ s t : Nodes N P} (h₀ : Initial s₀) (hs : Reaches p s₀ s) (ht : Reaches p s t) :
    (∀ key, NotOlder ((s.cluster.dmaps kind).stored key) ((t.cluster.dmaps kind).stored key)) ∧
    (∀ n f key best l, s.pc n = .apply f key best → f.localByKey.lookup key = some l →
      NotOlder (some l) ((t.cluster.dmaps kind).stored key)) ∧
    (∀ n key, Ascending key (t.applied n)) := by
  have hinv : ∀ s a t, Safe kind s → Allowed p s a → Nodes.step p s a = some t → Safe kind t :=
    fun s a t hs ha hstep => (safe_step hkind hs ha hstep).1
  have hsafe : Safe kind s := hs.invariant hinv (h₀.safe kind)
  have hgrow : ∀ key, versionOf ((s.cluster.dmaps kind).stored key) ≤
      versionOf ((t.cluster.dmaps kind).stored key) := fun key =>
    ht.le (f := fun s => versionOf ((s.cluster.dmaps kind).stored key)) hinv
      (fun s a t hs ha hstep => (safe_step hkind hs ha hstep).2 key) hsafe
  refine ⟨fun key => notOlder_iff.mpr (hgrow key), ?_, (ht.invariant hinv hsafe).ascending⟩
  intro n f key best l hpc hl
  have hknows := hsafe.knows n key
  rw [hpc] at hknows
  exact notOlder_iff.mpr (hl ▸ (hknows rfl).1 |>.trans (hgrow key))

/-- Two nodes, the second with the newer local record, and an empty cluster. -/
def twoNodes : Nodes Bool (List Record) where
  cluster := ⟨fun _ => ⟨fun _ => none, []⟩, fun _ => true⟩
  pc _ := .idle
  world n := [sampleRecord (if n then 200 else 100)]
  applied _ := []

/-- Both nodes read the empty cluster, the newer record is published first, and
the older one is held back by the re-check. -/
def overtakenActions : List (Action Bool (List Record)) :=
  [.begin false .insertion, .begin true .insertion, .call false, .call true, .call true,
    .call true, .call true, .call true, .call false, .call false, .call false]

theorem publish_safety_overtaken :
    ∃ s t, Reaches (fun _ => fakeProvider (ascii "k")) twoNodes s ∧
      Reaches (fun _ => fakeProvider (ascii "k")) s t ∧
      (∃ f, s.pc false = .apply f (ascii "a") (sampleRecord 100) ∧
        f.localByKey.lookup (ascii "a") = some (sampleRecord 100)) ∧
      t.applied false = [(ascii "a", sampleRecord 100)] ∧
      NotOlder (some (sampleRecord 100)) ((t.cluster.dmaps (ascii "k")).stored (ascii "a")) := by
  have hs : Reaches (fun _ => fakeProvider (ascii "k")) twoNodes _ :=
    Runs.Run.of_replay overtakenActions rfl
  refine ⟨_, _, hs, Runs.Run.of_replay [.call false] rfl, ⟨_, rfl, rfl⟩, rfl, ?_⟩
  exact (publish_safety (fun _ => rfl) ⟨fun _ => rfl, fun _ => rfl⟩ hs
    (Runs.Run.of_replay [.call false] rfl)).2.1 false _ _ _ _ rfl rfl

end Lbsync.Olric
