import Lbsync.Wan.Invariant

/-!
# One origin per key

Only one node ever has a local record for the key. Its `Put` is unguarded, but
the re-check reads its own store, which nothing else can bring forward: every
record on its way came from there. So the origin's records get strictly newer,
and all other stores and all records on their way lag behind the origin's store.
-/

namespace Lbsync.Wan

open Engine

variable {N P : Type*}

/-- What the re-check of a key has established, while the own store is unchanged:
the record about to be put is strictly newer, and peers are asked only when
nothing is stored. -/
def Checked (own : Option Record) (key : GoString) : Pc → Option (List N) → Prop
  | .put _ k l _ _, _ => k = key → versionOf own < versionOf (some l)
  | .recheck _ k _ _ _, asking => k = key → asking ≠ none → own = none
  | _, _ => True

theorem Checked.of_checkKey {own : Option Record} {key : GoString} {pc : Pc}
    (h : checkKey pc = none) (asking : Option (List N)) : Checked own key pc asking := by
  cases pc with
  | recheck f k l c locked => simp [checkKey] at h
  | put f k l c locked => simp [checkKey] at h
  | _ => trivial

/-- The reply of a re-check that found `cur`, or found nothing while nothing was stored. -/
theorem Checked.answer {own cur : Option Record} {key : GoString} {pc : Pc}
    {asking : Option (List N)} {k : GoString} (hread : readKey pc = some k)
    (hcur : k = key → versionOf own ≤ versionOf cur) :
    Checked own key (answer cur pc) asking := by
  cases reading_of_readKey hread with
  | get f => exact Checked.of_checkKey (checkKey_afterGet f k cur) asking
  | recheck f l c locked =>
      simp only [Wan.answer, Frame.afterRecheck]
      by_cases hkeep : keeps l cur = true
      · simp only [hkeep, if_true]
        exact Checked.of_checkKey (checkKey_afterPut f k l c locked) asking
      · simp only [hkeep, Bool.false_eq_true, if_false]
        intro hk
        exact (hcur hk).trans_lt (keeps_eq_false_iff.mp (by simpa using hkeep))

variable [DecidableEq N]

/-- A step of a node keeps what its re-check has established about a record that is not newer
than the stored one. -/
theorem CallEffect.checked_of_le {peers : List N} {kind key : GoString} {n : N}
    {net net' : Net N} {pc pc' : Pc} {asking asking' : Option (List N)} {own : Option Record}
    (h : CallEffect peers kind n net pc asking net' pc' asking')
    (hquiet : readKey pc = none → asking = none)
    (hown : versionOf own ≤ versionOf (net.stored n kind key))
    (hchecked : Checked own key pc asking) : Checked own key pc' asking' := by
  -- a read that has gone on to the peers found nothing in the own store
  have hasked {k : GoString} {asked : List N} (cur : Option Record)
      (hread : readKey pc = some k) (hcheck : Checked own key pc (some asked)) :
      Checked own key (answer cur pc) (none : Option (List N)) := by
    cases reading_of_readKey hread with
    | get f => exact Checked.of_checkKey (checkKey_afterGet f k cur) none
    | recheck f l c locked =>
        refine Checked.answer hread fun hk => ?_
        rw [hcheck hk (by simp)]
        exact bot_le
  cases h with
  | @hit pc k r hread hfound =>
      exact Checked.answer hread fun hk => by rwa [← hk, hfound] at hown
  | @miss pc k hread habsent =>
      cases pc with
      | recheck f k' l c locked =>
          obtain rfl : k' = k := by simpa [readKey] using hread
          intro hk _
          exact eq_none_of_versionOf_le hown (hk ▸ habsent)
      | _ => trivial
  | @reply pc k q rest r hread hfound => exact hasked (some r) hread hchecked
  | @skip pc k q rest hread =>
      cases pc with
      | recheck f k' l c locked => exact fun hk _ => hchecked hk (by simp)
      | _ => trivial
  | @absent pc k hread => exact hasked none hread hchecked
  | lock =>
      intro _ hne
      exact absurd (hquiet rfl) hne
  | put => exact Checked.of_checkKey (checkKey_afterPut _ _ _ _ _) _
  | release => exact Checked.of_checkKey (checkKey_decided _ _ _) _
  | apply res => exact Checked.of_checkKey (checkKey_afterApply _ _ res) _
  | flush res => exact Checked.of_checkKey (checkKey_afterFlush _ res) _
  | rollback => trivial

/-- A step of a node keeps what its re-check has established. -/
theorem CallEffect.checked {peers : List N} {kind key : GoString} {n : N} {net net' : Net N}
    {pc pc' : Pc} {asking asking' : Option (List N)}
    (h : CallEffect peers kind n net pc asking net' pc' asking')
    (hquiet : readKey pc = none → asking = none)
    (hchecked : Checked (net.stored n kind key) key pc asking) :
    Checked (net'.stored n kind key) key pc' asking' := by
  rcases h.net_eq with rfl | ⟨f, k, l, c, locked, _, rfl, _⟩
  · exact h.checked_of_le hquiet le_rfl hchecked
  · exact Checked.of_checkKey (checkKey_afterPut f k l c locked) _

/-- The invariant of a key with the single origin `A`. -/
structure SingleOrigin (A : N) (kind key : GoString) (s : Nodes N P) : Prop where
  others : ∀ n ≠ A, ∀ m ∈ s.history n, m.lookup key = none
  newest : ∀ r, Circulates s.net kind key r →
    versionOf (some r) ≤ versionOf (s.net.stored A kind key)
  unique : ∀ r r', Circulates s.net kind key r → Circulates s.net kind key r' →
    r.version = r'.version → r = r'
  listed : ∀ r, Circulates s.net kind key r → ∃ m ∈ s.history A, m.lookup key = some r
  checked : Checked (s.net.stored A kind key) key (s.pc A) (s.asking A)

section Steps

variable {peers : N → List N} {p : N → Provider P} {A : N} {kind key : GoString}
  {s t : Nodes N P}

omit [DecidableEq N] in
/-- The invariant stays when nothing new circulates and the origin's store stands still. -/
theorem SingleOrigin.of_subset (h : SingleOrigin A kind key s)
    (hstored : t.net.stored A kind key = s.net.stored A kind key)
    (hsub : ∀ r, Circulates t.net kind key r → Circulates s.net kind key r)
    (hothers : ∀ n ≠ A, ∀ m ∈ t.history n, m.lookup key = none)
    (hhistory : ∀ m ∈ s.history A, m ∈ t.history A)
    (hchecked : Checked (t.net.stored A kind key) key (t.pc A) (t.asking A)) :
    SingleOrigin A kind key t := by
  refine ⟨hothers, ?_, ?_, ?_, hchecked⟩
  · intro r hr
    rw [hstored]
    exact h.newest r (hsub r hr)
  · intro r r' hr hr'
    exact h.unique r r' (hsub r hr) (hsub r' hr')
  · intro r hr
    obtain ⟨m, hm, hl⟩ := h.listed r (hsub r hr)
    exact ⟨m, hhistory m hm, hl⟩

omit [DecidableEq N] in
/-- Only the origin is ever about to put the key. -/
theorem SingleOrigin.eq_of_put (hsound : Sound kind s) (h : SingleOrigin A kind key s) {n : N}
    {f : Frame} {l : Record} {c : Option Record} {locked : Bool}
    (hpc : s.pc n = .put f key l c locked) :
    n = A := by
  obtain ⟨hbegun, hown, _, _⟩ := hsound.of_put hpc
  by_contra hne
  simp [h.others n hne _ hbegun] at hown

/-- No store goes back to an older record. -/
def Grows (kind key : GoString) (net net' : Net N) : Prop :=
  ∀ n, versionOf (net.stored n kind key) ≤ versionOf (net'.stored n kind key)

/-- A step of a node keeps the invariant. -/
theorem SingleOrigin.call (hsound : Sound kind s) (h : SingleOrigin A kind key s) {n : N}
    {net : Net N} {pc : Pc} {asking : Option (List N)} (world : N → P)
    (applied : N → List (GoString × Record)) (ticked : N → Bool)
    (heffect : CallEffect (peers n) kind n s.net (s.pc n) (s.asking n) net pc asking) :
    SingleOrigin A kind key ⟨net, Function.update s.pc n pc, Function.update s.asking n asking,
      world, applied, s.history, ticked⟩ ∧ Grows kind key s.net net := by
  have hchecked : net.stored A kind key = s.net.stored A kind key ∨ n = A →
      Checked (net.stored A kind key) key (Function.update s.pc n pc A)
        (Function.update s.asking n asking A) := by
    intro hsame
    by_cases hn : A = n
    · subst hn
      simpa only [Function.update_self] using heffect.checked (hsound.quiet A) h.checked
    · simp only [Function.update_of_ne hn]
      rw [hsame.resolve_right (Ne.symm hn)]
      exact h.checked
  rcases heffect.net_eq with rfl | ⟨f, key', l, c, locked, hpc, _, rfl⟩
  · exact ⟨h.of_subset rfl (fun _ hr => hr) h.others (fun _ hm => hm) (hchecked (Or.inl rfl)),
      fun _ => le_rfl⟩
  · obtain ⟨hbegun, hown, hkey, hkind⟩ := hsound.of_put hpc
    by_cases hk : key' = key
    · subst hk
      obtain rfl : n = A := h.eq_of_put hsound hpc
      have hlt : versionOf (s.net.stored n kind key') < versionOf (some l) := by
        have hcheck := h.checked
        rw [hpc] at hcheck
        exact hcheck rfl
      have hnow : (s.net.put (peers n) n l).stored n kind key' = some l := by
        rw [stored_put s.net hkind, if_pos ⟨rfl, hkey.symm⟩]
      have hle : ∀ r, Circulates s.net kind key' r → versionOf (some r) < versionOf (some l) :=
        fun r hr => (h.newest r hr).trans_lt hlt
      refine ⟨⟨h.others, ?_, ?_, ?_, hchecked (Or.inr rfl)⟩, ?_⟩
      · intro r hr
        rw [hnow]
        rcases hr.of_put hkind with hr | ⟨rfl, _⟩
        · exact (hle r hr).le
        · exact le_rfl
      · intro r r' hr hr' hv
        have hsame : versionOf (some r) = versionOf (some r') :=
          congrArg (fun v : Version => (v : WithBot Version)) hv
        rcases hr.of_put hkind with hold | ⟨hrl, _⟩
        · rcases hr'.of_put hkind with hold' | ⟨hrl', _⟩
          · exact h.unique r r' hold hold' hv
          · exact absurd (hrl' ▸ hsame) (hle r hold).ne
        · rcases hr'.of_put hkind with hold' | ⟨hrl', _⟩
          · exact absurd (hrl ▸ hsame.symm) (hle r' hold').ne
          · rw [hrl, hrl']
      · intro r hr
        rcases hr.of_put hkind with hr | ⟨rfl, _⟩
        · exact h.listed r hr
        · exact ⟨_, hbegun, hown⟩
      · intro m
        rw [stored_put s.net hkind]
        split_ifs with hm
        · rw [hm.1]
          exact hlt.le
        · exact le_rfl
    · have hsame : ∀ m, (s.net.put (peers n) n l).stored m kind key = s.net.stored m kind key := by
        intro m
        rw [stored_put s.net hkind, if_neg]
        rintro ⟨_, rfl⟩
        exact hk hkey.symm
      refine ⟨h.of_subset (hsame A) (fun r hr => ?_) h.others (fun _ hm => hm)
        (hchecked (Or.inl (hsame A))), fun m => by rw [hsame m]⟩
      rcases hr.of_put hkind with hr | ⟨_, hlk⟩
      · exact hr
      · exact absurd (hkey.symm.trans hlk) hk

/-- Nothing on its way can bring the origin's store forward. -/
theorem SingleOrigin.stored_receive (hsound : Sound kind s) (h : SingleOrigin A kind key s)
    {m : N × Record} (hm : m ∈ s.net.flight) :
    (s.net.receive m).stored A kind key = s.net.stored A kind key := by
  obtain ⟨q, r⟩ := m
  rw [Wan.stored_receive s.net (hsound.flight _ hm)]
  split_ifs with hcond
  · obtain ⟨rfl, hkey⟩ := hcond
    exact pickNewer_of_le (h.newest r (Or.inr ⟨A, hm, hkey.symm⟩))
  · rfl

/-- The only restriction: no node but the origin starts a tick with a local record
for the key. -/
def OnlyOrigin (p : N → Provider P) (A : N) (key : GoString) (s : Nodes N P) :
    Action N P → Prop
  | .begin n _ _ => n ≠ A → (s.locals p n).lookup key = none
  | _ => True

/-- Every step keeps the invariant, and no store goes back. -/
theorem SingleOrigin.step (hkind : ∀ n, (p n).kind = kind) (hsound : Sound kind s)
    (h : SingleOrigin A kind key s) {a : Action N P} (ha : OnlyOrigin p A key s a)
    (hstep : Nodes.step peers p s a = some t) :
    SingleOrigin A kind key t ∧ Grows kind key s.net t.net := by
  cases a with
  | begin n ord known =>
      cases hpc : s.pc n with
      | idle =>
          simp only [Nodes.step, hpc, Option.some.injEq] at hstep
          subst hstep
          refine ⟨h.of_subset rfl (fun _ hr => hr) ?_ ?_ ?_, fun _ => le_rfl⟩
          · intro m hm localByKey hl
            by_cases hmn : m = n
            · subst hmn
              simp only [Function.update_self, List.mem_cons] at hl
              rcases hl with rfl | hl
              · exact ha hm
              · exact h.others m hm _ hl
            · simp only [Function.update_of_ne hmn] at hl
              exact h.others m hm _ hl
          · intro m hm
            by_cases hA : A = n
            · subst hA
              simpa only [Function.update_self] using List.mem_cons_of_mem _ hm
            · simpa only [Function.update_of_ne hA] using hm
          · by_cases hA : A = n
            · subst hA
              simp only [Function.update_self]
              exact Checked.of_checkKey (checkKey_next _) _
            · simpa only [Function.update_of_ne hA] using h.checked
      | _ => simp [Nodes.step, hpc] at hstep
  | call n answers =>
      simp only [Nodes.step, Option.map_eq_some_iff] at hstep
      obtain ⟨v, hv, rfl⟩ := hstep
      have heffect := callEffect_of_step hv
      rw [hkind n] at heffect
      exact h.call hsound _ _ _ heffect
  | change n w =>
      simp only [Nodes.step, Option.some.injEq] at hstep
      subst hstep
      exact ⟨h.of_subset rfl (fun _ hr => hr) h.others (fun _ hm => hm) h.checked,
        fun _ => le_rfl⟩
  | deliver m =>
      simp only [Nodes.step] at hstep
      split_ifs at hstep with hm
      · rw [← Option.some.inj hstep]
        have hmkind := hsound.flight m hm
        have hstored := h.stored_receive hsound hm
        refine ⟨h.of_subset hstored (fun r hr => hr.of_deliver hm hmkind) h.others
          (fun _ hm => hm) ?_, fun n => le_stored_receive s.net hmkind m.1 n key⟩
        exact hstored ▸ h.checked
  | lose m =>
      simp only [Nodes.step] at hstep
      split_ifs at hstep
      · rw [← Option.some.inj hstep]
        exact ⟨h.of_subset rfl (fun r hr => hr.of_flight fun _ => List.mem_of_mem_erase) h.others
          (fun _ hm => hm) h.checked, fun _ => le_rfl⟩
  | duplicate m =>
      simp only [Nodes.step] at hstep
      split_ifs at hstep with hm
      · rw [← Option.some.inj hstep]
        refine ⟨h.of_subset rfl (fun r hr => hr.of_flight fun m' hm' => ?_) h.others
          (fun _ hm => hm) h.checked, fun _ => le_rfl⟩
        rcases List.mem_cons.mp hm' with rfl | hm'
        · exact hm
        · exact hm'

end Steps

instance (p : N → Provider P) (A : N) (key : GoString) (s : Nodes N P) (a : Action N P) :
    Decidable (OnlyOrigin p A key s a) :=
  match a with
  | .begin n _ _ => inferInstanceAs (Decidable (n ≠ A → (s.locals p n).lookup key = none))
  | .call _ _ => inferInstanceAs (Decidable True)
  | .change _ _ => inferInstanceAs (Decidable True)
  | .deliver _ => inferInstanceAs (Decidable True)
  | .lose _ => inferInstanceAs (Decidable True)
  | .duplicate _ => inferInstanceAs (Decidable True)

omit [DecidableEq N] in
theorem Initial.singleOrigin {s : Nodes N P} (h : Initial s) (A : N) (kind key : GoString) :
    SingleOrigin A kind key s := by
  have hnone : ∀ r, ¬ Circulates s.net kind key r := by
    rintro r (⟨n, hn⟩ | ⟨q, hq, _⟩)
    · simp [Net.stored, handleGetRecord, h.stores n] at hn
    · simp [h.flight] at hq
  refine ⟨?_, fun r hr => (hnone r hr).elim, fun r _ hr => (hnone r hr).elim,
    fun r hr => (hnone r hr).elim, ?_⟩
  · intro n _ m hm
    simp [h.history n] at hm
  · rw [h.idle A]
    trivial

/-- A run in which only the origin has local records for the key. -/
abbrev OriginRun (peers : N → List N) (p : N → Provider P) (A : N) (key : GoString) :
    Nodes N P → Nodes N P → Prop :=
  Runs.Run (Nodes.step peers p) (OnlyOrigin p A key)

section Runs

variable {peers : N → List N} {p : N → Provider P} {A : N} {kind key : GoString}
  {s t : Nodes N P}

/-- Both invariants hold along every run. -/
theorem OriginRun.invariant (hkind : ∀ n, (p n).kind = kind) (h : OriginRun peers p A key s t)
    (hs : Sound kind s ∧ SingleOrigin A kind key s) :
    Sound kind t ∧ SingleOrigin A kind key t := by
  refine Runs.Run.invariant (I := fun s => Sound kind s ∧ SingleOrigin A kind key s) ?_ h hs
  rintro s a t ⟨hsound, hinv⟩ ha hstep
  exact ⟨hsound.step hkind hstep, (hinv.step hkind hsound ha hstep).1⟩

/-- No store goes back along a run. -/
theorem OriginRun.grows (hkind : ∀ n, (p n).kind = kind) (h : OriginRun peers p A key s t)
    (hs : Sound kind s ∧ SingleOrigin A kind key s) : Grows kind key s.net t.net := by
  intro n
  refine Runs.Run.le (I := fun s => Sound kind s ∧ SingleOrigin A kind key s)
    (f := fun s => versionOf (s.net.stored n kind key)) ?_ ?_ h hs
  · rintro s a t ⟨hsound, hinv⟩ ha hstep
    exact ⟨hsound.step hkind hstep, (hinv.step hkind hsound ha hstep).1⟩
  · rintro s a t ⟨hsound, hinv⟩ ha hstep
    exact (hinv.step hkind hsound ha hstep).2 n

/-- With one origin, whatever the network does: no store goes back, none is ahead
of the origin, every stored record was a local record of the origin, and equal
versions mean equal records. -/
theorem single_origin_safety (hkind : ∀ n, (p n).kind = kind) {s₀ : Nodes N P} (h₀ : Initial s₀)
    (hs : OriginRun peers p A key s₀ s) (ht : OriginRun peers p A key s t) :
    (∀ n, NotOlder (s.net.stored n kind key) (t.net.stored n kind key)) ∧
    (∀ n, NotOlder (t.net.stored n kind key) (t.net.stored A kind key)) ∧
    (∀ n r, t.net.stored n kind key = some r → ∃ m ∈ t.history A, m.lookup key = some r) ∧
    (∀ n m r r', t.net.stored n kind key = some r → t.net.stored m kind key = some r' →
      r.version = r'.version → r = r') := by
  have hs' := hs.invariant hkind ⟨h₀.sound kind, h₀.singleOrigin A kind key⟩
  obtain ⟨_, hinv⟩ := ht.invariant hkind hs'
  refine ⟨fun n => notOlder_iff.mpr (ht.grows hkind hs' n), fun n => notOlder_iff.mpr ?_,
    fun n r hr => hinv.listed r (Or.inl ⟨n, hr⟩),
    fun n m r r' hr hr' => hinv.unique r r' (Or.inl ⟨n, hr⟩) (Or.inl ⟨m, hr'⟩)⟩
  cases hr : t.net.stored n kind key with
  | none => exact bot_le
  | some r => exact hinv.newest r (Or.inl ⟨n, hr⟩)

end Runs

-- The zero is the one that literals of `Fin 3` ask for.
instance neZeroThree : @NeZero ℕ Zero.ofOfNat0 3 := ⟨Nat.succ_ne_zero 2⟩

/-- Three nodes that are peers of each other; each lists the given records. -/
def threeNodes (world : Fin 3 → List Record) : Nodes (Fin 3) (List Record) where
  net := ⟨fun _ => ∅, []⟩
  pc _ := .idle
  asking _ := none
  world := world
  applied _ := []
  history _ := []
  ticked _ := false

/-- Every other node, in order. -/
def otherPeers (n : Fin 3) : List (Fin 3) := [0, 1, 2].filter (· ≠ n)

/-- Node 0 alone has a local record. -/
def originNodes : Nodes (Fin 3) (List Record) :=
  threeNodes fun n => if n = 0 then [sampleRecord 100] else []

/-- A tick of node 0 that misses its own store in both reads and publishes. -/
def publishingTick : List (Action (Fin 3) (List Record)) :=
  .begin 0 .insertion [] :: List.replicate 12 (.call 0 true)

/-- The origin publishes version 100; one copy is lost, the other duplicated. Then
it publishes version 200, which overtakes the first one on the way to node 1. -/
def overtakingActions : List (Action (Fin 3) (List Record)) :=
  publishingTick ++ [.lose (2, sampleRecord 100), .duplicate (1, sampleRecord 100),
    .change 0 [sampleRecord 200], .begin 0 .insertion []] ++ List.replicate 6 (.call 0 true) ++
    [.deliver (1, sampleRecord 200)]

theorem single_origin_safety_overtaking :
    ∃ s t, OriginRun otherPeers (fun _ => fakeProvider (ascii "k")) 0 (ascii "a") originNodes s ∧
      OriginRun otherPeers (fun _ => fakeProvider (ascii "k")) 0 (ascii "a") s t ∧
      s.net.stored 1 (ascii "k") (ascii "a") = some (sampleRecord 200) ∧
      t.net.flight = [(1, sampleRecord 100), (2, sampleRecord 200)] ∧
      NotOlder (s.net.stored 1 (ascii "k") (ascii "a")) (t.net.stored 1 (ascii "k") (ascii "a")) ∧
      ∃ m ∈ t.history 0, m.lookup (ascii "a") = some (sampleRecord 200) := by
  have hs : OriginRun otherPeers (fun _ => fakeProvider (ascii "k")) 0 (ascii "a") originNodes _ :=
    Runs.Run.of_replay overtakingActions rfl
  have hsafe := single_origin_safety (fun _ => rfl)
    ⟨fun _ => rfl, rfl, fun _ => rfl, fun _ => rfl, fun _ => rfl, fun _ => rfl, fun _ => rfl⟩
    hs (Runs.Run.of_replay [.deliver (1, sampleRecord 100)] rfl)
  exact ⟨_, _, hs, Runs.Run.of_replay [.deliver (1, sampleRecord 100)] rfl, rfl, rfl,
    hsafe.1 1, hsafe.2.2.1 0 _ rfl⟩

end Lbsync.Wan
