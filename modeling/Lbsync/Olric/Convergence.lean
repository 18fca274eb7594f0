import Lbsync.Olric.Provenance

/-!
# Interleaved ticks converge

Any number of nodes run their ticks at the same time, with fixed local copies of a key and
calls that succeed. Once every node has completed a tick, the cluster stores the newest of the
local copies and the record it held before, and from then on it stores nothing else.
-/

namespace Lbsync.Olric

open Engine

variable {N P : Type*}

/-- Every tick starts with the given local copy of the key. -/
def Copies (p : N → Provider P) (key : GoString) (own : N → Option Record) (s : Nodes N P) :
    Action N P → Prop
  | .begin n _ => (localMap ((p n).locals (s.world n)).1).lookup key = own n
  | .call _ => True
  | .change _ _ => True
  | .expire _ _ => True

instance decidableCopies (p : N → Provider P) (key : GoString) (own : N → Option Record)
    (s : Nodes N P) (a : Action N P) : Decidable (Copies p key own s a) :=
  match a with
  | .begin n _ => inferInstanceAs
      (Decidable ((localMap ((p n).locals (s.world n)).1).lookup key = own n))
  | .call _ => inferInstanceAs (Decidable True)
  | .change _ _ => inferInstanceAs (Decidable True)
  | .expire _ _ => inferInstanceAs (Decidable True)

/-- The ticks under way are safe and started with the given copies of the key. -/
structure Clean (kind key : GoString) (own : N → Option Record) (s : Nodes N P) : Prop where
  safe : Safe kind s
  copies : ∀ n m, localsAt (s.pc n) = some m → m.lookup key = own n

/-- The stored record of the key is not older than any local copy. -/
def Covers (kind key : GoString) (own : N → Option Record) (s : Nodes N P) : Prop :=
  ∀ n, versionOf (own n) ≤ versionOf ((s.cluster.dmaps kind).stored key)

theorem Initial.clean {s : Nodes N P} (h : Initial s) (kind key : GoString)
    (own : N → Option Record) : Clean kind key own s :=
  ⟨h.safe kind, fun n m hm => by simp [h.idle n, localsAt] at hm⟩

variable [DecidableEq N]

/-- Calls succeed, no lock expires while it is held, and the copies of the key are fixed. -/
def Steady (p : N → Provider P) (key : GoString) (own : N → Option Record) (s : Nodes N P)
    (a : Action N P) : Prop := Allowed p s a ∧ Copies p key own s a

instance decidableSteady [Fintype N] (p : N → Provider P) (key : GoString)
    (own : N → Option Record) (s : Nodes N P) (a : Action N P) :
    Decidable (Steady p key own s a) :=
  inferInstanceAs (Decidable (Allowed p s a ∧ Copies p key own s a))

/-- A run with fixed copies of the key. -/
abbrev SteadyRun (p : N → Provider P) (key : GoString) (own : N → Option Record) :
    Nodes N P → Nodes N P → Prop := Runs.Run (Nodes.step p) (Steady p key own)

section Steps

variable {p : N → Provider P} {kind key : GoString} {own : N → Option Record} {s t : Nodes N P}
  {a : Action N P}

theorem clean_step (hkind : ∀ n, (p n).kind = kind) (hs : Clean kind key own s)
    (ha : Steady p key own s a) (hstep : Nodes.step p s a = some t) : Clean kind key own t := by
  refine ⟨(safe_step hkind hs.safe ha.1 hstep).1, ?_⟩
  cases a with
  | begin n ord =>
      cases hpc : s.pc n with
      | idle =>
          simp only [Nodes.step, hpc, Option.some.injEq] at hstep
          subst hstep
          refine (Function.forall_update_iff s.pc
            (p := fun n pc => ∀ m, localsAt pc = some m → m.lookup key = own n)).mpr
            ⟨fun m hm => ?_, fun m _ => hs.copies m⟩
          rw [(Frame.keepsLocals_next _).1 m hm]
          exact ha.2
      | _ => simp [Nodes.step, hpc] at hstep
  | call n =>
      simp only [Nodes.step, Option.map_eq_some_iff] at hstep
      obtain ⟨r, hr, rfl⟩ := hstep
      have hlocals := ((moves_of_step hr).keepsLocals (hs.safe.own n)).2
      exact (Function.forall_update_iff s.pc
        (p := fun n pc => ∀ m, localsAt pc = some m → m.lookup key = own n)).mpr
        ⟨fun m hm => hs.copies n m (hlocals m hm), fun m _ => hs.copies m⟩
  | change n w =>
      simp only [Nodes.step, Option.some.injEq] at hstep
      subst hstep
      exact hs.copies
  | expire kind' name =>
      simp only [Nodes.step, Option.some.injEq] at hstep
      subst hstep
      exact hs.copies

/-- What a step does to the stored record of the key: nothing, or a node puts its local copy,
which is newer. -/
theorem stored_step (hkind : ∀ n, (p n).kind = kind) (hs : Clean kind key own s)
    (hstep : Nodes.step p s a = some t) :
    (t.cluster.dmaps kind).stored key = (s.cluster.dmaps kind).stored key ∨
      ∃ n, (t.cluster.dmaps kind).stored key = own n ∧
        versionOf ((s.cluster.dmaps kind).stored key) < versionOf (own n) := by
  cases a with
  | begin n ord =>
      cases hpc : s.pc n with
      | idle =>
          simp only [Nodes.step, hpc, Option.some.injEq] at hstep
          subst hstep
          have hsame := keys_entries n kind s.cluster
          simp only [hkind n, DMap.stored_congr hsame, true_or]
      | _ => simp [Nodes.step, hpc] at hstep
  | call n =>
      simp only [Nodes.step, Option.map_eq_some_iff] at hstep
      obtain ⟨r, hr, rfl⟩ := hstep
      rcases (touches_step hr kind).stored key with hsame | ⟨l, hl, hkey, hnow⟩
      · exact Or.inl hsame
      · cases hpc : s.pc n with
        | put f k l' c locked =>
            obtain rfl : l' = l := by simpa [hpc, putAt] using hl
            obtain rfl : k = key := (hs.safe.of_put hpc).1.symm.trans hkey
            have hown : f.localByKey.lookup k = some l' := by
              have hown := hs.safe.own n
              rwa [hpc] at hown
            have hcopy : some l' = own n := by
              rw [← hown]
              exact hs.copies n f.localByKey (by rw [hpc]; rfl)
            have hknows := hs.safe.knows n k
            rw [hpc] at hknows
            exact Or.inr ⟨n, by rw [← hcopy]; exact hnow, by rw [← hcopy]; exact (hknows rfl).1⟩
        | _ => simp [hpc, putAt] at hl
  | change n w =>
      simp only [Nodes.step, Option.some.injEq] at hstep
      subst hstep
      exact Or.inl rfl
  | expire kind' name =>
      simp only [Nodes.step, Option.some.injEq] at hstep
      subst hstep
      refine Or.inl ?_
      by_cases hk : kind = kind'
      · subst hk
        simp [((s.cluster.dmaps kind).expire_effect name).1]
      · simp [hk]

/-- A stored record that is not older than any local copy stays. -/
theorem Covers.stored_step (h : Covers kind key own s) (hkind : ∀ n, (p n).kind = kind)
    (hs : Clean kind key own s) (hstep : Nodes.step p s a = some t) :
    (t.cluster.dmaps kind).stored key = (s.cluster.dmaps kind).stored key := by
  rcases Olric.stored_step hkind hs hstep with hsame | ⟨n, -, hlt⟩
  · exact hsame
  · exact absurd hlt (not_lt.mpr (h n))

/-- The tick of a node has offered its copy of the key, or is still to come to it. -/
def Offered (kind key : GoString) (own : N → Option Record) (n : N) (s : Nodes N P) : Prop :=
  versionOf (own n) ≤ versionOf ((s.cluster.dmaps kind).stored key) ∨ key ∈ keysLeft (s.pc n)

/-- A key is not left behind before the copy of it is published or known to be no newer. -/
theorem offered_step (hkind : ∀ n, (p n).kind = kind) (hs : Clean kind key own s)
    (ha : Steady p key own s a) (hstep : Nodes.step p s a = some t) {n : N}
    (h : Offered kind key own n s) : Offered kind key own n t := by
  have hgrow := (safe_step hkind hs.safe ha.1 hstep).2 key
  rcases h with hle | hmem
  · exact Or.inl (hle.trans hgrow)
  · by_cases hleft : key ∈ keysLeft (t.pc n)
    · exact Or.inr hleft
    · refine Or.inl (le_trans ?_ hgrow)
      cases nodeStep_of_step hstep n with
      | other _ hpc => exact absurd hmem (hpc ▸ hleft)
      | change hpc => exact absurd hmem (hpc ▸ hleft)
      | begin hidle hpc => simp [hidle, keysLeft] at hmem
      | call hcall hpc =>
          rw [hpc] at hleft
          rcases (moves_of_step hcall).leaves (hs.safe.own n) hmem hleft with
            ⟨f, best, hat⟩ | ⟨f, hat, hnone, -⟩
          · have hknows := hs.safe.knows n key
            rw [show s.pc n = .apply f key best from hat] at hknows
            rw [← hs.copies n f.localByKey (by rw [show s.pc n = _ from hat]; rfl)]
            exact (hknows rfl).1
          · rw [← hs.copies n f.localByKey (by rw [show s.pc n = _ from hat]; rfl), hnone]
            exact bot_le

/-- A tick starts with the key ahead, if the node has a copy of it. -/
theorem offered_begin {n : N} {ord : MapOrder} (ha : Copies p key own s (.begin n ord))
    (hstep : Nodes.step p s (.begin n ord) = some t) : Offered kind key own n t := by
  cases hown : own n with
  | none =>
      refine Or.inl ?_
      rw [hown]
      exact bot_le
  | some l =>
      refine Or.inr ?_
      have hlookup : (localMap ((p n).locals (s.world n)).1).lookup key = some l := hown ▸ ha
      have hlocal : key ∈ localMap ((p n).locals (s.world n)).1 := by
        rw [← AList.lookup_isSome, hlookup]
        rfl
      cases hpc : s.pc n with
      | idle =>
          simp only [Nodes.step, hpc, Option.some.injEq] at hstep
          subst hstep
          simp only [Function.update_self, keysLeft_startTick]
          exact mem_unionKeys.mpr (Or.inl hlocal)
      | _ => simp [Nodes.step, hpc] at hstep

end Steps

variable {p : N → Provider P} {kind key : GoString} {own : N → Option Record}

theorem SteadyRun.clean (hkind : ∀ n, (p n).kind = kind) {s t : Nodes N P}
    (h : SteadyRun p key own s t) (hs : Clean kind key own s) : Clean kind key own t :=
  h.invariant (fun _ _ _ hs ha hstep => clean_step hkind hs ha hstep) hs

/-- Versions only grow along a run. -/
theorem SteadyRun.grows (hkind : ∀ n, (p n).kind = kind) {s t : Nodes N P}
    (h : SteadyRun p key own s t) (hs : Clean kind key own s) :
    versionOf ((s.cluster.dmaps kind).stored key) ≤
      versionOf ((t.cluster.dmaps kind).stored key) :=
  Runs.Run.le (I := Clean kind key own)
    (f := fun s : Nodes N P => versionOf ((s.cluster.dmaps kind).stored key))
    (fun _ _ _ hs ha hstep => clean_step hkind hs ha hstep)
    (fun _ _ _ hs ha hstep => (safe_step hkind hs.safe ha.1 hstep).2 key) h hs

/-- The stored record is the one from before or one of the copies. -/
theorem SteadyRun.stored (hkind : ∀ n, (p n).kind = kind) {s t : Nodes N P}
    (h : SteadyRun p key own s t) (hs : Clean kind key own s) :
    (t.cluster.dmaps kind).stored key = (s.cluster.dmaps kind).stored key ∨
      ∃ n, (t.cluster.dmaps kind).stored key = own n := by
  have hboth : Clean kind key own t ∧
      ((t.cluster.dmaps kind).stored key = (s.cluster.dmaps kind).stored key ∨
        ∃ n, (t.cluster.dmaps kind).stored key = own n) := by
    refine h.invariant (I := fun t => Clean kind key own t ∧
      ((t.cluster.dmaps kind).stored key = (s.cluster.dmaps kind).stored key ∨
        ∃ n, (t.cluster.dmaps kind).stored key = own n)) ?_ ⟨hs, Or.inl rfl⟩
    rintro u a v ⟨hu, hstored⟩ ha hstep
    refine ⟨clean_step hkind hu ha hstep, ?_⟩
    rcases stored_step hkind hu hstep with hsame | ⟨n, hnow, -⟩
    · rwa [hsame]
    · exact Or.inr ⟨n, hnow⟩
  exact hboth.2

/-- Once the copies are covered, the stored record stays. -/
theorem SteadyRun.stored_of_covers (hkind : ∀ n, (p n).kind = kind) {s t : Nodes N P}
    (h : SteadyRun p key own s t) (hs : Clean kind key own s) (hcovers : Covers kind key own s) :
    (t.cluster.dmaps kind).stored key = (s.cluster.dmaps kind).stored key := by
  have hboth : Clean kind key own t ∧
      (t.cluster.dmaps kind).stored key = (s.cluster.dmaps kind).stored key := by
    refine h.invariant (I := fun t => Clean kind key own t ∧
      (t.cluster.dmaps kind).stored key = (s.cluster.dmaps kind).stored key) ?_ ⟨hs, rfl⟩
    rintro u a v ⟨hu, hsame⟩ ha hstep
    have hcovers' : Covers kind key own u := fun n => hsame ▸ hcovers n
    exact ⟨clean_step hkind hu ha hstep, (hcovers'.stored_step hkind hu hstep).trans hsame⟩
  exact hboth.2

/-- The node starts and completes a tick in an allowed run. -/
def Ticked (p : N → Provider P) (allowed : Nodes N P → Action N P → Prop) (n : N)
    (s t : Nodes N P) : Prop :=
  ∃ ord, Runs.Passes (Nodes.step p) allowed (.begin n ord) (fun c => isIdle (c.pc n) = true) s t

theorem Ticked.mono {allowed allowed' : Nodes N P → Action N P → Prop}
    (hle : ∀ s a, allowed s a → allowed' s a) {n : N} {s t : Nodes N P}
    (h : Ticked p allowed n s t) : Ticked p allowed' n s t := by
  obtain ⟨ord, hpasses⟩ := h
  exact ⟨ord, hpasses.mono hle⟩

/-- The copy of a node that has completed a tick is covered. -/
theorem Ticked.covered (hkind : ∀ n, (p n).kind = kind) {s t : Nodes N P} {n : N}
    (h : Ticked p (Steady p key own) n s t) (hs : Clean kind key own s) :
    versionOf (own n) ≤ versionOf ((t.cluster.dmaps kind).stored key) := by
  obtain ⟨ord, a, b, c, hsa, ha, hbegin, hbc, hidle, hct⟩ := h
  have hb := clean_step hkind (SteadyRun.clean hkind hsa hs) ha hbegin
  have hc : Clean kind key own c ∧ Offered kind key own n c :=
    hbc.invariant (I := fun s => Clean kind key own s ∧ Offered kind key own n s)
      (fun u a v hu ha hstep =>
        ⟨clean_step hkind hu.1 ha hstep, offered_step hkind hu.1 ha hstep hu.2⟩)
      ⟨hb, offered_begin ha.2 hbegin⟩
  have hcovered := hc.2.resolve_right (by simp [isIdle_iff.mp hidle, keysLeft])
  exact hcovered.trans (SteadyRun.grows hkind hct hc.1)

/-- A record is the newest of a first record and the copies: it is one of them and none of them
is newer. -/
structure Newest (first : Option Record) (own : N → Option Record) (r : Option Record) : Prop where
  mem : r = first ∨ ∃ n, r = own n
  first_le : NotOlder first r
  own_le : ∀ n, NotOlder (own n) r

theorem newest_stored (hkind : ∀ n, (p n).kind = kind) {s t : Nodes N P} (hs : Initial s)
    (hrun : SteadyRun p key own s t) (hticked : ∀ n, Ticked p (Steady p key own) n s t) :
    Newest ((s.cluster.dmaps kind).stored key) own ((t.cluster.dmaps kind).stored key) := by
  have hclean := hs.clean kind key own
  exact ⟨hrun.stored hkind hclean, notOlder_iff.mpr (hrun.grows hkind hclean),
    fun n => notOlder_iff.mpr ((hticked n).covered hkind hclean)⟩

/-- Interleaved ticks converge. From any content of the cluster, once every node has started
and completed a tick, the stored record of the key is the newest of the first one stored and
the local copies, and it stays. -/
theorem stored_converges (hkind : ∀ n, (p n).kind = kind) {s t : Nodes N P} (hs : Initial s)
    (hrun : SteadyRun p key own s t) (hticked : ∀ n, Ticked p (Steady p key own) n s t) :
    Newest ((s.cluster.dmaps kind).stored key) own ((t.cluster.dmaps kind).stored key) ∧
      ∀ u, SteadyRun p key own t u →
        (u.cluster.dmaps kind).stored key = (t.cluster.dmaps kind).stored key := by
  have hnewest := newest_stored hkind hs hrun hticked
  refine ⟨hnewest, fun u hu => ?_⟩
  exact hu.stored_of_covers hkind (hrun.clean hkind (hs.clean kind key own))
    fun n => notOlder_iff.mp (hnewest.own_le n)

/-- The local copies of the two nodes. -/
def twoCopies (n : Bool) : Option Record := some (sampleRecord (if n then 200 else 100))

/-- Both nodes read the empty cluster before either publishes; the newer record is published
first and the older one is held back. -/
def overtakenCalls : List (Action Bool (List Record)) :=
  [.call false, .call true, .call true, .call true, .call true, .call true, .call true,
    .call false, .call false, .call false, .call false]

theorem stored_converges_overtaken :
    ∃ t, SteadyRun (fun _ => fakeProvider (ascii "k")) (ascii "a") twoCopies twoNodes t ∧
      (t.cluster.dmaps (ascii "k")).stored (ascii "a") = some (sampleRecord 200) ∧
      Newest ((twoNodes.cluster.dmaps (ascii "k")).stored (ascii "a")) twoCopies
        ((t.cluster.dmaps (ascii "k")).stored (ascii "a")) := by
  obtain ⟨t, ht, hstored⟩ : ∃ t, Runs.replay (Nodes.step fun _ => fakeProvider (ascii "k"))
      (Steady (fun _ => fakeProvider (ascii "k")) (ascii "a") twoCopies) twoNodes
      (.begin false .insertion :: .begin true .insertion :: overtakenCalls) = some t ∧
      (t.cluster.dmaps (ascii "k")).stored (ascii "a") = some (sampleRecord 200) :=
    ⟨_, rfl, rfl⟩
  have hrun := Runs.Run.of_replay _ ht
  refine ⟨t, hrun, hstored,
    (stored_converges (fun _ => rfl) ⟨fun _ => rfl, fun _ => rfl⟩ hrun ?_).1⟩
  intro n
  cases n with
  | false =>
      exact ⟨.insertion, .of_replay [] (Action.begin true .insertion :: overtakenCalls) [] ht rfl⟩
  | true =>
      exact ⟨.insertion, .of_replay [Action.begin false .insertion] overtakenCalls [] ht rfl⟩

end Lbsync.Olric
