import Lbsync.Olric.Kinds
import Lbsync.Olric.Outcomes

/-!
# Nodes with several modules

Every node runs a tick loop for each of its modules on one cluster, and all calls interleave.
Seen from one module, a run of such nodes is a run of nodes with this module alone: the same
control points, provider states, calls to `Apply` and DMap contents. What is proved about nodes
with one module holds for each module of such nodes.
-/

namespace Lbsync.Olric

open Engine Slices

section OneModule

variable {N P : Type*}

/-- The states agree on everything that has to do with the kind. -/
structure SameKind (kind : GoString) (s t : Nodes N P) : Prop where
  slice : kindSlice kind s.cluster = kindSlice kind t.cluster
  pc : s.pc = t.pc
  world : s.world = t.world
  applied : s.applied = t.applied

/-- The ticks under way publish local records of their kind. -/
def Proper (kind : GoString) (s : Nodes N P) : Prop :=
  ∀ n, OwnRecord (s.pc n) ∧ ∀ m, localsAt (s.pc n) = some m → OfKind kind m

theorem Proper.put {kind : GoString} {s : Nodes N P} (h : Proper kind s) {n : N} {l : Record}
    (hl : putAt (s.pc n) = some l) : l.kind = kind := by
  obtain ⟨hown, hkinds⟩ := h n
  cases hpc : s.pc n with
  | put f key l' c locked =>
      obtain rfl : l' = l := by simpa [hpc, putAt] using hl
      rw [hpc] at hown hkinds
      exact (hkinds f.localByKey rfl key l' hown).2
  | _ => simp [hpc, putAt] at hl

/-- Only locks of the kind expire. -/
def StaysIn (kind : GoString) : Action N P → Prop
  | .expire k _ => k = kind
  | .begin _ _ => True
  | .call _ => True
  | .change _ _ => True

variable [DecidableEq N] {p : N → Provider P} {kind : GoString} {s t : Nodes N P} {a : Action N P}

theorem proper_step (hkind : ∀ n, (p n).kind = kind) (hs : Proper kind s)
    (hstep : Nodes.step p s a = some t) : Proper kind t := by
  intro n
  cases nodeStep_of_step hstep n with
  | other _ hpc => exact hpc ▸ hs n
  | change hpc => exact hpc ▸ hs n
  | begin hidle hpc =>
      rw [hpc]
      obtain ⟨hlocals, hown⟩ := Frame.keepsLocals_next ⟨localMap ((p n).locals (s.world n)).1,
        unionKeys _ (localMap ((p n).locals (s.world n)).1)
          ((kv n).keys (p n).kind s.cluster).1, []⟩
      refine ⟨hown, fun m hm => ?_⟩
      rw [hlocals m hm, ← hkind n]
      exact (p n).ofKind_locals (s.world n)
  | call hcall hpc =>
      have hlocals := (moves_of_step hcall).keepsLocals (hs n).1
      rw [hpc]
      exact ⟨hlocals.1, fun m hm => (hs n).2 m (hlocals.2 m hm)⟩

/-- A step does the same to states that agree on the kind. -/
theorem SameKind.step {s' : Nodes N P} (hkind : ∀ n, (p n).kind = kind) (hs : Proper kind s)
    (h : SameKind kind s s') (ha : StaysIn kind a) (hstep : Nodes.step p s a = some t) :
    ∃ t', Nodes.step p s' a = some t' ∧ SameKind kind t t' := by
  obtain ⟨cluster, pc, world, applied⟩ := s
  obtain ⟨cluster', pc', world', applied'⟩ := s'
  obtain ⟨hslice, hpcs, hworlds, happlied⟩ := h
  dsimp only at hslice hpcs hworlds happlied
  subst hpcs hworlds happlied
  cases a with
  | begin n ord =>
      have hkeys : Confined kindSlice kind ((kv n).keys (p n).kind) := by
        rw [hkind n]
        exact (kv_perKind n).keys kind
      cases hpc : pc n with
      | idle =>
          simp only [Nodes.step, hpc, Option.some.injEq] at hstep ⊢
          subst hstep
          refine ⟨_, rfl, hkeys.own hslice, ?_, rfl, rfl⟩
          simp only [hkeys.result hslice]
      | _ => simp [Nodes.step, hpc] at hstep
  | call n =>
      simp only [Nodes.step, Option.map_eq_some_iff] at hstep ⊢
      obtain ⟨r, hr, rfl⟩ := hstep
      obtain ⟨c, hc, hsame⟩ := (kv_perKind n).step_congr (hkind n)
        (fun l hl => (hs.put hl).trans (hkind n).symm) hr hslice
      exact ⟨_, ⟨_, hc, rfl⟩, hsame, rfl, rfl, rfl⟩
  | change n w =>
      simp only [Nodes.step, Option.some.injEq] at hstep ⊢
      subst hstep
      exact ⟨_, rfl, hslice, rfl, rfl, rfl⟩
  | expire k name =>
      obtain rfl : k = kind := ha
      obtain ⟨hdmap, hopens⟩ := Prod.mk.inj hslice
      simp only [Nodes.step, Option.some.injEq] at hstep ⊢
      subst hstep
      exact ⟨_, rfl, by simp [kindSlice, hdmap, hopens], rfl, rfl, rfl⟩

/-- A step for one kind does nothing to what belongs to another. -/
theorem kindSlice_step {other : GoString} (hne : other ≠ kind) (hkind : ∀ n, (p n).kind = kind)
    (hs : Proper kind s) (ha : StaysIn kind a) (hstep : Nodes.step p s a = some t) :
    kindSlice other t.cluster = kindSlice other s.cluster := by
  cases a with
  | begin n ord =>
      cases hpc : s.pc n with
      | idle =>
          simp only [Nodes.step, hpc, Option.some.injEq] at hstep
          subst hstep
          exact ((kv_perKind n).keys (p n).kind).other (hkind n ▸ hne) s.cluster
      | _ => simp [Nodes.step, hpc] at hstep
  | call n =>
      simp only [Nodes.step, Option.map_eq_some_iff] at hstep
      obtain ⟨r, hr, rfl⟩ := hstep
      exact (kv_perKind n).step_other (hkind n)
        (fun l hl => (hs.put hl).trans (hkind n).symm) hr hne
  | change n w =>
      obtain rfl := Option.some.inj hstep
      rfl
  | expire k name =>
      obtain rfl : k = kind := ha
      obtain rfl := Option.some.inj hstep
      simp [kindSlice, hne]

end OneModule

variable {N M : Type*} {P : M → Type*}

/-- The cluster, and for each module of each node the control point of its tick, the state of
its provider and its calls to `Apply`. -/
structure Agents (N : Type*) {M : Type*} (P : M → Type*) where
  cluster : Cluster N
  pc : M → N → Pc
  world : ∀ m, N → P m
  applied : M → N → List (GoString × Record)

namespace Agents

/-- What is to be seen of one module. -/
def only (s : Agents N P) (m : M) : Nodes N (P m) := ⟨s.cluster, s.pc m, s.world m, s.applied m⟩

variable [DecidableEq M]

/-- The nodes after a step of one module. -/
def moved (s : Agents N P) (m : M) (t : Nodes N (P m)) : Agents N P where
  cluster := t.cluster
  pc := Function.update s.pc m t.pc
  world := Function.update s.world m t.world
  applied := Function.update s.applied m t.applied

theorem only_moved (s : Agents N P) (m : M) (t : Nodes N (P m)) : (s.moved m t).only m = t := by
  simp [only, moved]

theorem only_moved_of_ne (s : Agents N P) {m m' : M} (hne : m' ≠ m) (t : Nodes N (P m)) :
    (s.moved m t).only m' = { s.only m' with cluster := t.cluster } := by
  simp [only, moved, hne]

variable [DecidableEq N] (p : ∀ m, N → Provider (P m)) (kind : M → GoString)

/-- One step of one module of one node. -/
def step (s : Agents N P) (a : Σ m, Action N (P m)) : Option (Agents N P) :=
  (Nodes.step (p a.1) (s.only a.1) a.2).map (s.moved a.1)

/-- A step that is allowed for its module. Only locks of the module's own kind expire. -/
def Joint (allowed : ∀ m, Nodes N (P m) → Action N (P m) → Prop) (s : Agents N P)
    (a : Σ m, Action N (P m)) : Prop :=
  allowed a.1 (s.only a.1) a.2 ∧ StaysIn (kind a.1) a.2

omit [DecidableEq M] [DecidableEq N] in
/-- What is to be seen of one module on a cluster where the DMaps of the other kinds stay as
they are in `c₀`. -/
def alone (c₀ : Cluster N) (m : M) (s : Agents N P) : Nodes N (P m) :=
  { s.only m with cluster := c₀.splice (kind m) s.cluster }

omit [DecidableEq M] [DecidableEq N] in
theorem alone_self (s : Agents N P) (m : M) : s.alone kind s.cluster m = s.only m := by
  simp [alone, Cluster.splice, only]

omit [DecidableEq M] [DecidableEq N] in
theorem sameKind_alone (c₀ : Cluster N) (m : M) (s : Agents N P) :
    SameKind (kind m) (s.only m) (s.alone kind c₀ m) :=
  ⟨(kindSlice_splice (kind m) c₀ s.cluster).symm, rfl, rfl, rfl⟩

variable {p kind} (hkind : ∀ m n, (p m n).kind = kind m) {s s' : Agents N P} {m m' : M}

include hkind

theorem proper_step {a : Σ m, Action N (P m)} (hs : ∀ m, Proper (kind m) (s.only m))
    (hstep : step p s a = some s') (m : M) : Proper (kind m) (s'.only m) := by
  obtain ⟨u, hu, rfl⟩ := Option.map_eq_some_iff.mp hstep
  by_cases hm : m = a.1
  · subst hm
    rw [only_moved]
    exact Olric.proper_step (hkind a.1) (hs a.1) hu
  · rw [only_moved_of_ne s hm]
    exact hs m

/-- A step of the module itself is a step of the nodes with this module alone. -/
theorem step_alone (c₀ : Cluster N) (hs : Proper (kind m) (s.only m)) {a : Action N (P m)}
    (ha : StaysIn (kind m) a) (hstep : step p s ⟨m, a⟩ = some s') :
    Nodes.step (p m) (s.alone kind c₀ m) a = some (s'.alone kind c₀ m) := by
  obtain ⟨u, hu, rfl⟩ := Option.map_eq_some_iff.mp hstep
  obtain ⟨t, ht, hsame⟩ := (sameKind_alone kind c₀ m s).step (hkind m) hs ha hu
  have hcluster : t.cluster = c₀.splice (kind m) u.cluster := by
    refine Cluster.ext_kinds fun k => ?_
    by_cases hk : k = kind m
    · rw [hk, kindSlice_splice, hsame.slice]
    · have hproper : Proper (kind m) (s.alone kind c₀ m) := hs
      rw [kindSlice_splice_of_ne hk, kindSlice_step hk (hkind m) hproper ha ht]
      exact kindSlice_splice_of_ne hk c₀ s.cluster
  rw [ht, alone, only_moved]
  obtain ⟨cluster, pc, world, applied⟩ := t
  obtain ⟨-, hpc, hworld, happlied⟩ := hsame
  dsimp only at hcluster hpc hworld happlied
  rw [hcluster, ← hpc, ← hworld, ← happlied]
  rfl

/-- A step of another module does not show. -/
theorem alone_step_of_ne (hinj : Function.Injective kind) (c₀ : Cluster N) (hne : m ≠ m')
    (hs : Proper (kind m') (s.only m')) {a : Action N (P m')} (ha : StaysIn (kind m') a)
    (hstep : step p s ⟨m', a⟩ = some s') : s'.alone kind c₀ m = s.alone kind c₀ m := by
  obtain ⟨u, hu, rfl⟩ := Option.map_eq_some_iff.mp hstep
  have hslice := kindSlice_step (hinj.ne hne) (hkind m') hs ha hu
  rw [alone, alone, only_moved_of_ne s hne]
  exact congrArg (fun c => { s.only m with cluster := c }) (splice_congr hslice c₀)

/-- Seen from one module, a run of nodes with all modules is a run of nodes with this one. -/
theorem run_alone (hinj : Function.Injective kind)
    {allowed : ∀ m, Nodes N (P m) → Action N (P m) → Prop}
    (hallowed : ∀ m s t a, Proper (kind m) s → SameKind (kind m) s t → allowed m s a →
      allowed m t a)
    (c₀ : Cluster N) (hs : ∀ m, Proper (kind m) (s.only m))
    (hrun : Runs.Run (step p) (Joint kind allowed) s s') (m : M) :
    Runs.Run (Nodes.step (p m)) (allowed m) (s.alone kind c₀ m) (s'.alone kind c₀ m) := by
  have hshown : ∀ u v a u', (∀ m, Proper (kind m) (u.only m)) ∧ v = u.alone kind c₀ m →
      Joint kind allowed u a → step p u a = some u' →
      ((∀ m, Proper (kind m) (u'.only m)) ∧ v = u'.alone kind c₀ m) ∨
        ∃ b v', allowed m v b ∧ Nodes.step (p m) v b = some v' ∧
          (∀ m, Proper (kind m) (u'.only m)) ∧ v' = u'.alone kind c₀ m := by
    rintro u v ⟨m', a⟩ u' ⟨hproper, rfl⟩ ha hstep
    have hproper' := proper_step hkind hproper hstep
    by_cases hm : m = m'
    · subst hm
      exact Or.inr ⟨a, _, hallowed m _ _ a (hproper m) (sameKind_alone kind c₀ m u) ha.1,
        step_alone hkind c₀ (hproper m) ha.2 hstep, hproper', rfl⟩
    · exact Or.inl ⟨hproper', (alone_step_of_ne hkind hinj c₀ hm (hproper m') ha.2 hstep).symm⟩
  obtain ⟨t, ht, -, rfl⟩ := hrun.stutter hshown ⟨hs, rfl⟩
  exact ht

end Agents

/-- No tick is under way. -/
def Agents.Idle (s : Agents N P) : Prop := ∀ m n, s.pc m n = .idle

theorem Agents.Idle.proper {s : Agents N P} (h : s.Idle) (kind : M → GoString) (m : M) :
    Proper (kind m) (s.only m) := by
  intro n
  simp only [Agents.only, h m n]
  exact ⟨trivial, fun m hm => by simp [localsAt] at hm⟩

section Independence

variable [DecidableEq M] [DecidableEq N] {p : ∀ m, N → Provider (P m)} {kind : M → GoString}

/-- Modules of different kinds are independent. Let every node run ticks of all its modules on
one cluster, with any interleaving of the calls, failures, changes of files and expiring locks.
For each module there is a run of nodes with this module alone that ends with the same DMap of
its kind, the same control points, provider states and calls to `Apply`. Its steps are allowed
if the module's own steps were, as far as that depends on the module. -/
theorem modules_independent (hkind : ∀ m n, (p m n).kind = kind m)
    (hinj : Function.Injective kind) {allowed : ∀ m, Nodes N (P m) → Action N (P m) → Prop}
    (hallowed : ∀ m s t a, Proper (kind m) s → SameKind (kind m) s t → allowed m s a →
      allowed m t a)
    {s t : Agents N P} (hs : s.Idle)
    (hrun : Runs.Run (Agents.step p) (Agents.Joint kind allowed) s t) (m : M) :
    ∃ u, Runs.Run (Nodes.step (p m)) (allowed m) (s.only m) u ∧
      u.cluster.dmaps (kind m) = t.cluster.dmaps (kind m) ∧
      (∀ k ≠ kind m, u.cluster.dmaps k = s.cluster.dmaps k) ∧
      u.pc = t.pc m ∧ u.world = t.world m ∧ u.applied = t.applied m := by
  have halone := Agents.run_alone hkind hinj hallowed s.cluster (hs.proper kind) hrun m
  rw [Agents.alone_self] at halone
  refine ⟨_, halone, congrArg Prod.fst (kindSlice_splice (kind m) s.cluster t.cluster),
    fun k hk => congrArg Prod.fst (kindSlice_splice_of_ne hk s.cluster t.cluster), rfl, rfl, rfl⟩

instance decidableStaysIn (kind : GoString) {P : Type*} (a : Action N P) :
    Decidable (StaysIn kind a) :=
  match a with
  | .expire k _ => inferInstanceAs (Decidable (k = kind))
  | .begin _ _ => inferInstanceAs (Decidable True)
  | .call _ => inferInstanceAs (Decidable True)
  | .change _ _ => inferInstanceAs (Decidable True)

instance decidableJoint {allowed : ∀ m, Nodes N (P m) → Action N (P m) → Prop}
    [∀ m s a, Decidable (allowed m s a)] (s : Agents N P) (a : Σ m, Action N (P m)) :
    Decidable (Agents.Joint kind allowed s a) :=
  inferInstanceAs (Decidable (allowed a.1 (s.only a.1) a.2 ∧ StaysIn (kind a.1) a.2))

end Independence

/-- The kinds of two modules. -/
def twoKinds (m : Bool) : GoString := if m then ascii "j" else ascii "k"

/-- A node with two modules, each with a record of the same key. -/
def moduleAgents : Agents Unit fun _ : Bool => List Record where
  cluster := ⟨fun _ => ⟨fun _ => none, []⟩, fun _ => true⟩
  pc _ _ := .idle
  world m _ := [{ sampleRecord (if m then 200 else 100) with kind := twoKinds m }]
  applied _ _ := []

/-- The ticks of the two modules take turns call by call. -/
def moduleActions : List (Σ _ : Bool, Action Unit (List Record)) :=
  ⟨false, .begin () .insertion⟩ :: ⟨true, .begin () .insertion⟩ ::
    (List.replicate 6 [⟨true, .call ()⟩, ⟨false, .call ()⟩]).flatten

theorem modules_independent_turns :
    ∃ t u, Runs.Run (Agents.step fun m _ => fakeProvider (twoKinds m))
        (Agents.Joint twoKinds fun _ _ _ => True) moduleAgents t ∧
      (t.cluster.dmaps (twoKinds true)).stored (ascii "a") =
        some { sampleRecord 200 with kind := twoKinds true } ∧
      Runs.Run (Nodes.step fun _ => fakeProvider (twoKinds false)) (fun _ _ => True)
        (moduleAgents.only false) u ∧
      (u.cluster.dmaps (twoKinds false)).stored (ascii "a") = some (sampleRecord 100) := by
  obtain ⟨t, ht, htrue, hfalse⟩ : ∃ t, Runs.replay
      (Agents.step fun m _ => fakeProvider (twoKinds m))
      (Agents.Joint twoKinds fun _ _ _ => True) moduleAgents moduleActions = some t ∧
      (t.cluster.dmaps (twoKinds true)).stored (ascii "a") =
        some { sampleRecord 200 with kind := twoKinds true } ∧
      (t.cluster.dmaps (twoKinds false)).stored (ascii "a") = some (sampleRecord 100) :=
    ⟨_, rfl, rfl, rfl⟩
  have hrun := Runs.Run.of_replay _ ht
  have hkind : ∀ (m : Bool) (_ : Unit), (fakeProvider (twoKinds m)).kind = twoKinds m :=
    fun _ _ => rfl
  have hinj : Function.Injective twoKinds := by decide
  have hidle : moduleAgents.Idle := fun _ _ => rfl
  obtain ⟨u, hu, hdmap, -⟩ := modules_independent hkind hinj (fun _ _ _ _ _ _ _ => trivial)
    hidle hrun false
  exact ⟨t, u, hrun, htrue, hu, hdmap ▸ hfalse⟩

end Lbsync.Olric
