import Lbsync.Wan.Agreement

/-!
# Restarts

A store is in memory. A node that restarts has an empty one and is in no tick; what it had
sent may still arrive. Whatever is lost, delayed, duplicated or restarted, and however many
nodes publish a key: what is stored, on its way or applied for the key was once a local record
of some node for that key. A tick is never stuck, and its number of steps is bounded by the
keys it visits and the peers it may have to ask.
-/

namespace Lbsync.Wan

open Engine

variable {N P : Type*} [DecidableEq N]

/-- A step of the network, or the restart of a node. Its files may have changed meanwhile. -/
inductive Event (N P : Type*) where
  | act (a : Action N P)
  | restart (n : N) (w : P)

/-- The node starts again with an empty store. -/
def Nodes.restart (s : Nodes N P) (n : N) (w : P) : Nodes N P :=
  { s with
    net := { s.net with stores := Function.update s.net.stores n ∅ }
    pc := Function.update s.pc n .idle
    asking := Function.update s.asking n none
    world := Function.update s.world n w }

/-- One step of a network on which nodes restart. -/
def Nodes.next (peers : N → List N) (p : N → Provider P) (s : Nodes N P) :
    Event N P → Option (Nodes N P)
  | .act a => Nodes.step peers p s a
  | .restart n w => some (s.restart n w)

section Calls

variable {peers : List N} {kind : GoString} {n : N} {net net' : Net N} {pc pc' : Pc}
  {asking asking' : Option (List N)}

/-- What a read may return: what some node stores, or nothing. -/
def Findable (net : Net N) (kind key : GoString) (c : Option Record) : Prop :=
  c = none ∨ ∃ q, net.stored q kind key = c

/-- A step of a node is a move of its tick, or goes on asking. -/
theorem CallEffect.moves (h : CallEffect peers kind n net pc asking net' pc' asking') :
    Moves (Findable net kind) pc pc' ∧ (asking' = none ∨ asking' = asking) ∨
      pc' = pc ∧ (asking = none ∧ asking' = some peers ∨
        ∃ q rest, asking = some (q :: rest) ∧ asking' = some rest) := by
  cases h with
  | hit hread hfound =>
      exact Or.inl ⟨moves_answer hread (Or.inr ⟨n, hfound⟩), Or.inl rfl⟩
  | miss hread habsent => exact Or.inr ⟨rfl, Or.inl ⟨rfl, rfl⟩⟩
  | @reply pc key q rest r hread hfound =>
      exact Or.inl ⟨moves_answer hread (Or.inr ⟨q, hfound⟩), Or.inl rfl⟩
  | @skip pc key q rest hread => exact Or.inr ⟨rfl, Or.inr ⟨q, rest, rfl, rfl⟩⟩
  | absent hread => exact Or.inl ⟨moves_answer hread (Or.inl rfl), Or.inl rfl⟩
  | lock => exact Or.inl ⟨.lock true, Or.inr rfl⟩
  | put => exact Or.inl ⟨.put, Or.inr rfl⟩
  | release => exact Or.inl ⟨.release, Or.inr rfl⟩
  | apply res => exact Or.inl ⟨.apply res, Or.inr rfl⟩
  | flush res => exact Or.inl ⟨.flush res, Or.inr rfl⟩
  | rollback => exact Or.inl ⟨.rollback, Or.inr rfl⟩

end Calls

section Attribution

/-- The local records of a node that starts a tick are records that `G` has for their keys. -/
def Lists (p : N → Provider P) (G : GoString → Set Record) (s : Nodes N P) : Event N P → Prop
  | .act (.begin n _ _) => Within G (s.locals p n)
  | _ => True

instance decidableLists (p : N → Provider P) (G : GoString → Set Record)
    [∀ key r, Decidable (r ∈ G key)] (s : Nodes N P) (e : Event N P) : Decidable (Lists p G s e) :=
  match e with
  | .act (.begin n _ _) => inferInstanceAs (Decidable (Within G (s.locals p n)))
  | .act (.call _ _) => inferInstanceAs (Decidable True)
  | .act (.change _ _) => inferInstanceAs (Decidable True)
  | .act (.deliver _) => inferInstanceAs (Decidable True)
  | .act (.lose _) => inferInstanceAs (Decidable True)
  | .act (.duplicate _) => inferInstanceAs (Decidable True)
  | .restart _ _ => inferInstanceAs (Decidable True)

/-- Every record in the system is one that `G` has for its key. -/
structure Attributed (kind : GoString) (G : GoString → Set Record) (s : Nodes N P) : Prop where
  own : ∀ n, OwnRecord (s.pc n)
  kinds : ∀ n m, localsAt (s.pc n) = some m → OfKind kind m
  carries : ∀ n, Carries G (s.pc n)
  stored : ∀ q key r, s.net.stored q kind key = some r → r ∈ G key
  flight : ∀ m ∈ s.net.flight, m.2.kind = kind ∧ m.2 ∈ G m.2.key
  applied : ∀ n, ∀ a ∈ s.applied n, a.2 ∈ G a.1

variable {kind : GoString} {G : GoString → Set Record} {s t : Nodes N P}

theorem Attributed.put (h : Attributed kind G s) {n : N} {l : Record} (peers : List N)
    (hput : Engine.putAt (s.pc n) = some l) :
    (∀ q key r, (s.net.put peers n l).stored q kind key = some r → r ∈ G key) ∧
      ∀ m ∈ (s.net.put peers n l).flight, m.2.kind = kind ∧ m.2 ∈ G m.2.key := by
  have hl : l ∈ G l.key := (h.carries n).put (h.own n) (h.kinds n) hput
  have hkind : l.kind = kind := by
    cases hpc : s.pc n with
    | put f k l' c locked =>
        obtain rfl : l' = l := by simpa [hpc, Engine.putAt] using hput
        have hown : OwnRecord (.put f k l' c locked) := hpc ▸ h.own n
        exact (h.kinds n f.localByKey (by rw [hpc]; rfl) k l' hown).2
    | _ => simp [hpc, Engine.putAt] at hput
  refine ⟨fun q key r hr => ?_, fun m hm => ?_⟩
  · rw [stored_put s.net hkind] at hr
    split_ifs at hr with hcond
    · obtain rfl := Option.some.inj hr
      exact hcond.2 ▸ hl
    · exact h.stored q key r hr
  · simp only [Net.put, List.mem_append, List.mem_map] at hm
    rcases hm with hm | ⟨q, -, rfl⟩
    · exact h.flight m hm
    · exact ⟨hkind, hl⟩

/-- One node goes to another control point. -/
theorem Attributed.move (h : Attributed kind G s) {n : N} {pc : Pc} (hown : OwnRecord pc)
    (hkinds : ∀ m, localsAt pc = some m → OfKind kind m) (hcarries : Carries G pc)
    {applied : N → List (GoString × Record)} (happlied : ∀ n, ∀ a ∈ applied n, a.2 ∈ G a.1)
    (asking : N → Option (List N)) (world : N → P) (history : N → List LocalMap)
    (ticked : N → Bool) :
    Attributed kind G ⟨s.net, Function.update s.pc n pc, asking, world, applied, history,
      ticked⟩ where
  own := (Function.forall_update_iff s.pc (p := fun _ pc => OwnRecord pc)).mpr
    ⟨hown, fun m _ => h.own m⟩
  kinds := (Function.forall_update_iff s.pc
    (p := fun _ pc => ∀ m, localsAt pc = some m → OfKind kind m)).mpr
    ⟨hkinds, fun m _ => h.kinds m⟩
  carries := (Function.forall_update_iff s.pc (p := fun _ pc => Carries G pc)).mpr
    ⟨hcarries, fun m _ => h.carries m⟩
  stored := h.stored
  flight := h.flight
  applied := happlied

omit [DecidableEq N] in
theorem Attributed.of_net (h : Attributed kind G s) {net : Net N}
    (hstored : ∀ q key r, net.stored q kind key = some r → r ∈ G key)
    (hflight : ∀ m ∈ net.flight, m.2.kind = kind ∧ m.2 ∈ G m.2.key) :
    Attributed kind G { s with net := net } :=
  ⟨h.own, h.kinds, h.carries, hstored, hflight, h.applied⟩

theorem Attributed.call (h : Attributed kind G s) {n : N} {peers : List N} {net : Net N} {pc : Pc}
    {asking : Option (List N)}
    (heffect : CallEffect peers kind n s.net (s.pc n) (s.asking n) net pc asking)
    (asking' : N → Option (List N)) (world : N → P) (history : N → List LocalMap)
    (ticked : N → Bool) :
    Attributed kind G ⟨net, Function.update s.pc n pc, asking', world,
      Function.update s.applied n (s.applied n ++ appliedAt (s.pc n)), history, ticked⟩ := by
  have hcarries : Carries G pc := by
    rcases heffect.moves with ⟨hmoves, -⟩ | ⟨rfl, -⟩
    · refine hmoves.carries (h.carries n) fun key r hfound => ?_
      rcases hfound with hnone | ⟨q, hq⟩
      · cases hnone
      · exact h.stored q key r hq
    · exact h.carries n
  obtain ⟨hown, hlocals⟩ := heffect.keepsLocals (h.own n)
  have hnet : Attributed kind G { s with net := net } := by
    rcases heffect.net_eq with rfl | ⟨f, key, l, c, locked, hpc, -, rfl⟩
    · exact h
    · obtain ⟨hstored, hflight⟩ := h.put peers (n := n) (by rw [hpc]; rfl)
      exact h.of_net hstored hflight
  refine hnet.move hown (fun m hm => h.kinds n m (hlocals m hm)) hcarries ?_ _ _ _ _
  refine (Function.forall_update_iff s.applied (p := fun _ log => ∀ a ∈ log, a.2 ∈ G a.1)).mpr
    ⟨fun a ha => ?_, fun m _ => h.applied m⟩
  rcases List.mem_append.mp ha with ha | ha
  · exact h.applied n a ha
  · exact (h.carries n).applied ha

/-- A pushed record that is attributed stays so where it arrives. -/
theorem Attributed.receive (h : Attributed kind G s) {m : N × Record} (hm : m ∈ s.net.flight) :
    ∀ q key r, (s.net.receive m).stored q kind key = some r → r ∈ G key := by
  obtain ⟨hkind, hmem⟩ := h.flight m hm
  intro q key r hr
  rw [stored_receive s.net hkind] at hr
  split_ifs at hr with hcond
  · rw [pickNewer_eq_newest] at hr
    rcases NewestWins.newest_eq_or Record.version (some m.2) (s.net.stored m.1 kind key) with
      hnew | hold
    · obtain rfl := Option.some.inj (hnew.symm.trans hr)
      exact hcond.2 ▸ hmem
    · exact h.stored m.1 key r (hold.symm.trans hr)
  · exact h.stored q key r hr

theorem Attributed.restart (h : Attributed kind G s) (n : N) (w : P) :
    Attributed kind G (s.restart n w) := by
  have hempty : ∀ q key r,
      Net.stored { s.net with stores := Function.update s.net.stores n ∅ } q kind key = some r →
        r ∈ G key := by
    intro q key r hr
    by_cases hq : q = n
    · simp [Net.stored, handleGetRecord, hq] at hr
    · exact h.stored q key r (by simpa [Net.stored, hq] using hr)
  exact (h.of_net hempty h.flight).move (show OwnRecord .idle from trivial)
    (fun m hm => by simp [localsAt] at hm) trivial h.applied _ _ _ _

/-- Every step keeps the records attributed. -/
theorem attributed_next {peers : N → List N} {p : N → Provider P} (hkind : ∀ n, (p n).kind = kind)
    {e : Event N P} (hs : Attributed kind G s) (he : Lists p G s e)
    (hstep : Nodes.next peers p s e = some t) : Attributed kind G t := by
  cases e with
  | restart n w =>
      obtain rfl := Option.some.inj hstep
      exact hs.restart n w
  | act a =>
      cases a with
      | begin n ord known =>
          cases hpc : s.pc n with
          | idle =>
              simp only [Nodes.next, Nodes.step, hpc, Option.some.injEq] at hstep
              subst hstep
              have hlocals := Frame.keepsLocals_next
                ⟨s.locals p n, unionKeys ord (s.locals p n) (.ok known), []⟩
              refine hs.move hlocals.2 (fun m hm => ?_) (carries_startTick he _) hs.applied _ _ _ _
              rw [hlocals.1 m hm, ← hkind n]
              exact (p n).ofKind_locals (s.world n)
          | _ => simp [Nodes.next, Nodes.step, hpc] at hstep
      | call n answers =>
          simp only [Nodes.next, Nodes.step, Option.map_eq_some_iff] at hstep
          obtain ⟨v, hv, rfl⟩ := hstep
          have heffect := callEffect_of_step hv
          rw [hkind n] at heffect
          exact hs.call heffect _ _ _ _
      | change n w =>
          obtain rfl := Option.some.inj hstep
          exact ⟨hs.own, hs.kinds, hs.carries, hs.stored, hs.flight, hs.applied⟩
      | deliver m =>
          simp only [Nodes.next, Nodes.step] at hstep
          split_ifs at hstep with hm
          obtain rfl := Option.some.inj hstep
          exact hs.of_net (hs.receive hm) fun m' hm' => hs.flight m' (List.mem_of_mem_erase hm')
      | lose m =>
          simp only [Nodes.next, Nodes.step] at hstep
          split_ifs at hstep with hm
          obtain rfl := Option.some.inj hstep
          exact hs.of_net hs.stored fun m' hm' => hs.flight m' (List.mem_of_mem_erase hm')
      | duplicate m =>
          simp only [Nodes.next, Nodes.step] at hstep
          split_ifs at hstep with hm
          obtain rfl := Option.some.inj hstep
          refine hs.of_net hs.stored fun m' hm' => ?_
          rcases List.mem_cons.mp hm' with rfl | hm'
          · exact hs.flight m' hm
          · exact hs.flight m' hm'

omit [DecidableEq N] in
theorem Initial.attributed (h : Initial s) : Attributed kind G s where
  own n := by rw [h.idle n]; trivial
  kinds n m hm := by simp [h.idle n, localsAt] at hm
  carries n := by rw [h.idle n]; trivial
  stored q key r hr := by simp [Net.stored, handleGetRecord, h.stores q] at hr
  flight m hm := by simp [h.flight] at hm
  applied n a ha := by simp [h.applied n] at ha

end Attribution

/-- Nothing is made up on the network. Let `G` have, for each key, the local records that any
node has for it when it starts a tick. Whatever is lost, delayed, duplicated or restarted, and
whichever peers answer: every record that a node stores, sends or applies for a key is one that
`G` has for that key. -/
theorem pushes_attributed {peers : N → List N} {p : N → Provider P} {kind : GoString}
    (hkind : ∀ n, (p n).kind = kind) {G : GoString → Set Record} {s₀ t : Nodes N P}
    (h₀ : Initial s₀) (hrun : Runs.Run (Nodes.next peers p) (Lists p G) s₀ t) :
    (∀ q key r, t.net.stored q kind key = some r → r ∈ G key) ∧
      (∀ m ∈ t.net.flight, m.2 ∈ G m.2.key) ∧ ∀ n, ∀ a ∈ t.applied n, a.2 ∈ G a.1 := by
  have ht : Attributed kind G t :=
    hrun.invariant (fun s e t hs he hstep => attributed_next hkind hs he hstep) h₀.attributed
  exact ⟨ht.stored, fun m hm => (ht.flight m hm).2, ht.applied⟩

/-- The newer record is pushed to the peer; its node restarts with an older file and gets the
newer record back from the peer. -/
theorem pushes_attributed_restart :
    ∃ t, Runs.Run (Nodes.next (fun n => [!n]) fun _ => fakeProvider (ascii "k"))
        (Lists (fun _ => fakeProvider (ascii "k")) twoSources) rivalNodes t ∧
      t.net.stored true (ascii "k") (ascii "a") = none ∧
      t.applied true = [(ascii "a", sampleRecord 200), (ascii "a", sampleRecord 200)] ∧
      ∀ n, ∀ a ∈ t.applied n, a.2 ∈ twoSources a.1 := by
  have hrun : Runs.Run (Nodes.next (fun n => [!n]) fun _ => fakeProvider (ascii "k"))
      (Lists (fun _ => fakeProvider (ascii "k")) twoSources) rivalNodes _ :=
    Runs.Run.of_replay (.act (.begin true .insertion []) ::
      List.replicate 10 (.act (.call true true)) ++
      [.act (.deliver (false, sampleRecord 200)), .restart true [sampleRecord 100],
        .act (.begin true .insertion [])] ++ List.replicate 3 (.act (.call true true))) rfl
  exact ⟨_, hrun, rfl, rfl, (pushes_attributed (fun _ => rfl) rivalNodes_initial hrun).2.2⟩

section Progress

/-- The steps a read can still take before it has asked the given number of peers. -/
def waiting (count : ℕ) : Option (List N) → ℕ
  | none => count + 1
  | some asked => asked.length

/-- The most steps a node can still take in its tick: each call may ask every peer. -/
def stepsLeft (count : ℕ) (pc : Pc) (asking : Option (List N)) : ℕ :=
  (count + 2) * callsLeft pc + waiting count asking

variable {peers : List N} {kind : GoString} {n : N} {net net' : Net N} {pc pc' : Pc}
  {asking asking' : Option (List N)}

/-- A step of a node takes one off what its tick can still do. -/
theorem CallEffect.stepsLeft_lt (h : CallEffect peers kind n net pc asking net' pc' asking')
    (hasked : waiting peers.length asking ≤ peers.length + 1) :
    stepsLeft peers.length pc' asking' < stepsLeft peers.length pc asking ∧
      waiting peers.length asking' ≤ peers.length + 1 := by
  unfold stepsLeft
  rcases h.moves with ⟨hmoves, hnext⟩ | ⟨rfl, ⟨rfl, rfl⟩ | ⟨q, rest, rfl, rfl⟩⟩
  · have hlt := hmoves.callsLeft_lt
    have hmul : (peers.length + 2) * (callsLeft pc' + 1) ≤ (peers.length + 2) * callsLeft pc :=
      Nat.mul_le_mul_left _ hlt
    have hasked' : waiting peers.length asking' ≤ peers.length + 1 := by
      rcases hnext with rfl | rfl
      · exact le_rfl
      · exact hasked
    rw [Nat.mul_add, Nat.mul_one] at hmul
    exact ⟨by omega, hasked'⟩
  · simp only [waiting]
    omega
  · simp only [waiting, List.length_cons] at hasked ⊢
    omega

/-- A step of the node. -/
def Event.isCall (n : N) : Event N P → Bool
  | .act (.call m _) => m = n
  | _ => false

/-- The node starts a tick or is started again. -/
def Event.starts (n : N) : Event N P → Bool
  | .act (.begin m _ _) => m = n
  | .restart m _ => m = n
  | _ => false

/-- No node is asking more peers than it has. -/
def AsksPeers (peers : N → List N) (s : Nodes N P) : Prop :=
  ∀ n, waiting (peers n).length (s.asking n) ≤ (peers n).length + 1

section Steps

variable {peers : N → List N} {p : N → Provider P} {s t : Nodes N P} {n : N}

/-- What an event is to a node that is in a tick: its own next step, or nothing. -/
theorem next_cases {e : Event N P} (h : Nodes.next peers p s e = some t) (n : N) :
    e.starts n = true ∧ (t.asking n = s.asking n ∨ t.asking n = none) ∨
      e.isCall n = false ∧ t.pc n = s.pc n ∧ t.asking n = s.asking n ∨
      ∃ net, CallEffect (peers n) (p n).kind n s.net (s.pc n) (s.asking n) net (t.pc n)
        (t.asking n) := by
  cases e with
  | restart m w =>
      obtain rfl := Option.some.inj h
      by_cases hm : n = m
      · subst hm
        exact Or.inl ⟨by simp [Event.starts], Or.inr (by simp [Nodes.restart])⟩
      · exact Or.inr (Or.inl ⟨rfl, by simp [Nodes.restart, hm], by simp [Nodes.restart, hm]⟩)
  | act a =>
      cases a with
      | begin m ord known =>
          cases hpc : s.pc m with
          | idle =>
              simp only [Nodes.next, Nodes.step, hpc, Option.some.injEq] at h
              subst h
              by_cases hm : n = m
              · exact Or.inl ⟨by simp [Event.starts, hm], Or.inl rfl⟩
              · exact Or.inr (Or.inl ⟨rfl, by simp [hm], rfl⟩)
          | _ => simp [Nodes.next, Nodes.step, hpc] at h
      | call m answers =>
          simp only [Nodes.next, Nodes.step, Option.map_eq_some_iff] at h
          obtain ⟨v, hv, rfl⟩ := h
          by_cases hm : n = m
          · subst hm
            exact Or.inr (Or.inr ⟨v.net, by simpa using callEffect_of_step hv⟩)
          · exact Or.inr (Or.inl
              ⟨by simp [Event.isCall, Ne.symm hm], by simp [hm], by simp [hm]⟩)
      | change m w =>
          obtain rfl := Option.some.inj h
          exact Or.inr (Or.inl ⟨rfl, rfl, rfl⟩)
      | _ =>
          simp only [Nodes.next, Nodes.step] at h
          split_ifs at h
          obtain rfl := Option.some.inj h
          exact Or.inr (Or.inl ⟨rfl, rfl, rfl⟩)

theorem AsksPeers.next (hs : AsksPeers peers s) {e : Event N P}
    (h : Nodes.next peers p s e = some t) : AsksPeers peers t := by
  intro n
  rcases next_cases h n with ⟨-, hsame | hnone⟩ | ⟨-, -, hsame⟩ | ⟨net, heffect⟩
  · rw [hsame]
    exact hs n
  · rw [hnone]
    exact le_rfl
  · rw [hsame]
    exact hs n
  · exact (heffect.stepsLeft_lt (hs n)).2

theorem countP_steps_le {es : List (Event N P)} (hes : ∀ e ∈ es, e.starts n = false)
    (hs : AsksPeers peers s) (h : es.foldlM (Nodes.next peers p) s = some t) :
    es.countP (Event.isCall n) + stepsLeft (peers n).length (t.pc n) (t.asking n) ≤
      stepsLeft (peers n).length (s.pc n) (s.asking n) := by
  induction es generalizing s with
  | nil =>
      obtain rfl : s = t := Option.some.inj h
      simp
  | cons e es ih =>
      rw [List.foldlM_cons] at h
      obtain ⟨u, hu, hrest⟩ := Option.bind_eq_some_iff.mp h
      have htail := ih (fun e he => hes e (List.mem_cons_of_mem _ he)) (hs.next hu) hrest
      rw [List.countP_cons]
      rcases next_cases hu n with ⟨hstarts, -⟩ | ⟨hcall, hpc, hasking⟩ | ⟨net, heffect⟩
      · simp [hes e List.mem_cons_self] at hstarts
      · rw [hpc, hasking] at htail
        simp only [hcall, Bool.false_eq_true, if_false]
        omega
      · have hlt := (heffect.stepsLeft_lt (hs n)).1
        split_ifs <;> omega

/-- A tick on the network ends. Whatever the others do, and whatever is lost, duplicated or
restarted, the calls that a node takes until it is idle again are bounded by its peers and its
keys: with room for six calls for each key and two for the hook, each to all peers. It is never
stuck on the way. -/
theorem network_tick_bounded {s₀ s' : Nodes N P} (h₀ : Initial s₀)
    (hrun : Runs.Run (Nodes.next peers p) (fun _ _ => True) s₀ s) {ord : MapOrder}
    {known : List GoString} (hbegin : Nodes.next peers p s (.act (.begin n ord known)) = some s')
    {es : List (Event N P)} (hes : ∀ e ∈ es, e.starts n = false)
    (h : es.foldlM (Nodes.next peers p) s' = some t) :
    es.countP (Event.isCall n) ≤
        ((peers n).length + 2) *
          (6 * (unionKeys ord (s.locals p n) (.ok known)).length + 2) + (peers n).length + 1 ∧
      (t.pc n ≠ .idle →
        ∀ answers, ∃ u, Nodes.next peers p t (.act (.call n answers)) = some u) := by
  have hs : AsksPeers peers s := hrun.invariant (fun _ _ _ hs _ hstep => hs.next hstep) fun n => by
    rw [h₀.asking n]
    exact le_rfl
  have hs' := hs.next hbegin
  constructor
  · have hcount := countP_steps_le hes hs' h
    have hwaiting := hs' n
    have hcalls : callsLeft (s'.pc n) ≤
        6 * (unionKeys ord (s.locals p n) (.ok known)).length + 2 := by
      cases hpc : s.pc n with
      | idle =>
          simp only [Nodes.next, Nodes.step, hpc, Option.some.injEq] at hbegin
          subst hbegin
          simp only [Function.update_self]
          exact callsLeft_startTick _ _
      | _ => simp [Nodes.next, Nodes.step, hpc] at hbegin
    have hmul := Nat.mul_le_mul_left ((peers n).length + 2) hcalls
    simp only [stepsLeft] at hcount
    omega
  · intro hidle answers
    have hsome :
        (View.step peers (p n) n ⟨t.net, t.pc n, t.asking n, t.world n⟩ answers).isSome := by
      unfold View.step
      cases hpc : t.pc n with
      | idle => exact absurd hpc hidle
      | _ => rfl
    obtain ⟨v, hv⟩ := Option.isSome_iff_exists.mp hsome
    simp only [Nodes.next, Nodes.step, hv, Option.map_some]
    exact ⟨_, rfl⟩

/-- A node with one peer and one key that publishes takes ten steps. -/
theorem network_tick_bounded_publish :
    ∃ s t, Nodes.next (fun n => [!n]) (fun _ => fakeProvider (ascii "k")) rivalNodes
        (.act (.begin true .insertion [])) = some s ∧
      (List.replicate 10 (.act (.call true true))).foldlM
        (Nodes.next (fun n => [!n]) fun _ => fakeProvider (ascii "k")) s = some t ∧
      t.pc true = .idle ∧
      (List.replicate 10 (.act (.call true true))).countP
        (Event.isCall (P := List Record) true) ≤ (1 + 2) * (6 * 1 + 2) + 1 + 1 :=
  ⟨_, _, rfl, rfl, rfl, (network_tick_bounded rivalNodes_initial (.refl _) (n := true)
    (show Nodes.next (fun n => [!n]) (fun _ => fakeProvider (ascii "k")) rivalNodes
      (.act (.begin true .insertion [])) = some _ from rfl) (by decide) rfl).1⟩

end Steps

end Progress

end Lbsync.Wan
