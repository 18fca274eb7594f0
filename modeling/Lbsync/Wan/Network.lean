import Lbsync.Engine.Machine
import Lbsync.Wan.Backend

/-!
# Nodes on a network

Any number of nodes run their ticks on their own stores and push records to each
other. A `Get` that misses asks one peer at a time, and each peer may or may not
answer. A record on its way may be delivered at any time, lost or duplicated.

The keys a tick learns from `Keys` are part of the action that starts the tick.
What `Keys` collects depends on which peers answer and when; every list is
admitted, so every reply is covered.
-/

namespace Lbsync.Wan

open Engine

variable {N P : Type*} [DecidableEq N]

/-- The key a node is reading. -/
def readKey : Pc → Option GoString
  | .get _ key => some key
  | .recheck _ key _ _ _ => some key
  | _ => none

/-- A node reads a key at the start of its turn, and again under the lock. -/
inductive Reading (key : GoString) : Pc → Prop
  | get (f : Frame) : Reading key (.get f key)
  | recheck (f : Frame) (l : Record) (c : Option Record) (locked : Bool) :
      Reading key (.recheck f key l c locked)

theorem reading_of_readKey {pc : Pc} {key : GoString} (h : readKey pc = some key) :
    Reading key pc := by
  cases pc with
  | get f k =>
      obtain rfl := Option.some.inj h
      exact .get f
  | recheck f k l c locked =>
      obtain rfl := Option.some.inj h
      exact .recheck f l c locked
  | _ => cases h

/-- Continue with the reply of a read. -/
def answer (c : Option Record) : Pc → Pc
  | .get f key => f.afterGet key c
  | .recheck f key l c₀ locked => f.afterRecheck key l c₀ locked c
  | pc => pc

/-- What the steps of one node read and write: the network, its control point, the
peers still to ask when a read has missed the own store, and its provider. -/
structure View (N P : Type*) where
  net : Net N
  pc : Pc
  asking : Option (List N)
  provider : P

omit [DecidableEq N] in
/-- One step of `Get`: look in the own store, or ask the next peer, which answers
or not. -/
def View.read (peers : List N) (n : N) (kind key : GoString) (answers : Bool) (v : View N P) :
    View N P :=
  match v.asking with
  | none =>
      match v.net.stored n kind key with
      | some r => { v with pc := answer (some r) v.pc }
      | none => { v with asking := some peers }
  | some [] => { v with pc := answer none v.pc, asking := none }
  | some (q :: rest) =>
      match if answers then v.net.stored q kind key else none with
      | some r => { v with pc := answer (some r) v.pc, asking := none }
      | none => { v with asking := some rest }

/-- One step of node `n`. Only reads depend on whether a peer answers. -/
def View.step (peers : N → List N) (p : Provider P) (n : N) (v : View N P) (answers : Bool) :
    Option (View N P) :=
  match readKey v.pc with
  | some key => some (v.read (peers n) n p.kind key answers)
  | none =>
      (Solo.step (backend peers (fun _ => answers) .insertion n) p
        ⟨v.pc, v.net, v.provider⟩).map fun r => ⟨r.cluster, r.pc, v.asking, r.provider⟩

/-- The state of all nodes. `applied`, `history` and `ticked` record the calls to
`Apply`, the local records of every tick begun, and whether a tick has ended. -/
structure Nodes (N P : Type*) where
  net : Net N
  pc : N → Pc
  asking : N → Option (List N)
  world : N → P
  applied : N → List (GoString × Record)
  history : N → List LocalMap
  ticked : N → Bool

/-- What can happen next. -/
inductive Action (N P : Type*) where
  | begin (n : N) (ord : MapOrder) (known : List GoString)
  | call (n : N) (answers : Bool)
  | change (n : N) (w : P)
  | deliver (m : N × Record)
  | lose (m : N × Record)
  | duplicate (m : N × Record)

/-- What `Local` lists now. -/
def Nodes.locals (p : N → Provider P) (s : Nodes N P) (n : N) : LocalMap :=
  localMap ((p n).locals (s.world n)).1

/-- One step of the system. -/
def Nodes.step (peers : N → List N) (p : N → Provider P) (s : Nodes N P) :
    Action N P → Option (Nodes N P)
  | .begin n ord known =>
      match s.pc n with
      | .idle =>
          let localByKey := s.locals p n
          let pc := startTick localByKey (unionKeys ord localByKey (.ok known))
          some { s with
            pc := Function.update s.pc n pc
            world := Function.update s.world n ((p n).locals (s.world n)).2
            history := Function.update s.history n (localByKey :: s.history n)
            ticked := Function.update s.ticked n (s.ticked n || isIdle pc) }
      | _ => none
  | .call n answers =>
      (View.step peers (p n) n ⟨s.net, s.pc n, s.asking n, s.world n⟩ answers).map fun v =>
        { s with
          net := v.net
          pc := Function.update s.pc n v.pc
          asking := Function.update s.asking n v.asking
          world := Function.update s.world n v.provider
          applied := Function.update s.applied n (s.applied n ++ appliedAt (s.pc n))
          ticked := Function.update s.ticked n (s.ticked n || isIdle v.pc) }
  | .change n w => some { s with world := Function.update s.world n w }
  | .deliver m =>
      if m ∈ s.net.flight then some { s with net := s.net.deliver m } else none
  | .lose m =>
      if m ∈ s.net.flight then
        some { s with net := { s.net with flight := s.net.flight.erase m } }
      else none
  | .duplicate m =>
      if m ∈ s.net.flight then
        some { s with net := { s.net with flight := m :: s.net.flight } }
      else none

/-- Empty stores, nothing on its way, every node idle and without a past. -/
structure Initial (s : Nodes N P) : Prop where
  stores : ∀ n, s.net.stores n = ∅
  flight : s.net.flight = []
  idle : ∀ n, s.pc n = .idle
  asking : ∀ n, s.asking n = none
  applied : ∀ n, s.applied n = []
  history : ∀ n, s.history n = []
  ticked : ∀ n, s.ticked n = false

/-- What one step of a node does to the network, the control point and the peers
still to ask. -/
inductive CallEffect (peers : List N) (kind : GoString) (n : N) (net : Net N) :
    Pc → Option (List N) → Net N → Pc → Option (List N) → Prop where
  | hit {pc key r} (hread : readKey pc = some key) (hfound : net.stored n kind key = some r) :
      CallEffect peers kind n net pc none net (answer (some r) pc) none
  | miss {pc key} (hread : readKey pc = some key) (habsent : net.stored n kind key = none) :
      CallEffect peers kind n net pc none net pc (some peers)
  | reply {pc key q rest r} (hread : readKey pc = some key)
      (hfound : net.stored q kind key = some r) :
      CallEffect peers kind n net pc (some (q :: rest)) net (answer (some r) pc) none
  | skip {pc key q rest} (hread : readKey pc = some key) :
      CallEffect peers kind n net pc (some (q :: rest)) net pc (some rest)
  | absent {pc key} (hread : readKey pc = some key) :
      CallEffect peers kind n net pc (some []) net (answer none pc) none
  | lock {f key l c asking} :
      CallEffect peers kind n net (.lock f key l c) asking net (.recheck f key l c true) asking
  | put {f key l c locked asking} :
      CallEffect peers kind n net (.put f key l c locked) asking (net.put peers n l)
        (f.afterPut key l c locked) asking
  | release {f key l c asking} :
      CallEffect peers kind n net (.release f key l c) asking net (f.decided key c) asking
  | apply {f key best asking} (res : Except Err Bool) :
      CallEffect peers kind n net (.apply f key best) asking net (f.afterApply key res) asking
  | flush {f asking} (res : Except Err Unit) :
      CallEffect peers kind n net (.flush f) asking net (f.afterFlush res) asking
  | rollback {f asking} : CallEffect peers kind n net (.rollback f) asking net .idle asking

/-- Every step of a node has one of the listed effects. -/
theorem callEffect_of_step {peers : N → List N} {p : Provider P} {n : N} {v w : View N P}
    {answers : Bool} (h : View.step peers p n v answers = some w) :
    CallEffect (peers n) p.kind n v.net v.pc v.asking w.net w.pc w.asking := by
  obtain ⟨net, pc, asking, provider⟩ := v
  unfold View.step at h
  cases hread : readKey pc with
  | some key =>
      simp only [hread, Option.some.injEq] at h
      subst h
      unfold View.read
      cases asking with
      | none =>
          cases hfound : net.stored n p.kind key with
          | some r => simpa only [hfound] using CallEffect.hit hread hfound
          | none => simpa only [hfound] using CallEffect.miss hread hfound
      | some asked =>
          cases asked with
          | nil => exact CallEffect.absent hread
          | cons q rest =>
              cases hreply : (if answers then net.stored q p.kind key else none) with
              | none => simpa only [hreply] using CallEffect.skip hread
              | some r =>
                  have hfound : net.stored q p.kind key = some r := by
                    split_ifs at hreply
                    · exact hreply
                  simpa only [hreply] using CallEffect.reply hread hfound
  | none =>
      simp only [hread, Option.map_eq_some_iff] at h
      obtain ⟨r, hr, rfl⟩ := h
      cases pc with
      | idle => simp [Solo.step] at hr
      | get f key => simp [readKey] at hread
      | recheck f key l c locked => simp [readKey] at hread
      | lock f key l c =>
          simp only [Solo.step, Option.some.injEq] at hr
          subst hr
          exact CallEffect.lock
      | put f key l c locked =>
          simp only [Solo.step, Option.some.injEq] at hr
          subst hr
          exact CallEffect.put
      | release f key l c =>
          simp only [Solo.step, Option.some.injEq] at hr
          subst hr
          exact CallEffect.release
      | apply f key best =>
          simp only [Solo.step, Option.some.injEq] at hr
          subst hr
          exact CallEffect.apply _
      | flush f =>
          simp only [Solo.step, Option.some.injEq] at hr
          subst hr
          exact CallEffect.flush _
      | rollback f =>
          simp only [Solo.step, Option.some.injEq] at hr
          subst hr
          exact CallEffect.rollback

section Alone

variable {peers : N → List N} {p : Provider P} {n : N} {answers : N → Bool}

/-- Node `n` runs while nobody else acts, and exactly the given peers answer. -/
def View.Reaches (peers : N → List N) (p : Provider P) (n : N) (answers : N → Bool) :
    View N P → View N P → Prop :=
  Runs.Run (View.step peers p n) fun v b => ∀ q rest, v.asking = some (q :: rest) → b = answers q

theorem View.Reaches.of_step {v w : View N P} {b : Bool}
    (hb : ∀ q rest, v.asking = some (q :: rest) → b = answers q)
    (h : View.step peers p n v b = some w) : View.Reaches peers p n answers v w :=
  (Runs.Run.refl v).tail (a := b) hb h

/-- Asking the peers one by one returns the first answer. -/
theorem reaches_asked {pc : Pc} {key : GoString} (hread : readKey pc = some key) (net : Net N)
    (w : P) (asked : List N) :
    View.Reaches peers p n answers ⟨net, pc, some asked, w⟩
      ⟨net, answer ((asked.filter answers).findSome? fun q => net.stored q p.kind key) pc,
        none, w⟩ := by
  induction asked with
  | nil =>
      refine View.Reaches.of_step (b := true) (fun q rest h => ?_) ?_
      · simp at h
      · simp [View.step, hread, View.read]
  | cons q rest ih =>
      have hb : ∀ q' rest', (some (q :: rest) : Option (List N)) = some (q' :: rest') →
          answers q = answers q' := by
        intro q' rest' h
        simp only [Option.some.injEq, List.cons.injEq] at h
        rw [h.1]
      cases hreply : (if answers q then net.stored q p.kind key else none) with
      | none =>
          have hstep : View.step peers p n ⟨net, pc, some (q :: rest), w⟩ (answers q) =
              some ⟨net, pc, some rest, w⟩ := by
            simp only [View.step, hread, View.read, hreply]
          have hskip : ((q :: rest).filter answers).findSome? (fun q => net.stored q p.kind key) =
              (rest.filter answers).findSome? fun q => net.stored q p.kind key := by
            cases ha : answers q with
            | false => simp [ha]
            | true =>
                have hnone : net.stored q p.kind key = none := by simpa [ha] using hreply
                simp [ha, hnone]
          rw [hskip]
          exact Runs.Run.trans (View.Reaches.of_step hb hstep) ih
      | some r =>
          have hstep : View.step peers p n ⟨net, pc, some (q :: rest), w⟩ (answers q) =
              some ⟨net, answer (some r) pc, none, w⟩ := by
            simp only [View.step, hread, View.read, hreply]
          have hfirst : ((q :: rest).filter answers).findSome?
              (fun q => net.stored q p.kind key) = some r := by
            cases ha : answers q with
            | false => simp [ha] at hreply
            | true =>
                have hsome : net.stored q p.kind key = some r := by simpa [ha] using hreply
                simp [ha, hsome]
          rw [hfirst]
          exact View.Reaches.of_step hb hstep

/-- Step by step, a read returns what `Get` of the backend returns. -/
theorem reaches_read {pc : Pc} {key : GoString} (hread : readKey pc = some key) (net : Net N)
    (w : P) :
    View.Reaches peers p n answers ⟨net, pc, none, w⟩
      ⟨net, answer (net.lookup (peers n) answers n p.kind key) pc, none, w⟩ := by
  unfold Net.lookup
  cases hfound : net.stored n p.kind key with
  | some r =>
      refine View.Reaches.of_step (b := true) (fun q rest h => ?_) ?_
      · simp at h
      · simp [View.step, hread, View.read, hfound]
  | none =>
      have hmiss : View.Reaches peers p n answers ⟨net, pc, none, w⟩
          ⟨net, pc, some (peers n), w⟩ := by
        refine View.Reaches.of_step (b := true) (fun q rest h => ?_) ?_
        · simp at h
        · simp [View.step, hread, View.read, hfound]
      exact hmiss.trans (reaches_asked hread net w (peers n))

theorem reaches_of_solo_step {ord : MapOrder} {s t : Solo (Net N) P}
    (h : Solo.step (backend peers answers ord n) p s = some t) :
    View.Reaches peers p n answers ⟨s.cluster, s.pc, none, s.provider⟩
      ⟨t.cluster, t.pc, none, t.provider⟩ := by
  obtain ⟨pc, net, w⟩ := s
  cases pc with
  | get f key =>
      simp only [Solo.step, Option.some.injEq] at h
      subst h
      exact reaches_read rfl net w
  | recheck f key l c locked =>
      simp only [Solo.step, Option.some.injEq] at h
      subst h
      exact reaches_read rfl net w
  | idle => simp [Solo.step] at h
  | _ =>
      refine View.Reaches.of_step (b := true) (fun q rest hq => ?_) ?_
      · simp at hq
      · simp only [Solo.step, Option.some.injEq] at h
        subst h
        rfl

/-- Alone on the network, a node takes a tick to the end of `tickProvider`. -/
theorem view_reaches_tickProvider (ord known : MapOrder) (net : Net N) (w : P) :
    View.Reaches peers p n answers
      ⟨net, startTick (localMap (p.locals w).1) (unionKeys ord (localMap (p.locals w).1)
        (.ok (known.visit (net.keys (peers n) answers n p.kind)))), none, (p.locals w).2⟩
      ⟨(tickProvider (backend peers answers known n) p ord net w).1, .idle, none,
        (tickProvider (backend peers answers known n) p ord net w).2⟩ := by
  have hlift : ∀ s t, Solo.Reaches (backend peers answers known n) p s t →
      View.Reaches peers p n answers ⟨s.cluster, s.pc, none, s.provider⟩
        ⟨t.cluster, t.pc, none, t.provider⟩ := by
    intro s t h
    induction h with
    | refl => exact Runs.Run.refl _
    | tail _ hnext ih =>
        obtain ⟨_, _, hstep⟩ := hnext
        exact ih.trans (reaches_of_solo_step hstep)
  exact hlift _ _ (reaches_tickProvider ord net w)

end Alone

end Lbsync.Wan
