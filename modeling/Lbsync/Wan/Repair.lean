import Lbsync.Wan.Agreement
import Lbsync.Wan.SingleOrigin

/-!
# What a tick repairs

A tick sends a record only when `Put` is called for it, and `Put` is called only when both
reads of the key, `Get` and the re-check, find nothing or something older. `Put` stores the
record before it sends it, so after a lost push the sender's own store answers every later
read and nothing is sent again.

A tick of one node is watched among everything else that happens: what it has sent and what
of that has not been delivered since, and whether a read of the key has found a record that
is not older than the local one.
-/

namespace Lbsync.Wan

open Engine

variable {N P : Type*} [DecidableEq N]

/-- What the next step of a read looks at: the own store, or the answer of the next peer. -/
def View.lookedAt (n : N) (kind : GoString) (answers : Bool) (v : View N P) (key : GoString) :
    Option Record :=
  match v.asking with
  | none => v.net.stored n kind key
  | some [] => none
  | some (q :: _) => if answers then v.net.stored q kind key else none

/-- What a step of one node reads and writes. -/
def Nodes.view (s : Nodes N P) (n : N) : View N P := ⟨s.net, s.pc n, s.asking n, s.world n⟩

/-- A step of a node goes on with a read, or is a move with what the read has looked at. -/
theorem View.moves_of_step {peers : N → List N} {p : Provider P} {n : N} {v w : View N P}
    {answers : Bool} (h : View.step peers p n v answers = some w) :
    (∃ key, readKey v.pc = some key ∧ v.lookedAt n p.kind answers key = none ∧ w.pc = v.pc ∧
        w.net = v.net) ∨
      Moves (fun key c => c = v.lookedAt n p.kind answers key) v.pc w.pc := by
  obtain ⟨net, pc, asking, provider⟩ := v
  cases hread : readKey pc with
  | some key =>
      simp only [View.step, hread, Option.some.injEq] at h
      subst h
      cases asking with
      | none =>
          cases hfound : net.stored n p.kind key with
          | some r =>
              simp only [View.read, hfound]
              exact Or.inr (moves_answer hread hfound.symm)
          | none =>
              refine Or.inl ⟨key, rfl, hfound, ?_, ?_⟩ <;> simp only [View.read, hfound]
      | some asked =>
          cases asked with
          | nil => exact Or.inr (moves_answer hread rfl)
          | cons q rest =>
              cases hreply : (if answers then net.stored q p.kind key else none) with
              | some r =>
                  simp only [View.read, hreply]
                  exact Or.inr (moves_answer hread hreply.symm)
              | none =>
                  refine Or.inl ⟨key, rfl, hreply, ?_, ?_⟩ <;> simp only [View.read, hreply]
  | none =>
      simp only [View.step, hread, Option.map_eq_some_iff] at h
      obtain ⟨r, hr, rfl⟩ := h
      refine Or.inr ?_
      have hmoves := Engine.moves_of_step hr
      simp only at hmoves ⊢
      generalize r.pc = pc' at hmoves
      cases hmoves with
      | get hc => cases hread
      | recheck hc => cases hread
      | lock locked => exact .lock locked
      | put => exact .put
      | release => exact .release
      | apply res => exact .apply res
      | flush res => exact .flush res
      | rollback => exact .rollback

theorem CallEffect.net_of_put {peers : List N} {kind k : GoString} {n : N} {net net' : Net N}
    {f : Frame} {l : Record} {c : Option Record} {locked : Bool} {pc' : Pc}
    {asking asking' : Option (List N)}
    (h : CallEffect peers kind n net (.put f k l c locked) asking net' pc' asking') :
    net' = net.put peers n l := by
  cases h with
  | put => rfl
  | hit hread hfound => cases hread
  | miss hread habsent => cases hread
  | reply hread hfound => cases hread
  | skip hread => cases hread
  | absent hread => cases hread

section Work

variable {found : GoString → Option Record → Prop} {pc pc' : Pc} {key : GoString} {r : Record}

theorem todo_of_readKey (h : readKey pc = some key) : Todo key pc := by
  cases reading_of_readKey h with
  | get f => exact Or.inl rfl
  | recheck f l c locked => exact Or.inl rfl

/-- The work on a key with a local record is over when a read finds something that is not
older, or with its `Put`. No key comes back. -/
theorem todo_iff_of_moves {look : GoString → Option Record}
    (h : Moves (fun key c => c = look key) pc pc') (hown : OwnRecord pc)
    (hnodup : (keysLeft pc).Nodup) (hr : ∀ m, localsAt pc = some m → m.lookup key = some r) :
    Todo key pc' ↔ Todo key pc ∧ (∀ f l c locked, pc ≠ .put f key l c locked) ∧
      (readKey pc = some key → versionOf (look key) < versionOf (some r)) := by
  cases h with
  | @get f k c hc =>
      have hlocal : f.localByKey.lookup key = some r := hr _ rfl
      obtain ⟨hnot, -⟩ := List.nodup_cons.mp hnodup
      rw [todo_afterGet, hc]
      by_cases hk : key = k
      · subst hk
        simp [hlocal, hnot, Todo, readKey, keeps_eq_false_iff]
      · simp [hk, Ne.symm hk, Todo, readKey]
  | @recheck f k l c locked cur hc =>
      obtain ⟨hnot, -⟩ := List.nodup_cons.mp hnodup
      rw [todo_afterRecheck, hc]
      by_cases hk : key = k
      · subst hk
        have hl : f.localByKey.lookup key = some l := hown
        obtain rfl : l = r := Option.some.inj (hl.symm.trans (hr _ rfl))
        simp [hnot, Todo, readKey, keeps_eq_false_iff]
      · simp [hk, Ne.symm hk, Todo, readKey]
  | @lock f k l c locked => simp [Todo, readKey]
  | @put f k l c locked =>
      obtain ⟨hnot, -⟩ := List.nodup_cons.mp hnodup
      rw [todo_afterPut]
      by_cases hk : key = k
      · subst hk
        exact iff_of_false hnot fun hput => hput.2.1 f l c locked rfl
      · simp [hk, Ne.symm hk, Todo, readKey]
  | release =>
      rw [todo_decided]
      simp [Todo, readKey]
  | apply res =>
      rw [todo_afterApply]
      simp [Todo, readKey]
  | @flush f res => cases res <;> simp [Frame.afterFlush, Todo]
  | rollback => simp [Todo]

end Work

/-- The records a step has sent. -/
def sent (net net' : Net N) : List (N × Record) := net'.flight.drop net.flight.length

omit [DecidableEq N] in
@[simp] theorem sent_self (net : Net N) : sent net net = [] := List.drop_length

theorem sent_put (net : Net N) (targets : List N) (n : N) (l : Record) :
    sent net (net.put targets n l) = targets.map fun q => (q, l) := List.drop_left

/-- The nodes while a tick of one of them is watched: what it has sent and what of that has not
been delivered since, and whether a read of the key has found a record that is not older. -/
structure Watched (N P : Type*) where
  nodes : Nodes N P
  awaited : List (N × Record)
  found : Bool

section Watch

variable (peers : N → List N) (p : N → Provider P) (n : N) (kind key : GoString) (r : Record)

/-- Whether the next step of node `n` is a step of a read of the key that finds a record that is
not older than `r`. -/
def finds (s : Nodes N P) (answers : Bool) : Bool :=
  readKey (s.pc n) = some key && keeps r ((s.view n).lookedAt n kind answers key)

/-- One step, watching the tick of node `n`. A message counts as delivered when it, or one equal
to it, arrives after it was sent. -/
def Watched.step (t : Watched N P) (a : Action N P) : Option (Watched N P) :=
  (t.nodes.step peers p a).map fun s =>
    match a with
    | .call m answers =>
        if m = n then
          ⟨s, t.awaited ++ sent t.nodes.net s.net, t.found || finds n kind key r t.nodes answers⟩
        else ⟨s, t.awaited, t.found⟩
    | .deliver m => ⟨s, t.awaited.erase m, t.found⟩
    | _ => ⟨s, t.awaited, t.found⟩

/-- Whether a `Put` of the key, if the node is about to make one, replaces a record that is not
older than `r` by one that is. -/
def spoils (net : Net N) (m : N) : Pc → Bool
  | .put _ k l _ _ => k = key && keeps r (net.stored m kind key) && !keeps r (some l)
  | _ => false

/-- The node starts no further tick, and no peer's own `Put` spoils what has arrived. -/
def Unspoiled (t : Watched N P) : Action N P → Prop
  | .begin m _ _ => m ≠ n
  | .call m _ => m ∈ peers n → spoils kind key r t.nodes.net m (t.nodes.pc m) = false
  | _ => True

/-- Besides, the peers put no record of the key, and no record of it reaches them but those that
the tick has sent. -/
def Quiet (t : Watched N P) : Action N P → Prop
  | .begin m _ _ => m ≠ n
  | .call m _ => m ≠ n → m ∈ peers n → ∀ f l c locked, t.nodes.pc m ≠ .put f key l c locked
  | .deliver m => m.1 ∈ peers n → m.2.key = key → m ∈ t.awaited
  | _ => True

end Watch

section Steps

variable {peers : N → List N} {p : N → Provider P} {n : N} {kind key : GoString} {r : Record}
  {s t : Nodes N P} {a : Action N P}

/-- What a step does to the record that a node stores for a key: nothing, or it is the node's own
`Put`, or the delivery of a record to the node. -/
theorem stored_cases (hsound : Sound kind s)
    (hstep : Nodes.step peers p s a = some t) (q : N) (key : GoString) :
    t.net.stored q kind key = s.net.stored q kind key ∨
      (∃ answers f l c locked, a = .call q answers ∧ s.pc q = .put f key l c locked ∧
        t.net.stored q kind key = some l) ∨
      ∃ r, a = .deliver (q, r) ∧ r.key = key ∧
        t.net.stored q kind key = pickNewer (some r) (s.net.stored q kind key) := by
  cases a with
  | begin m ord known =>
      cases hpc : s.pc m with
      | idle =>
          simp only [Nodes.step, hpc, Option.some.injEq] at hstep
          subst hstep
          exact Or.inl rfl
      | _ => simp [Nodes.step, hpc] at hstep
  | call m answers =>
      simp only [Nodes.step, Option.map_eq_some_iff] at hstep
      obtain ⟨v, hv, rfl⟩ := hstep
      rcases (callEffect_of_step hv).net_eq with heq | ⟨f, k, l, c, locked, hpc, -, heq⟩
      · exact Or.inl (by simp only [heq])
      · obtain ⟨-, -, hkey, hkindl⟩ := hsound.of_put hpc
        simp only [heq]
        rw [stored_put s.net hkindl]
        split_ifs with hcond
        · obtain ⟨rfl, rfl⟩ := hcond
          subst hkey
          exact Or.inr (Or.inl ⟨answers, f, l, c, locked, rfl, hpc, rfl⟩)
        · exact Or.inl rfl
  | change m w =>
      simp only [Nodes.step, Option.some.injEq] at hstep
      subst hstep
      exact Or.inl rfl
  | deliver m =>
      simp only [Nodes.step] at hstep
      split_ifs at hstep with hm
      obtain rfl := Option.some.inj hstep
      have hstored := stored_receive s.net (hsound.flight m hm) m.1 q key
      by_cases hcond : q = m.1 ∧ key = m.2.key
      · obtain ⟨rfl, rfl⟩ := hcond
        rw [if_pos ⟨rfl, rfl⟩] at hstored
        exact Or.inr (Or.inr ⟨m.2, rfl, rfl, hstored⟩)
      · rw [if_neg hcond] at hstored
        exact Or.inl hstored
  | lose m =>
      simp only [Nodes.step] at hstep
      split_ifs at hstep
      obtain rfl := Option.some.inj hstep
      exact Or.inl rfl
  | duplicate m =>
      simp only [Nodes.step] at hstep
      split_ifs at hstep
      obtain rfl := Option.some.inj hstep
      exact Or.inl rfl

/-- The tick of a node that starts no other one goes on by its own calls only. -/
theorem pc_cases (hstep : Nodes.step peers p s a = some t)
    (hbegin : ∀ ord known, a ≠ .begin n ord known) :
    (t.pc n = s.pc n ∧ ∀ answers, a ≠ .call n answers) ∨
      ∃ answers, a = .call n answers ∧
        ((t.pc n = s.pc n ∧ ∃ k, readKey (s.pc n) = some k ∧
            (s.view n).lookedAt n (p n).kind answers k = none) ∨
          Moves (fun k c => c = (s.view n).lookedAt n (p n).kind answers k) (s.pc n) (t.pc n)) := by
  cases a with
  | begin m ord known =>
      have hne : n ≠ m := fun heq => hbegin ord known (heq ▸ rfl)
      cases hpc : s.pc m with
      | idle =>
          simp only [Nodes.step, hpc, Option.some.injEq] at hstep
          subst hstep
          exact Or.inl ⟨Function.update_of_ne hne _ _, by simp⟩
      | _ => simp [Nodes.step, hpc] at hstep
  | call m answers =>
      simp only [Nodes.step, Option.map_eq_some_iff] at hstep
      obtain ⟨v, hv, rfl⟩ := hstep
      by_cases hm : m = n
      · subst hm
        refine Or.inr ⟨answers, rfl, ?_⟩
        simp only [Function.update_self]
        rcases View.moves_of_step hv with ⟨k, hread, hnone, hpc, -⟩ | hmoves
        · exact Or.inl ⟨hpc, k, hread, hnone⟩
        · exact Or.inr hmoves
      · refine Or.inl ⟨Function.update_of_ne (Ne.symm hm) _ _, fun b heq => hm ?_⟩
        exact (Action.call.inj heq).1
  | change m w =>
      simp only [Nodes.step, Option.some.injEq] at hstep
      subst hstep
      exact Or.inl ⟨rfl, by simp⟩
  | _ m =>
      simp only [Nodes.step] at hstep
      split_ifs at hstep
      obtain rfl := Option.some.inj hstep
      exact Or.inl ⟨rfl, by simp⟩

/-- What holds while the tick is watched: its local record of the key is `r`, and it visits no
key twice. -/
structure InTick (n : N) (kind key : GoString) (r : Record) (s : Nodes N P) : Prop where
  sound : Sound kind s
  locals : ∀ m, localsAt (s.pc n) = some m → m.lookup key = some r
  nodup : (keysLeft (s.pc n)).Nodup

theorem InTick.step (hkind : ∀ n, (p n).kind = kind) (h : InTick n kind key r s)
    (hstep : Nodes.step peers p s a = some t) (hbegin : ∀ ord known, a ≠ .begin n ord known) :
    InTick n kind key r t := by
  refine ⟨h.sound.step hkind hstep, ?_, ?_⟩
  · rcases pc_cases hstep hbegin with ⟨hpc, -⟩ | ⟨answers, -, ⟨hpc, -⟩ | hmoves⟩
    · rw [hpc]
      exact h.locals
    · rw [hpc]
      exact h.locals
    · exact fun m hm => h.locals m ((hmoves.keepsLocals (h.sound.own n)).2 m hm)
  · rcases pc_cases hstep hbegin with ⟨hpc, -⟩ | ⟨answers, -, ⟨hpc, -⟩ | hmoves⟩
    · rw [hpc]
      exact h.nodup
    · rw [hpc]
      exact h.nodup
    · rcases hmoves.keysLeft (h.sound.own n) with heq | ⟨k, rest, heq, heq', -⟩
      · rw [heq]
        exact h.nodup
      · rw [heq']
        exact (List.nodup_cons.mp (heq ▸ h.nodup)).2

/-- The work on the key is over with a read that finds a record that is not older, or with the
`Put`, and does not come back. -/
theorem InTick.todo_iff (hkind : ∀ n, (p n).kind = kind) (h : InTick n kind key r s)
    (hstep : Nodes.step peers p s a = some t) (hbegin : ∀ ord known, a ≠ .begin n ord known) :
    Todo key (t.pc n) ↔ Todo key (s.pc n) ∧ ∀ answers, a = .call n answers →
      finds n kind key r s answers = false ∧ ∀ f l c locked, s.pc n ≠ .put f key l c locked := by
  rcases pc_cases hstep hbegin with ⟨hpc, hother⟩ | ⟨answers, rfl, ⟨hpc, k, hread, hnone⟩ | hmoves⟩
  · rw [hpc]
    exact ⟨fun htodo => ⟨htodo, fun b hb => absurd hb (hother b)⟩, And.left⟩
  · -- the read goes on with the next peer
    rw [hpc]
    refine ⟨fun htodo => ⟨htodo, fun b hb => ?_⟩, And.left⟩
    obtain rfl := (Action.call.inj hb).2
    refine ⟨?_, fun f l c locked hput => ?_⟩
    · rw [hkind n] at hnone
      by_cases hk : readKey (s.pc n) = some key
      · obtain rfl : k = key := Option.some.inj (hread.symm.trans hk)
        simp [finds, hnone, keeps]
      · simp [finds, hk]
    · rw [hput] at hread
      cases hread
  · rw [todo_iff_of_moves hmoves (h.sound.own n) h.nodup h.locals, hkind n]
    refine and_congr_right fun _ => ⟨fun hwork b hb => ?_, fun hwork => ?_⟩
    · obtain rfl := (Action.call.inj hb).2
      refine ⟨?_, hwork.1⟩
      by_cases hk : readKey (s.pc n) = some key
      · simpa [finds, hk] using keeps_eq_false_iff.mpr (hwork.2 hk)
      · simp [finds, hk]
    · obtain ⟨hfinds, hput⟩ := hwork answers rfl
      refine ⟨hput, fun hk => keeps_eq_false_iff.mp ?_⟩
      simpa [finds, hk] using hfinds

/-- A `Put` sends the record to every peer, and no other step sends anything. -/
theorem sent_cases {answers : Bool} (hstep : Nodes.step peers p s (.call n answers) = some t) :
    (∀ f k l c locked, s.pc n ≠ .put f k l c locked) ∧ sent s.net t.net = [] ∨
      ∃ f k l c locked, s.pc n = .put f k l c locked ∧
        sent s.net t.net = (peers n).map fun q => (q, l) := by
  simp only [Nodes.step, Option.map_eq_some_iff] at hstep
  obtain ⟨v, hv, rfl⟩ := hstep
  have heffect := callEffect_of_step hv
  cases hpc : s.pc n with
  | put f k l c locked =>
      simp only [hpc] at heffect
      refine Or.inr ⟨f, k, l, c, locked, rfl, ?_⟩
      rw [heffect.net_of_put, sent_put]
  | _ =>
      rcases heffect.net_eq with heq | ⟨f, k, l, c, locked, hput, -⟩
      · exact Or.inl ⟨by simp, by simp only [heq, sent_self]⟩
      · cases hpc.symm.trans hput

end Steps

section Runs

variable {peers : N → List N} {p : N → Provider P} {n : N} {kind key : GoString} {r : Record}
  {x y : Watched N P} {a : Action N P}

/-- What a step of the watch does besides the step of the nodes. -/
theorem watched_cases (h : Watched.step peers p n kind key r x a = some y) :
    x.nodes.step peers p a = some y.nodes ∧
      ((∃ answers, a = .call n answers ∧ y.awaited = x.awaited ++ sent x.nodes.net y.nodes.net ∧
          y.found = (x.found || finds n kind key r x.nodes answers)) ∨
        (∀ answers, a ≠ .call n answers) ∧ y.found = x.found ∧
          (y.awaited = x.awaited ∨ ∃ m, a = .deliver m ∧ y.awaited = x.awaited.erase m)) := by
  obtain ⟨s, hs, hy⟩ := Option.map_eq_some_iff.mp h
  cases a with
  | call m answers =>
      simp only at hy
      by_cases hm : m = n
      · subst hm
        rw [if_pos rfl] at hy
        subst hy
        exact ⟨hs, Or.inl ⟨answers, rfl, rfl, rfl⟩⟩
      · rw [if_neg hm] at hy
        subst hy
        exact ⟨hs, Or.inr ⟨fun b hb => hm (Action.call.inj hb).1, rfl, Or.inl rfl⟩⟩
  | deliver m =>
      subst hy
      exact ⟨hs, Or.inr ⟨by simp, rfl, Or.inr ⟨m, rfl, rfl⟩⟩⟩
  | _ =>
      subst hy
      exact ⟨hs, Or.inr ⟨by simp, rfl, Or.inl rfl⟩⟩

omit [DecidableEq N] in
theorem Unspoiled.not_begin (h : Unspoiled peers n kind key r x a) (ord : MapOrder)
    (known : List GoString) : a ≠ .begin n ord known := by
  rintro rfl
  exact h rfl

/-- A peer that stores a record not older than `r` keeps one, unless its own `Put` spoils it. -/
theorem kept_of_unspoiled (hsound : Sound kind x.nodes)
    (hstep : x.nodes.step peers p a = some y.nodes) (ha : Unspoiled peers n kind key r x a) {q : N}
    (hq : q ∈ peers n) (h : versionOf (some r) ≤ versionOf (x.nodes.net.stored q kind key)) :
    versionOf (some r) ≤ versionOf (y.nodes.net.stored q kind key) := by
  rcases stored_cases hsound hstep q key with heq | ⟨answers, f, l, c, locked, rfl, hpc, heq⟩ |
    ⟨r', rfl, -, heq⟩
  · rw [heq]
    exact h
  · have hspoils : spoils kind key r x.nodes.net q (x.nodes.pc q) = false := ha hq
    rw [hpc] at hspoils
    rw [heq]
    exact keeps_iff.mp (by simpa [spoils, keeps_iff.mpr h] using hspoils)
  · rw [heq, versionOf_pickNewer]
    exact h.trans (le_max_right _ _)

/-- The tick has still to work on the key, or a read has found a record that is not older, or
every peer has one or is about to receive it. -/
def Provided (peers : N → List N) (n : N) (kind key : GoString) (r : Record) (x : Watched N P) :
    Prop :=
  Todo key (x.nodes.pc n) ∨ x.found = true ∨
    ∀ q ∈ peers n, versionOf (some r) ≤ versionOf (x.nodes.net.stored q kind key) ∨
      (q, r) ∈ x.awaited

theorem Provided.step (hkind : ∀ n, (p n).kind = kind) (hkey : r.key = key)
    (hin : InTick n kind key r x.nodes) (h : Provided peers n kind key r x)
    (ha : Unspoiled peers n kind key r x a)
    (hstep : Watched.step peers p n kind key r x a = some y) : Provided peers n kind key r y := by
  obtain ⟨hnodes, hwatch⟩ := watched_cases hstep
  have hfound (hx : x.found = true) : y.found = true := by
    rcases hwatch with ⟨answers, -, -, hy⟩ | ⟨-, hy, -⟩
    · rw [hy, hx, Bool.true_or]
    · rw [hy, hx]
  rcases h with htodo | hx | hall
  · by_cases htodo' : Todo key (y.nodes.pc n)
    · exact Or.inl htodo'
    · -- the work on the key ends with this step
      rw [hin.todo_iff hkind hnodes ha.not_begin] at htodo'
      push Not at htodo'
      obtain ⟨answers, rfl, hends⟩ := htodo' htodo
      obtain ⟨b, hb, hawaited, hy⟩ := hwatch.resolve_right fun h => h.1 answers rfl
      obtain rfl := (Action.call.inj hb).2
      cases hfinds : finds n kind key r x.nodes answers with
      | true => exact Or.inr (Or.inl (by rw [hy, hfinds, Bool.or_true]))
      | false =>
          obtain ⟨f, l, c, locked, hpc⟩ := hends hfinds
          have hl : f.localByKey.lookup key = some l := by
            have hown := hin.sound.own n
            rwa [hpc] at hown
          obtain rfl : l = r := Option.some.inj (hl.symm.trans (hin.locals _ (by rw [hpc]; rfl)))
          refine Or.inr (Or.inr fun q hq => Or.inr ?_)
          rw [hawaited]
          refine List.mem_append_right _ ?_
          rcases sent_cases hnodes with hnone | ⟨f', k', l', c', locked', hpc', hsent⟩
          · exact absurd hpc (hnone.1 f key l c locked)
          · obtain ⟨-, -, rfl, -, -⟩ := Pc.put.inj (hpc.symm.trans hpc')
            rw [hsent]
            exact List.mem_map.mpr ⟨q, hq, rfl⟩
  · exact Or.inr (Or.inl (hfound hx))
  · refine Or.inr (Or.inr fun q hq => ?_)
    rcases hall q hq with hle | hmem
    · exact Or.inl (kept_of_unspoiled hin.sound hnodes ha hq hle)
    · rcases hwatch with ⟨answers, -, hy, -⟩ | ⟨-, -, hy | ⟨m, rfl, hy⟩⟩
      · exact Or.inr (hy ▸ List.mem_append_left _ hmem)
      · exact Or.inr (hy ▸ hmem)
      · by_cases hm : m = (q, r)
        · subst hm
          simp only [Nodes.step] at hnodes
          split_ifs at hnodes with hflight
          rw [← Option.some.inj hnodes, ← hkey]
          exact Or.inl (le_stored_receiver x.nodes.net (hin.sound.flight _ hflight) q)
        · exact Or.inr (hy ▸ (List.mem_erase_of_ne (Ne.symm hm)).mpr hmem)

/-- Peers that put nothing of the key spoil nothing. -/
theorem Quiet.unspoiled (hin : InTick n kind key r x.nodes) (h : Quiet peers n key x a) :
    Unspoiled peers n kind key r x a := by
  cases a with
  | begin m ord known => exact h
  | call m answers =>
      intro hm
      cases hpc : x.nodes.pc m with
      | put f k l c locked =>
          by_cases hk : k = key
          · subst hk
            by_cases hmn : m = n
            · subst hmn
              have hl : f.localByKey.lookup k = some l := (hin.sound.of_put hpc).2.1
              have hr : f.localByKey.lookup k = some r := hin.locals _ (by rw [hpc]; rfl)
              obtain rfl := Option.some.inj (hl.symm.trans hr)
              have hself : keeps l (some l) = true := keeps_iff.mpr le_rfl
              simp [spoils, hself]
            · exact absurd hpc (h hmn hm f l c locked)
          · simp [spoils, hk]
      | _ => rfl
  | _ => trivial

/-- A read that finds a record that is not older ends the work on the key, and as long as nothing
of the key has been sent, the peers store what they stored. -/
structure Untouched (peers : N → List N) (n : N) (kind key : GoString) (before : Net N)
    (x : Watched N P) : Prop where
  ends : x.found = true → ¬ Todo key (x.nodes.pc n)
  same : x.found = true ∨ Todo key (x.nodes.pc n) → (∀ m ∈ x.awaited, m.2.key ≠ key) ∧
    ∀ q ∈ peers n, x.nodes.net.stored q kind key = before.stored q kind key

theorem Untouched.step (hkind : ∀ n, (p n).kind = kind) {before : Net N}
    (hin : InTick n kind key r x.nodes) (h : Untouched peers n kind key before x)
    (ha : Quiet peers n key x a) (hstep : Watched.step peers p n kind key r x a = some y) :
    Untouched peers n kind key before y := by
  obtain ⟨hnodes, hwatch⟩ := watched_cases hstep
  have htodo := hin.todo_iff hkind hnodes (ha.unspoiled hin).not_begin
  have hends (hy : y.found = true) : ¬ Todo key (y.nodes.pc n) := by
    intro hwork
    obtain ⟨hwork', hgoes⟩ := htodo.mp hwork
    rcases hwatch with ⟨answers, rfl, -, hfound⟩ | ⟨-, hfound, -⟩
    · rw [hfound, (hgoes answers rfl).1, Bool.or_false] at hy
      exact h.ends hy hwork'
    · exact h.ends (hfound ▸ hy) hwork'
  refine ⟨hends, fun hy => ?_⟩
  have hx : x.found = true ∨ Todo key (x.nodes.pc n) := by
    rcases hy with hy | hwork
    · rcases hwatch with ⟨answers, -, -, hfound⟩ | ⟨-, hfound, -⟩
      · rw [hfound, Bool.or_eq_true] at hy
        refine hy.imp_right fun hfinds => todo_of_readKey ?_
        simp only [finds, Bool.and_eq_true, decide_eq_true_eq] at hfinds
        exact hfinds.1
      · exact Or.inl (hfound ▸ hy)
    · exact Or.inr (htodo.mp hwork).1
  have hput : ∀ answers f l c locked, a = .call n answers →
      x.nodes.pc n ≠ .put f key l c locked := by
    intro answers f l c locked hcall hpc
    have hwork : Todo key (x.nodes.pc n) := by
      rw [hpc]
      exact Or.inl rfl
    rcases hy with hy | hwork'
    · obtain ⟨b, -, -, hfound⟩ := hwatch.resolve_right fun hother => hother.1 answers hcall
      rw [hfound, Bool.or_eq_true] at hy
      rcases hy with hy | hfinds
      · exact h.ends hy hwork
      · simp [finds, hpc, readKey] at hfinds
    · exact ((htodo.mp hwork').2 answers hcall).2 f l c locked hpc
  obtain ⟨hawaited, hstored⟩ := h.same hx
  refine ⟨?_, fun q hq => ?_⟩
  · rcases hwatch with ⟨answers, rfl, hy', -⟩ | ⟨-, -, hy' | ⟨m, rfl, hy'⟩⟩
    · rw [hy']
      intro m hm
      rcases List.mem_append.mp hm with hm | hm
      · exact hawaited m hm
      · rcases sent_cases hnodes with ⟨-, hnone⟩ | ⟨f, k, l, c, locked, hpc, hsent⟩
        · simp [hnone] at hm
        · rw [hsent] at hm
          obtain ⟨q, -, rfl⟩ := List.mem_map.mp hm
          have hk : l.key = k := (hin.sound.of_put hpc).2.2.1
          rintro rfl
          exact hput answers f l c locked rfl (hk ▸ hpc)
    · exact hy' ▸ hawaited
    · exact fun m' hm' => hawaited m' (List.mem_of_mem_erase (hy' ▸ hm'))
  · rw [← hstored q hq]
    rcases stored_cases hin.sound hnodes q key with heq | ⟨answers, f, l, c, locked, rfl, hpc, -⟩ |
      ⟨r', rfl, hkey, -⟩
    · exact heq
    · by_cases hqn : q = n
      · subst hqn
        exact absurd hpc (hput answers f l c locked rfl)
      · exact absurd hpc (ha hqn hq f l c locked)
    · exact absurd hkey (hawaited (q, r') (ha hq hkey))

section Tick

variable {s s₁ t : Nodes N P} {ord : MapOrder} {known : List GoString}

/-- The watch begins with the tick. -/
theorem inTick_begin (hkind : ∀ n, (p n).kind = kind) (hsound : Sound kind s)
    (hr : (s.locals p n).lookup key = some r)
    (hbegin : Nodes.step peers p s (.begin n ord known) = some s₁) :
    InTick n kind key r s₁ ∧ Todo key (s₁.pc n) ∧ s₁.net = s.net := by
  have hsound₁ := hsound.step hkind hbegin
  cases hpc : s.pc n with
  | idle =>
      simp only [Nodes.step, hpc, Option.some.injEq] at hbegin
      subst hbegin
      have hmem : key ∈ s.locals p n := AList.lookup_isSome.mp (by rw [hr]; rfl)
      have hvisited : key ∈ unionKeys ord (s.locals p n) (.ok known) :=
        mem_unionKeys.mpr (Or.inl hmem)
      refine ⟨⟨hsound₁, ?_, ?_⟩, ?_, rfl⟩
      · intro m hm
        simp only [Function.update_self] at hm
        rw [(Frame.keepsLocals_next _).1 m hm]
        exact hr
      · simp only [Function.update_self, keysLeft_startTick]
        exact unionKeys_nodup ord _ _
      · simp only [Function.update_self]
        exact todo_next.mpr hvisited
  | _ => simp [Nodes.step, hpc] at hbegin

/-- Whatever happens meanwhile, a watched tick stays a tick with the same local record. -/
theorem InTick.watched (hkind : ∀ n, (p n).kind = kind) (h : InTick n kind key r x.nodes)
    (ha : Unspoiled peers n kind key r x a)
    (hstep : Watched.step peers p n kind key r x a = some y) : InTick n kind key r y.nodes :=
  h.step hkind (watched_cases hstep).1 ha.not_begin

/-- A tick of a node, among everything else that happens, until all that it sent has been
delivered. If both reads of the key find nothing or something older, or if every peer has
something that is not older when the tick starts, then every peer has it in the end, unless a
peer's own `Put` spoils it. When nothing else of the key reaches the peers, every peer has it in
the end only then. -/
theorem repaired_iff (hkind : ∀ n, (p n).kind = kind) {s₀ : Nodes N P} (h₀ : Initial s₀)
    (hrun : Runs.Run (Nodes.step peers p) (fun _ _ => True) s₀ s)
    (hr : (s.locals p n).lookup key = some r)
    (hbegin : Nodes.step peers p s (.begin n ord known) = some s₁) {found : Bool}
    (hidle : t.pc n = .idle) :
    (Runs.Run (Watched.step peers p n kind key r) (Unspoiled peers n kind key r) ⟨s₁, [], false⟩
        ⟨t, [], found⟩ →
      (found = false ∨ ∀ q ∈ peers n, NotOlder (some r) (s.net.stored q kind key)) →
      ∀ q ∈ peers n, NotOlder (some r) (t.net.stored q kind key)) ∧
    (Runs.Run (Watched.step peers p n kind key r) (Quiet peers n key) ⟨s₁, [], false⟩
        ⟨t, [], found⟩ →
      ((∀ q ∈ peers n, NotOlder (some r) (t.net.stored q kind key)) ↔
        found = false ∨ ∀ q ∈ peers n, NotOlder (some r) (s.net.stored q kind key))) := by
  have hsound : Sound kind s :=
    hrun.invariant (fun _ _ _ hs _ hstep => hs.step hkind hstep) (h₀.sound kind)
  obtain ⟨hin, htodo, hnet⟩ := inTick_begin hkind hsound hr hbegin
  have hkey : r.key = key :=
    (((p n).ofKind_locals (s.world n)) key r hr).1
  have henough (hrun : Runs.Run (Watched.step peers p n kind key r)
      (Unspoiled peers n kind key r) ⟨s₁, [], false⟩ ⟨t, [], found⟩)
      (hcond : found = false ∨ ∀ q ∈ peers n, NotOlder (some r) (s.net.stored q kind key)) :
      ∀ q ∈ peers n, NotOlder (some r) (t.net.stored q kind key) := by
    intro q hq
    rw [notOlder_iff]
    rcases hcond with hfound | hhad
    · have hprovided : InTick n kind key r t ∧ Provided peers n kind key r ⟨t, [], found⟩ :=
        hrun.invariant (I := fun x => InTick n kind key r x.nodes ∧ Provided peers n kind key r x)
          (fun x a y hx ha hstep => ⟨hx.1.watched hkind ha hstep,
            hx.2.step hkind hkey hx.1 ha hstep⟩) ⟨hin, Or.inl htodo⟩
      rcases hprovided.2 with hwork | hfinds | hall
      · rw [hidle] at hwork
        exact hwork.elim
      · rw [hfound] at hfinds
        cases hfinds
      · exact (hall q hq).resolve_right List.not_mem_nil
    · have hkept : InTick n kind key r t ∧
          versionOf (some r) ≤ versionOf (t.net.stored q kind key) :=
        hrun.invariant (I := fun x => InTick n kind key r x.nodes ∧
          versionOf (some r) ≤ versionOf (x.nodes.net.stored q kind key))
          (fun x a y hx ha hstep => ⟨hx.1.watched hkind ha hstep,
            kept_of_unspoiled hx.1.sound (watched_cases hstep).1 ha hq hx.2⟩)
          ⟨hin, by simpa only [hnet] using notOlder_iff.mp (hhad q hq)⟩
      exact hkept.2
  refine ⟨henough, fun hquiet => ⟨fun hall => ?_, fun hcond => ?_⟩⟩
  · cases hfound : found with
    | false => exact Or.inl rfl
    | true =>
        have huntouched : InTick n kind key r t ∧
            Untouched peers n kind key s.net ⟨t, [], found⟩ :=
          hquiet.invariant (I := fun x => InTick n kind key r x.nodes ∧
            Untouched peers n kind key s.net x)
            (fun x a y hx ha hstep => ⟨hx.1.watched hkind (ha.unspoiled hx.1) hstep,
              hx.2.step hkind hx.1 ha hstep⟩)
            ⟨hin, by simp, fun _ => ⟨by simp, fun q _ => by rw [hnet]⟩⟩
        refine Or.inr fun q hq => ?_
        rw [← (huntouched.2.same (Or.inl hfound)).2 q hq]
        exact hall q hq
  · refine henough (hquiet.mono_of_invariant (I := fun x => InTick n kind key r x.nodes) ?_ ?_ hin)
      hcond
    · exact fun x a y hx ha hstep => hx.watched hkind (ha.unspoiled hx) hstep
    · exact fun x a hx ha => ha.unspoiled hx

end Tick

end Runs

theorem originNodes_initial : Initial originNodes :=
  ⟨fun _ => rfl, rfl, fun _ => rfl, fun _ => rfl, fun _ => rfl, fun _ => rfl, fun _ => rfl⟩

instance decidableUnspoiled (peers : N → List N) (n : N) (kind key : GoString) (r : Record)
    (x : Watched N P) (a : Action N P) : Decidable (Unspoiled peers n kind key r x a) :=
  match a with
  | .begin m _ _ => inferInstanceAs (Decidable (m ≠ n))
  | .call m _ => inferInstanceAs (Decidable (m ∈ peers n →
      spoils kind key r x.nodes.net m (x.nodes.pc m) = false))
  | .change _ _ => inferInstanceAs (Decidable True)
  | .deliver _ => inferInstanceAs (Decidable True)
  | .lose _ => inferInstanceAs (Decidable True)
  | .duplicate _ => inferInstanceAs (Decidable True)

/-- The origin's tick after it has started, while node 1 makes a tick of its own. -/
def arrivingActions : List (Action (Fin 3) (List Record)) :=
  List.replicate 5 (.call 0 true) ++ [.begin 1 .insertion [ascii "a"], .call 1 true] ++
    List.replicate 7 (.call 0 true) ++
    [.deliver (2, sampleRecord 100), .call 1 true, .deliver (1, sampleRecord 100)]

/-- The origin's tick has started. -/
def startedNodes : Nodes (Fin 3) (List Record) :=
  ((Nodes.step otherPeers (fun _ => fakeProvider (ascii "k")) originNodes
    (.begin 0 .insertion [])).getD originNodes)

/-- The first tick of the origin reaches both peers. -/
theorem first_publication_arrives :
    ∃ t, t.pc 0 = .idle ∧
      Runs.Run (Watched.step otherPeers (fun _ => fakeProvider (ascii "k")) 0 (ascii "k")
        (ascii "a") (sampleRecord 100))
        (Unspoiled otherPeers 0 (ascii "k") (ascii "a") (sampleRecord 100))
        ⟨startedNodes, [], false⟩ ⟨t, [], false⟩ ∧
      ∀ q ∈ otherPeers 0, NotOlder (some (sampleRecord 100))
        (t.net.stored q (ascii "k") (ascii "a")) := by
  obtain ⟨⟨t, awaited, found⟩, hrun, hidle, rfl, rfl⟩ : ∃ x : Watched (Fin 3) (List Record),
      Runs.Run (Watched.step otherPeers (fun _ => fakeProvider (ascii "k")) 0 (ascii "k")
        (ascii "a") (sampleRecord 100))
        (Unspoiled otherPeers 0 (ascii "k") (ascii "a") (sampleRecord 100))
        ⟨startedNodes, [], false⟩ x ∧ isIdle (x.nodes.pc 0) = true ∧ x.awaited = [] ∧
      x.found = false :=
    Runs.Run.exists_of_replay arrivingActions (by decide)
  have hbegin : Nodes.step otherPeers (fun _ => fakeProvider (ascii "k")) originNodes
      (.begin 0 .insertion []) = some startedNodes := rfl
  have hidle' : t.pc 0 = .idle := isIdle_iff.mp hidle
  exact ⟨t, hidle', hrun, (repaired_iff (fun _ => rfl) originNodes_initial (.refl originNodes)
    (by decide) hbegin hidle').1 hrun (Or.inl rfl)⟩

/-- The origin publishes, and both pushes are lost. -/
def lostActions : List (Action (Fin 3) (List Record)) :=
  publishingTick ++ [.lose (1, sampleRecord 100), .lose (2, sampleRecord 100)]

/-- After both pushes were lost the origin's next tick, in which every peer answers, finds its own
record, sends nothing and leaves the peers without it. -/
theorem lost_push_stays_lost :
    Initial originNodes ∧
    ∃ s s₁ t, Runs.Run (Nodes.step otherPeers fun _ => fakeProvider (ascii "k")) (fun _ _ => True)
        originNodes s ∧
      (∀ n, (s.locals (fun _ => fakeProvider (ascii "k")) n).lookup (ascii "a") =
        if n = 0 then some (sampleRecord 100) else none) ∧
      Nodes.step otherPeers (fun _ => fakeProvider (ascii "k")) s (.begin 0 .insertion []) =
        some s₁ ∧
      Runs.Run (Watched.step otherPeers (fun _ => fakeProvider (ascii "k")) 0 (ascii "k")
        (ascii "a") (sampleRecord 100)) (fun _ _ => True) ⟨s₁, [], false⟩ ⟨t, [], true⟩ ∧
      t.pc 0 = .idle ∧ ∀ q ∈ otherPeers 0, ¬ NotOlder (some (sampleRecord 100))
        (t.net.stored q (ascii "k") (ascii "a")) := by
  have hnone {c : Option Record} (hc : c = none) : ¬ NotOlder (some (sampleRecord 100)) c := by
    intro h
    obtain ⟨r, hr, -⟩ := h (sampleRecord 100) rfl
    cases hc.symm.trans hr
  refine ⟨originNodes_initial, _, _, _, Runs.Run.of_replay lostActions rfl, by decide, rfl,
    Runs.Run.of_replay (List.replicate 2 (.call 0 true)) rfl, rfl, fun q hq => hnone ?_⟩
  revert q hq
  decide

end Lbsync.Wan
