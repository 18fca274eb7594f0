import Lbsync.Engine.Moves
import Lbsync.Wan.Network

/-!
# What holds on every network

Whatever the nodes and the network do, a node publishes only local records of
the tick it is in, the peers still to ask belong to a read in progress, and every
record on its way has the kind of the ticks.
-/

namespace Lbsync.Wan

open Engine

variable {N P : Type*} [DecidableEq N]

/-- The reply of a read is a move. -/
theorem moves_answer {found : GoString → Option Record → Prop} {pc : Pc} {key : GoString}
    {c : Option Record} (hread : readKey pc = some key) (hc : found key c) :
    Moves found pc (answer c pc) := by
  cases reading_of_readKey hread with
  | get f => exact .get hc
  | recheck f l c₀ locked => exact .recheck hc

namespace CallEffect

variable {peers : List N} {kind : GoString} {n : N} {net net' : Net N} {pc pc' : Pc}
  {asking asking' : Option (List N)}

/-- The network changes by a `Put` only. -/
theorem net_eq (h : CallEffect peers kind n net pc asking net' pc' asking') :
    net' = net ∨ ∃ f key l c locked, pc = .put f key l c locked ∧
      pc' = f.afterPut key l c locked ∧ net' = net.put peers n l := by
  cases h with
  | @put f key l c locked asking => exact Or.inr ⟨f, key, l, c, locked, rfl, rfl, rfl⟩
  | _ => exact Or.inl rfl

theorem answer_keeps {c : Option Record} {key : GoString} (hread : readKey pc = some key)
    (hown : OwnRecord pc) :
    OwnRecord (answer c pc) ∧ ∀ m, localsAt (answer c pc) = some m → localsAt pc = some m := by
  cases reading_of_readKey hread with
  | get f => exact (f.keepsLocals_afterGet key c).of_locals rfl
  | recheck f l c₀ locked =>
      exact (f.keepsLocals_afterRecheck key hown c₀ locked c).of_locals rfl

/-- A step keeps the local records of the tick and publishes nothing else. -/
theorem keepsLocals (h : CallEffect peers kind n net pc asking net' pc' asking')
    (hown : OwnRecord pc) :
    OwnRecord pc' ∧ ∀ m, localsAt pc' = some m → localsAt pc = some m := by
  cases h with
  | hit hread hfound => exact answer_keeps hread hown
  | miss hread habsent => exact ⟨hown, fun m hm => hm⟩
  | reply hread hfound => exact answer_keeps hread hown
  | skip hread => exact ⟨hown, fun m hm => hm⟩
  | absent hread => exact answer_keeps hread hown
  | lock => exact ⟨hown, fun m hm => hm⟩
  | put => exact (Frame.keepsLocals_afterPut _ _ hown _ _).of_locals rfl
  | release => exact (Frame.keepsLocals_decided _ _ _).of_locals rfl
  | apply res => exact (Frame.keepsLocals_afterApply _ _ res).of_locals rfl
  | flush res => exact (Frame.keepsLocals_afterFlush _ res).of_locals rfl
  | rollback => exact ⟨trivial, fun m hm => by simp [localsAt] at hm⟩

/-- Peers are asked during a read only. -/
theorem quiet (h : CallEffect peers kind n net pc asking net' pc' asking')
    (hquiet : readKey pc = none → asking = none) : readKey pc' = none → asking' = none := by
  intro hread'
  cases h with
  | hit hread hfound => rfl
  | miss hread habsent => simp [hread'] at hread
  | reply hread hfound => rfl
  | skip hread => simp [hread'] at hread
  | absent hread => rfl
  | _ => exact hquiet rfl

end CallEffect

/-- The invariant of every network. -/
structure Sound (kind : GoString) (s : Nodes N P) : Prop where
  own : ∀ n, OwnRecord (s.pc n)
  begun : ∀ n m, localsAt (s.pc n) = some m → m ∈ s.history n
  kinds : ∀ n, ∀ m ∈ s.history n, OfKind kind m
  quiet : ∀ n, readKey (s.pc n) = none → s.asking n = none
  flight : ∀ m ∈ s.net.flight, m.2.kind = kind

omit [DecidableEq N] in
/-- A record about to be put is the node's local record of its key. -/
theorem Sound.of_put {kind : GoString} {s : Nodes N P} (h : Sound kind s) {n : N} {f : Frame}
    {key : GoString} {l : Record} {c : Option Record} {locked : Bool}
    (hpc : s.pc n = .put f key l c locked) :
    f.localByKey ∈ s.history n ∧ f.localByKey.lookup key = some l ∧ l.key = key ∧
      l.kind = kind := by
  have hbegun : f.localByKey ∈ s.history n := h.begun n _ (by rw [hpc]; rfl)
  have hown : OwnRecord (.put f key l c locked) := hpc ▸ h.own n
  exact ⟨hbegun, hown, h.kinds n _ hbegun key l hown⟩

omit [DecidableEq N] in
theorem Initial.sound {s : Nodes N P} (h : Initial s) (kind : GoString) : Sound kind s := by
  constructor
  · intro n
    rw [h.idle n]
    trivial
  · intro n m hm
    simp [h.idle n, localsAt] at hm
  · intro n m hm
    simp [h.history n] at hm
  · intro n _
    exact h.asking n
  · intro m hm
    simp [h.flight] at hm

section Steps

variable {peers : N → List N} {p : N → Provider P} {kind : GoString} {s t : Nodes N P}

/-- A step of one node keeps the invariant. -/
theorem Sound.call (h : Sound kind s) {n : N} {net : Net N} {pc : Pc} {asking : Option (List N)}
    {world : N → P} {applied : N → List (GoString × Record)} {ticked : N → Bool}
    (heffect : CallEffect (peers n) kind n s.net (s.pc n) (s.asking n) net pc asking) :
    Sound kind ⟨net, Function.update s.pc n pc, Function.update s.asking n asking, world,
      applied, s.history, ticked⟩ := by
  obtain ⟨hown, hlocals⟩ := heffect.keepsLocals (h.own n)
  constructor
  · intro m
    by_cases hm : m = n
    · subst hm
      simpa only [Function.update_self] using hown
    · simpa only [Function.update_of_ne hm] using h.own m
  · intro m localByKey hl
    by_cases hm : m = n
    · subst hm
      simp only [Function.update_self] at hl
      exact h.begun m _ (hlocals _ hl)
    · simp only [Function.update_of_ne hm] at hl
      exact h.begun m _ hl
  · exact h.kinds
  · intro m
    by_cases hm : m = n
    · subst hm
      simpa only [Function.update_self] using heffect.quiet (h.quiet m)
    · simpa only [Function.update_of_ne hm] using h.quiet m
  · rcases heffect.net_eq with rfl | ⟨f, key, l, c, locked, hpc, _, rfl⟩
    · exact h.flight
    · intro m hm
      simp only [Net.put, List.mem_append, List.mem_map] at hm
      rcases hm with hm | ⟨q, _, rfl⟩
      · exact h.flight m hm
      · exact (h.of_put hpc).2.2.2

/-- Starting a tick keeps the invariant. -/
theorem Sound.begin (h : Sound kind s) {n : N} (hidle : s.pc n = .idle) {f : Frame}
    (hkind : OfKind kind f.localByKey) (world : N → P) (ticked : N → Bool) :
    Sound kind { s with
      pc := Function.update s.pc n f.next
      world := world
      history := Function.update s.history n (f.localByKey :: s.history n)
      ticked := ticked } := by
  obtain ⟨hlocals, hown⟩ := f.keepsLocals_next
  have hquiet : s.asking n = none := h.quiet n (by rw [hidle]; rfl)
  constructor
  · intro m
    by_cases hm : m = n
    · subst hm
      simpa only [Function.update_self] using hown
    · simpa only [Function.update_of_ne hm] using h.own m
  · intro m localByKey hl
    by_cases hm : m = n
    · subst hm
      simp only [Function.update_self] at hl ⊢
      exact hlocals _ hl ▸ List.mem_cons_self
    · simp only [Function.update_of_ne hm] at hl ⊢
      exact h.begun m _ hl
  · intro m localByKey hl
    by_cases hm : m = n
    · subst hm
      simp only [Function.update_self, List.mem_cons] at hl
      rcases hl with rfl | hl
      · exact hkind
      · exact h.kinds m _ hl
    · simp only [Function.update_of_ne hm] at hl
      exact h.kinds m _ hl
  · intro m
    by_cases hm : m = n
    · subst hm
      exact fun _ => hquiet
    · simpa only [Function.update_of_ne hm] using h.quiet m
  · exact h.flight

/-- Every step keeps the invariant. -/
theorem Sound.step (hkind : ∀ n, (p n).kind = kind) (h : Sound kind s) {a : Action N P}
    (hstep : Nodes.step peers p s a = some t) : Sound kind t := by
  have net {net : Net N} (hflight : ∀ m ∈ net.flight, m ∈ s.net.flight) :
      Sound kind { s with net := net } :=
    ⟨h.own, h.begun, h.kinds, h.quiet, fun m hm => h.flight m (hflight m hm)⟩
  cases a with
  | begin n ord known =>
      cases hpc : s.pc n with
      | idle =>
          simp only [Nodes.step, hpc, Option.some.injEq] at hstep
          subst hstep
          exact h.begin hpc (f := ⟨_, _, _⟩) (hkind n ▸ (p n).ofKind_locals (s.world n)) _ _
      | _ => simp [Nodes.step, hpc] at hstep
  | call n answers =>
      simp only [Nodes.step, Option.map_eq_some_iff] at hstep
      obtain ⟨v, hv, rfl⟩ := hstep
      have heffect := callEffect_of_step hv
      rw [hkind n] at heffect
      exact h.call heffect
  | change n w =>
      simp only [Nodes.step, Option.some.injEq] at hstep
      subst hstep
      exact ⟨h.own, h.begun, h.kinds, h.quiet, h.flight⟩
  | deliver m =>
      simp only [Nodes.step] at hstep
      split_ifs at hstep
      · rw [← Option.some.inj hstep]
        exact net fun m' hm' => List.mem_of_mem_erase hm'
  | lose m =>
      simp only [Nodes.step] at hstep
      split_ifs at hstep
      · rw [← Option.some.inj hstep]
        exact net fun m' hm' => List.mem_of_mem_erase hm'
  | duplicate m =>
      simp only [Nodes.step] at hstep
      split_ifs at hstep with hm
      · rw [← Option.some.inj hstep]
        refine net fun m' hm' => ?_
        rcases List.mem_cons.mp hm' with rfl | hm'
        · exact hm
        · exact hm'

end Steps

end Lbsync.Wan
