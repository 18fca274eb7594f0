import Lbsync.Wan.Silence

/-!
# Agreement of several origins

Several nodes may have a local record for a key. A `Put` that replaces nothing newer
keeps what is already spread: every node stores it, or something newer, or
has it on its way. Under that condition the nodes agree once the network is
quiet. `Put` itself does not look, and a push that arrives between the re-check
and the `Put` is overwritten.
-/

namespace Lbsync.Wan

open Engine

variable {N P : Type*} [DecidableEq N]

/-- Every node stores the version or a newer one, or is about to receive it. -/
def Spread (net : Net N) (kind key : GoString) (v : WithBot Version) : Prop :=
  ∀ n, v ≤ versionOf (net.stored n kind key) ∨
    ∃ r, (n, r) ∈ net.flight ∧ r.key = key ∧ v ≤ versionOf (some r)

section Spread

variable {net : Net N} {kind key : GoString} {v w : WithBot Version}

omit [DecidableEq N] in
theorem spread_bot : Spread net kind key ⊥ := fun _ => Or.inl bot_le

omit [DecidableEq N] in
theorem Spread.of_le (h : Spread net kind key w) (hle : v ≤ w) : Spread net kind key v := by
  intro n
  rcases h n with hn | ⟨r, hr, hkey, hw⟩
  · exact Or.inl (hle.trans hn)
  · exact Or.inr ⟨r, hr, hkey, hle.trans hw⟩

/-- A `Put` that replaces nothing newer takes nothing back. -/
theorem Spread.put (h : Spread net kind key v) {l : Record} (hkind : l.kind = kind) {n : N}
    (hguard : l.key = key → versionOf (net.stored n kind key) ≤ versionOf (some l))
    (peers : List N) : Spread (net.put peers n l) kind key v := by
  intro m
  rcases h m with hm | ⟨r, hr, hkey, hv⟩
  · refine Or.inl (hm.trans ?_)
    rw [stored_put net hkind]
    split_ifs with hcond
    · rw [hcond.1]
      exact hguard hcond.2.symm
    · exact le_rfl
  · exact Or.inr ⟨r, List.mem_append_left _ hr, hkey, hv⟩

/-- A record that was put is spread when all other nodes are peers. -/
theorem spread_put {l : Record} (hkind : l.kind = kind) {n : N} {peers : List N}
    (hpeers : ∀ m ≠ n, m ∈ peers) :
    Spread (net.put peers n l) kind l.key (versionOf (some l)) := by
  intro m
  by_cases hm : m = n
  · refine Or.inl ?_
    rw [stored_put net hkind, if_pos ⟨hm, rfl⟩]
  · refine Or.inr ⟨l, ?_, rfl, le_rfl⟩
    simp [Net.put, hpeers m hm]

/-- Delivery spreads no less. -/
theorem Spread.deliver (h : Spread net kind key v) {m : N × Record} (hkind : m.2.kind = kind) :
    Spread (net.deliver m) kind key v := by
  obtain ⟨q, r⟩ := m
  intro n
  rcases h n with hn | ⟨r', hr', hkey, hv⟩
  · exact Or.inl (hn.trans (le_stored_receive net hkind q n key))
  · by_cases hm : (n, r') = (q, r)
    · obtain ⟨rfl, rfl⟩ := Prod.mk.inj hm
      subst hkey
      exact Or.inl (hv.trans (le_stored_receiver net hkind n))
    · exact Or.inr ⟨r', (List.mem_erase_of_ne hm).mpr hr', hkey, hv⟩

end Spread

/-- The tick has not yet finished `maybePublish` for the key. -/
def Todo (key : GoString) : Pc → Prop
  | .get f k => key = k ∨ key ∈ f.rest
  | .lock f k _ _ => key = k ∨ key ∈ f.rest
  | .recheck f k _ _ _ => key = k ∨ key ∈ f.rest
  | .put f k _ _ _ => key = k ∨ key ∈ f.rest
  | .release f _ _ _ => key ∈ f.rest
  | .apply f _ _ => key ∈ f.rest
  | _ => False

section Todo

variable {f : Frame} {key k : GoString} {l : Record} {c : Option Record}

theorem todo_next : Todo key f.next ↔ key ∈ f.rest := by
  unfold Frame.next
  cases hrest : f.rest with
  | nil => by_cases hchanged : f.changed = [] <;> simp [hchanged, Todo]
  | cons k rest => simp [Todo]

theorem todo_decided : Todo key (f.decided k c) ↔ key ∈ f.rest := by
  unfold Frame.decided
  cases pickNewer (f.localByKey.lookup k) c with
  | none => exact todo_next
  | some best => exact Iff.rfl

theorem todo_afterPut (locked : Bool) : Todo key (f.afterPut k l c locked) ↔ key ∈ f.rest := by
  cases locked with
  | false => exact todo_decided
  | true => exact Iff.rfl

theorem todo_afterApply (res : Except Err Bool) : Todo key (f.afterApply k res) ↔ key ∈ f.rest := by
  cases res with
  | error e => exact todo_next
  | ok b => cases b <;> exact todo_next

theorem todo_afterGet : Todo key (f.afterGet k c) ↔
    key ∈ f.rest ∨ key = k ∧ ∃ l, f.localByKey.lookup k = some l ∧ keeps l c = false := by
  unfold Frame.afterGet
  cases f.localByKey.lookup k with
  | none => simpa using todo_decided
  | some l =>
      cases hkeep : keeps l c with
      | true => simpa [hkeep] using todo_decided
      | false => simp [hkeep, Todo, or_comm]

theorem todo_afterRecheck (locked : Bool) (cur : Option Record) :
    Todo key (f.afterRecheck k l c locked cur) ↔ key ∈ f.rest ∨ key = k ∧ keeps l cur = false := by
  unfold Frame.afterRecheck
  cases keeps l cur with
  | true => simpa using todo_afterPut locked
  | false => simp [Todo, or_comm]

/-- A read goes on with the work on the key, unless it finds something that is not older than the
local record. -/
theorem todo_answer {pc : Pc} {localByKey : LocalMap} (hread : readKey pc = some k)
    (hown : OwnRecord pc) (hlocals : localsAt pc = some localByKey) (h : Todo key pc) :
    Todo key (answer c pc) ∨
      key = k ∧ versionOf (localByKey.lookup key) ≤ versionOf c := by
  cases reading_of_readKey hread with
  | get f =>
      obtain rfl : f.localByKey = localByKey := Option.some.inj hlocals
      rw [answer, todo_afterGet]
      rcases h with rfl | hrest
      · cases hl : f.localByKey.lookup key with
        | none => exact Or.inr ⟨rfl, bot_le⟩
        | some l =>
            cases hkeep : keeps l c with
            | false => exact Or.inl (Or.inr ⟨rfl, l, rfl, hkeep⟩)
            | true => exact Or.inr ⟨rfl, keeps_iff.mp hkeep⟩
      · exact Or.inl (Or.inl hrest)
  | recheck f l c₀ locked =>
      obtain rfl : f.localByKey = localByKey := Option.some.inj hlocals
      rw [answer, todo_afterRecheck]
      rcases h with rfl | hrest
      · cases hkeep : keeps l c with
        | false => exact Or.inl (Or.inr ⟨rfl, rfl⟩)
        | true =>
            rw [show f.localByKey.lookup key = some l from hown]
            exact Or.inr ⟨rfl, keeps_iff.mp hkeep⟩
      · exact Or.inl (Or.inl hrest)

end Todo

/-- A record that is not older than `v` is stored somewhere or on its way. -/
def Covered (net : Net N) (kind key : GoString) (v : WithBot Version) : Prop :=
  v = ⊥ ∨ ∃ r, Circulates net kind key r ∧ v ≤ versionOf (some r)

namespace CallEffect

variable {peers : List N} {kind key : GoString} {n : N} {net net' : Net N} {pc pc' : Pc}
  {asking asking' : Option (List N)} {localByKey : LocalMap}

omit [DecidableEq N] in
/-- A read ends the work on the key only when it finds the local record covered. -/
theorem covered_answer {k : GoString} {c : Option Record} (hread : readKey pc = some k)
    (hc : ∀ r, c = some r → Circulates net kind k r) (hown : OwnRecord pc)
    (hlocals : localsAt pc = some localByKey) (h : Todo key pc) :
    Todo key (answer c pc) ∨ Covered net kind key (versionOf (localByKey.lookup key)) := by
  refine (todo_answer hread hown hlocals h).imp_right ?_
  rintro ⟨rfl, hle⟩
  cases hr : c with
  | none => exact Or.inl (le_bot_iff.mp (by simpa [hr] using hle))
  | some r => exact Or.inr ⟨r, hc r hr, hr ▸ hle⟩

/-- A step ends the work on a key only with its local record covered. -/
theorem todo (h : CallEffect peers kind n net pc asking net' pc' asking') (hown : OwnRecord pc)
    (hput : ∀ f k l c locked, pc = .put f k l c locked → l.key = k ∧ l.kind = kind)
    (hlocals : localsAt pc = some localByKey) (htodo : Todo key pc) :
    Todo key pc' ∨ Covered net' kind key (versionOf (localByKey.lookup key)) := by
  cases h with
  | @hit pc k r hread hfound =>
      exact covered_answer hread (fun r' hr => Or.inl ⟨n, hr ▸ hfound⟩) hown hlocals htodo
  | miss hread habsent => exact Or.inl htodo
  | @reply pc k q rest r hread hfound =>
      exact covered_answer hread (fun r' hr => Or.inl ⟨q, hr ▸ hfound⟩) hown hlocals htodo
  | skip hread => exact Or.inl htodo
  | absent hread =>
      exact covered_answer hread (fun r' hr => nomatch hr) hown hlocals htodo
  | lock => exact Or.inl htodo
  | @put f k l c locked asking =>
      obtain ⟨hkey, hkind⟩ := hput f k l c locked rfl
      rcases htodo with rfl | hrest
      · refine Or.inr (Or.inr ⟨l, Or.inl ⟨n, ?_⟩, ?_⟩)
        · rw [stored_put net hkind, if_pos ⟨rfl, hkey.symm⟩]
        · obtain rfl : f.localByKey = localByKey := Option.some.inj hlocals
          rw [show f.localByKey.lookup key = some l from hown]
      · exact Or.inl ((todo_afterPut locked).mpr hrest)
  | release => exact Or.inl (todo_decided.mpr htodo)
  | apply res => exact Or.inl ((todo_afterApply res).mpr htodo)
  | flush res => exact htodo.elim
  | rollback => exact htodo.elim

/-- Only a tick in progress makes steps. -/
theorem exists_locals (h : CallEffect peers kind n net pc asking net' pc' asking') :
    ∃ m, localsAt pc = some m := by
  have hreading {k : GoString} (hread : readKey pc = some k) : ∃ m, localsAt pc = some m := by
    cases reading_of_readKey hread with
    | get f => exact ⟨_, rfl⟩
    | recheck f l c locked => exact ⟨_, rfl⟩
  cases h with
  | hit hread hfound => exact hreading hread
  | miss hread habsent => exact hreading hread
  | reply hread hfound => exact hreading hread
  | skip hread => exact hreading hread
  | absent hread => exact hreading hread
  | _ => exact ⟨_, rfl⟩

end CallEffect

/-- Every tick of a node starts with the same local records, and nothing is lost or
duplicated. -/
def FixedLocals (p : N → Provider P) (own : N → LocalMap) (s : Nodes N P) : Action N P → Prop
  | .begin n _ _ => s.locals p n = own n
  | .lose _ => False
  | .duplicate _ => False
  | .call _ _ => True
  | .change _ _ => True
  | .deliver _ => True

/-- Whether a `Put`, if the node is about to make one, finds nothing in the own store, or
something that is not newer. -/
def putsNotOlder (kind : GoString) (net : Net N) (n : N) : Pc → Bool
  | .put _ key l _ _ => (net.stored n kind key).all fun c => !c.version.newer l.version
  | _ => true

omit [DecidableEq N] in
theorem putsNotOlder_put {kind key : GoString} {net : Net N} {n : N} {f : Frame} {l : Record}
    {c : Option Record} {locked : Bool} :
    putsNotOlder kind net n (.put f key l c locked) = true ↔
      versionOf (net.stored n kind key) ≤ versionOf (some l) := by
  cases h : net.stored n kind key with
  | none => simp [putsNotOlder, h]
  | some r => simp [putsNotOlder, h, ← Bool.not_eq_true, Version.newer_iff_lt]

/-- No `Put` replaces something newer. -/
def Guarded (kind : GoString) (s : Nodes N P) : Action N P → Prop
  | .call n _ => putsNotOlder kind s.net n (s.pc n) = true
  | .begin _ _ _ => True
  | .change _ _ => True
  | .deliver _ => True
  | .lose _ => True
  | .duplicate _ => True

/-- The invariant of guarded runs. -/
structure Agreeing (own : N → LocalMap) (kind : GoString) (s : Nodes N P) : Prop where
  spread : ∀ key r, Circulates s.net kind key r → Spread s.net kind key (versionOf (some r))
  source : ∀ key r, Circulates s.net kind key r → ∃ n, (own n).lookup key = some r
  locals : ∀ n, ∀ m ∈ s.history n, m = own n
  pending : ∀ n, s.history n ≠ [] → ∀ key, Todo key (s.pc n) ∨
    Spread s.net kind key (versionOf ((own n).lookup key))
  ticked : ∀ n, s.ticked n = true → ∀ key,
    Spread s.net kind key (versionOf ((own n).lookup key))

section Steps

variable {peers : N → List N} {p : N → Provider P} {own : N → LocalMap} {kind : GoString}
  {s t : Nodes N P}

/-- What a guarded step does to the network: nothing spread is taken back, and what
is new is spread and local to the node. -/
theorem spread_of_call (hpeers : ∀ n, ∀ m ≠ n, m ∈ peers n) (hsound : Sound kind s)
    (h : Agreeing own kind s) {n : N} {net : Net N} {pc : Pc} {asking : Option (List N)}
    {answers : Bool} (hguard : Guarded kind s (.call n answers))
    (heffect : CallEffect (peers n) kind n s.net (s.pc n) (s.asking n) net pc asking) :
    (∀ key v, Spread s.net kind key v → Spread net kind key v) ∧
      ∀ key r, Circulates net kind key r → Spread net kind key (versionOf (some r)) ∧
        ∃ m, (own m).lookup key = some r := by
  rcases heffect.net_eq with rfl | ⟨f, k, l, c, locked, hpc, _, rfl⟩
  · exact ⟨fun _ _ hv => hv, fun key r hr => ⟨h.spread key r hr, h.source key r hr⟩⟩
  · obtain ⟨hbegun, hown, hkey, hkind⟩ := hsound.of_put hpc
    simp only [Guarded, hpc, putsNotOlder_put] at hguard
    have hkeep : ∀ key v, Spread s.net kind key v →
        Spread (s.net.put (peers n) n l) kind key v := by
      intro key v hv
      refine hv.put hkind (fun hk => ?_) _
      rw [← hk, hkey]
      exact hguard
    refine ⟨hkeep, fun key r hr => ?_⟩
    rcases hr.of_put hkind with hr | ⟨rfl, rfl⟩
    · exact ⟨hkeep _ _ (h.spread key r hr), h.source key r hr⟩
    · refine ⟨spread_put hkind (hpeers n), n, ?_⟩
      rw [← h.locals n _ hbegun, hkey]
      exact hown

/-- A guarded step of a node keeps the invariant. -/
theorem Agreeing.call (hpeers : ∀ n, ∀ m ≠ n, m ∈ peers n) (hsound : Sound kind s)
    (h : Agreeing own kind s) {n : N} {net : Net N} {pc : Pc} {asking : Option (List N)}
    {answers : Bool} (hguard : Guarded kind s (.call n answers)) (world : N → P)
    (applied : N → List (GoString × Record))
    (heffect : CallEffect (peers n) kind n s.net (s.pc n) (s.asking n) net pc asking) :
    Agreeing own kind ⟨net, Function.update s.pc n pc, Function.update s.asking n asking, world,
      applied, s.history, Function.update s.ticked n (s.ticked n || isIdle pc)⟩ := by
  obtain ⟨hkeep, hnew⟩ := spread_of_call hpeers hsound h hguard heffect
  have hcovered {key : GoString} {v : WithBot Version} (hv : Covered net kind key v) :
      Spread net kind key v := by
    rcases hv with rfl | ⟨r, hr, hle⟩
    · exact spread_bot
    · exact (hnew key r hr).1.of_le hle
  obtain ⟨m, hm⟩ := heffect.exists_locals
  have hmem : m ∈ s.history n := hsound.begun n m hm
  have hpending : ∀ key, Todo key pc ∨ Spread net kind key (versionOf ((own n).lookup key)) := by
    intro key
    rcases h.pending n (List.ne_nil_of_mem hmem) key with htodo | hspread
    · rcases heffect.todo (hsound.own n) (fun f k l c locked hpc => (hsound.of_put hpc).2.2) hm
        htodo with htodo | hcov
      · exact Or.inl htodo
      · exact Or.inr (h.locals n m hmem ▸ hcovered hcov)
    · exact Or.inr (hkeep _ _ hspread)
  refine ⟨fun key r hr => (hnew key r hr).1, fun key r hr => (hnew key r hr).2, h.locals, ?_, ?_⟩
  · intro q hq key
    by_cases hqn : q = n
    · subst hqn
      simpa only [Function.update_self] using hpending key
    · simp only [Function.update_of_ne hqn]
      exact (h.pending q hq key).imp_right (hkeep _ _)
  · intro q hq key
    by_cases hqn : q = n
    · subst hqn
      simp only [Function.update_self, Bool.or_eq_true] at hq
      rcases hq with hq | hidle
      · exact hkeep _ _ (h.ticked q hq key)
      · refine (hpending key).resolve_left fun htodo => ?_
        cases pc with
        | idle => exact htodo
        | _ => simp [isIdle] at hidle
    · simp only [Function.update_of_ne hqn] at hq
      exact hkeep _ _ (h.ticked q hq key)

/-- Starting a tick keeps the invariant. -/
theorem Agreeing.begin (h : Agreeing own kind s) (n : N) (ord : MapOrder) (known : List GoString)
    (world : N → P) :
    let pc := startTick (own n) (unionKeys ord (own n) (.ok known))
    Agreeing own kind { s with
      pc := Function.update s.pc n pc
      world := world
      history := Function.update s.history n (own n :: s.history n)
      ticked := Function.update s.ticked n (s.ticked n || isIdle pc) } := by
  intro pc
  have hpending : ∀ key, Todo key pc ∨ Spread s.net kind key (versionOf ((own n).lookup key)) := by
    intro key
    cases hl : (own n).lookup key with
    | none => exact Or.inr spread_bot
    | some l =>
        have hmem : key ∈ own n := AList.lookup_isSome.mp (by rw [hl]; rfl)
        have hvisited : key ∈ unionKeys ord (own n) (.ok known) := mem_unionKeys.mpr (Or.inl hmem)
        exact Or.inl ((todo_next (f := ⟨own n, _, []⟩)).mpr hvisited)
  refine ⟨h.spread, h.source, ?_, ?_, ?_⟩
  · intro q m hm
    by_cases hqn : q = n
    · subst hqn
      simp only [Function.update_self, List.mem_cons] at hm
      exact hm.elim id (h.locals q m)
    · simp only [Function.update_of_ne hqn] at hm
      exact h.locals q m hm
  · intro q hq key
    by_cases hqn : q = n
    · subst hqn
      simpa only [Function.update_self] using hpending key
    · simp only [Function.update_of_ne hqn] at hq ⊢
      exact h.pending q hq key
  · intro q hq key
    by_cases hqn : q = n
    · subst hqn
      simp only [Function.update_self, Bool.or_eq_true] at hq
      rcases hq with hq | hidle
      · exact h.ticked q hq key
      · refine (hpending key).resolve_left fun htodo => ?_
        cases hpc : pc with
        | idle => exact (hpc ▸ htodo : Todo key .idle)
        | _ => simp [hpc, isIdle] at hidle
    · simp only [Function.update_of_ne hqn] at hq
      exact h.ticked q hq key

/-- Every guarded step keeps the invariant. -/
theorem Agreeing.step (hkind : ∀ n, (p n).kind = kind) (hpeers : ∀ n, ∀ m ≠ n, m ∈ peers n)
    (hsound : Sound kind s) (h : Agreeing own kind s) {a : Action N P}
    (ha : FixedLocals p own s a) (hguard : Guarded kind s a)
    (hstep : Nodes.step peers p s a = some t) : Agreeing own kind t := by
  cases a with
  | begin n ord known =>
      cases hpc : s.pc n with
      | idle =>
          have hown : s.locals p n = own n := ha
          simp only [Nodes.step, hpc, hown, Option.some.injEq] at hstep
          subst hstep
          exact h.begin n ord known _
      | _ => simp [Nodes.step, hpc] at hstep
  | call n answers =>
      simp only [Nodes.step, Option.map_eq_some_iff] at hstep
      obtain ⟨v, hv, rfl⟩ := hstep
      have heffect := callEffect_of_step hv
      rw [hkind n] at heffect
      exact h.call hpeers hsound hguard _ _ heffect
  | change n w =>
      simp only [Nodes.step, Option.some.injEq] at hstep
      subst hstep
      exact ⟨h.spread, h.source, h.locals, h.pending, h.ticked⟩
  | deliver m =>
      simp only [Nodes.step] at hstep
      split_ifs at hstep with hm
      · rw [← Option.some.inj hstep]
        have hmkind := hsound.flight m hm
        exact ⟨fun key r hr => (h.spread key r (hr.of_deliver hm hmkind)).deliver hmkind,
          fun key r hr => h.source key r (hr.of_deliver hm hmkind), h.locals,
          fun n hn key => (h.pending n hn key).imp_right fun hs => hs.deliver hmkind,
          fun n hn key => (h.ticked n hn key).deliver hmkind⟩
  | lose m => exact ha.elim
  | duplicate m => exact ha.elim

end Steps

omit [DecidableEq N] in
theorem Initial.agreeing {s : Nodes N P} (h : Initial s) (own : N → LocalMap) (kind : GoString) :
    Agreeing own kind s := by
  have hnone : ∀ key r, ¬ Circulates s.net kind key r := by
    rintro key r (⟨n, hn⟩ | ⟨q, hq, _⟩)
    · simp [Net.stored, handleGetRecord, h.stores n] at hn
    · simp [h.flight] at hq
  refine ⟨fun key r hr => (hnone key r hr).elim, fun key r hr => (hnone key r hr).elim, ?_, ?_, ?_⟩
  · intro n m hm
    simp [h.history n] at hm
  · intro n hn
    exact absurd (h.history n) hn
  · intro n hn
    simp [h.ticked n] at hn

/-- All nodes store the same version for the key, the newest of the local ones. -/
def Agree (own : N → LocalMap) (kind key : GoString) (net : Net N) : Prop :=
  ∃ v : Version, (∀ n, ∃ r, net.stored n kind key = some r ∧ r.version = v) ∧
    (∃ m l, (own m).lookup key = some l ∧ l.version = v) ∧
    ∀ m l, (own m).lookup key = some l → l.version.newer v = false

/-- In every run in which no `Put` replaces something newer, the nodes agree on
every published key once the network is quiescent. -/
theorem agree_of_guarded {peers : N → List N} {p : N → Provider P} {own : N → LocalMap}
    {kind : GoString} (hkind : ∀ n, (p n).kind = kind) (hpeers : ∀ n, ∀ m ≠ n, m ∈ peers n)
    {s₀ s : Nodes N P} (h₀ : Initial s₀)
    (hrun : Runs.Run (Nodes.step peers p) (fun s a => FixedLocals p own s a ∧ Guarded kind s a)
      s₀ s)
    (hquiet : Quiescent peers p own s) {key : GoString} (hpublished : ∃ n, key ∈ own n) :
    Agree own kind key s.net := by
  obtain ⟨_, hinv⟩ := Runs.Run.invariant (I := fun s => Sound kind s ∧ Agreeing own kind s)
    (fun s a t hs ha hstep => ⟨hs.1.step hkind hstep,
      hs.2.step hkind hpeers hs.1 ha.1 ha.2 hstep⟩)
    hrun ⟨h₀.sound kind, h₀.agreeing own kind⟩
  -- with nothing on its way, what is spread is stored
  have hstored : ∀ {v}, Spread s.net kind key v → ∀ n, v ≤ versionOf (s.net.stored n kind key) := by
    intro v hv n
    rcases hv n with hn | ⟨r, hr, _⟩
    · exact hn
    · simp [hquiet.flight] at hr
  have hle : ∀ n m, versionOf (s.net.stored n kind key) ≤ versionOf (s.net.stored m kind key) := by
    intro n m
    cases hn : s.net.stored n kind key with
    | none => exact bot_le
    | some r => exact hstored (hinv.spread key r (Or.inl ⟨n, hn⟩)) m
  have hlocal : ∀ m n, versionOf ((own m).lookup key) ≤ versionOf (s.net.stored n kind key) :=
    fun m n => hstored (hinv.ticked m (hquiet.ticked m) key) n
  obtain ⟨m, hm⟩ := hpublished
  obtain ⟨l, hl⟩ := Option.isSome_iff_exists.mp (AList.lookup_isSome.mpr hm)
  have hsome : ∀ n, ∃ r, s.net.stored n kind key = some r := by
    intro n
    refine Option.ne_none_iff_exists'.mp fun hnone => ?_
    have hown := eq_none_of_versionOf_le (hlocal m n) hnone
    rw [hl] at hown
    exact absurd hown (by simp)
  obtain ⟨r, hr⟩ := hsome m
  refine ⟨r.version, ?_, ?_, ?_⟩
  · intro n
    obtain ⟨r', hr'⟩ := hsome n
    have hsame := le_antisymm (hle n m) (hle m n)
    rw [hr, hr'] at hsame
    exact ⟨r', hr', WithBot.coe_injective hsame⟩
  · obtain ⟨q, hq⟩ := hinv.source key r (Or.inl ⟨m, hr⟩)
    exact ⟨q, r, hq, rfl⟩
  · intro q l' hl'
    have hq := hlocal q m
    rw [hl', hr] at hq
    exact Version.newer_eq_false_iff.mpr (WithBot.coe_le_coe.mp hq)

/-- Two nodes, peers of each other, with different local records for one key. -/
def rivalLocals (n : Bool) : LocalMap := indexLocals [sampleRecord (if n then 200 else 100)]

def rivalNodes : Nodes Bool (List Record) where
  net := ⟨fun _ => ∅, []⟩
  pc _ := .idle
  asking _ := none
  world n := [sampleRecord (if n then 200 else 100)]
  applied _ := []
  history _ := []
  ticked _ := false

theorem rivalNodes_initial : Initial rivalNodes :=
  ⟨fun _ => rfl, rfl, fun _ => rfl, fun _ => rfl, fun _ => rfl, fun _ => rfl, fun _ => rfl⟩

/-- Both nodes have ticked, are idle, and store the given records; nothing is on its
way. -/
def Settled (stored : Bool → Record) (s : Nodes Bool (List Record)) : Prop :=
  s.net.flight = [] ∧ ∀ n, s.ticked n = true ∧ isIdle (s.pc n) = true ∧ s.asking n = none ∧
    s.net.stored n (ascii "k") (ascii "a") = some (stored n)

instance (stored : Bool → Record) (s : Nodes Bool (List Record)) : Decidable (Settled stored s) :=
  inferInstanceAs (Decidable (_ ∧ _))

/-- A settled state is quiescent when no stored record is older than the local one. -/
theorem Settled.quiescent {stored : Bool → Record} {s : Nodes Bool (List Record)}
    (h : Settled stored s)
    (hkeep : ∀ n, keeps (sampleRecord (if n then 200 else 100)) (some (stored n))) :
    Quiescent (fun n => [!n]) (fun _ => fakeProvider (ascii "k")) rivalLocals s := by
  obtain ⟨hflight, hnodes⟩ := h
  refine ⟨fun n => (hnodes n).1, hflight, fun n t hrun => ?_⟩
  obtain ⟨_, hidle, hasking, hstored⟩ := hnodes n
  have hpc : s.pc n = .idle := by
    cases hpc : s.pc n with
    | idle => rfl
    | _ => simp [hpc, isIdle] at hidle
  rw [silent_of_fresh (fun _ => rfl) hpc hasking ?_ hrun, hflight]
  intro key l hl
  obtain ⟨hkey, hmem⟩ := key_of_lookup_indexLocals hl
  obtain rfl := List.mem_singleton.mp hmem
  obtain rfl : ascii "a" = key := hkey
  change keeps _ (s.net.stored n (ascii "k") (ascii "a")) = true
  rw [hstored]
  exact hkeep n

instance (p : N → Provider P) (own : N → LocalMap) (s : Nodes N P) (a : Action N P) :
    Decidable (FixedLocals p own s a) :=
  match a with
  | .begin n _ _ => decidable_of_iff ((s.locals p n).entries = (own n).entries) AList.ext_iff.symm
  | .lose _ => inferInstanceAs (Decidable False)
  | .duplicate _ => inferInstanceAs (Decidable False)
  | .call _ _ => inferInstanceAs (Decidable True)
  | .change _ _ => inferInstanceAs (Decidable True)
  | .deliver _ => inferInstanceAs (Decidable True)

instance (kind : GoString) (s : Nodes N P) (a : Action N P) : Decidable (Guarded kind s a) :=
  match a with
  | .call n _ => inferInstanceAs (Decidable (putsNotOlder kind s.net n (s.pc n) = true))
  | .begin _ _ _ => inferInstanceAs (Decidable True)
  | .change _ _ => inferInstanceAs (Decidable True)
  | .deliver _ => inferInstanceAs (Decidable True)
  | .lose _ => inferInstanceAs (Decidable True)
  | .duplicate _ => inferInstanceAs (Decidable True)

/-- The node with the newer record publishes first, and the other one reads it. -/
def orderedActions : List (Action Bool (List Record)) :=
  .begin true .insertion [] :: List.replicate 10 (.call true true) ++
    [.deliver (false, sampleRecord 200), .begin false .insertion [ascii "a"], .call false true,
      .call false true]

theorem agree_after_ordered_ticks :
    ∃ s, Runs.Run (Nodes.step (fun n => [!n]) fun _ => fakeProvider (ascii "k"))
        (fun s a => FixedLocals (fun _ => fakeProvider (ascii "k")) rivalLocals s a ∧
          Guarded (ascii "k") s a) rivalNodes s ∧
      Quiescent (fun n => [!n]) (fun _ => fakeProvider (ascii "k")) rivalLocals s ∧
      Agree rivalLocals (ascii "k") (ascii "a") s.net := by
  obtain ⟨s, hrun, hsettled⟩ : ∃ s, Runs.Run
      (Nodes.step (fun n => [!n]) fun _ => fakeProvider (ascii "k"))
      (fun s a => FixedLocals (fun _ => fakeProvider (ascii "k")) rivalLocals s a ∧
        Guarded (ascii "k") s a) rivalNodes s ∧ Settled (fun _ => sampleRecord 200) s :=
    Runs.Run.exists_of_replay orderedActions (by decide)
  have hquiet := hsettled.quiescent (by decide)
  exact ⟨s, hrun, hquiet, agree_of_guarded (fun _ => rfl) (by decide) rivalNodes_initial hrun
    hquiet ⟨true, by decide⟩⟩

/-- Node `false` re-checks and finds nothing. The push of the newer record arrives
before its `Put`, which overwrites it. -/
def racingActions : List (Action Bool (List Record)) :=
  .begin false .insertion [] :: List.replicate 7 (.call false true) ++
    .begin true .insertion [] :: List.replicate 10 (.call true true) ++
    .deliver (false, sampleRecord 200) :: List.replicate 3 (.call false true) ++
    [.deliver (true, sampleRecord 100)]

theorem race_leaves_disagreement :
    Initial rivalNodes ∧
    ∃ s, Runs.Run (Nodes.step (fun n => [!n]) fun _ => fakeProvider (ascii "k"))
        (FixedLocals (fun _ => fakeProvider (ascii "k")) rivalLocals) rivalNodes s ∧
      Quiescent (fun n => [!n]) (fun _ => fakeProvider (ascii "k")) rivalLocals s ∧
      s.net.stored false (ascii "k") (ascii "a") = some (sampleRecord 100) ∧
      s.net.stored true (ascii "k") (ascii "a") = some (sampleRecord 200) ∧
      ¬ Agree rivalLocals (ascii "k") (ascii "a") s.net := by
  obtain ⟨s, hrun, hsettled⟩ : ∃ s, Runs.Run
      (Nodes.step (fun n => [!n]) fun _ => fakeProvider (ascii "k"))
      (FixedLocals (fun _ => fakeProvider (ascii "k")) rivalLocals) rivalNodes s ∧
      Settled (fun n => sampleRecord (if n then 200 else 100)) s :=
    Runs.Run.exists_of_replay racingActions (by decide)
  have hstored := fun n => (hsettled.2 n).2.2.2
  refine ⟨rivalNodes_initial, s, hrun, hsettled.quiescent (by decide), hstored false,
    hstored true, ?_⟩
  rintro ⟨v, hall, _⟩
  obtain ⟨r, hr, hv⟩ := hall false
  obtain ⟨r', hr', hv'⟩ := hall true
  obtain rfl : sampleRecord 100 = r := Option.some.inj ((hstored false).symm.trans hr)
  obtain rfl : sampleRecord 200 = r' := Option.some.inj ((hstored true).symm.trans hr')
  exact absurd (hv.trans hv'.symm) (by decide)

end Lbsync.Wan
