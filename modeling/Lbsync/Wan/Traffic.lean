import Lbsync.Wan.SingleOrigin
import Mathlib.Data.List.Dedup
import Mathlib.Data.List.Perm.Subperm
import Mathlib.Order.Filter.AtTopBot.Basic
import Mathlib.Order.Filter.Finite

/-!
# How much a node sends

Only `Put` sends messages. A node may overwrite a newer record in its store that
arrived between its re-check and its `Put`, but never goes back behind what it
has put itself: its store keeps at least that version, and the re-check reads the
own store first. So the versions it puts for a key get strictly newer, each is
that of a local record, and the number of messages is bounded by the number of
versions the local copy took.
-/

namespace Lbsync.Wan

open Engine Runs

variable {N P : Type*} [DecidableEq N]

/-- The record a step passes to `Put`, with the node that does. -/
def putAt (s : Nodes N P) : Action N P → List (N × Record)
  | .call n _ =>
      match s.pc n with
      | .put _ _ l _ _ => [(n, l)]
      | _ => []
  | _ => []

/-- What a node passes to `Put`. -/
def putsBy (n : N) (s : Nodes N P) (a : Action N P) : List Record :=
  ((putAt s a).filter fun e => e.1 = n).map Prod.snd

/-- What a node passes to `Put` for a key. -/
def putsOf (n : N) (key : GoString) (s : Nodes N P) (a : Action N P) : List Record :=
  (putsBy n s a).filter fun r => r.key = key

/-- The messages a step creates, with their receivers. -/
def sentAt (peers : N → List N) (s : Nodes N P) (a : Action N P) : List (N × Record) :=
  (putAt s a).flatMap fun e => (peers e.1).map fun q => (q, e.2)

/-- The messages about a key that a node creates. -/
def sentAbout (peers : N → List N) (n : N) (key : GoString) (s : Nodes N P) (a : Action N P) :
    List (N × Record) :=
  (putsOf n key s a).flatMap fun r => (peers n).map fun q => (q, r)

/-- The different versions of a key among the local records of the ticks begun so far. -/
def versionsTaken (n : N) (key : GoString) (s : Nodes N P) : List Version :=
  ((s.history n).filterMap fun m => (m.lookup key).map Record.version).dedup

/-- The keys and versions of some local records. -/
def keyVersions (maps : List LocalMap) : List (GoString × Version) :=
  maps.flatMap fun m => m.entries.map fun e => (e.1, e.2.version)

section Steps

variable {peers : N → List N} {p : N → Provider P} {kind key : GoString} {n : N}
  {s t : Nodes N P} {a : Action N P}

/-- Every message is created by a `Put`; the network may duplicate it. -/
theorem flight_subperm (hstep : Nodes.step peers p s a = some t)
    (hdup : ∀ m, a ≠ .duplicate m) :
    List.Subperm t.net.flight (s.net.flight ++ sentAt peers s a) := by
  have kept {flight : List (N × Record)} (hsub : flight.Sublist s.net.flight) :
      List.Subperm flight (s.net.flight ++ sentAt peers s a) :=
    (hsub.trans (List.sublist_append_left _ _)).subperm
  cases a with
  | begin m ord known =>
      cases hpc : s.pc m with
      | idle =>
          simp only [Nodes.step, hpc, Option.some.injEq] at hstep
          subst hstep
          exact kept (List.Sublist.refl _)
      | _ => simp [Nodes.step, hpc] at hstep
  | call m answers =>
      simp only [Nodes.step, Option.map_eq_some_iff] at hstep
      obtain ⟨v, hv, rfl⟩ := hstep
      rcases (callEffect_of_step hv).net_eq with hnet | ⟨f, k, l, c, locked, hpc, _, hnet⟩
      · exact kept (hnet ▸ List.Sublist.refl _)
      · have hpc' : s.pc m = .put f k l c locked := hpc
        simp only [hnet, Net.put, sentAt, putAt, hpc', List.flatMap_cons, List.flatMap_nil,
          List.append_nil]
        exact List.Subperm.refl _
  | change m w =>
      simp only [Nodes.step, Option.some.injEq] at hstep
      subst hstep
      exact kept (List.Sublist.refl _)
  | deliver m =>
      simp only [Nodes.step] at hstep
      split_ifs at hstep
      · rw [← Option.some.inj hstep]
        exact kept List.erase_sublist
  | lose m =>
      simp only [Nodes.step] at hstep
      split_ifs at hstep
      · rw [← Option.some.inj hstep]
        exact kept List.erase_sublist
  | duplicate m => exact absurd rfl (hdup m)

/-- What a node has put for a key so far, in order: it gets strictly newer, the store keeps up
with it, and so does the re-check. -/
structure Ordered (kind key : GoString) (n : N) (s : Nodes N P) (puts : List Record) : Prop where
  sound : Sound kind s
  ascending : puts.Pairwise fun r r' => r.version < r'.version
  floor : versionOf puts.getLast? ≤ versionOf (s.net.stored n kind key)
  checked : Checked puts.getLast? key (s.pc n) (s.asking n)
  listed : ∀ r ∈ puts, ∃ m ∈ s.history n, m.lookup key = some r

omit [DecidableEq N] in
theorem Initial.ordered (h : Initial s) (kind key : GoString) (n : N) :
    Ordered kind key n s [] where
  sound := h.sound kind
  ascending := List.Pairwise.nil
  floor := bot_le
  checked := by
    rw [h.idle n]
    trivial
  listed := by simp

/-- The last record put is the newest one. -/
theorem Ordered.append {puts : List Record} {l : Record}
    (h : puts.Pairwise fun r r' => r.version < r'.version)
    (hlast : versionOf puts.getLast? < versionOf (some l)) :
    (puts ++ [l]).Pairwise fun r r' => r.version < r'.version := by
  rw [List.pairwise_append]
  refine ⟨h, List.pairwise_singleton _ _, fun r hr r' hr' => ?_⟩
  obtain rfl := List.mem_singleton.mp hr'
  obtain ⟨init, last, rfl⟩ := (List.eq_nil_or_concat' puts).resolve_left (List.ne_nil_of_mem hr)
  rw [List.getLast?_concat] at hlast
  have hlt : last.version < r'.version := by simpa [versionOf] using hlast
  rcases List.mem_append.mp hr with hinit | hmem
  · exact ((List.pairwise_append.mp h).2.2 r hinit last (by simp)).trans hlt
  · rwa [List.mem_singleton.mp hmem]

omit [DecidableEq N] in
/-- The other nodes, the network and local changes leave the order alone. -/
theorem Ordered.of_frame {puts : List Record} (h : Ordered kind key n s puts)
    (hsound : Sound kind t) (hpc : t.pc n = s.pc n) (hasking : t.asking n = s.asking n)
    (hhistory : ∀ m ∈ s.history n, m ∈ t.history n)
    (hstored : versionOf (s.net.stored n kind key) ≤ versionOf (t.net.stored n kind key)) :
    Ordered kind key n t puts where
  sound := hsound
  ascending := h.ascending
  floor := h.floor.trans hstored
  checked := by
    rw [hpc, hasking]
    exact h.checked
  listed r hr := by
    obtain ⟨m, hm, hl⟩ := h.listed r hr
    exact ⟨m, hhistory m hm, hl⟩

theorem putsOf_call_put {f : Frame} {k : GoString} {l : Record} {c : Option Record}
    {locked answers : Bool} (hpc : s.pc n = .put f k l c locked) :
    putsOf n key s (.call n answers) = if l.key = key then [l] else [] := by
  simp only [putsOf, putsBy, putAt, hpc]
  by_cases hkey : l.key = key <;> simp [hkey]

theorem putsOf_call_of_ne {m : N} (hm : m ≠ n) (answers : Bool) :
    putsOf n key s (.call m answers) = [] := by
  simp only [putsOf, putsBy, putAt]
  split <;> simp [hm]

theorem putsOf_call_other {answers : Bool}
    (hpc : ∀ f k l c locked, s.pc n ≠ .put f k l c locked) :
    putsOf n key s (.call n answers) = [] := by
  simp only [putsOf, putsBy, putAt]
  rfl

theorem CallEffect.of_put {net net' : Net N} {f : Frame} {k : GoString} {l : Record}
    {c : Option Record} {locked : Bool} {pc : Pc} {asking asking' : Option (List N)}
    (h : CallEffect (peers n) kind n net (.put f k l c locked) asking net' pc asking') :
    net' = net.put (peers n) n l ∧ pc = f.afterPut k l c locked := by
  cases h with
  | hit hread => cases hread
  | miss hread => cases hread
  | reply hread => cases hread
  | skip hread => cases hread
  | absent hread => cases hread
  | put => exact ⟨rfl, rfl⟩

/-- A step of the node itself. -/
theorem Ordered.call {puts : List Record} (h : Ordered kind key n s puts) {net : Net N} {pc : Pc}
    {asking : Option (List N)} {world : N → P} {applied : N → List (GoString × Record)}
    {ticked : N → Bool} {answers : Bool}
    (heffect : CallEffect (peers n) kind n s.net (s.pc n) (s.asking n) net pc asking) :
    Ordered kind key n ⟨net, Function.update s.pc n pc, Function.update s.asking n asking, world,
      applied, s.history, ticked⟩ (puts ++ putsOf n key s (.call n answers)) := by
  have hsound : Sound kind (⟨net, Function.update s.pc n pc, Function.update s.asking n asking,
      world, applied, s.history, ticked⟩ : Nodes N P) := h.sound.call heffect
  by_cases hput : ∃ f k l c locked, s.pc n = .put f k l c locked
  · obtain ⟨f, k, l, c, locked, hpc⟩ := hput
    obtain ⟨hbegun, hown, hkey, hkind⟩ := h.sound.of_put hpc
    have hcheck := h.checked
    rw [hpc] at heffect hcheck
    obtain ⟨rfl, rfl⟩ := heffect.of_put
    have hidle (own : Option Record) : Checked own key (f.afterPut k l c locked) asking :=
      Checked.of_checkKey (checkKey_afterPut f k l c locked) asking
    rw [putsOf_call_put hpc]
    by_cases hk : l.key = key
    · rw [if_pos hk]
      refine ⟨hsound, Ordered.append h.ascending (hcheck (hkey ▸ hk)), ?_, ?_, ?_⟩
      · rw [List.getLast?_concat, stored_put s.net hkind, if_pos ⟨rfl, hk.symm⟩]
      · simpa only [Function.update_self] using hidle _
      · intro r hr
        rcases List.mem_append.mp hr with hr | hr
        · exact h.listed r hr
        · rw [List.mem_singleton.mp hr]
          exact ⟨_, hbegun, hk ▸ hkey ▸ hown⟩
    · rw [if_neg hk, List.append_nil]
      refine ⟨hsound, h.ascending, ?_, ?_, h.listed⟩
      · rw [stored_put s.net hkind, if_neg fun heq => hk heq.2.symm]
        exact h.floor
      · simpa only [Function.update_self] using hidle _
  · have hother : ∀ f k l c locked, s.pc n ≠ .put f k l c locked :=
      fun f k l c locked heq => hput ⟨f, k, l, c, locked, heq⟩
    have hnet : net = s.net := by
      rcases heffect.net_eq with hnet | ⟨f, k, l, c, locked, hpc, _⟩
      · exact hnet
      · exact absurd hpc (hother f k l c locked)
    rw [putsOf_call_other hother, List.append_nil]
    refine ⟨hsound, h.ascending, hnet ▸ h.floor, ?_, h.listed⟩
    simpa only [Function.update_self] using
      heffect.checked_of_le (h.sound.quiet n) h.floor h.checked

/-- Every step keeps the order. -/
theorem Ordered.step {puts : List Record} (hkind : ∀ n, (p n).kind = kind)
    (h : Ordered kind key n s puts) (hstep : Nodes.step peers p s a = some t) :
    Ordered kind key n t (puts ++ putsOf n key s a) := by
  have hsound := h.sound.step hkind hstep
  cases a with
  | begin m ord known =>
      cases hpc : s.pc m with
      | idle =>
          simp only [Nodes.step, hpc, Option.some.injEq] at hstep
          subst hstep
          rw [show putsOf n key s (.begin m ord known) = [] from rfl, List.append_nil]
          by_cases hm : n = m
          · subst hm
            refine ⟨hsound, h.ascending, h.floor, ?_, fun r hr => ?_⟩
            · simp only [Function.update_self]
              exact Checked.of_checkKey (checkKey_next _) _
            · obtain ⟨m, hmem, hl⟩ := h.listed r hr
              simp only [Function.update_self]
              exact ⟨m, List.mem_cons_of_mem _ hmem, hl⟩
          · refine h.of_frame hsound (Function.update_of_ne hm _ _) rfl (fun m hmem => ?_) le_rfl
            simpa only [Function.update_of_ne hm] using hmem
      | _ => simp [Nodes.step, hpc] at hstep
  | call m answers =>
      simp only [Nodes.step, Option.map_eq_some_iff] at hstep
      obtain ⟨v, hv, rfl⟩ := hstep
      have heffect := callEffect_of_step hv
      rw [hkind m] at heffect
      by_cases hm : m = n
      · subst hm
        exact h.call heffect
      · rw [putsOf_call_of_ne hm, List.append_nil]
        refine h.of_frame hsound (Function.update_of_ne (Ne.symm hm) _ _)
          (Function.update_of_ne (Ne.symm hm) _ _) (fun _ hmem => hmem) (le_of_eq ?_)
        rcases heffect.net_eq with hnet | ⟨f, k, l, c, locked, hpc, _, hnet⟩
        · rw [hnet]
        · rw [hnet, stored_put s.net (h.sound.of_put hpc).2.2.2,
            if_neg fun heq => hm heq.1.symm]
  | change m w =>
      simp only [Nodes.step, Option.some.injEq] at hstep
      subst hstep
      rw [show putsOf n key s (.change m w) = [] from rfl, List.append_nil]
      exact h.of_frame hsound rfl rfl (fun _ hmem => hmem) le_rfl
  | deliver m =>
      simp only [Nodes.step] at hstep
      split_ifs at hstep with hm
      · obtain rfl := Option.some.inj hstep
        rw [show putsOf n key s (.deliver m) = [] from rfl, List.append_nil]
        exact h.of_frame hsound rfl rfl (fun _ hmem => hmem)
          (le_stored_receive s.net (h.sound.flight m hm) m.1 n key)
  | lose m =>
      simp only [Nodes.step] at hstep
      split_ifs at hstep
      · obtain rfl := Option.some.inj hstep
        rw [show putsOf n key s (.lose m) = [] from rfl, List.append_nil]
        exact h.of_frame hsound rfl rfl (fun _ hmem => hmem) le_rfl
  | duplicate m =>
      simp only [Nodes.step] at hstep
      split_ifs at hstep
      · obtain rfl := Option.some.inj hstep
        rw [show putsOf n key s (.duplicate m) = [] from rfl, List.append_nil]
        exact h.of_frame hsound rfl rfl (fun _ hmem => hmem) le_rfl

/-- Only a tick that begins adds to the history, and it adds the local records of that moment. -/
theorem mem_history_of_step (hstep : Nodes.step peers p s a = some t) {m : LocalMap}
    (hm : m ∈ t.history n) : m ∈ s.history n ∨ m = s.locals p n := by
  cases a with
  | begin k ord known =>
      cases hpc : s.pc k with
      | idle =>
          simp only [Nodes.step, hpc, Option.some.injEq] at hstep
          subst hstep
          by_cases hk : n = k
          · subst hk
            simp only [Function.update_self, List.mem_cons] at hm
            exact hm.symm
          · simp only [Function.update_of_ne hk] at hm
            exact Or.inl hm
      | _ => simp [Nodes.step, hpc] at hstep
  | call k answers =>
      simp only [Nodes.step, Option.map_eq_some_iff] at hstep
      obtain ⟨v, _, rfl⟩ := hstep
      exact Or.inl hm
  | change k w =>
      simp only [Nodes.step, Option.some.injEq] at hstep
      subst hstep
      exact Or.inl hm
  | _ =>
      simp only [Nodes.step] at hstep
      split_ifs at hstep
      obtain rfl := Option.some.inj hstep
      exact Or.inl hm

end Steps

section Executions

variable {peers : N → List N} {p : N → Provider P} {kind : GoString}
  (x : Execution (Nodes.step peers p))

theorem events_putsOf (n : N) (key : GoString) (i : ℕ) :
    x.events (putsOf n key) i = (x.events (putsBy n) i).filter fun r => r.key = key := by
  induction i with
  | zero => rfl
  | succ i ih => rw [Execution.events, Execution.events, List.filter_append, ih, putsOf]

theorem length_events_sentAbout (n : N) (key : GoString) (i : ℕ) :
    (x.events (sentAbout peers n key) i).length =
      (peers n).length * (x.events (putsOf n key) i).length := by
  induction i with
  | zero => rfl
  | succ i ih =>
      have hsent (s : Nodes N P) (a : Action N P) : (sentAbout peers n key s a).length =
          (peers n).length * (putsOf n key s a).length := by
        simp [sentAbout, List.length_flatMap, Nat.mul_comm]
      rw [Execution.events, Execution.events, List.length_append, List.length_append, ih, hsent,
        Nat.mul_add]

variable (hkind : ∀ n, (p n).kind = kind) (hinit : Initial (x.state 0))

include hkind hinit

theorem ordered_events (n : N) (key : GoString) (i : ℕ) :
    Ordered kind key n (x.state i) (x.events (putsOf n key) i) :=
  x.invariant (fun _ _ _ _ h hstep => h.step hkind hstep) (hinit.ordered kind key n) i

/-- A node puts no version of a key twice. -/
theorem nodup_events (n : N) (i : ℕ) :
    ((x.events (putsBy n) i).map fun r => (r.key, r.version)).Nodup := by
  have hpairwise : (x.events (putsBy n) i).Pairwise
      fun r r' => (r.key, r.version) ≠ (r'.key, r'.version) := by
    rw [List.pairwise_iff_forall_sublist]
    intro r r' hsub heq
    obtain ⟨hkey, hversion⟩ := Prod.mk.inj heq
    have hfiltered := hsub.filter fun q => q.key = r.key
    rw [← events_putsOf] at hfiltered
    have hlt := (ordered_events x hkind hinit n r.key i).ascending.sublist hfiltered
    simp [hkey, hversion] at hlt
  exact List.pairwise_map.mpr hpairwise

/-- Every version put for a key is one the local copy took. -/
theorem length_puts_le (n : N) (key : GoString) (i : ℕ) :
    (x.events (putsOf n key) i).length ≤ (versionsTaken n key (x.state i)).length := by
  have hordered := ordered_events x hkind hinit n key i
  have hnodup : ((x.events (putsOf n key) i).map Record.version).Nodup :=
    List.pairwise_map.mpr (hordered.ascending.imp fun hlt => hlt.ne)
  have hsub : (x.events (putsOf n key) i).map Record.version ⊆
      versionsTaken n key (x.state i) := by
    intro v hv
    obtain ⟨r, hr, rfl⟩ := List.mem_map.mp hv
    obtain ⟨m, hm, hl⟩ := hordered.listed r hr
    exact List.mem_dedup.mpr (List.mem_filterMap.mpr ⟨m, hm, by rw [hl]; rfl⟩)
  simpa using (hnodup.subperm hsub).length_le

theorem keyVersion_mem (n : N) (i : ℕ) {r : Record} (hr : r ∈ x.events (putsBy n) i) :
    (r.key, r.version) ∈ keyVersions ((x.state i).history n) := by
  have hkey : r ∈ x.events (putsOf n r.key) i := by
    rw [events_putsOf]
    exact List.mem_filter.mpr ⟨hr, by simp⟩
  obtain ⟨m, hm, hl⟩ := (ordered_events x hkind hinit n r.key i).listed r hkey
  exact List.mem_flatMap.mpr
    ⟨m, hm, List.mem_map.mpr ⟨⟨r.key, r⟩, AList.mem_lookup_iff.mp hl, rfl⟩⟩

omit hkind hinit in
/-- Once the local copy stops changing, later ticks add nothing else to the history. -/
theorem mem_history_of_settled {n : N} {i j : ℕ} (hij : i ≤ j)
    (hsettled : ∀ k ≥ i, (x.state k).locals p n = (x.state i).locals p n) {m : LocalMap}
    (hm : m ∈ (x.state j).history n) :
    m ∈ (x.state i).locals p n :: (x.state i).history n := by
  induction hij with
  | refl => exact List.mem_cons_of_mem _ hm
  | @step k hik ih =>
      rcases mem_history_of_step (x.next k) hm with hold | hnew
      · exact ih hold
      · rw [hnew, hsettled k hik]
        exact List.mem_cons_self

/-- A node whose local copy has stopped changing stops sending. -/
theorem eventually_no_puts {n : N} {i : ℕ}
    (hsettled : ∀ j ≥ i, (x.state j).locals p n = (x.state i).locals p n) :
    ∃ last, ∀ j ≥ last, putsBy n (x.state j) (x.action j) = [] := by
  refine x.eventually_silent
    (keyVersions ((x.state i).locals p n :: (x.state i).history n)).length fun j => ?_
  have hsub : (x.events (putsBy n) (max i j)).map (fun r => (r.key, r.version)) ⊆
      keyVersions ((x.state i).locals p n :: (x.state i).history n) := by
    intro kv hkv
    obtain ⟨r, hr, rfl⟩ := List.mem_map.mp hkv
    obtain ⟨m, hm, hmem⟩ := List.mem_flatMap.mp (keyVersion_mem x hkind hinit n _ hr)
    exact List.mem_flatMap.mpr
      ⟨m, mem_history_of_settled x (Nat.le_max_left i j) hsettled hm, hmem⟩
  calc (x.events (putsBy n) j).length
      ≤ (x.events (putsBy n) (max i j)).length := x.length_events_mono _ (Nat.le_max_right i j)
    _ = ((x.events (putsBy n) (max i j)).map fun r => (r.key, r.version)).length := by simp
    _ ≤ _ := ((nodup_events x hkind hinit n _).subperm hsub).length_le

end Executions

/-- The local copy of a node stops changing. -/
def Settles (p : N → Provider P) {peers : N → List N} (x : Execution (Nodes.step peers p))
    (n : N) : Prop :=
  ∃ i, ∀ j ≥ i, (x.state j).locals p n = (x.state i).locals p n

/-- The versions a node puts for a key are strictly increasing. Messages are created by `Put`
alone, one for each peer, so never by a delivery. A node sends about a key at most one
message to each peer for every version its local copy took. Once its local copy stops
changing it sends nothing more, and with finitely many such nodes the traffic ends. -/
theorem no_publish_storm {peers : N → List N} {p : N → Provider P} {kind : GoString}
    (hkind : ∀ n, (p n).kind = kind) (x : Execution (Nodes.step peers p))
    (hinit : Initial (x.state 0)) :
    (∀ n key i, (x.events (putsOf n key) i).Pairwise fun r r' => r.version < r'.version) ∧
    (∀ i m, x.action i = .deliver m →
      List.Subperm (x.state (i + 1)).net.flight (x.state i).net.flight) ∧
    (∀ i, (∀ m, x.action i ≠ .duplicate m) → List.Subperm (x.state (i + 1)).net.flight
      ((x.state i).net.flight ++ sentAt peers (x.state i) (x.action i))) ∧
    (∀ n key i, (x.events (sentAbout peers n key) i).length ≤
      (peers n).length * (versionsTaken n key (x.state i)).length) ∧
    (∀ n, Settles p x n →
      ∃ last, ∀ i ≥ last, ∀ key, sentAbout peers n key (x.state i) (x.action i) = []) ∧
    (Finite N → (∀ n, Settles p x n) →
      ∃ last, ∀ i ≥ last, sentAt peers (x.state i) (x.action i) = []) := by
  refine ⟨fun n key i => (ordered_events x hkind hinit n key i).ascending, fun i m hm => ?_,
    fun i hdup => flight_subperm (x.next i) hdup, fun n key i => ?_, fun n hsettles => ?_,
    fun hfinite hsettles => ?_⟩
  · have hflight := flight_subperm (x.next i) (fun m' => by simp [hm])
    simpa [hm, sentAt, putAt] using hflight
  · rw [length_events_sentAbout]
    exact Nat.mul_le_mul_left _ (length_puts_le x hkind hinit n key i)
  · obtain ⟨i, hsettled⟩ := hsettles
    obtain ⟨last, hlast⟩ := eventually_no_puts x hkind hinit hsettled
    exact ⟨last, fun j hj key => by simp [sentAbout, putsOf, hlast j hj]⟩
  · have hall : ∀ᶠ i in Filter.atTop, ∀ n, putsBy n (x.state i) (x.action i) = [] := by
      rw [Filter.eventually_all]
      intro n
      obtain ⟨i, hsettled⟩ := hsettles n
      exact Filter.eventually_atTop.mpr (eventually_no_puts x hkind hinit hsettled)
    obtain ⟨last, hlast⟩ := Filter.eventually_atTop.mp hall
    refine ⟨last, fun i hi => List.flatMap_eq_nil_iff.mpr fun e he => ?_⟩
    have hmem : e.2 ∈ putsBy e.1 (x.state i) (x.action i) :=
      List.mem_map_of_mem (List.mem_filter.mpr ⟨he, by simp⟩)
    rw [hlast i hi e.1] at hmem
    exact absurd hmem List.not_mem_nil

theorem step_change_same (peers : N → List N) (p : N → Provider P) (s : Nodes N P) (n : N) :
    Nodes.step peers p s (.change n (s.world n)) = some s := by
  simp [Nodes.step]

/-- Where `overtakingActions` end. -/
def overtaken : Nodes (Fin 3) (List Record) :=
  ((replay (Nodes.step otherPeers fun _ => fakeProvider (ascii "k")) (fun _ _ => True)
    originNodes overtakingActions).get rfl)

/-- Node 0 publishes two versions while messages are lost and duplicated; then nothing
changes any more. -/
def overtakingExecution : Execution (Nodes.step otherPeers fun _ => fakeProvider (ascii "k")) :=
  .ofReplay originNodes overtaken overtakingActions (.change 0 (overtaken.world 0))
    (Option.some_get _).symm (step_change_same _ _ _ _)

theorem two_versions_sent :
    (overtakingExecution.events (putsOf 0 (ascii "a")) 25).map Record.version =
      [⟨100, 0, []⟩, ⟨200, 0, []⟩] ∧
    (overtakingExecution.events (putsOf 0 (ascii "a")) 25).Pairwise
      (fun r r' => r.version < r'.version) ∧
    (overtakingExecution.events (sentAbout otherPeers 0 (ascii "a")) 25).length ≤
      (otherPeers 0).length *
        (versionsTaken 0 (ascii "a") (overtakingExecution.state 25)).length := by
  obtain ⟨hascending, _, _, hbound, _⟩ := no_publish_storm (fun _ => rfl) overtakingExecution
    ⟨fun _ => rfl, rfl, fun _ => rfl, fun _ => rfl, fun _ => rfl, fun _ => rfl, fun _ => rfl⟩
  exact ⟨by decide +kernel, hascending 0 (ascii "a") 25, hbound 0 (ascii "a") 25⟩

end Lbsync.Wan
