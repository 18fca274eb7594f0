import Lbsync.Engine.Knowledge
import Lbsync.Wan.SingleOrigin

/-!
# The order of the records a node applies

A node that stores a record for the key reads it from its own store, and with one
origin its own store never goes back. A node without one takes the first answer of
a peer and does not keep it, so the next tick may see an older record.
-/

namespace Lbsync.Wan

open Engine

variable {N P : Type*} [DecidableEq N]

namespace CallEffect

variable {peers : List N} {kind key : GoString} {n : N} {net net' : Net N} {pc pc' : Pc}
  {asking asking' : Option (List N)} {log : List (GoString × Record)}

/-- Peers are asked only after the own store had nothing. -/
theorem missed (h : CallEffect peers kind n net pc asking net' pc' asking')
    (hquiet : readKey pc = none → asking = none)
    (hmissed : readKey pc = some key → asking ≠ none → net.stored n kind key = none) :
    readKey pc' = some key → asking' ≠ none → net'.stored n kind key = none := by
  intro hread' hne
  cases h with
  | hit hread hfound => exact absurd rfl hne
  | @miss pc k hread habsent =>
      obtain rfl : k = key := Option.some.inj (hread.symm.trans hread')
      exact habsent
  | reply hread hfound => exact absurd rfl hne
  | skip hread => exact hmissed hread' (by simp)
  | absent hread => exact absurd rfl hne
  | _ => exact absurd (hquiet rfl) hne

/-- The reply of a read of the key is what the node stores. -/
theorem knows_answer {k : GoString} {stored c : Option Record} (hread : readKey pc = some k)
    (hown : OwnRecord pc) (hc : k = key → c = stored)
    (hknows : Knows key stored log pc) (hlog : LogBound log key (versionOf stored)) :
    Knows key stored log (answer c pc) := by
  cases reading_of_readKey hread with
  | get f => exact knows_afterGet fun hk => ⟨hc hk, hlog⟩
  | recheck f l c₀ locked => exact knows_afterRecheck locked hown hc hknows

/-- A step leaves its node with what it has to know, when every read of the key
returns what the node stores. -/
theorem knows (h : CallEffect peers kind n net pc asking net' pc' asking')
    (hown : OwnRecord pc)
    (hput : ∀ f k l c locked, pc = .put f k l c locked → l.key = k ∧ l.kind = kind)
    (hmissed : readKey pc = some key → asking ≠ none → net.stored n kind key = none)
    (hfirst : net.stored n kind key = none → ∀ q, net.stored q kind key = none)
    (hknows : Knows key (net.stored n kind key) log pc)
    (hlog : LogBound log key (versionOf (net.stored n kind key))) :
    Knows key (net'.stored n kind key) (log ++ appliedAt pc) pc' := by
  have hreading {k : GoString} (hread : readKey pc = some k) : appliedAt pc = [] := by
    cases reading_of_readKey hread with
    | get f => rfl
    | recheck f l c₀ locked => rfl
  cases h with
  | @hit pc k r hread hfound =>
      rw [hreading hread, List.append_nil]
      exact knows_answer hread hown (fun hk => by rw [← hk, hfound]) hknows hlog
  | miss hread habsent =>
      rwa [hreading hread, List.append_nil]
  | @reply pc k q rest r hread hfound =>
      rw [hreading hread, List.append_nil]
      refine knows_answer hread hown (fun hk => ?_) hknows hlog
      subst hk
      have hnone := hfirst (hmissed hread (by simp)) q
      rw [hfound] at hnone
      exact absurd hnone (by simp)
  | skip hread =>
      rwa [hreading hread, List.append_nil]
  | @absent pc k hread =>
      rw [hreading hread, List.append_nil]
      refine knows_answer hread hown (fun hk => ?_) hknows hlog
      subst hk
      rw [hmissed hread (by simp)]
  | lock => simpa [appliedAt, Knows] using hknows
  | @put f k l c locked asking =>
      obtain ⟨hkey, hkind⟩ := hput f k l c locked rfl
      simp only [appliedAt, List.append_nil]
      refine knows_afterPut locked hown fun hk => ?_
      obtain ⟨hlt, hseen⟩ := hknows hk
      rw [stored_put net hkind, if_pos ⟨rfl, hk.symm.trans hkey.symm⟩]
      exact ⟨le_rfl, hseen.mono hlt.le⟩
  | @release f k l c asking =>
      simp only [appliedAt, List.append_nil]
      refine knows_decided fun hk => ⟨?_, (hknows hk).2⟩
      rw [← hk, show f.localByKey.lookup k = some l from hown]
      exact hk ▸ (hknows hk).1
  | apply res => exact knows_afterApply res
  | flush res => exact knows_afterFlush res
  | rollback => trivial

end CallEffect

/-- From some point on, node `n` has read the key from its own store only, and the
calls to `Apply` made since then are ascending. -/
structure Anchored (A n : N) (kind key : GoString) (base : List (GoString × Record))
    (s : Nodes N P) : Prop where
  store : n = A ∨ s.net.stored n kind key ≠ none
  missed : readKey (s.pc n) = some key → s.asking n ≠ none → s.net.stored n kind key = none
  log : ∃ later, s.applied n = base ++ later ∧ Ascending key later ∧
    LogBound later key (versionOf (s.net.stored n kind key)) ∧
    Knows key (s.net.stored n kind key) later (s.pc n)

section Steps

variable {peers : N → List N} {p : N → Provider P} {A n : N} {kind key : GoString}
  {base : List (GoString × Record)} {s t : Nodes N P}

omit [DecidableEq N] in
/-- Other steps spare the node's own calls; its store may get newer, but not while it
is about to write the key. -/
theorem Anchored.frame (h : Anchored A n kind key base s) (hpc : t.pc n = s.pc n)
    (hasking : t.asking n = s.asking n) (happlied : t.applied n = s.applied n)
    (hgrow : versionOf (s.net.stored n kind key) ≤ versionOf (t.net.stored n kind key))
    (horigin : n = A → t.net.stored n kind key = s.net.stored n kind key)
    (hput : ∀ f l c locked, s.pc n = .put f key l c locked → n = A) :
    Anchored A n kind key base t := by
  obtain ⟨later, hlater, hasc, hlog, hknows⟩ := h.log
  refine ⟨?_, ?_, later, happlied.trans hlater, hasc, fun a ha hk => (hlog a ha hk).trans hgrow, ?_⟩
  · exact h.store.imp_right fun hne hnone => hne (eq_none_of_versionOf_le hgrow hnone)
  · intro hread hne
    rw [hpc] at hread
    rw [hasking] at hne
    have hnone := h.missed hread hne
    rcases h.store with hA | hsome
    · rw [horigin hA, hnone]
    · exact absurd hnone hsome
  · rw [hpc]
    exact hknows.mono hgrow fun f l c locked hp => horigin (hput f l c locked hp)

omit [DecidableEq N] in
/-- Where the origin stores nothing, nobody does. -/
theorem SingleOrigin.none_of_origin (h : SingleOrigin A kind key s)
    (hnone : s.net.stored A kind key = none) (q : N) : s.net.stored q kind key = none := by
  cases hq : s.net.stored q kind key with
  | none => rfl
  | some r => exact eq_none_of_versionOf_le (h.newest r (Or.inl ⟨q, hq⟩)) hnone

/-- Every step keeps the node anchored. -/
theorem Anchored.step (hkind : ∀ n, (p n).kind = kind) (hsound : Sound kind s)
    (horigin : SingleOrigin A kind key s) (h : Anchored A n kind key base s) {a : Action N P}
    (ha : OnlyOrigin p A key s a) (hstep : Nodes.step peers p s a = some t) :
    Anchored A n kind key base t := by
  have hgrow := (horigin.step hkind hsound ha hstep).2 n
  have hput : ∀ f l c locked, s.pc n = .put f key l c locked → n = A :=
    fun f l c locked hpc => horigin.eq_of_put hsound hpc
  cases a with
  | begin m ord known =>
      cases hpc : s.pc m with
      | idle =>
          simp only [Nodes.step, hpc, Option.some.injEq] at hstep
          subst hstep
          by_cases hm : n = m
          · subst hm
            obtain ⟨later, hlater, hasc, hlog, _⟩ := h.log
            refine ⟨h.store, fun _ hne => ?_, later, hlater, hasc, hlog, ?_⟩
            · exact absurd (hsound.quiet n (by rw [hpc]; rfl)) hne
            · simp only [Function.update_self]
              exact knows_next _
          · exact h.frame (by simp [hm]) rfl rfl hgrow (fun _ => rfl) hput
      | _ => simp [Nodes.step, hpc] at hstep
  | call m answers =>
      simp only [Nodes.step, Option.map_eq_some_iff] at hstep
      obtain ⟨v, hv, rfl⟩ := hstep
      have heffect := callEffect_of_step hv
      rw [hkind m] at heffect
      by_cases hm : n = m
      · subst hm
        obtain ⟨later, hlater, hasc, hlog, hknows⟩ := h.log
        have hfirst : s.net.stored n kind key = none → ∀ q, s.net.stored q kind key = none := by
          intro hnone q
          rcases h.store with rfl | hsome
          · exact horigin.none_of_origin hnone q
          · exact absurd hnone hsome
        obtain ⟨hasc', hlog'⟩ := hknows.extend hasc hlog hgrow
        refine ⟨?_, ?_, later ++ appliedAt (s.pc n), ?_, hasc', hlog', ?_⟩
        · exact h.store.imp_right fun hne hnone => hne (eq_none_of_versionOf_le hgrow hnone)
        · simpa only [Function.update_self] using heffect.missed (hsound.quiet n) h.missed
        · simp only [Function.update_self, hlater, List.append_assoc]
        · simpa only [Function.update_self] using heffect.knows (hsound.own n)
            (fun f k l c locked hpc => (hsound.of_put hpc).2.2) h.missed hfirst hknows hlog
      · have hsame : v.net.stored n kind key = s.net.stored n kind key := by
          rcases heffect.net_eq with hnet | ⟨f, k, l, c, locked, hpc, _, hnet⟩
          · rw [hnet]
          · rw [hnet, stored_put s.net (hsound.of_put hpc).2.2.2, if_neg (fun hc => hm hc.1)]
        exact h.frame (by simp [hm]) (by simp [hm]) (by simp [hm]) hgrow (fun _ => hsame) hput
  | change m w =>
      simp only [Nodes.step, Option.some.injEq] at hstep
      subst hstep
      exact h.frame rfl rfl rfl hgrow (fun _ => rfl) hput
  | deliver m =>
      simp only [Nodes.step] at hstep
      split_ifs at hstep with hm
      · rw [← Option.some.inj hstep] at hgrow ⊢
        exact h.frame rfl rfl rfl hgrow (fun hA => hA ▸ horigin.stored_receive hsound hm) hput
  | lose m =>
      simp only [Nodes.step] at hstep
      split_ifs at hstep
      · rw [← Option.some.inj hstep] at hgrow ⊢
        exact h.frame rfl rfl rfl hgrow (fun _ => rfl) hput
  | duplicate m =>
      simp only [Nodes.step] at hstep
      split_ifs at hstep
      · rw [← Option.some.inj hstep] at hgrow ⊢
        exact h.frame rfl rfl rfl hgrow (fun _ => rfl) hput

end Steps

section Runs

variable {peers : N → List N} {p : N → Provider P} {A n : N} {kind key : GoString}
  {s t : Nodes N P}

/-- The calls to `Apply` after an anchored state are ascending. -/
theorem ascending_of_anchored (hkind : ∀ n, (p n).kind = kind)
    (hs : Sound kind s ∧ SingleOrigin A kind key s)
    (h : Anchored A n kind key (s.applied n) s) (ht : OriginRun peers p A key s t) :
    ∃ later, t.applied n = s.applied n ++ later ∧ Ascending key later := by
  have hinv : Anchored A n kind key (s.applied n) t := by
    refine (Runs.Run.invariant (I := fun u => (Sound kind u ∧ SingleOrigin A kind key u) ∧
      Anchored A n kind key (s.applied n) u) ?_ ht ⟨hs, h⟩).2
    rintro u a v ⟨⟨hsound, horigin⟩, hanchored⟩ ha hstep
    exact ⟨⟨hsound.step hkind hstep, (horigin.step hkind hsound ha hstep).1⟩,
      hanchored.step hkind hsound horigin ha hstep⟩
  obtain ⟨later, hlater, hasc, _, _⟩ := hinv.log
  exact ⟨later, hlater, hasc⟩

/-- With one origin, whatever the network does: once a node that is about to read
the key, or between two ticks, stores a record for it, the records it applies from
then on never get older. For the origin this holds from the start. -/
theorem applied_ascending_from_own_store (hkind : ∀ n, (p n).kind = kind) {s₀ : Nodes N P}
    (h₀ : Initial s₀) (hs : OriginRun peers p A key s₀ s) (ht : OriginRun peers p A key s t) :
    (∀ n, (s.pc n = .idle ∨ ∃ f, s.pc n = .get f key ∧ s.asking n = none) →
      s.net.stored n kind key ≠ none →
      ∃ later, t.applied n = s.applied n ++ later ∧ Ascending key later) ∧
    Ascending key (t.applied A) := by
  have hinit : Sound kind s₀ ∧ SingleOrigin A kind key s₀ :=
    ⟨h₀.sound kind, h₀.singleOrigin A kind key⟩
  have hinv := hs.invariant hkind hinit
  constructor
  · intro n hpoint hstored
    refine ascending_of_anchored hkind hinv
      ⟨Or.inr hstored, ?_, [], by simp, by simp [Ascending], by simp [LogBound], ?_⟩ ht
    · intro hread hne
      rcases hpoint with hidle | ⟨f, _, hasking⟩
      · simp [hidle, readKey] at hread
      · exact absurd hasking hne
    · rcases hpoint with hpc | ⟨f, hpc, _⟩
      · rw [hpc]
        trivial
      · rw [hpc]
        trivial
  · have hanchored : Anchored A A kind key (s₀.applied A) s₀ := by
      refine ⟨Or.inl rfl, fun _ hne => absurd (h₀.asking A) hne, [], by simp,
        by simp [Ascending], by simp [LogBound], ?_⟩
      rw [h₀.idle A]
      trivial
    obtain ⟨later, hlater, hasc⟩ := ascending_of_anchored hkind hinit hanchored (hs.trans ht)
    rw [hlater, h₀.applied A]
    exact hasc

end Runs

/-- A node reads the key from its own store after the push of the origin's first
record, and once more after the push of the second. -/
def followingActions : List (Action (Fin 3) (List Record)) :=
  publishingTick ++ [.deliver (1, sampleRecord 100), .begin 1 .insertion [ascii "a"]]

def followingTicks : List (Action (Fin 3) (List Record)) :=
  [.call 1 true, .call 1 true, .change 0 [sampleRecord 200], .begin 0 .insertion []] ++
    List.replicate 6 (.call 0 true) ++
    [.deliver (1, sampleRecord 200), .begin 1 .insertion [ascii "a"], .call 1 true, .call 1 true]

theorem applied_ascending_following :
    ∃ s t, OriginRun otherPeers (fun _ => fakeProvider (ascii "k")) 0 (ascii "a") originNodes s ∧
      OriginRun otherPeers (fun _ => fakeProvider (ascii "k")) 0 (ascii "a") s t ∧
      t.applied 1 = [(ascii "a", sampleRecord 100), (ascii "a", sampleRecord 200)] ∧
      ∃ later, t.applied 1 = s.applied 1 ++ later ∧ Ascending (ascii "a") later := by
  have hs : OriginRun otherPeers (fun _ => fakeProvider (ascii "k")) 0 (ascii "a") originNodes _ :=
    Runs.Run.of_replay followingActions rfl
  have hasc := applied_ascending_from_own_store (fun _ => rfl)
    ⟨fun _ => rfl, rfl, fun _ => rfl, fun _ => rfl, fun _ => rfl, fun _ => rfl, fun _ => rfl⟩
    hs (Runs.Run.of_replay followingTicks rfl)
  exact ⟨_, _, hs, Runs.Run.of_replay followingTicks rfl, rfl,
    hasc.1 1 (Or.inr ⟨_, rfl, rfl⟩) (by decide)⟩

/-- Whether a tick may start: only the origin has local records for the key, and
they never get older. -/
def startsOrderly (p : N → Provider P) (A : N) (key : GoString) (s : Nodes N P) (n : N) : Bool :=
  if n = A then
    (s.history A).all fun m => (m.lookup key).all fun l => keeps l ((s.locals p A).lookup key)
  else ((s.locals p n).lookup key).isNone

/-- Ticks start orderly, every peer answers, and nothing is duplicated. -/
def Orderly (p : N → Provider P) (A : N) (key : GoString) (s : Nodes N P) : Action N P → Prop
  | .begin n _ _ => startsOrderly p A key s n = true
  | .call _ answers => answers = true
  | .duplicate _ => False
  | .change _ _ => True
  | .deliver _ => True
  | .lose _ => True

instance (p : N → Provider P) (A : N) (key : GoString) (s : Nodes N P) (a : Action N P) :
    Decidable (Orderly p A key s a) :=
  match a with
  | .begin n _ _ => inferInstanceAs (Decidable (startsOrderly p A key s n = true))
  | .call _ answers => inferInstanceAs (Decidable (answers = true))
  | .duplicate _ => inferInstanceAs (Decidable False)
  | .change _ _ => inferInstanceAs (Decidable True)
  | .deliver _ => inferInstanceAs (Decidable True)
  | .lose _ => inferInstanceAs (Decidable True)

/-- Node 2 asks node 1 first. It applies version 200 from the origin while node 1
has nothing, and version 100 once the delayed push has reached node 1. -/
def delayedActions : List (Action (Fin 3) (List Record)) :=
  publishingTick ++ [.change 0 [sampleRecord 200], .begin 0 .insertion []] ++
    List.replicate 6 (.call 0 true) ++ [.begin 2 .insertion [ascii "a"]] ++
    List.replicate 4 (.call 2 true) ++
    [.deliver (1, sampleRecord 100), .begin 2 .insertion [ascii "a"]] ++
    List.replicate 3 (.call 2 true)

theorem delayed_push_goes_back :
    Initial originNodes ∧ ∃ t, Runs.Run
      (Nodes.step (fun n => (otherPeers n).reverse) fun _ => fakeProvider (ascii "k"))
      (Orderly (fun _ => fakeProvider (ascii "k")) 0 (ascii "a")) originNodes t ∧
      t.applied 2 = [(ascii "a", sampleRecord 200), (ascii "a", sampleRecord 100)] ∧
      ¬ Ascending (ascii "a") (t.applied 2) := by
  refine ⟨⟨fun _ => rfl, rfl, fun _ => rfl, fun _ => rfl, fun _ => rfl, fun _ => rfl,
    fun _ => rfl⟩, _, Runs.Run.of_replay delayedActions rfl, rfl, ?_⟩
  intro hasc
  have hback : NotOlder (some (sampleRecord 200)) (some (sampleRecord 100)) :=
    (List.pairwise_cons.mp hasc).1 (ascii "a", sampleRecord 100) (by decide)
  obtain ⟨r, hr, hnewer⟩ := hback (sampleRecord 200) rfl
  obtain rfl := Option.some.inj hr
  exact absurd hnewer (by decide)

end Lbsync.Wan
