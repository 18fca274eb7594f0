import Lbsync.Olric.LockSafety
import Lbsync.Olric.Outcomes

/-!
# Where the records of a cluster come from

Calls may fail at any point, locks may expire at any time, and the nodes may take their
steps in any order. No record is made up or mixed up on the way: what the cluster stores for
a key, and what a node applies for it, was there at the start or was a local record of some
node for that key. A tick is never stuck and its number of calls is bounded by the keys it visits.
-/

namespace Lbsync.Olric

open Engine

variable {N P : Type*}

/-- The local records of a node that starts a tick are records that `G` has for their keys. -/
def Lists (p : N → Provider P) (G : GoString → Set Record) (s : Nodes N P) : Action N P → Prop
  | .begin n _ => Within G (localMap ((p n).locals (s.world n)).1)
  | .call _ => True
  | .change _ _ => True
  | .expire _ _ => True

instance decidableLists (p : N → Provider P) (G : GoString → Set Record)
    [∀ key r, Decidable (r ∈ G key)] (s : Nodes N P) (a : Action N P) :
    Decidable (Lists p G s a) :=
  match a with
  | .begin n _ => inferInstanceAs (Decidable (Within G (localMap ((p n).locals (s.world n)).1)))
  | .call _ => inferInstanceAs (Decidable True)
  | .change _ _ => inferInstanceAs (Decidable True)
  | .expire _ _ => inferInstanceAs (Decidable True)

/-- Every record in the system is one that `G` has for its key; the index names no keys but
those of such records and the ones in `named₀`. -/
structure Attributed (kind : GoString) (G : GoString → Set Record) (named₀ : List GoString)
    (s : Nodes N P) : Prop where
  own : ∀ n, OwnRecord (s.pc n)
  kinds : ∀ n m, localsAt (s.pc n) = some m → OfKind kind m
  carries : ∀ n, Carries G (s.pc n)
  stored : ∀ key r, (s.cluster.dmaps kind).stored key = some r → r ∈ G key
  named : ∀ key ∈ (s.cluster.dmaps kind).named, key ∈ named₀ ∨ (G key).Nonempty
  applied : ∀ n, ∀ a ∈ s.applied n, a.2 ∈ G a.1

section Steps

variable {kind : GoString} {G : GoString → Set Record} {named₀ : List GoString} {s : Nodes N P}

/-- A cluster to which no record but one of `G` was written is still as it should be. -/
theorem Attributed.of_writes (h : Attributed kind G named₀ s) {put : Option Record}
    {cluster : Cluster N} (hput : ∀ r, put = some r → r ∈ G r.key)
    (hwrites : Writes put (s.cluster.dmaps kind) (cluster.dmaps kind)) :
    Attributed kind G named₀ { s with cluster := cluster } := by
  refine ⟨h.own, h.kinds, h.carries, fun key r hr => ?_, fun key hkey => ?_, h.applied⟩
  · rcases hwrites.stored key with hsame | ⟨r', hr', rfl, hnow⟩
    · exact h.stored key r (hsame ▸ hr)
    · obtain rfl : r' = r := Option.some.inj (hnow.symm.trans hr)
      exact hput r' hr'
  · rcases hwrites.named key hkey with hmem | ⟨r, hr, rfl⟩
    · exact h.named key hmem
    · exact Or.inr ⟨r, hput r hr⟩

variable [DecidableEq N]

/-- One node goes to another control point. -/
theorem Attributed.move (h : Attributed kind G named₀ s) {n : N} {pc : Pc} (hown : OwnRecord pc)
    (hkinds : ∀ m, localsAt pc = some m → OfKind kind m) (hcarries : Carries G pc)
    {log : List (GoString × Record)} (hlog : ∀ a ∈ log, a.2 ∈ G a.1) (world : N → P) :
    Attributed kind G named₀ ⟨s.cluster, Function.update s.pc n pc, world,
      Function.update s.applied n log⟩ where
  own := (Function.forall_update_iff s.pc (p := fun _ pc => OwnRecord pc)).mpr
    ⟨hown, fun m _ => h.own m⟩
  kinds := (Function.forall_update_iff s.pc
    (p := fun _ pc => ∀ m, localsAt pc = some m → OfKind kind m)).mpr
    ⟨hkinds, fun m _ => h.kinds m⟩
  carries := (Function.forall_update_iff s.pc (p := fun _ pc => Carries G pc)).mpr
    ⟨hcarries, fun m _ => h.carries m⟩
  stored := h.stored
  named := h.named
  applied := (Function.forall_update_iff s.applied (p := fun _ log => ∀ a ∈ log, a.2 ∈ G a.1)).mpr
    ⟨hlog, fun m _ => h.applied m⟩

/-- A call keeps the records attributed, whether it succeeds or not. -/
theorem Attributed.call (h : Attributed kind G named₀ s) {p : N → Provider P}
    (hkind : ∀ n, (p n).kind = kind) {n : N} {r : Solo (Cluster N) P}
    (hstep : Solo.step (kv n) (p n) ⟨s.pc n, s.cluster, s.world n⟩ = some r) (world : N → P) :
    Attributed kind G named₀ ⟨r.cluster, Function.update s.pc n r.pc, world,
      Function.update s.applied n (s.applied n ++ appliedAt (s.pc n))⟩ := by
  have hmoves := moves_of_step hstep
  obtain ⟨hown, hlocals⟩ := hmoves.keepsLocals (h.own n)
  have hcarries : Carries G r.pc := by
    refine hmoves.carries (h.carries n) fun key c hc => h.stored key c ?_
    rw [← hkind n]
    rcases gotRecord_get n (p n).kind key s.cluster with hnone | hgot
    · simp [hnone] at hc
    · rw [← hgot, ← hc]
  have hput : ∀ l, putAt (s.pc n) = some l → l ∈ G l.key :=
    fun l hl => (h.carries n).put (h.own n) (h.kinds n) hl
  refine (h.of_writes hput (touches_step hstep kind).toWrites).move hown
    (fun m hm => h.kinds n m (hlocals m hm)) hcarries ?_ world
  intro a ha
  rcases List.mem_append.mp ha with ha | ha
  · exact h.applied n a ha
  · exact (h.carries n).applied ha

theorem Attributed.begin (h : Attributed kind G named₀ s) {p : N → Provider P}
    (hkind : ∀ n, (p n).kind = kind) {n : N}
    (hlists : Within G (localMap ((p n).locals (s.world n)).1)) (keys : List GoString)
    (world : N → P) :
    Attributed kind G named₀ ⟨((kv n).keys (p n).kind s.cluster).2,
      Function.update s.pc n (startTick (localMap ((p n).locals (s.world n)).1) keys), world,
      s.applied⟩ := by
  have hlocals := Frame.keepsLocals_next ⟨localMap ((p n).locals (s.world n)).1, keys, []⟩
  have hmoved := (h.of_writes (fun r (hr : none = some r) => by simp at hr)
    (touches_keys n (p n).kind s.cluster kind).toWrites).move (n := n) hlocals.2
    (fun m hm => by rw [hlocals.1 m hm, ← hkind n]; exact (p n).ofKind_locals (s.world n))
    (carries_startTick hlists keys) (h.applied n) world
  rwa [Function.update_eq_self] at hmoved

/-- Every step keeps the records attributed. -/
theorem attributed_step {p : N → Provider P} (hkind : ∀ n, (p n).kind = kind) {t : Nodes N P}
    {a : Action N P} (hs : Attributed kind G named₀ s) (ha : Lists p G s a)
    (hstep : Nodes.step p s a = some t) : Attributed kind G named₀ t := by
  cases a with
  | begin n ord =>
      cases hpc : s.pc n with
      | idle =>
          simp only [Nodes.step, hpc, Option.some.injEq] at hstep
          subst hstep
          exact hs.begin hkind ha _ _
      | _ => simp [Nodes.step, hpc] at hstep
  | call n =>
      simp only [Nodes.step, Option.map_eq_some_iff] at hstep
      obtain ⟨r, hr, rfl⟩ := hstep
      exact hs.call hkind hr _
  | change n w =>
      simp only [Nodes.step, Option.some.injEq] at hstep
      subst hstep
      exact ⟨hs.own, hs.kinds, hs.carries, hs.stored, hs.named, hs.applied⟩
  | expire kind' name =>
      simp only [Nodes.step, Option.some.injEq] at hstep
      subst hstep
      refine hs.of_writes (fun r (hr : none = some r) => by simp at hr) ?_
      by_cases hk : kind = kind'
      · subst hk
        simpa using writes_expire none (s.cluster.dmaps kind) name
      · exact .of_entries (by simp [hk])

end Steps

variable {kind : GoString} {G : GoString → Set Record}

theorem Initial.attributed {s : Nodes N P} (h : Initial s)
    (hstored : ∀ key r, (s.cluster.dmaps kind).stored key = some r → r ∈ G key) :
    Attributed kind G (s.cluster.dmaps kind).named s where
  own n := by rw [h.idle n]; trivial
  kinds n m hm := by simp [h.idle n, localsAt] at hm
  carries n := by rw [h.idle n]; trivial
  stored := hstored
  named _ hkey := Or.inl hkey
  applied n a ha := by simp [h.applied n] at ha

variable [DecidableEq N]

/-- Nothing is made up. Let `G` have, for each key, the record stored at the start and the
local records that any node has for the key when it starts a tick. Whatever fails, whenever locks
expire and however the nodes take turns: every record that is stored for a key or applied
for it is one that `G` has for that key, and the index names no other keys. -/
theorem records_attributed {p : N → Provider P} (hkind : ∀ n, (p n).kind = kind)
    {s₀ t : Nodes N P} (h₀ : Initial s₀)
    (hstored : ∀ key r, (s₀.cluster.dmaps kind).stored key = some r → r ∈ G key)
    (hrun : Runs.Run (Nodes.step p) (Lists p G) s₀ t) :
    (∀ key r, (t.cluster.dmaps kind).stored key = some r → r ∈ G key) ∧
      (∀ n, ∀ a ∈ t.applied n, a.2 ∈ G a.1) ∧
      ∀ key ∈ (t.cluster.dmaps kind).named,
        key ∈ (s₀.cluster.dmaps kind).named ∨ (G key).Nonempty := by
  have ht : Attributed kind G (s₀.cluster.dmaps kind).named t :=
    hrun.invariant (fun s a t hs ha hstep => attributed_step hkind hs ha hstep)
      (h₀.attributed hstored)
  exact ⟨ht.stored, ht.applied, ht.named⟩

/-- Two nodes and a cluster on which the first read, the first `Lock` and a later call fail. -/
def faultyNodes : Nodes Bool (List Record) :=
  { twoNodes with
    cluster := ⟨fun _ => ⟨fun _ => none, [false, true, true, false, false, false, false, true]⟩,
      fun _ => true⟩ }

theorem records_attributed_faulty :
    ∃ t, Runs.Run (Nodes.step fun _ => fakeProvider (ascii "k"))
        (Lists (fun _ => fakeProvider (ascii "k")) twoSources) faultyNodes t ∧
      t.applied true = [(ascii "a", sampleRecord 200)] ∧
      ∀ n, ∀ a ∈ t.applied n, a.2 ∈ twoSources a.1 := by
  have hrun : Runs.Run (Nodes.step fun _ => fakeProvider (ascii "k"))
      (Lists (fun _ => fakeProvider (ascii "k")) twoSources) faultyNodes _ :=
    Runs.Run.of_replay [.begin false .insertion, .call false, .call false, .call false,
      .call false, .begin true .insertion, .call false, .call true, .call true, .call true,
      .expire (ascii "k") (lockName (ascii "a")), .call true, .call true, .call true] rfl
  have hstored : ∀ key r, (faultyNodes.cluster.dmaps (ascii "k")).stored key = some r →
      r ∈ twoSources key := fun key r hr => by simp [faultyNodes, DMap.stored] at hr
  exact ⟨_, hrun, rfl,
    (records_attributed (fun _ => rfl) ⟨fun _ => rfl, fun _ => rfl⟩ hstored hrun).2.1⟩

section Progress

variable {p : N → Provider P} {s t : Nodes N P} {n : N}

/-- Each call of a node takes one off what its tick can still do, and nothing adds to it. -/
theorem callsLeft_step {a : Action N P} (ha : a.isBegin n = false)
    (hstep : Nodes.step p s a = some t) :
    (if a.isCall n then 1 else 0) + callsLeft (t.pc n) ≤ callsLeft (s.pc n) := by
  cases nodeStep_of_step hstep n with
  | other hcall hpc => simp [hcall, hpc]
  | change hpc => simp [Action.isCall, hpc]
  | begin hidle hpc => simp [Action.isBegin] at ha
  | @call r hr hpc =>
      have hlt : callsLeft r.pc < callsLeft (s.pc n) := (moves_of_step hr).callsLeft_lt
      simp only [Action.isCall, decide_true, if_true, hpc]
      omega

theorem countP_calls_le {acts : List (Action N P)} (hacts : ∀ a ∈ acts, a.isBegin n = false)
    (h : acts.foldlM (Nodes.step p) s = some t) :
    acts.countP (Action.isCall n) + callsLeft (t.pc n) ≤ callsLeft (s.pc n) := by
  induction acts generalizing s with
  | nil =>
      obtain rfl : s = t := Option.some.inj h
      simp
  | cons a acts ih =>
      rw [List.foldlM_cons] at h
      obtain ⟨u, hu, hrest⟩ := Option.bind_eq_some_iff.mp h
      have hstep := callsLeft_step (hacts a List.mem_cons_self) hu
      have htail := ih (fun b hb => hacts b (List.mem_cons_of_mem a hb)) hrest
      rw [List.countP_cons]
      omega

/-- A node in a tick can always make its next call. -/
theorem call_isSome (h : s.pc n ≠ .idle) : (Nodes.step p s (.call n)).isSome := by
  simp only [Nodes.step, Option.isSome_map]
  cases hpc : s.pc n with
  | idle => exact absurd hpc h
  | _ => rfl

/-- A tick ends. Whatever the other nodes do and whatever fails, a node that has started a tick
makes at most six calls for each key and two for the hook before it is idle again, and it is
never stuck on the way. -/
theorem tick_bounded {ord : MapOrder} {s' : Nodes N P} {acts : List (Action N P)}
    (hbegin : Nodes.step p s (.begin n ord) = some s')
    (hacts : ∀ a ∈ acts, a.isBegin n = false) (h : acts.foldlM (Nodes.step p) s' = some t) :
    acts.countP (Action.isCall n) ≤
        6 * (unionKeys ord (localMap ((p n).locals (s.world n)).1)
          ((kv n).keys (p n).kind s.cluster).1).length + 2 ∧
      (t.pc n ≠ .idle → ∃ u, Nodes.step p t (.call n) = some u) := by
  refine ⟨?_, fun hidle => Option.isSome_iff_exists.mp (call_isSome hidle)⟩
  have hcount := countP_calls_le hacts h
  cases hpc : s.pc n with
  | idle =>
      simp only [Nodes.step, hpc, Option.some.injEq] at hbegin
      subst hbegin
      simp only [Function.update_self] at hcount
      have hstart := callsLeft_startTick (localMap ((p n).locals (s.world n)).1)
        (unionKeys ord (localMap ((p n).locals (s.world n)).1)
          ((kv n).keys (p n).kind s.cluster).1)
      omega
  | _ => simp [Nodes.step, hpc] at hbegin

/-- The first node ends its tick over one key, with a failed read and a failed lock, while the
other one takes the lock. -/
theorem tick_bounded_faulty :
    ∃ s t, Nodes.step (fun _ => fakeProvider (ascii "k")) faultyNodes
        (.begin false .insertion) = some s ∧
      [.call false, .call false, .begin true .insertion, .call false, .call true, .call false,
        .call true, .call false].foldlM (Nodes.step fun _ => fakeProvider (ascii "k")) s =
          some t ∧
      t.pc false = .idle ∧
      List.countP (Action.isCall (P := List Record) false) [.call false, .call false,
        .begin true .insertion, .call false, .call true, .call false, .call true, .call false] ≤
          6 * 1 + 2 :=
  ⟨_, _, rfl, rfl, rfl, (tick_bounded (n := false)
    (show Nodes.step (fun _ => fakeProvider (ascii "k")) faultyNodes (.begin false .insertion) =
      some _ from rfl) (by decide) rfl).1⟩

end Progress

end Lbsync.Olric
