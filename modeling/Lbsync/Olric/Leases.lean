import Lbsync.Olric.Provenance

/-!
# Locks as leases

A lock of the cluster is a lease: it expires, and the engine does not ask whether it still
holds. Here reads, locks, writes, index updates and releases may fail, and locks may expire at
any time. Two things are enough for a stored record to be replaced only by a newer one: the
re-check answers, and a record is put only while the lock's entry is the node's own.
-/

namespace Lbsync.Engine

/-- The only way to a `Put` is a re-check that finds an older record or none. -/
theorem Moves.to_put {found : GoString → Option Record → Prop} {pc pc' : Pc} {f : Frame}
    {key : GoString} {l : Record} {c : Option Record} {locked : Bool} (h : Moves found pc pc')
    (hput : pc' = .put f key l c locked) :
    pc = .recheck f key l c locked ∧
      ∃ cur, found key cur ∧ versionOf cur < versionOf (some l) := by
  have hcheck : checkKey pc' = some key := by rw [hput]; rfl
  cases h with
  | @recheck f' key' l' c' locked' cur hc =>
      unfold Frame.afterRecheck at hput hcheck
      by_cases hkeep : keeps l' cur = true
      · simp [hkeep] at hcheck
      · simp only [hkeep, Bool.false_eq_true, if_false, Pc.put.injEq] at hput
        obtain ⟨rfl, rfl, rfl, rfl, rfl⟩ := hput
        exact ⟨rfl, cur, hc, keeps_eq_false_iff.mp (by simpa using hkeep)⟩
  | lock locked => cases hput
  | rollback => cases hput
  | _ => simp at hcheck

end Lbsync.Engine

namespace Lbsync.Olric

open Engine

variable {N P : Type*}

section Fence

variable [DecidableEq N]

/-- Whether the next call of a node respects the lease: a re-check answers, and a record is put
only while the lock's entry is the node's own. -/
def fenceOk (kind : GoString) (n : N) (c : Cluster N) : Pc → Bool
  | .recheck _ key _ _ _ => !isError ((kv n).get kind key c).1
  | .put _ key _ _ _ => (c.dmaps kind).entries (lockName key) = some (.token n)
  | _ => true

/-- Every call respects the lease. Any other call may fail, and locks may expire. -/
def Fenced (p : N → Provider P) (s : Nodes N P) : Action N P → Prop
  | .call n => fenceOk (p n).kind n s.cluster (s.pc n) = true
  | .begin _ _ => True
  | .change _ _ => True
  | .expire _ _ => True

instance decidableFenced (p : N → Provider P) (s : Nodes N P) (a : Action N P) :
    Decidable (Fenced p s a) :=
  match a with
  | .call n => inferInstanceAs (Decidable (fenceOk (p n).kind n s.cluster (s.pc n) = true))
  | .begin _ _ => inferInstanceAs (Decidable True)
  | .change _ _ => inferInstanceAs (Decidable True)
  | .expire _ _ => inferInstanceAs (Decidable True)

end Fence

/-- A record about to be put under a lock that still holds is newer than the stored one. -/
structure Guarded (kind : GoString) (s : Nodes N P) : Prop where
  own : ∀ n, OwnRecord (s.pc n)
  kinds : ∀ n m, localsAt (s.pc n) = some m → OfKind kind m
  guard : ∀ n f key l c locked, s.pc n = .put f key l c locked →
    (s.cluster.dmaps kind).entries (lockName key) = some (.token n) →
    versionOf ((s.cluster.dmaps kind).stored key) < versionOf (some l)

section Steps

variable {kind : GoString} {s : Nodes N P}

theorem Guarded.key_of_put (h : Guarded kind s) {n : N} {f : Frame} {key : GoString} {l : Record}
    {c : Option Record} {locked : Bool} (hpc : s.pc n = .put f key l c locked) : l.key = key := by
  have hown : OwnRecord (.put f key l c locked) := hpc ▸ h.own n
  exact (h.kinds n f.localByKey (by rw [hpc]; rfl) key l hown).1

/-- Losing tokens and keeping the records keeps the guards. -/
theorem Guarded.frame (h : Guarded kind s) {cluster : Cluster N}
    (hstored : (cluster.dmaps kind).stored = (s.cluster.dmaps kind).stored)
    (htokens : ∀ name u, (cluster.dmaps kind).entries name = some (.token u) →
      (s.cluster.dmaps kind).entries name = some (.token u)) :
    Guarded kind { s with cluster := cluster } := by
  refine ⟨h.own, h.kinds, fun n f key l c locked hpc htoken => ?_⟩
  rw [show (cluster.dmaps kind).stored key = _ from congrFun hstored key]
  exact h.guard n f key l c locked hpc (htokens _ _ htoken)

variable [DecidableEq N] {p : N → Provider P}

/-- What a fenced call of a node does to the stored record of a key. -/
theorem Guarded.renewed_call (h : Guarded kind s) (hkind : ∀ n, (p n).kind = kind) {n : N}
    {r : Solo (Cluster N) P} (hfence : fenceOk (p n).kind n s.cluster (s.pc n) = true)
    (hstep : Solo.step (kv n) (p n) ⟨s.pc n, s.cluster, s.world n⟩ = some r) (key : GoString) :
    (r.cluster.dmaps kind).stored key = (s.cluster.dmaps kind).stored key ∨
      (s.cluster.dmaps kind).entries (lockName key) = some (.token n) ∧
        versionOf ((s.cluster.dmaps kind).stored key) <
          versionOf ((r.cluster.dmaps kind).stored key) := by
  rcases (touches_step hstep kind).stored key with hsame | ⟨l, hl, hkey, hnow⟩
  · exact Or.inl hsame
  · refine Or.inr ?_
    rw [hnow]
    cases hpc : s.pc n with
    | put f k l' c locked =>
        obtain rfl : l' = l := by simpa [hpc, putAt] using hl
        obtain rfl : k = key := (h.key_of_put hpc).symm.trans hkey
        have htoken : (s.cluster.dmaps kind).entries (lockName k) = some (.token n) := by
          rw [hpc, hkind n] at hfence
          simpa [fenceOk] using hfence
        exact ⟨htoken, h.guard n f k l' c locked hpc htoken⟩
    | _ => simp [hpc, putAt] at hl

theorem Guarded.call (h : Guarded kind s) (hkind : ∀ n, (p n).kind = kind) {n : N}
    {r : Solo (Cluster N) P} (hfence : fenceOk (p n).kind n s.cluster (s.pc n) = true)
    (hstep : Solo.step (kv n) (p n) ⟨s.pc n, s.cluster, s.world n⟩ = some r) (world : N → P)
    (applied : N → List (GoString × Record)) :
    Guarded kind ⟨r.cluster, Function.update s.pc n r.pc, world, applied⟩ := by
  have hmoves := moves_of_step hstep
  have htouch := touches_step hstep kind
  obtain ⟨hown, hlocals⟩ := hmoves.keepsLocals (h.own n)
  refine ⟨?_, ?_, ?_⟩
  · exact (Function.forall_update_iff s.pc (p := fun _ pc => OwnRecord pc)).mpr
      ⟨hown, fun m _ => h.own m⟩
  · exact (Function.forall_update_iff s.pc
      (p := fun _ pc => ∀ m, localsAt pc = some m → OfKind kind m)).mpr
      ⟨fun m hm => h.kinds n m (hlocals m hm), fun m _ => h.kinds m⟩
  · intro m f key l c locked hpc htoken
    simp only at hpc htoken ⊢
    by_cases hm : m = n
    · subst hm
      rw [Function.update_self] at hpc
      obtain ⟨hrecheck, cur, hcur, hlt⟩ := hmoves.to_put hpc
      -- the re-check answers, so it returns what is stored, and it changes nothing
      have hrecheck' : s.pc m = .recheck f key l c locked := hrecheck
      have hgot : gotRecord ((kv m).get (p m).kind key s.cluster).1 =
          (s.cluster.dmaps (p m).kind).stored key := by
        rw [hrecheck'] at hfence
        exact (get_effect hfence).2
      have hsame : (r.cluster.dmaps kind).stored key = (s.cluster.dmaps kind).stored key := by
        rcases htouch.stored key with hsame | ⟨l', hl', -, -⟩
        · exact hsame
        · simp [hrecheck', putAt] at hl'
      rw [hsame, ← hkind m, ← hgot, ← hcur]
      exact hlt
    · rw [Function.update_of_ne hm] at hpc
      have hbefore : (s.cluster.dmaps kind).entries (lockName key) = some (.token m) :=
        htouch.tokens _ m hm htoken
      rcases h.renewed_call hkind hfence hstep key with hsame | ⟨hother, -⟩
      · rw [hsame]
        exact h.guard m f key l c locked hpc hbefore
      · simp [hbefore, hm] at hother

theorem Guarded.begin (h : Guarded kind s) {n : N} {f : Frame} (hf : OfKind kind f.localByKey)
    (world : N → P) :
    Guarded kind { s with pc := Function.update s.pc n f.next, world := world } := by
  refine ⟨?_, ?_, ?_⟩
  · exact (Function.forall_update_iff s.pc (p := fun _ pc => OwnRecord pc)).mpr
      ⟨f.keepsLocals_next.2, fun m _ => h.own m⟩
  · exact (Function.forall_update_iff s.pc
      (p := fun _ pc => ∀ m, localsAt pc = some m → OfKind kind m)).mpr
      ⟨fun m hm => f.keepsLocals_next.1 m hm ▸ hf, fun m _ => h.kinds m⟩
  · intro m g key l c locked hpc
    by_cases hm : m = n
    · subst hm
      have hnext : f.next = .put g key l c locked := by simpa using hpc
      have hcheck : checkKey f.next = some key := by rw [hnext]; rfl
      simp at hcheck
    · exact h.guard m g key l c locked (by simpa [hm] using hpc)

/-- A fenced step keeps the guards and replaces records by newer ones only. -/
theorem guarded_step (hkind : ∀ n, (p n).kind = kind) {t : Nodes N P} {a : Action N P}
    (hs : Guarded kind s) (ha : Fenced p s a) (hstep : Nodes.step p s a = some t) :
    Guarded kind t ∧ ∀ key, Renewed ((s.cluster.dmaps kind).stored key)
      ((t.cluster.dmaps kind).stored key) := by
  cases a with
  | begin n ord =>
      cases hpc : s.pc n with
      | idle =>
          simp only [Nodes.step, hpc, Option.some.injEq] at hstep
          subst hstep
          have hsame : (((kv n).keys (p n).kind s.cluster).2.dmaps kind).entries =
              (s.cluster.dmaps kind).entries := by rw [hkind n, keys_entries]
          have hstored := DMap.stored_congr hsame
          refine ⟨?_, fun key => Or.inl (congrFun hstored key)⟩
          refine (hs.frame hstored fun name u hu => ?_).begin ?_ _
          · rwa [hsame] at hu
          · exact hkind n ▸ (p n).ofKind_locals (s.world n)
      | _ => simp [Nodes.step, hpc] at hstep
  | call n =>
      simp only [Nodes.step, Option.map_eq_some_iff] at hstep
      obtain ⟨r, hr, rfl⟩ := hstep
      refine ⟨hs.call hkind ha hr _ _, fun key => ?_⟩
      exact (hs.renewed_call hkind ha hr key).imp id And.right
  | change n w =>
      simp only [Nodes.step, Option.some.injEq] at hstep
      subst hstep
      exact ⟨⟨hs.own, hs.kinds, hs.guard⟩, fun _ => Or.inl rfl⟩
  | expire kind' name =>
      simp only [Nodes.step, Option.some.injEq] at hstep
      subst hstep
      by_cases hk : kind = kind'
      · subst hk
        have hstored := ((s.cluster.dmaps kind).expire_effect name).1
        refine ⟨hs.frame (by simpa using hstored) fun other u hu => ?_, fun key => Or.inl ?_⟩
        · exact token_of_expire (by simpa using hu)
        · simp [hstored]
      · have hsame : Function.update s.cluster.dmaps kind'
            ((s.cluster.dmaps kind').expire name) kind = s.cluster.dmaps kind :=
          Function.update_of_ne hk _ _
        refine ⟨hs.frame (by simp only [hsame]) fun other u hu => ?_, fun key => Or.inl ?_⟩
        · simpa only [hsame] using hu
        · simp only [hsame]

end Steps

theorem Initial.guarded {s : Nodes N P} (h : Initial s) (kind : GoString) : Guarded kind s where
  own n := by rw [h.idle n]; trivial
  kinds n m hm := by simp [h.idle n, localsAt] at hm
  guard n f key l c locked hpc := by simp [h.idle n] at hpc

/-- Two nodes and a cluster on which the first read fails. -/
def leasedNodes : Nodes Bool (List Record) :=
  { twoNodes with cluster := ⟨fun _ => ⟨fun _ => none, [false, true]⟩, fun _ => true⟩ }

/-- Under leases that are respected the stored record of a key changes to newer ones only,
whatever else fails and whenever locks expire. -/
theorem fenced_publish {N P : Type*} [DecidableEq N] {p : N → Provider P} {kind : GoString}
    (hkind : ∀ n, (p n).kind = kind) {s₀ s t : Nodes N P} (h₀ : Initial s₀)
    (hs : Runs.Run (Nodes.step p) (Fenced p) s₀ s) (ht : Runs.Run (Nodes.step p) (Fenced p) s t)
    (key : GoString) :
    Renewed ((s.cluster.dmaps kind).stored key) ((t.cluster.dmaps kind).stored key) := by
  have hsafe : Guarded kind s :=
    hs.invariant (fun s a t hs ha hstep => (guarded_step hkind hs ha hstep).1) (h₀.guarded kind)
  have hrun : Guarded kind t ∧
      Renewed ((s.cluster.dmaps kind).stored key) ((t.cluster.dmaps kind).stored key) := by
    refine ht.invariant (I := fun t => Guarded kind t ∧
      Renewed ((s.cluster.dmaps kind).stored key) ((t.cluster.dmaps kind).stored key)) ?_
      ⟨hsafe, Or.inl rfl⟩
    intro u a v hu ha hstep
    obtain ⟨hguarded, hrenewed⟩ := guarded_step hkind hu.1 ha hstep
    exact ⟨hguarded, hu.2.trans (hrenewed key)⟩
  exact hrun.2

/-- The older record is published after a failed first read, its lock expires before it is
released, and the newer one follows. -/
theorem fenced_publish_expired :
    ∃ s t, Runs.Run (Nodes.step fun _ => fakeProvider (ascii "k"))
        (Fenced fun _ => fakeProvider (ascii "k")) leasedNodes s ∧
      Runs.Run (Nodes.step fun _ => fakeProvider (ascii "k"))
        (Fenced fun _ => fakeProvider (ascii "k")) s t ∧
      (s.cluster.dmaps (ascii "k")).stored (ascii "a") = some (sampleRecord 100) ∧
      (t.cluster.dmaps (ascii "k")).stored (ascii "a") = some (sampleRecord 200) ∧
      Renewed ((s.cluster.dmaps (ascii "k")).stored (ascii "a"))
        ((t.cluster.dmaps (ascii "k")).stored (ascii "a")) := by
  have hs : Runs.Run (Nodes.step fun _ => fakeProvider (ascii "k"))
      (Fenced fun _ => fakeProvider (ascii "k")) leasedNodes _ :=
    Runs.Run.of_replay [.begin false .insertion, .call false, .call false, .call false,
      .call false, .expire (ascii "k") (lockName (ascii "a"))] rfl
  refine ⟨_, _, hs, Runs.Run.of_replay [.begin true .insertion, .call true, .call true,
    .call true, .call true, .call false] rfl, rfl, rfl, ?_⟩
  exact fenced_publish (fun _ => rfl) ⟨fun _ => rfl, fun _ => rfl⟩ hs
    (Runs.Run.of_replay [.begin true .insertion, .call true, .call true, .call true, .call true,
      .call false] rfl) (ascii "a")

/-- A put under a lock that has expired takes a newer record away. -/
example : (Runs.replay (Nodes.step fun _ => fakeProvider (ascii "k")) (fun _ _ => True) twoNodes
    [.begin false .insertion, .call false, .call false, .call false,
      .expire (ascii "k") (lockName (ascii "a")), .begin true .insertion, .call true, .call true,
      .call true, .call true, .call false]).map
        (fun t => (t.cluster.dmaps (ascii "k")).stored (ascii "a")) =
      some (some (sampleRecord 100)) := rfl

end Lbsync.Olric
