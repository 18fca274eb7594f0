import Lbsync.Olric.CleanTick

/-!
# Self-stabilisation

Whatever the cluster holds, one error-free round of ticks leaves the newest of
the first stored record and all local copies under every key. From then on no
node has anything newer to publish, so the stored record itself, not merely one
of the same version, is what every node applies.
-/

namespace Lbsync.Olric

open Engine

variable {N T P : Type*} [DecidableEq T]

/-- One tick of a node: the token of its locks, its provider, the provider's state
when the tick starts and the order in which it visits its local keys. -/
structure Turn (N T P : Type*) where
  node : N
  token : T
  provider : Provider P
  world : P
  order : MapOrder

omit [DecidableEq T] in
/-- The local copy of a key in one turn. -/
def Turn.own (u : Turn N T P) (k : GoString) : Option Record :=
  (localMap (u.provider.locals u.world).1).lookup k

/-- The loop of a turn on a cluster. -/
def Turn.loop (u : Turn N T P) (c : Cluster T) : TickState (Cluster T) P :=
  tickLoop (kv u.token) u.provider u.order c u.world

/-- The cluster after a turn. -/
def Turn.run (u : Turn N T P) (c : Cluster T) : Cluster T :=
  (tickProvider (kv u.token) u.provider u.order c u.world).1

/-- The cluster after turns one after another. -/
def runTurns (c : Cluster T) (us : List (Turn N T P)) : Cluster T :=
  us.foldl (fun c u => u.run c) c

@[simp] theorem runTurns_nil (c : Cluster T) : runTurns c ([] : List (Turn N T P)) = c := rfl

@[simp] theorem runTurns_cons (c : Cluster T) (u : Turn N T P) (us : List (Turn N T P)) :
    runTurns c (u :: us) = runTurns (u.run c) us := rfl

variable (kind : GoString) (copies : N → GoString → Option Record)

/-- Turns of nodes with fixed local copies, each error-free where it is taken. -/
def CleanRound (c : Cluster T) : List (Turn N T P) → Prop
  | [] => True
  | u :: us =>
      u.provider.kind = kind ∧ (∀ k, u.own k = copies u.node k) ∧
        ErrorFree (kv u.token) u.provider u.order c u.world ∧ CleanRound (u.run c) us

variable {kind copies} {c : Cluster T}

/-- The effect of one error-free turn on the DMap of its kind. -/
theorem turn_effect {u : Turn N T P} (hkind : u.provider.kind = kind)
    (hown : ∀ k, u.own k = copies u.node k)
    (hfree : ErrorFree (kv u.token) u.provider u.order c u.world) :
    TickEffect (copies u.node) (c.dmaps kind) ((u.run c).dmaps kind) (u.loop c).calls := by
  have heff := tickEffect_of_errorFree hfree
  have hcopies : (fun k => (localMap (u.provider.locals u.world).1).lookup k) =
      copies u.node := funext hown
  rw [hcopies, hkind] at heff
  exact heff

theorem CleanRound.append {us vs : List (Turn N T P)} (h : CleanRound kind copies c (us ++ vs)) :
    CleanRound kind copies c us ∧ CleanRound kind copies (runTurns c us) vs := by
  induction us generalizing c with
  | nil => exact ⟨trivial, h⟩
  | cons u us ih =>
      obtain ⟨hkind, hown, hfree, hrest⟩ := h
      obtain ⟨hus, hvs⟩ := ih hrest
      exact ⟨⟨hkind, hown, hfree, hus⟩, hvs⟩

/-- A clean round offers the local copies of its turns to the stored record. -/
theorem stored_runTurns {us : List (Turn N T P)} (h : CleanRound kind copies c us)
    (k : GoString) :
    ((runTurns c us).dmaps kind).stored k =
      NewestWins.offerAll Record.version (us.map fun u => copies u.node k)
        ((c.dmaps kind).stored k) := by
  induction us generalizing c with
  | nil => rfl
  | cons u us ih =>
      obtain ⟨hkind, hown, hfree, hrest⟩ := h
      rw [runTurns_cons, ih hrest, (turn_effect hkind hown hfree).stored, pickNewer_eq_newest]
      rfl

/-- Offers that are not newer leave the stored record in place. -/
theorem stored_runTurns_of_le {us : List (Turn N T P)} (h : CleanRound kind copies c us)
    {k : GoString} (hle : ∀ n, NotOlder (copies n k) ((c.dmaps kind).stored k)) :
    ((runTurns c us).dmaps kind).stored k = (c.dmaps kind).stored k := by
  induction us generalizing c with
  | nil => rfl
  | cons u us ih =>
      obtain ⟨hkind, hown, hfree, hrest⟩ := h
      have hstep : ((u.run c).dmaps kind).stored k = (c.dmaps kind).stored k := by
        rw [(turn_effect hkind hown hfree).stored, pickNewer_of_le (notOlder_iff.mp (hle _))]
      rw [runTurns_cons, ih hrest (by rwa [hstep]), hstep]

/-- From any cluster content, after a clean round in which every node takes a
turn, the stored record of a key is one of the first stored record and the local
copies, and none of them is newer. In any following clean round, every node that
has the key locally or in its `Keys` result hands exactly that stored record to
`Apply`. -/
theorem self_stabilising {first second : List (Turn N T P)}
    (hfirst : CleanRound kind copies c first) (hall : ∀ n, ∃ u ∈ first, u.node = n)
    (hsecond : CleanRound kind copies (runTurns c first) second) (k : GoString) :
    let winner := ((runTurns c first).dmaps kind).stored k
    ((winner = (c.dmaps kind).stored k ∨ ∃ n, winner = copies n k) ∧
      NotOlder ((c.dmaps kind).stored k) winner ∧ ∀ n, NotOlder (copies n k) winner) ∧
    ∀ before u after, second = before ++ u :: after →
      ((u.own k).isSome ∨ (runTurns (runTurns c first) before).Lists kind k) →
      (u.loop (runTurns (runTurns c first) before)).calls.filter (fun call => call.1 = k) =
        (winner.map fun r => (k, r)).toList := by
  intro winner
  have hwinner : winner = NewestWins.offerAll Record.version
      (first.map fun u => copies u.node k) ((c.dmaps kind).stored k) := stored_runTurns hfirst k
  have hcopies : ∀ n, NotOlder (copies n k) winner := by
    intro n
    obtain ⟨u, hu, rfl⟩ := hall n
    rw [notOlder_iff, hwinner]
    exact NewestWins.rankOf_le_offerAll Record.version
      (List.mem_map_of_mem (f := fun u => copies u.node k) hu) _
  refine ⟨⟨?_, ?_, hcopies⟩, ?_⟩
  · rw [hwinner]
    rcases NewestWins.offerAll_mem Record.version (first.map fun u => copies u.node k)
      ((c.dmaps kind).stored k) with h | h
    · exact Or.inl h
    · obtain ⟨u, _, hu⟩ := List.mem_map.mp h
      exact Or.inr ⟨u.node, hu.symm⟩
  · rw [notOlder_iff, hwinner]
    exact NewestWins.le_rankOf_offerAll Record.version _ _
  · intro before u after hsplit hknown
    obtain ⟨hbefore, hkind, hown, hfree, -⟩ := (hsplit ▸ hsecond).append
    have hkept : ((runTurns (runTurns c first) before).dmaps kind).stored k = winner :=
      stored_runTurns_of_le hbefore hcopies
    have heff := turn_effect hkind hown hfree
    have hcalls := heff.calls k (by rwa [← hown k, ← Cluster.lists_iff])
    rw [hcalls, hkept, bestCall, pickNewer_of_le (notOlder_iff.mp (hcopies u.node))]

/-- The turn of a node that has one local record. -/
def sampleTurn (node : Bool) : Turn Bool Bool (List Record) where
  node := node
  token := node
  provider := fakeProvider (ascii "k")
  world := [sampleRecord (if node then 200 else 100)]
  order := MapOrder.insertion

/-- A cluster in which an older record has replaced a newer one. -/
def clobberedCluster : Cluster Bool where
  dmaps _ := ⟨fun name => if name = ascii "a" then some (.record (sampleRecord 50)) else none, []⟩
  opens _ := true

/-- Two nodes with versions 100 and 200 bring a cluster with version 50 to version
200, and the older node then applies it. -/
theorem clobbered_cluster_stabilises :
    ((runTurns clobberedCluster [sampleTurn false, sampleTurn true]).dmaps (ascii "k")).stored
      (ascii "a") = some (sampleRecord 200) ∧
    ((sampleTurn false).loop (runTurns clobberedCluster
      [sampleTurn false, sampleTurn true])).calls.filter (fun call => call.1 = ascii "a") =
        [(ascii "a", sampleRecord 200)] := by
  have hwinner : ((runTurns clobberedCluster [sampleTurn false, sampleTurn true]).dmaps
      (ascii "k")).stored (ascii "a") = some (sampleRecord 200) := by decide
  have hfirst : CleanRound (ascii "k") (fun n => (sampleTurn n).own) clobberedCluster
      [sampleTurn false, sampleTurn true] :=
    ⟨rfl, fun _ => rfl, by decide, rfl, fun _ => rfl, by decide, trivial⟩
  have hsecond : CleanRound (ascii "k") (fun n => (sampleTurn n).own)
      (runTurns clobberedCluster [sampleTurn false, sampleTurn true]) [sampleTurn false] :=
    ⟨rfl, fun _ => rfl, by decide, trivial⟩
  have hall : ∀ n, ∃ u ∈ [sampleTurn false, sampleTurn true], u.node = n := by
    intro n
    cases n
    · exact ⟨sampleTurn false, by simp, rfl⟩
    · exact ⟨sampleTurn true, by simp, rfl⟩
  have hcalls := (self_stabilising hfirst hall hsecond (ascii "a")).2 [] (sampleTurn false) [] rfl
    (Or.inl (by decide))
  rw [runTurns_nil, hwinner] at hcalls
  exact ⟨hwinner, hcalls⟩

end Lbsync.Olric
