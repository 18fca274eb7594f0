import Lbsync.Engine.Reconcile
import Lbsync.Olric.Kinds
import Lbsync.Wan.Kinds

/-!
# Modules do not disturb each other

An agent runs the providers of all its modules on one backend. Both backends keep the kinds of
the modules apart, so every provider sees what it would see if it were the only one.
-/

namespace Lbsync

open Engine Slices

section Isolation

variable {ι : Type*} [DecidableEq ι] {P : ι → Type*}

omit [DecidableEq ι] in
/-- Of providers of different kinds, one alone has the kind it has. -/
theorem filter_site {κ : Type*} [DecidableEq κ] {site : ι → κ} {providers : List ι}
    (h : (providers.map site).Nodup) {i : ι} (hi : i ∈ providers) :
    (providers.filter fun j => site j = site i) = [i].filter fun j => site j = site i := by
  obtain ⟨before, after, rfl⟩ := List.append_of_mem hi
  rw [List.map_append, List.map_cons] at h
  obtain ⟨-, hcons, hapart⟩ := List.nodup_append.mp h
  have hbefore : (before.filter fun j => site j = site i) = [] := by
    refine List.filter_eq_nil_iff.mpr fun j hj heq => ?_
    exact hapart _ (List.mem_map_of_mem hj) _ List.mem_cons_self (by simpa using heq)
  have hafter : (after.filter fun j => site j = site i) = [] := by
    refine List.filter_eq_nil_iff.mpr fun j hj heq => ?_
    have heq : site j = site i := by simpa using heq
    exact (List.nodup_cons.mp hcons).1 (heq ▸ List.mem_map_of_mem hj)
  rw [List.filter_append, List.filter_cons_of_pos (by simp), hbefore, hafter]
  simp

/-- Providers of different kinds are isolated. Whatever other providers are registered and in
whatever order, after any rounds of `Run` the state of a provider and the records of its kind
are those of an engine with this provider alone. Between two rounds the other nodes may do
to the cluster what keeps the kinds apart, and the providers' own files may change. -/
theorem providers_isolated (p : ∀ i, Provider (P i)) {providers : List ι}
    (hkinds : (providers.map fun i => (p i).kind).Nodup) {i : ι} (hi : i ∈ providers) :
    (∀ {T : Type*} [DecidableEq T] (t : T) (x : Olric.Cluster T × ∀ i, P i)
        (rounds : List (Round (Olric.Cluster T) P)),
      (∀ r ∈ rounds, Kindwise Olric.kindSlice r.others) →
      let all := runRounds (Olric.kv t) p providers x rounds
      let alone := runRounds (Olric.kv t) p [i] x rounds
      all.2 i = alone.2 i ∧ all.1.dmaps (p i).kind = alone.1.dmaps (p i).kind) ∧
    ∀ {N : Type*} [DecidableEq N] (peers : N → List N) (answers : N → Bool) (visit : MapOrder)
        (n : N) (x : Wan.Net N × ∀ i, P i) (rounds : List (Round (Wan.Net N) P)),
      (∀ i, 0 ∉ (p i).kind) → (∀ r ∈ rounds, Kindwise Wan.kindSlice r.others) →
      let all := runRounds (Wan.backend peers answers visit n) p providers x rounds
      let alone := runRounds (Wan.backend peers answers visit n) p [i] x rounds
      all.2 i = alone.2 i ∧
        (∀ q key, all.1.stored q (p i).kind key = alone.1.stored q (p i).kind key) ∧
        (all.1.flight.filter fun m => m.2.kind = (p i).kind) =
          alone.1.flight.filter fun m => m.2.kind = (p i).kind := by
  constructor
  · intro T _ t x rounds hrounds all alone
    have hview : view (fun i => (p i).kind) Olric.kindSlice (p i).kind all =
        view (fun i => (p i).kind) Olric.kindSlice (p i).kind alone :=
      view_runRounds (Olric.kv_perKind t) (fun _ => rfl) (filter_site hkinds hi) hrounds rfl
    exact ⟨congrFun (congrArg Prod.snd hview) ⟨i, rfl⟩,
      congrArg Prod.fst (congrArg Prod.fst hview)⟩
  · intro N _ peers answers visit n x rounds hplain hrounds all alone
    let site (i : ι) : Wan.PlainKind := ⟨(p i).kind, hplain i⟩
    have hsites : (providers.map site).Nodup := by
      refine .of_map Subtype.val ?_
      rw [List.map_map]
      exact hkinds
    have hview : view site Wan.kindSlice (site i) all = view site Wan.kindSlice (site i) alone :=
      view_runRounds (Wan.backend_perKind peers answers visit n) (fun _ => rfl)
        (filter_site hsites hi) hrounds rfl
    have hslice : Wan.kindSlice (site i) all.1 = Wan.kindSlice (site i) alone.1 :=
      congrArg Prod.fst hview
    exact ⟨congrFun (congrArg Prod.snd hview) ⟨i, rfl⟩, Wan.stored_congr hslice,
      congrArg Prod.snd hslice⟩

/-- Two providers of different kinds that know the same key. -/
def twoProviders (b : Bool) : Provider (List Record) :=
  fakeProvider (if b then ascii "j" else ascii "k")

/-- The records of the two providers. -/
def twoWorlds (b : Bool) : List Record :=
  [{ sampleRecord (if b then 200 else 100) with kind := (twoProviders b).kind }]

/-- Nothing happens between two rounds. -/
def quietRound (K : Type*) : Round K fun _ : Bool => List Record :=
  ⟨id, fun _ => id, fun _ => .insertion⟩

/-- Before the round the peer's push of the other kind arrives. -/
def pushRound : Round (Wan.Net Bool) fun _ : Bool => List Record :=
  { quietRound (Wan.Net Bool) with
    others := fun net => net.deliver (false, { sampleRecord 300 with kind := ascii "j" }) }

/-- Two rounds of the providers in the list on an empty cluster. -/
def clusterRounds (providers : List Bool) : Olric.Cluster Unit × (Bool → List Record) :=
  runRounds (Olric.kv ()) twoProviders providers
    (⟨fun _ => ⟨fun _ => none, []⟩, fun _ => true⟩, twoWorlds) [quietRound _, quietRound _]

/-- Two rounds of the providers in the list on a network of two nodes. -/
def netRounds (providers : List Bool) : Wan.Net Bool × (Bool → List Record) :=
  runRounds (Wan.backend (fun b => [!b]) (fun _ => true) .insertion false) twoProviders providers
    (⟨fun _ => ∅, []⟩, twoWorlds) [quietRound _, pushRound]

/-- Version 100 of the key stays under its kind on either backend, next to newer records of the
same key under the other kind. -/
theorem providers_isolated_same_key :
    ((clusterRounds [true, false]).1.dmaps (ascii "k")).stored (ascii "a") =
        some (sampleRecord 100) ∧
      (netRounds [true, false]).1.stored false (ascii "k") (ascii "a") = some (sampleRecord 100) ∧
      (netRounds [true, false]).1.stored false (ascii "j") (ascii "a") =
        some { sampleRecord 300 with kind := ascii "j" } := by
  have hkinds : ([true, false].map fun b => (twoProviders b).kind).Nodup := by decide
  have hisolated := providers_isolated twoProviders hkinds (i := false) (by simp)
  have hquiet : ∀ r ∈ [quietRound (Olric.Cluster Unit), quietRound _],
      Kindwise Olric.kindSlice r.others := by
    intro r hr
    obtain rfl : r = quietRound _ := by simpa using hr
    exact kindwise_id _
  have hpush : ∀ r ∈ [quietRound (Wan.Net Bool), pushRound],
      Kindwise Wan.kindSlice r.others := by
    intro r hr
    rcases List.mem_pair.mp hr with rfl | rfl
    · exact kindwise_id _
    · exact .of_confined (Wan.deliver_confined (k := ⟨ascii "j", by decide⟩) rfl)
  have hcluster : (clusterRounds [true, false]).1.dmaps (ascii "k") =
      (clusterRounds [false]).1.dmaps (ascii "k") := (hisolated.1 () _ _ hquiet).2
  have hnet : (netRounds [true, false]).1.stored false (ascii "k") (ascii "a") =
      (netRounds [false]).1.stored false (ascii "k") (ascii "a") :=
    (hisolated.2 (fun b => [!b]) (fun _ => true) .insertion false _ _
      (by intro b; cases b <;> decide) hpush).2.1 false (ascii "a")
  refine ⟨?_, hnet.trans (by decide), by decide⟩
  rw [hcluster]
  decide

end Isolation

end Lbsync
