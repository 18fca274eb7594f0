import Lbsync.Engine.Kinds

/-!
# Several providers on one cluster

`reconcile` ticks the registered providers one after another on the same cluster. A backend
that keeps the kinds apart gives each provider the cluster it would have alone: the ticks of a
provider do not show to providers of other kinds, in whatever order they are registered and
whatever happens to the cluster and to the providers between two rounds.
-/

namespace Lbsync.Engine

open Slices

variable {K κ : Type*} {S : κ → Type*}

section Rounds

variable {ι : Type*} [DecidableEq ι] {P : ι → Type*} (cl : ClusterKV K) (p : ∀ i, Provider (P i))

/-- Tick one of the providers. -/
def tickAt (ord : ι → MapOrder) (x : K × ∀ i, P i) (i : ι) : K × ∀ i, P i :=
  let r := tickProvider cl (p i) (ord i) x.1 (x.2 i)
  (r.1, Function.update x.2 i r.2)

/-- Tick every registered provider once, in the order of registration. -/
def reconcile (ord : ι → MapOrder) (providers : List ι) (x : K × ∀ i, P i) : K × ∀ i, P i :=
  providers.foldl (tickAt cl p ord) x

/-- A round of `Run`: what happened to the cluster and to the providers since the last one, and
the orders in which the providers visit their local keys. -/
structure Round (K : Type*) {ι : Type*} (P : ι → Type*) where
  others : K → K
  changes : ∀ i, P i → P i
  order : ι → MapOrder

/-- What the round finds. -/
def Round.found (r : Round K P) (x : K × ∀ i, P i) : K × ∀ i, P i :=
  (r.others x.1, fun i => r.changes i (x.2 i))

/-- The rounds of `Run`, one after another. -/
def runRounds (providers : List ι) (x : K × ∀ i, P i) (rounds : List (Round K P)) :
    K × ∀ i, P i :=
  rounds.foldl (fun x r => reconcile cl p r.order providers (r.found x)) x

/-- A change of the cluster that keeps the kinds apart. -/
def Kindwise (slice : ∀ k, K → S k) (f : K → K) : Prop :=
  ∀ k s t, slice k s = slice k t → slice k (f s) = slice k (f t)

omit [DecidableEq ι] in
theorem kindwise_id (slice : ∀ k, K → S k) : Kindwise slice id := fun _ _ _ h => h

/-- What is confined to one kind keeps the kinds apart. -/
theorem Kindwise.of_confined {slice : ∀ k, K → S k} {k : κ} {f : K → K}
    (h : Confined slice k fun s => ((), f s)) : Kindwise slice f := by
  intro j s t hst
  by_cases hj : j = k
  · subst hj
    exact h.own hst
  · exact (h.other hj s).trans (hst.trans (h.other hj t).symm)

variable {cl p} {name : κ → GoString} {slice : ∀ k, K → S k} (site : ι → κ)

/-- What the providers of one kind have to do with. -/
def view (slice : ∀ k, K → S k) (k : κ) (x : K × ∀ i, P i) : S k × ∀ i : {i // site i = k}, P i :=
  (slice k x.1, fun i => x.2 i)

variable {site}

theorem tickAt_confined (h : PerKind name slice cl) (hsite : ∀ i, (p i).kind = name (site i))
    (ord : ι → MapOrder) (i : ι) :
    Confined (view site slice) (site i) fun x => ((), tickAt cl p ord x i) where
  result _ := rfl
  own {x y} hxy := by
    have htick := h.tickProvider (hsite i) (ord i) (x.2 i)
    have hslice : slice (site i) x.1 = slice (site i) y.1 := congrArg Prod.fst hxy
    have hworld : ∀ j, site j = site i → x.2 j = y.2 j :=
      fun j hj => congrFun (congrArg Prod.snd hxy) ⟨j, hj⟩
    have hsame : tickProvider cl (p i) (ord i) y.1 (y.2 i) =
        tickProvider cl (p i) (ord i) y.1 (x.2 i) := by rw [hworld i rfl]
    refine Prod.ext ?_ (funext fun ⟨j, hj⟩ => ?_)
    · simp only [view, tickAt, hsame]
      exact htick.own hslice
    · simp only [view, tickAt, hsame]
      by_cases hji : j = i
      · subst hji
        simp only [Function.update_self]
        exact htick.result hslice
      · simp only [Function.update_of_ne hji]
        exact hworld j hj
  other {j} hj x := by
    refine Prod.ext ((h.tickProvider (hsite i) (ord i) (x.2 i)).other hj x.1) ?_
    funext ⟨i', hi'⟩
    have hne : i' ≠ i := by
      rintro rfl
      exact hj hi'.symm
    simp only [view, tickAt, Function.update_of_ne hne]

variable [DecidableEq κ]

/-- The providers of one kind do not notice which others are registered. -/
theorem view_runRounds (h : PerKind name slice cl) (hsite : ∀ i, (p i).kind = name (site i))
    {k : κ} {providers providers' : List ι}
    (hsame : (providers.filter fun i => site i = k) = providers'.filter fun i => site i = k)
    {rounds : List (Round K P)} (hrounds : ∀ r ∈ rounds, Kindwise slice r.others)
    {x y : K × ∀ i, P i} (hxy : view site slice k x = view site slice k y) :
    view site slice k (runRounds cl p providers x rounds) =
      view site slice k (runRounds cl p providers' y rounds) := by
  induction rounds generalizing x y with
  | nil => exact hxy
  | cons r rounds ih =>
      refine ih (fun r' hr' => hrounds r' (List.mem_cons_of_mem r hr')) ?_
      have hfound : view site slice k (r.found x) = view site slice k (r.found y) := by
        refine Prod.ext (hrounds r List.mem_cons_self k _ _ (congrArg Prod.fst hxy)) ?_
        funext ⟨i, hi⟩
        exact congrArg (r.changes i) (congrFun (congrArg Prod.snd hxy) ⟨i, hi⟩)
      have hact (i : ι) :
          Confined (view site slice) (site i) fun x => ((), tickAt cl p r.order x i) :=
        tickAt_confined h hsite r.order i
      have hleft := slice_foldl hact k providers hfound
      rw [hsame] at hleft
      exact hleft.trans (slice_foldl hact k providers' rfl).symm

end Rounds

end Lbsync.Engine
