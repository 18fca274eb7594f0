import Lbsync.Engine.SharedTick
import Lbsync.Engine.Places
import Lbsync.Engine.TickSpec

/-!
# A tick that has nothing to do

A cluster is at rest when `Keys` and `Get` answer the same again and again. A tick
whose local records are not newer than the answers only asks. A provider is at
rest when its places hold what is offered to them: then no `Apply` reports a
change and the hook is not run.
-/

namespace Lbsync.Engine

open Backup

variable {K P : Type*}

/-- While a state is quiet, `Keys` and the reads of the given keys succeed, answer the same
and leave it quiet. -/
structure Rests (cl : ClusterKV K) (kind : GoString) (quiet : K → Prop) (known : List GoString)
    (found : GoString → Option Record) (asked : Set GoString) : Prop where
  keys : ∀ s, quiet s → ∃ s', cl.keys kind s = (.ok known, s') ∧ quiet s'
  get : ∀ s, quiet s → ∀ key ∈ asked, ∃ s', cl.get kind key s = (.ok (found key), s') ∧ quiet s'

section Cluster

variable {cl : ClusterKV K} {p : Provider P} {quiet : K → Prop} {known : List GoString}
  {found : GoString → Option Record} {asked : Set GoString}

theorem Rests.mono {kind : GoString} (h : Rests cl kind quiet known found asked)
    {fewer : Set GoString} (hsub : fewer ⊆ asked) : Rests cl kind quiet known found fewer :=
  ⟨h.keys, fun s hs key hkey => h.get s hs key (hsub hkey)⟩

/-- A visit whose local record is not newer than the answer only reads. -/
theorem Rests.processKey (h : Rests cl p.kind quiet known found asked) {m : LocalMap}
    {key : GoString} (hkey : key ∈ asked)
    (hkept : ∀ l, m.lookup key = some l → keeps l (found key) = true) {st : TickState K P}
    (hst : quiet st.cluster) :
    quiet (Engine.processKey cl p m st key).cluster ∧
      (Engine.processKey cl p m st key).calls =
        st.calls ++ bestCall key (m.lookup key) (found key) := by
  obtain ⟨s', hget, hs'⟩ := h.get st.cluster hst key hkey
  have hpublish : maybePublish cl p.kind key (m.lookup key) (found key) s' = s' := by
    unfold maybePublish
    cases hl : m.lookup key with
    | none => rfl
    | some l => simp [hkept l hl]
  simp only [Engine.processKey, hget, gotRecord, hpublish]
  exact ⟨hs', trivial⟩

theorem Rests.foldl_processKey (h : Rests cl p.kind quiet known found asked) {m : LocalMap}
    {keys : List GoString} (hkeys : ∀ key ∈ keys, key ∈ asked)
    (hkept : ∀ key l, m.lookup key = some l → keeps l (found key) = true) (st : TickState K P)
    (hst : quiet st.cluster) :
    quiet (keys.foldl (Engine.processKey cl p m) st).cluster ∧
      (keys.foldl (Engine.processKey cl p m) st).calls =
        st.calls ++ keys.flatMap fun key => bestCall key (m.lookup key) (found key) := by
  induction keys generalizing st with
  | nil => exact ⟨hst, by simp⟩
  | cons key keys ih =>
      obtain ⟨hquiet, hcalls⟩ := h.processKey (hkeys key List.mem_cons_self) (hkept key) hst
      obtain ⟨hend, hmore⟩ := ih (fun k hk => hkeys k (List.mem_cons_of_mem key hk)) _ hquiet
      refine ⟨hend, ?_⟩
      rw [List.foldl_cons, hmore, hcalls, List.flatMap_cons, List.append_assoc]

/-- A tick on a cluster at rest leaves it quiet and applies the winners of the answers. -/
theorem Rests.tickLoop (h : Rests cl p.kind quiet known found asked) {ord : MapOrder} {s : K}
    {w : P} (hasked : ∀ key ∈ unionKeys ord (localMap (p.locals w).1) (.ok known), key ∈ asked)
    (hkept : ∀ key l, (localMap (p.locals w).1).lookup key = some l →
      keeps l (found key) = true) (hs : quiet s) :
    quiet (Engine.tickLoop cl p ord s w).cluster ∧
      (Engine.tickLoop cl p ord s w).calls =
        (unionKeys ord (localMap (p.locals w).1) (.ok known)).flatMap fun key =>
          bestCall key ((localMap (p.locals w).1).lookup key) (found key) := by
  obtain ⟨s', hkeys, hs'⟩ := h.keys s hs
  have hloop := h.foldl_processKey hasked hkept ⟨s', (p.locals w).2, [], []⟩ hs'
  simpa [Engine.tickLoop, hkeys] using hloop

/-- The tick has only read so far, and nobody else acts. -/
def OnlyReads (s : Shared K) : Prop :=
  s.others = [] ∧ ∀ call ∈ s.made, ∃ r, call.2 = .got r

/-- A cluster at rest is at rest for a node that nobody disturbs, which then only reads. -/
theorem Rests.shared {kind : GoString} (h : Rests cl kind quiet known found asked) :
    Rests cl.shared kind (fun s => quiet s.cluster ∧ OnlyReads s) known found asked where
  keys s hs := by
    obtain ⟨hquiet, hothers, hmade⟩ := hs
    have hnow : s.now = s.cluster := by simp [Shared.now, hothers]
    obtain ⟨s', hkeys, hs'⟩ := h.keys s.cluster hquiet
    refine ⟨⟨s', [], s.made⟩, ?_, hs', rfl, hmade⟩
    simp [ClusterKV.shared, hnow, hkeys, hothers]
  get s hs key hkey := by
    obtain ⟨hquiet, hothers, hmade⟩ := hs
    have hnow : s.now = s.cluster := by simp [Shared.now, hothers]
    obtain ⟨s', hget, hs'⟩ := h.get s.cluster hquiet key hkey
    refine ⟨⟨s', [], s.made ++ [(key, .got (found key))]⟩, ?_, hs', rfl, fun call hcall => ?_⟩
    · simp [ClusterKV.shared, hnow, hget, hothers, gotRecord]
    · rcases List.mem_append.mp hcall with hcall | hcall
      · exact hmade call hcall
      · exact ⟨found key, by rw [List.mem_singleton.mp hcall]⟩

end Cluster

section Provider

variable {ι α ω : Type*} {p : Provider P} {good : P → Prop} {slot : P → GoString → ι → Slot α}
  {offered : Record → ι → Option α} {files : P → ω}

/-- An `Apply` whose places hold what the record has for them reports no change and leaves
the files alone. What the places hold is read off the files. -/
structure Inert (p : Provider P) (good : P → Prop) (slot : P → GoString → ι → Slot α)
    (offered : Record → ι → Option α) (files : P → ω) : Prop where
  idle : ∀ r w, good w → (∀ i a, offered r i = some a → (slot w r.key i).current = some a) →
    ∃ w', p.apply r w = (.ok false, w') ∧ good w' ∧ files w' = files w
  slots : ∀ w w', files w' = files w → ∀ key i, (slot w' key i).current = (slot w key i).current

/-- The places hold what the calls offer them. -/
def Held (slot : P → GoString → ι → Slot α) (offered : Record → ι → Option α)
    (calls : List (GoString × Record)) (w : P) : Prop :=
  ∀ call ∈ calls, ∀ i a, offered call.2 i = some a → (slot w call.2.key i).current = some a

/-- After a tick whose hook does not fail the places hold what was offered. -/
theorem Offers.held_of_not_fails [DecidableEq α] {keys : Set GoString}
    (h : Offers p good keys slot offered)
    (hflush : ∀ w, good w →
      good (p.flush w).2 ∧ ∀ k ∈ keys, ∀ i, slot (p.flush w).2 k i = slot w k i)
    {calls : List (GoString × Record)} (hcalls : WinnerCalls keys calls) {w : P} (hw : good w)
    (hok : ¬ FlushFails p calls w) : Held slot offered calls (applyTick p calls w) := by
  obtain ⟨-, hslots⟩ := h.applyTick_of_not_fails hflush hcalls hw hok
  intro call hcall i a ha
  obtain ⟨hkey, hown⟩ := hcalls.own call hcall
  rw [hown, hslots call.1 hkey i, hcalls.offeredAt_eq hcall, ha, Slot.current_offer_some]

theorem Inert.foldl_applyCall (h : Inert p good slot offered files)
    {calls : List (GoString × Record)} {w : P} (hw : good w) (hheld : Held slot offered calls w) :
    (∀ result ∈ applyResults p calls w, result = .ok false) ∧
      files (calls.foldl (applyCall p) (w, [])).1 = files w := by
  induction calls generalizing w with
  | nil => exact ⟨nofun, rfl⟩
  | cons call rest ih =>
      obtain ⟨w', hrun, hw', hfiles⟩ := h.idle call.2 w hw (hheld call List.mem_cons_self)
      have hheld' : Held slot offered rest w' := by
        intro later hlater i a ha
        rw [h.slots w w' hfiles]
        exact hheld later (List.mem_cons_of_mem call hlater) i a ha
      obtain ⟨hresults, hend⟩ := ih hw' hheld'
      have hcall : applyCall p (w, []) call = (w', []) := by simp [applyCall, hrun]
      rw [List.foldl_cons, hcall, hend, hfiles, applyResults, hrun]
      refine ⟨fun result hresult => ?_, rfl⟩
      rcases List.mem_cons.mp hresult with rfl | hlater
      · rfl
      · exact hresults result hlater

/-- The provider was asked for its records and to apply some, and no `Apply` reported a
change. The hook was not run. -/
def NothingApplied (log : List ProviderCall) : Prop :=
  ∀ call ∈ log, call = .locals ∨ ∃ r, call = .apply r (.ok false)

/-- A tick whose winners are in place changes no file and does not run the hook. -/
theorem Inert.tickProvider (h : Inert p good slot offered files) (cl : ClusterKV K)
    (ord : MapOrder) (s : K) {w : P} (hw : good (p.locals w).2)
    (hheld : Held slot offered (tickLoop cl p ord s w).calls (p.locals w).2) :
    let out := Engine.tickProvider cl p.logged ord s (w, [])
    files out.2.1 = files (p.locals w).2 ∧ NothingApplied out.2.2 := by
  intro out
  obtain ⟨hresults, hfiles⟩ := h.foldl_applyCall hw hheld
  have hnone : reportedKeys (tickLoop cl p ord s w).calls
      (applyResults p (tickLoop cl p ord s w).calls (p.locals w).2) = [] := by
    rw [List.eq_nil_iff_forall_not_mem]
    intro key hkey
    obtain ⟨r, hr⟩ := mem_reportedKeys.mp hkey
    cases hresults _ (List.of_mem_zip hr).2
  have hout := tickProvider_logged cl p ord s w
  simp only [hnone, hookCalls, if_true, List.append_nil] at hout
  constructor
  · have hworld : out.2.1 = finishTick p []
        ((tickLoop cl p ord s w).calls.foldl (applyCall p) ((p.locals w).2, [])).1 := by
      simp only [out, hout]
      rw [tickProvider_snd, applyTick, foldl_applyCall_changed, hnone]
      rfl
    rw [hworld, finishTick, if_pos rfl, hfiles]
  · intro call hcall
    simp only [out, hout] at hcall
    rcases List.mem_cons.mp hcall with rfl | hcall
    · exact Or.inl rfl
    · obtain ⟨⟨made, result⟩, hmem, rfl⟩ := List.mem_map.mp hcall
      exact Or.inr ⟨made.2, by rw [hresults result (List.of_mem_zip hmem).2]⟩

/-- A provider whose places are files: `Apply` writes nothing else, `Local` writes nothing,
and neither does the hook. -/
structure FilePlaces [DecidableEq α] (p : Provider P) (good : P → Prop) (keys : Set GoString)
    (slot : P → GoString → ι → Slot α) (offered : Record → ι → Option α) (files : P → ω) : Prop
    extends Offers p good keys slot offered, Inert p good slot offered files where
  flush : ∀ w, good w → good (p.flush w).2 ∧ ∀ k ∈ keys, ∀ i, slot (p.flush w).2 k i = slot w k i
  locals : ∀ w, good w → good (p.locals w).2 ∧ files (p.locals w).2 = files w

end Provider

end Lbsync.Engine
