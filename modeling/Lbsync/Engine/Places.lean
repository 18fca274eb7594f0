import Lbsync.Engine.Gather
import Lbsync.Lib.Backup

/-!
# Providers that keep places with a backup

For each key a provider keeps a family of places. `Apply` offers the places of
the record's key what the record has for them and reports whether one of them
changed; `Rollback` restores the places of the keys it is given. A tick of such a
provider offers each key its winner and, when the hook fails, restores the keys
that changed.
-/

namespace Lbsync.Engine

open Backup

variable {P ι α : Type*} [DecidableEq α]

/-- The calls of one tick to `Apply`: each key at most once, each with a record of its own. -/
structure WinnerCalls (keys : Set GoString) (calls : List (GoString × Record)) : Prop where
  nodup : (calls.map Prod.fst).Nodup
  own : ∀ call ∈ calls, call.1 ∈ keys ∧ call.2.key = call.1

/-- `Apply` offers the places of one key what the record has for them. -/
structure Offers (p : Provider P) (good : P → Prop) (keys : Set GoString)
    (slot : P → GoString → ι → Slot α) (offered : Record → ι → Option α) : Prop where
  apply : ∀ r w, good w → r.key ∈ keys → ∃ changed w', p.apply r w = (.ok changed, w') ∧
    good w' ∧ (changed = true ↔ ∃ i, (slot w r.key i).Changes (offered r i)) ∧
    ∀ k ∈ keys, ∀ i, slot w' k i =
      if k = r.key then (slot w k i).offer (offered r i) else slot w k i

/-- Besides, `Flush` leaves the places alone and `Rollback` restores those of its keys. -/
structure Restores (p : Provider P) (good : P → Prop) (keys : Set GoString)
    (slot : P → GoString → ι → Slot α) (offered : Record → ι → Option α) : Prop
    extends Offers p good keys slot offered where
  flush : ∀ w, good w → good (p.flush w).2 ∧ ∀ k ∈ keys, ∀ i, slot (p.flush w).2 k i = slot w k i
  rollback : ∀ changed, (∀ k ∈ changed, k ∈ keys) → ∀ w, good w → good (p.rollback changed w).2 ∧
    ∀ k ∈ keys, ∀ i, slot (p.rollback changed w).2 k i =
      if k ∈ changed then (slot w k i).restore else slot w k i

/-- What the calls offer a place of a key. -/
def offeredAt (offered : Record → ι → Option α) (calls : List (GoString × Record))
    (key : GoString) (i : ι) : Option α :=
  (calls.lookup key).bind fun r => offered r i

section Calls

variable {offered : Record → ι → Option α} {calls : List (GoString × Record)} {key : GoString}

omit [DecidableEq α] in
theorem offeredAt_of_notMem (h : key ∉ calls.map Prod.fst) (i : ι) :
    offeredAt offered calls key i = none := by
  have hnone : calls.lookup key = none := by
    rw [List.lookup_eq_none_iff]
    intro call hcall
    simpa using fun heq : key = call.1 => h (heq ▸ List.mem_map_of_mem hcall)
  simp [offeredAt, hnone]

omit [DecidableEq α] in
theorem offeredAt_cons (k : GoString) (r : Record) (rest : List (GoString × Record)) (i : ι) :
    offeredAt offered ((k, r) :: rest) key i =
      if key = k then offered r i else offeredAt offered rest key i := by
  by_cases h : key = k
  · simp [offeredAt, h]
  · simp [offeredAt, h, List.lookup_cons, beq_eq_false_iff_ne.mpr h]

omit [DecidableEq α] in
theorem WinnerCalls.lookup {keys : Set GoString} (h : WinnerCalls keys calls)
    {call : GoString × Record} (hcall : call ∈ calls) : calls.lookup call.1 = some call.2 := by
  have hnodup := h.nodup
  clear h
  induction calls with
  | nil => cases hcall
  | cons first rest ih =>
      obtain ⟨k, r⟩ := first
      obtain ⟨hnot, hrest⟩ := List.nodup_cons.mp hnodup
      rcases List.mem_cons.mp hcall with rfl | hlater
      · simp
      · have hne : call.1 ≠ k := by
          rintro rfl
          exact hnot (List.mem_map.mpr ⟨call, hlater, rfl⟩)
        rw [List.lookup_cons, beq_eq_false_iff_ne.mpr hne]
        exact ih hlater hrest

omit [DecidableEq α] in
/-- What the calls offer for the key of one of them is what its record has. -/
theorem WinnerCalls.offeredAt_eq {keys : Set GoString} (h : WinnerCalls keys calls)
    {call : GoString × Record} (hcall : call ∈ calls) (i : ι) :
    offeredAt offered calls call.1 i = offered call.2 i := by
  rw [offeredAt, h.lookup hcall, Option.bind_some]

end Calls

/-- The calls of a tick against any cluster that stores records under their own key. -/
theorem winnerCalls_tickLoop {K : Type*} (cl : ClusterKV K) (p : Provider P) (ord : MapOrder)
    (s : K) (w : P) {keys : Set GoString}
    (hget : ∀ key s r, gotRecord (cl.get p.kind key s).1 = some r → r.key = key)
    (hkeys : ∀ key ∈ unionKeys ord (localMap (p.locals w).1) (cl.keys p.kind s).1, key ∈ keys) :
    WinnerCalls keys (tickLoop cl p ord s w).calls := by
  obtain ⟨hsub, hown⟩ := tickLoop_calls cl p ord s w hget
  refine ⟨hsub.nodup (unionKeys_nodup _ _ _), fun call hcall => ⟨?_, hown call hcall⟩⟩
  exact hkeys _ (hsub.subset (List.mem_map_of_mem hcall))

section Tick

variable {p : Provider P} {good : P → Prop} {keys : Set GoString}
  {slot : P → GoString → ι → Slot α} {offered : Record → ι → Option α}

/-- The calls change a place of the key. -/
def ChangesAt (slot : P → GoString → ι → Slot α) (offered : Record → ι → Option α)
    (calls : List (GoString × Record)) (w : P) (key : GoString) : Prop :=
  ∃ i, (slot w key i).Changes (offeredAt offered calls key i)

omit [DecidableEq α] in
theorem mem_of_changesAt {calls : List (GoString × Record)} {w : P} {key : GoString}
    (h : ChangesAt slot offered calls w key) : key ∈ calls.map Prod.fst := by
  by_contra hnot
  obtain ⟨i, a, ha, _⟩ := h
  rw [offeredAt_of_notMem hnot] at ha
  cases ha

omit [DecidableEq α] in
theorem WinnerCalls.mem_of_changesAt {calls : List (GoString × Record)}
    (hcalls : WinnerCalls keys calls) {w : P} {key : GoString}
    (h : ChangesAt slot offered calls w key) : key ∈ keys := by
  obtain ⟨call, hcall, rfl⟩ := List.mem_map.mp (Engine.mem_of_changesAt h)
  exact (hcalls.own call hcall).1

omit [DecidableEq α] in
/-- The keys noted are some of those of the calls, in order. -/
theorem foldl_applyCall_sublist (p : Provider P) (calls : List (GoString × Record))
    (acc : P × List GoString) :
    ∃ more, (calls.foldl (applyCall p) acc).2 = acc.2 ++ more ∧
      more.Sublist (calls.map Prod.fst) := by
  induction calls generalizing acc with
  | nil => exact ⟨[], by simp⟩
  | cons call rest ih =>
      obtain ⟨more, hmore, hsub⟩ := ih (applyCall p acc call)
      rw [List.foldl_cons, hmore, applyCall_snd]
      by_cases hchanged : (p.apply call.2 acc.1).1 = .ok true
      · exact ⟨call.1 :: more, by simp [hchanged], hsub.cons_cons call.1⟩
      · exact ⟨more, by simp [hchanged], hsub.cons call.1⟩

omit [DecidableEq α] in
/-- The keys a tick reports as changed are different ones of those it was called for. -/
theorem WinnerCalls.changed {calls : List (GoString × Record)} (hcalls : WinnerCalls keys calls)
    (p : Provider P) (w : P) :
    (calls.foldl (applyCall p) (w, [])).2.Nodup ∧
      ∀ key ∈ (calls.foldl (applyCall p) (w, [])).2, key ∈ keys := by
  obtain ⟨more, hmore, hsub⟩ := foldl_applyCall_sublist p calls (w, [])
  rw [hmore, List.nil_append]
  refine ⟨hsub.nodup hcalls.nodup, fun key hkey => ?_⟩
  obtain ⟨call, hcall, rfl⟩ := List.mem_map.mp (hsub.subset hkey)
  exact (hcalls.own call hcall).1

/-- The calls of a tick offer each key its record, and the keys noted are those that
changed. -/
theorem Offers.foldl_applyCall (h : Offers p good keys slot offered)
    {calls : List (GoString × Record)} (hcalls : WinnerCalls keys calls) (noted : List GoString)
    {w : P} (hw : good w) :
    ∃ w' changed, calls.foldl (applyCall p) (w, noted) = (w', changed) ∧ good w' ∧
      (∀ key, key ∈ changed ↔ key ∈ noted ∨ ChangesAt slot offered calls w key) ∧
      ∀ key ∈ keys, ∀ i,
        slot w' key i = (slot w key i).offer (offeredAt offered calls key i) := by
  induction calls generalizing noted w with
  | nil => exact ⟨w, noted, rfl, hw, by simp [ChangesAt, offeredAt, Slot.Changes],
      by simp [offeredAt, Slot.offer]⟩
  | cons call rest ih =>
      obtain ⟨k, r⟩ := call
      obtain ⟨hk, hrk⟩ : k ∈ keys ∧ r.key = k := hcalls.own (k, r) List.mem_cons_self
      obtain ⟨hnot, hnodup⟩ := List.nodup_cons.mp hcalls.nodup
      have hrest : WinnerCalls keys rest :=
        ⟨hnodup, fun call hcall => hcalls.own call (List.mem_cons_of_mem _ hcall)⟩
      obtain ⟨wrote, w₁, hrun₁, hgood₁, hwrote, hslots₁⟩ := h.apply r w hw (hrk ▸ hk)
      rw [hrk] at hwrote hslots₁
      have hcall : applyCall p (w, noted) (k, r) =
          (w₁, if wrote then noted ++ [k] else noted) := by
        cases wrote <;> simp [applyCall, hrun₁]
      obtain ⟨w', changed, hrun, hgood, hchanged, hslots⟩ :=
        ih hrest (if wrote then noted ++ [k] else noted) hgood₁
      refine ⟨w', changed, by rw [List.foldl_cons, hcall, hrun], hgood, fun key => ?_, ?_⟩
      · rw [hchanged key]
        by_cases hkey : key = k
        · subst hkey
          have hlater : ¬ ChangesAt slot offered rest w₁ key :=
            fun hc => hnot (Engine.mem_of_changesAt hc)
          have hnow : ChangesAt slot offered ((key, r) :: rest) w key ↔ wrote = true := by
            simp [hwrote, ChangesAt, offeredAt_cons]
          rw [hnow]
          cases wrote <;> simp [hlater]
        · have hlater : ChangesAt slot offered rest w₁ key ↔
              ChangesAt slot offered ((k, r) :: rest) w key := by
            by_cases hmem : key ∈ keys
            · simp [ChangesAt, offeredAt_cons, hkey, hslots₁ key hmem]
            · exact iff_of_false (fun hc => hmem (hrest.mem_of_changesAt hc))
                fun hc => hmem (hcalls.mem_of_changesAt hc)
          rw [hlater]
          cases wrote <;> simp [hkey]
      · intro key hkey i
        rw [hslots key hkey i, hslots₁ key hkey i, offeredAt_cons]
        by_cases heq : key = k
        · subst heq
          simp [offeredAt_of_notMem hnot, Slot.offer]
        · simp [heq]

omit [DecidableEq α] in
/-- With one call per key, the key of a call changes when its record changes a place. -/
theorem WinnerCalls.changesAt_iff {calls : List (GoString × Record)}
    (hcalls : WinnerCalls keys calls) {call : GoString × Record} (hcall : call ∈ calls) {w : P} :
    ChangesAt slot offered calls w call.1 ↔ ∃ i, (slot w call.1 i).Changes (offered call.2 i) := by
  simp only [ChangesAt, hcalls.offeredAt_eq hcall]

/-- A tick reports a change exactly when some record changes a place of its key. -/
theorem Offers.changed_ne_nil_iff (h : Offers p good keys slot offered)
    {calls : List (GoString × Record)} (hcalls : WinnerCalls keys calls) {w : P} (hw : good w) :
    (calls.foldl (applyCall p) (w, [])).2 ≠ [] ↔
      ∃ call ∈ calls, ∃ i, (slot w call.1 i).Changes (offered call.2 i) := by
  obtain ⟨w', changed, hrun, _, hchanged, _⟩ := h.foldl_applyCall hcalls [] hw
  rw [hrun]
  constructor
  · intro hne
    obtain ⟨key, hkey⟩ := List.exists_mem_of_ne_nil changed hne
    have hch := ((hchanged key).mp hkey).resolve_left List.not_mem_nil
    obtain ⟨call, hcall, rfl⟩ := List.mem_map.mp (Engine.mem_of_changesAt hch)
    exact ⟨call, hcall, (hcalls.changesAt_iff hcall).mp hch⟩
  · rintro ⟨call, hcall, hch⟩
    exact List.ne_nil_of_mem
      ((hchanged call.1).mpr (Or.inr ((hcalls.changesAt_iff hcall).mpr hch)))

/-- What a tick leaves in each place: what was offered, or its restored backup. When the
hook fails the keys that changed are restored and the others are as before. -/
theorem Restores.applyTick (h : Restores p good keys slot offered)
    {calls : List (GoString × Record)} (hcalls : WinnerCalls keys calls) {w : P} (hw : good w) :
    let w' := Engine.applyTick p calls w
    let after := fun key i => (slot w key i).offer (offeredAt offered calls key i)
    good w' ∧
    (∀ key ∈ keys, ∀ i, slot w' key i = after key i ∨ slot w' key i = (after key i).restore) ∧
    (FlushFails p calls w → ∀ key ∈ keys,
      (ChangesAt slot offered calls w key → ∀ i, slot w' key i = (after key i).restore) ∧
      (¬ ChangesAt slot offered calls w key → ∀ i, slot w' key i = slot w key i)) := by
  intro w' after
  obtain ⟨w₁, changed, hrun, hgood, hchanged, hslots⟩ := h.foldl_applyCall hcalls [] hw
  have htick : w' = finishTick p changed w₁ := by
    simp only [w', Engine.applyTick, hrun]
  have hfails : FlushFails p calls w ↔ changed ≠ [] ∧ ∃ e, (p.flush w₁).1 = .error e := by
    simp only [FlushFails, hrun]
  rw [hfails]
  by_cases hnil : changed = []
  · rw [finishTick, if_pos hnil] at htick
    rw [htick]
    exact ⟨hgood, fun key hkey i => Or.inl (hslots key hkey i), fun hf => absurd hnil hf.1⟩
  · rw [finishTick, if_neg hnil] at htick
    obtain ⟨hgood₁, hflush⟩ := h.flush w₁ hgood
    have hslots₁ : ∀ key ∈ keys, ∀ i, slot (p.flush w₁).2 key i = after key i :=
      fun key hkey i => (hflush key hkey i).trans (hslots key hkey i)
    rcases hresult : p.flush w₁ with ⟨result, w₂⟩
    rw [hresult] at htick hgood₁ hslots₁
    cases result with
    | ok _ =>
        rw [htick]
        refine ⟨hgood₁, fun key hkey i => Or.inl (hslots₁ key hkey i), ?_⟩
        rintro ⟨_, e, he⟩
        cases he
    | error e =>
        have hmem : ∀ key ∈ changed, key ∈ keys := by
          intro key hkey
          rcases (hchanged key).mp hkey with hn | hc
          · cases hn
          · exact hcalls.mem_of_changesAt hc
        obtain ⟨hgood₂, hroll⟩ := h.rollback changed hmem w₂ hgood₁
        rw [htick]
        refine ⟨hgood₂, fun key hkey i => ?_, fun _ key hkey => ⟨fun hch i => ?_, fun hch i => ?_⟩⟩
        · rw [hroll key hkey i, hslots₁ key hkey i]
          split_ifs
          · exact Or.inr rfl
          · exact Or.inl rfl
        · rw [hroll key hkey i, hslots₁ key hkey i, if_pos ((hchanged key).mpr (Or.inr hch))]
        · have hnot : key ∉ changed := by simpa [hchanged key] using hch
          rw [hroll key hkey i, hslots₁ key hkey i, if_neg hnot]
          exact Slot.offer_of_not_changes fun hc => hch ⟨i, hc⟩

/-- A tick whose hook does not fail leaves in each place what was offered. -/
theorem Offers.applyTick_of_not_fails (h : Offers p good keys slot offered)
    (hflush : ∀ w, good w →
      good (p.flush w).2 ∧ ∀ k ∈ keys, ∀ i, slot (p.flush w).2 k i = slot w k i)
    {calls : List (GoString × Record)} (hcalls : WinnerCalls keys calls) {w : P} (hw : good w)
    (hok : ¬ FlushFails p calls w) :
    good (Engine.applyTick p calls w) ∧ ∀ key ∈ keys, ∀ i,
      slot (Engine.applyTick p calls w) key i =
        (slot w key i).offer (offeredAt offered calls key i) := by
  obtain ⟨w₁, changed, hrun, hgood, -, hslots⟩ := h.foldl_applyCall hcalls [] hw
  obtain ⟨hgood₁, hkept⟩ := hflush w₁ hgood
  simp only [FlushFails, hrun, not_and, not_exists] at hok
  simp only [Engine.applyTick, hrun, finishTick]
  by_cases hnil : changed = []
  · rw [if_pos hnil]
    exact ⟨hgood, hslots⟩
  · have hno := hok hnil
    rw [if_neg hnil]
    rcases hresult : p.flush w₁ with ⟨e | u, w₂⟩
    · exact absurd (congrArg Prod.fst hresult) (hno e)
    · rw [hresult] at hgood₁ hkept
      exact ⟨hgood₁, fun key hkey i => (hkept key hkey i).trans (hslots key hkey i)⟩

end Tick

end Lbsync.Engine
