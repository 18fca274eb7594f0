import Mathlib.Data.List.Nodup

/-!
# The first element of each key

A pass over a list that keeps an element when its key has not been seen yet.
Elements without a key are always kept. So nothing is left twice under one key, and a
second pass, also over the elements in another order, drops nothing.
-/

namespace Firsts

variable {α κ : Type*} [DecidableEq κ] (key : α → Option κ)

/-- The elements without a key and the first of each key that is not in `seen`. -/
def firsts (seen : List κ) : List α → List α
  | [] => []
  | a :: rest =>
      match key a with
      | none => a :: firsts seen rest
      | some k => if k ∈ seen then firsts seen rest else a :: firsts (k :: seen) rest

variable {key}

theorem firsts_sublist (seen : List κ) (l : List α) : (firsts key seen l).Sublist l := by
  induction l generalizing seen with
  | nil => exact List.Sublist.refl []
  | cons a rest ih =>
      rw [firsts]
      cases key a with
      | none => exact (ih seen).cons_cons a
      | some k =>
          simp only
          split_ifs
          · exact (ih seen).cons a
          · exact (ih (k :: seen)).cons_cons a

/-- The element stands in the list after others with other keys. -/
def FirstIn (key : α → Option κ) (seen : List κ) (l : List α) (a : α) : Prop :=
  ∃ before after, l = before ++ a :: after ∧
    ∀ k, key a = some k → k ∉ seen ∧ ∀ b ∈ before, key b ≠ some k

omit [DecidableEq κ] in
theorem FirstIn.mem {seen : List κ} {l : List α} {a : α} (h : FirstIn key seen l a) : a ∈ l := by
  obtain ⟨before, after, rfl, -⟩ := h
  exact List.mem_append_right before List.mem_cons_self

omit [DecidableEq κ] in
theorem firstIn_cons {seen : List κ} {b : α} {rest : List α} {a : α} :
    FirstIn key seen (b :: rest) a ↔
      (b = a ∧ ∀ k, key a = some k → k ∉ seen) ∨
        FirstIn key seen rest a ∧ ∀ k, key a = some k → key b ≠ some k := by
  constructor
  · rintro ⟨before, after, hl, hfirst⟩
    cases before with
    | nil => exact Or.inl ⟨(List.cons.inj hl).1, fun k hk => (hfirst k hk).1⟩
    | cons b' before =>
        obtain ⟨rfl, hrest⟩ := List.cons.inj hl
        refine Or.inr ⟨⟨before, after, hrest, fun k hk => ⟨(hfirst k hk).1, ?_⟩⟩, ?_⟩
        · exact fun b hb => (hfirst k hk).2 b (List.mem_cons_of_mem _ hb)
        · exact fun k hk => (hfirst k hk).2 _ List.mem_cons_self
  · rintro (⟨rfl, hseen⟩ | ⟨⟨before, after, hrest, hfirst⟩, hb⟩)
    · exact ⟨[], rest, rfl, fun k hk => ⟨hseen k hk, nofun⟩⟩
    · refine ⟨b :: before, after, by rw [hrest, List.cons_append], fun k hk => ?_⟩
      refine ⟨(hfirst k hk).1, fun b' hb' => ?_⟩
      rcases List.mem_cons.mp hb' with rfl | hb'
      · exact hb k hk
      · exact (hfirst k hk).2 b' hb'

omit [DecidableEq κ] in
/-- One more key that was seen. -/
theorem firstIn_seen {seen : List κ} {l : List α} {a : α} {k : κ} :
    FirstIn key (k :: seen) l a ↔
      FirstIn key seen l a ∧ ∀ k', key a = some k' → k ≠ k' := by
  constructor
  · rintro ⟨before, after, hl, hfirst⟩
    refine ⟨⟨before, after, hl, fun k' hk' => ⟨?_, (hfirst k' hk').2⟩⟩, fun k' hk' heq => ?_⟩
    · exact fun hmem => (hfirst k' hk').1 (List.mem_cons_of_mem k hmem)
    · exact (hfirst k' hk').1 (heq ▸ List.mem_cons_self)
  · rintro ⟨⟨before, after, hl, hfirst⟩, hne⟩
    refine ⟨before, after, hl, fun k' hk' => ⟨fun hmem => ?_, (hfirst k' hk').2⟩⟩
    rcases List.mem_cons.mp hmem with heq | hseen
    · exact hne k' hk' heq.symm
    · exact (hfirst k' hk').1 hseen

/-- The pass keeps an element exactly when it has no key or is the first with its key. -/
theorem mem_firsts {seen : List κ} {l : List α} {a : α} :
    a ∈ firsts key seen l ↔ FirstIn key seen l a := by
  induction l generalizing seen with
  | nil => simp [firsts, FirstIn]
  | cons b rest ih =>
      rw [firsts, firstIn_cons]
      cases hb : key b with
      | none =>
          simp only [List.mem_cons, ih, ne_eq, reduceCtorEq, not_false_eq_true, implies_true,
            and_true]
          refine or_congr_left ⟨?_, fun h => h.1.symm⟩
          rintro rfl
          exact ⟨rfl, fun k hk => nomatch hb.symm.trans hk⟩
      | some k =>
          by_cases hseen : k ∈ seen
          · simp only [if_pos hseen, ih]
            constructor
            · intro hfirst
              obtain ⟨before, after, -, hkey⟩ := id hfirst
              refine Or.inr ⟨hfirst, fun k' hk' heq => (hkey k' hk').1 ?_⟩
              exact Option.some.inj heq ▸ hseen
            · rintro (⟨rfl, hnot⟩ | ⟨hfirst, -⟩)
              · exact absurd hseen (hnot k hb)
              · exact hfirst
          · simp only [if_neg hseen, List.mem_cons, ih, firstIn_seen, ne_eq, Option.some.injEq]
            refine or_congr_left ⟨?_, fun h => h.1.symm⟩
            rintro rfl
            refine ⟨rfl, fun k' hk' => ?_⟩
            rwa [← Option.some.inj (hb.symm.trans hk')]

section Filters

variable {seen : List κ} {l : List α} {k : κ}

theorem notMem_of_mem_firsts (hk : k ∈ seen) : ∀ a ∈ firsts key seen l, key a ≠ some k := by
  intro a ha heq
  obtain ⟨_, _, _, hfirst⟩ := mem_firsts.mp ha
  exact (hfirst k heq).1 hk

/-- The elements without a key are all kept, in their order. -/
theorem filter_firsts_of_keyless {p : α → Bool} (hp : ∀ a, p a = true → key a = none) :
    (firsts key seen l).filter p = l.filter p := by
  induction l generalizing seen with
  | nil => rfl
  | cons a rest ih =>
      rw [firsts]
      cases ha : key a with
      | none =>
          simp only
          rw [List.filter_cons, List.filter_cons, ih]
      | some k =>
          have hnot : ¬ p a = true := fun h => nomatch (hp a h).symm.trans ha
          rw [List.filter_cons_of_neg hnot]
          simp only
          split_ifs
          · exact ih
          · rw [List.filter_cons_of_neg hnot, ih]

/-- Under a key that has not been seen the first element is kept and no other. -/
theorem filter_firsts_of_key (hk : k ∉ seen) :
    (firsts key seen l).filter (key · = some k) = (l.find? (key · = some k)).toList := by
  induction l generalizing seen with
  | nil => rfl
  | cons a rest ih =>
      rw [firsts]
      cases ha : key a with
      | none => simpa [ha] using ih hk
      | some j =>
          by_cases hj : j = k
          · subst hj
            have hnone : (firsts key (j :: seen) rest).filter (key · = some j) = [] := by
              rw [List.filter_eq_nil_iff]
              intro b hb
              simpa using notMem_of_mem_firsts List.mem_cons_self b hb
            simp [hk, ha, hnone]
          · simp only
            split_ifs with hseen
            · simpa [ha, hj] using ih hk
            · have hk' : k ∉ j :: seen := by simp [hk, Ne.symm hj]
              simpa [ha, hj] using ih hk'

theorem nodup_filterMap_firsts : ((firsts key seen l).filterMap key).Nodup := by
  induction l generalizing seen with
  | nil => exact List.nodup_nil
  | cons a rest ih =>
      rw [firsts]
      cases ha : key a with
      | none => simpa [ha] using ih
      | some j =>
          simp only
          split_ifs
          · exact ih
          · rw [List.filterMap_cons_some ha, List.nodup_cons]
            refine ⟨fun hmem => ?_, ih⟩
            obtain ⟨b, hb, hkey⟩ := List.mem_filterMap.mp hmem
            exact notMem_of_mem_firsts List.mem_cons_self b hb hkey

/-- The pass drops nothing when no key comes twice. -/
theorem firsts_eq_self (hseen : ∀ k ∈ l.filterMap key, k ∉ seen) (h : (l.filterMap key).Nodup) :
    firsts key seen l = l := by
  induction l generalizing seen with
  | nil => rfl
  | cons a rest ih =>
      rw [firsts]
      cases ha : key a with
      | none =>
          rw [List.filterMap_cons_none ha] at hseen h
          simp only
          rw [ih hseen h]
      | some j =>
          rw [List.filterMap_cons_some ha] at hseen h
          obtain ⟨hj, hrest⟩ := List.nodup_cons.mp h
          obtain ⟨hnot, hlater⟩ := List.forall_mem_cons.mp hseen
          simp only [if_neg hnot]
          rw [ih ?_ hrest]
          intro k hk hmem
          rcases List.mem_cons.mp hmem with rfl | hmem
          · exact hj hk
          · exact hlater k hk hmem

end Filters

omit [DecidableEq κ] in
/-- The first ones of a mapped list come from the first ones of the list. -/
theorem firstIn_filterMap {β : Type*} {f : β → Option α} {seen : List κ} {l : List β} {a : α} :
    FirstIn key seen (l.filterMap f) a ↔
      ∃ b, f b = some a ∧ FirstIn (fun b => (f b).bind key) seen l b := by
  constructor
  · rintro ⟨before, after, hl, hfirst⟩
    obtain ⟨l₁, l₂, rfl, hbefore, hrest⟩ := List.filterMap_eq_append_iff.mp hl
    obtain ⟨l₃, b, l₄, rfl, hnone, hb, -⟩ := List.filterMap_eq_cons_iff.mp hrest
    refine ⟨b, hb, l₁ ++ l₃, l₄, by rw [List.append_assoc], fun k hfound => ?_⟩
    have hk : key a = some k := by simpa [hb] using hfound
    refine ⟨(hfirst k hk).1, fun b' hb' hk' => ?_⟩
    obtain ⟨a', ha', hkey'⟩ := Option.bind_eq_some_iff.mp hk'
    rcases List.mem_append.mp hb' with hmem | hmem
    · exact (hfirst k hk).2 a' (hbefore ▸ List.mem_filterMap.mpr ⟨b', hmem, ha'⟩) hkey'
    · cases (hnone b' hmem).symm.trans ha'
  · rintro ⟨b, hb, before, after, rfl, hfirst⟩
    refine ⟨before.filterMap f, after.filterMap f, ?_, fun k hk => ?_⟩
    · rw [List.filterMap_append, List.filterMap_cons_some hb]
    · have hk' : (f b).bind key = some k := by rw [hb, Option.bind_some, hk]
      refine ⟨(hfirst k hk').1, fun a' ha' hkey => ?_⟩
      obtain ⟨b', hmem, hb'⟩ := List.mem_filterMap.mp ha'
      exact (hfirst k hk').2 b' hmem (by simp [hb', hkey])

end Firsts
