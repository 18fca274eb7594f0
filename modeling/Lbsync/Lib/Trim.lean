import Mathlib.Data.List.Find

/-!
# Trimming a text

A character to be trimmed may be spelled with several symbols. Given the spellings,
trimming drops them from the front as long as one stands there, and then from the end.
A symbol that occurs in no spelling is never dropped, and what stands behind it in the
text has no part in trimming the front. Where no spelling starts another one, blanks that
are put around a text are dropped again.
-/

namespace Trim

variable {α : Type*} [DecidableEq α]

/-- How many symbols the blank at the front takes; zero without one. -/
def blankLength (blanks : List (List α)) (s : List α) : Nat :=
  ((blanks.find? fun b => decide (b <+: s)).map List.length).getD 0

/-- Drop `n` symbols, and then every blank at the front. -/
def dropBlanks (blanks : List (List α)) : Nat → List α → List α
  | _, [] => []
  | n + 1, _ :: s => dropBlanks blanks n s
  | 0, a :: s =>
      match blankLength blanks (a :: s) with
      | 0 => a :: s
      | n + 1 => dropBlanks blanks n s

/-- Drop the blanks at the front. -/
def trimLeft (blanks : List (List α)) (s : List α) : List α := dropBlanks blanks 0 s

/-- Drop the blanks at the end. -/
def trimRight (blanks : List (List α)) (s : List α) : List α :=
  (trimLeft (blanks.map List.reverse) s.reverse).reverse

/-- Drop the blanks at the front and at the end. -/
def trim (blanks : List (List α)) (s : List α) : List α := trimRight blanks (trimLeft blanks s)

variable {blanks : List (List α)} {a : α} {s : List α}

/-- The blank at the front is one of the spellings. -/
theorem take_blankLength_mem {n : Nat} (h : blankLength blanks s = n + 1) :
    s.take (n + 1) ∈ blanks := by
  unfold blankLength at h
  cases hfind : blanks.find? fun b => decide (b <+: s) with
  | none => simp [hfind] at h
  | some b =>
      have hlength : b.length = n + 1 := by simpa [hfind] using h
      have hstart : b <+: s := by simpa using List.find?_some hfind
      have htake : s.take (n + 1) = b := by
        rw [← hlength]
        exact (List.prefix_iff_eq_take.mp hstart).symm
      rw [htake]
      exact List.mem_of_find?_eq_some hfind

theorem mem_dropBlanks (hfree : ∀ b ∈ blanks, a ∉ b) {n : Nat} (hskip : a ∉ s.take n)
    (hmem : a ∈ s) : a ∈ dropBlanks blanks n s := by
  induction s generalizing n with
  | nil => exact hmem
  | cons c s ih =>
      cases n with
      | succ n =>
          rw [List.take_succ_cons, List.mem_cons, not_or] at hskip
          exact ih hskip.2 (List.mem_of_ne_of_mem hskip.1 hmem)
      | zero =>
          rw [dropBlanks]
          cases hlength : blankLength blanks (c :: s) with
          | zero => exact hmem
          | succ n =>
              have hfront := hfree _ (take_blankLength_mem hlength)
              rw [List.take_succ_cons, List.mem_cons, not_or] at hfront
              exact ih hfront.2 (List.mem_of_ne_of_mem hfront.1 hmem)

omit [DecidableEq α] in
/-- A symbol of no blank is in none that is read backwards. -/
theorem notMem_map_reverse (hfree : ∀ b ∈ blanks, a ∉ b) :
    ∀ b ∈ blanks.map List.reverse, a ∉ b := by
  intro b hb
  obtain ⟨b', hb', rfl⟩ := List.mem_map.mp hb
  rw [List.mem_reverse]
  exact hfree b' hb'

/-- A symbol of no blank survives trimming. -/
theorem mem_trim (hfree : ∀ b ∈ blanks, a ∉ b) (hmem : a ∈ s) : a ∈ trim blanks s := by
  have hleft : a ∈ trimLeft blanks s := mem_dropBlanks hfree (by simp) hmem
  rw [trim, trimRight, List.mem_reverse]
  apply mem_dropBlanks (notMem_map_reverse hfree) (by simp)
  rwa [List.mem_reverse]

/-- What trimming leaves of the front is an end of the text. -/
theorem dropBlanks_suffix (n : Nat) : dropBlanks blanks n s <:+ s := by
  induction s generalizing n with
  | nil => cases n <;> exact List.suffix_rfl
  | cons c s ih =>
      cases n with
      | succ n => exact (ih n).trans (List.suffix_cons c s)
      | zero =>
          rw [dropBlanks]
          cases blankLength blanks (c :: s) with
          | zero => exact List.suffix_rfl
          | succ n => exact (ih n).trans (List.suffix_cons c s)

theorem trimRight_prefix : trimRight blanks s <+: s := by
  rw [← List.reverse_suffix, trimRight, List.reverse_reverse]
  exact dropBlanks_suffix 0

/-- A trimmed text has no blank at the front. -/
theorem trimLeft_eq_self (h : trim blanks s = s) : trimLeft blanks s = s := by
  have hsuffix : trimLeft blanks s <:+ s := dropBlanks_suffix 0
  have hprefix : trim blanks s <+: trimLeft blanks s := trimRight_prefix
  rw [h] at hprefix
  exact hsuffix.eq_of_length_le hprefix.length_le

section Separated

variable {t : List α}

theorem blankLength_le : blankLength blanks s ≤ s.length := by
  unfold blankLength
  cases hfind : blanks.find? fun b => decide (b <+: s) with
  | none => exact Nat.zero_le _
  | some b =>
      have hstart : b <+: s := by simpa using List.find?_some hfind
      exact hstart.length_le

variable (hfree : ∀ b ∈ blanks, a ∉ b)

include hfree

/-- The blank at the front ends before a symbol that occurs in none. -/
theorem blankLength_append_cons : blankLength blanks (s ++ a :: t) = blankLength blanks s := by
  have hsame : ∀ b ∈ blanks, decide (b <+: s ++ a :: t) = decide (b <+: s) := by
    intro b hb
    rw [decide_eq_decide]
    constructor
    · intro hstart
      refine List.prefix_of_prefix_length_le hstart (List.prefix_append s _) ?_
      by_contra hlong
      have hmem : a ∈ b := by
        obtain ⟨c, hc⟩ : s ++ [a] <+: b :=
          List.prefix_of_prefix_length_le ⟨t, by simp⟩ hstart (by simp; omega)
        rw [← hc]
        simp
      exact hfree b hb hmem
    · intro hstart
      exact hstart.trans (List.prefix_append s _)
  rw [blankLength, blankLength, List.find?_congr hsame]

theorem dropBlanks_append_cons {n : Nat} (hn : n ≤ s.length) :
    dropBlanks blanks n (s ++ a :: t) = dropBlanks blanks n s ++ a :: t := by
  induction s generalizing n with
  | nil =>
      obtain rfl : n = 0 := Nat.le_zero.mp hn
      have hblank : blankLength blanks (a :: t) = 0 := by
        have hle := blankLength_append_cons (s := []) (t := t) hfree
        rw [List.nil_append] at hle
        rw [hle]
        exact Nat.le_zero.mp blankLength_le
      simp [dropBlanks, hblank]
  | cons c s ih =>
      cases n with
      | succ n => exact ih (Nat.le_of_succ_le_succ hn)
      | zero =>
          have hlength := blankLength_append_cons (s := c :: s) (t := t) hfree
          rw [List.cons_append] at hlength
          rw [List.cons_append, dropBlanks, dropBlanks, hlength]
          cases hfront : blankLength blanks (c :: s) with
          | zero => rfl
          | succ n =>
              have hle : n + 1 ≤ (c :: s).length := hfront ▸ blankLength_le
              exact ih (Nat.le_of_succ_le_succ hle)

/-- What stands behind a symbol of no blank has no part in trimming the front. -/
theorem trimLeft_append_cons : trimLeft blanks (s ++ a :: t) = trimLeft blanks s ++ a :: t :=
  dropBlanks_append_cons hfree (Nat.zero_le _)

/-- What stands before a symbol of no blank has no part in trimming the end. -/
theorem trimRight_append_cons : trimRight blanks (s ++ a :: t) = s ++ a :: trimRight blanks t := by
  have hreversed := notMem_map_reverse hfree
  have hsplit : (s ++ a :: t).reverse = t.reverse ++ a :: s.reverse := by simp
  rw [trimRight, hsplit, trimLeft_append_cons hreversed]
  simp [trimRight]

end Separated

section Padded

/-- No spelling is empty or starts another one. -/
structure PrefixFree (blanks : List (List α)) : Prop where
  nonempty : [] ∉ blanks
  eq_of_prefix : ∀ b ∈ blanks, ∀ c ∈ blanks, b <+: c → b = c

variable {b : List α}

theorem PrefixFree.blankLength (h : PrefixFree blanks) (hb : b ∈ blanks) :
    Trim.blankLength blanks (b ++ s) = b.length := by
  have hstart : b <+: b ++ s := List.prefix_append b s
  unfold Trim.blankLength
  cases hfind : blanks.find? fun c => decide (c <+: b ++ s) with
  | none =>
      have hnot := List.find?_eq_none.mp hfind b hb
      simp [hstart] at hnot
  | some c =>
      have hc : c ∈ blanks := List.mem_of_find?_eq_some hfind
      have hstart' : c <+: b ++ s := by simpa using List.find?_some hfind
      obtain rfl : b = c := by
        rcases List.prefix_or_prefix_of_prefix hstart hstart' with hle | hle
        · exact h.eq_of_prefix b hb c hc hle
        · exact (h.eq_of_prefix c hc b hb hle).symm
      rfl

theorem dropBlanks_append_length : dropBlanks blanks b.length (b ++ s) = trimLeft blanks s := by
  induction b with
  | nil => rfl
  | cons c b ih => exact ih

/-- A blank that is put before a text is dropped. -/
theorem PrefixFree.trimLeft_append (h : PrefixFree blanks) (hb : b ∈ blanks) :
    trimLeft blanks (b ++ s) = trimLeft blanks s := by
  cases b with
  | nil => exact absurd hb h.nonempty
  | cons c b =>
      have hlength := h.blankLength (s := s) hb
      rw [List.cons_append] at hlength
      rw [List.cons_append, trimLeft, dropBlanks, hlength]
      exact dropBlanks_append_length

variable {bs : List (List α)}

theorem PrefixFree.trimLeft_flatten_append (h : PrefixFree blanks) (hbs : ∀ b ∈ bs, b ∈ blanks) :
    trimLeft blanks (bs.flatten ++ s) = trimLeft blanks s := by
  induction bs with
  | nil => rfl
  | cons b bs ih =>
      rw [List.flatten_cons, List.append_assoc, h.trimLeft_append (hbs b List.mem_cons_self)]
      exact ih fun c hc => hbs c (List.mem_cons_of_mem b hc)

/-- Blanks that are put behind a text are dropped, when no spelling ends another one. -/
theorem PrefixFree.trimRight_append_flatten (h : PrefixFree (blanks.map List.reverse))
    (hbs : ∀ b ∈ bs, b ∈ blanks) :
    trimRight blanks (s ++ bs.flatten) = trimRight blanks s := by
  have hreversed : ∀ b ∈ (bs.map List.reverse).reverse, b ∈ blanks.map List.reverse := by
    intro b hb
    obtain ⟨c, hc, rfl⟩ := List.mem_map.mp (List.mem_reverse.mp hb)
    exact List.mem_map_of_mem (hbs c hc)
  rw [trimRight, List.reverse_append, List.reverse_flatten, h.trimLeft_flatten_append hreversed,
    trimRight]

/-- A text of blanks is trimmed to nothing. -/
theorem PrefixFree.trim_flatten (h : PrefixFree blanks) (hbs : ∀ b ∈ bs, b ∈ blanks) :
    trim blanks bs.flatten = [] := by
  have hleft : trimLeft blanks bs.flatten = [] := by
    simpa [trimLeft, dropBlanks] using h.trimLeft_flatten_append (s := []) hbs
  rw [trim, hleft]
  rfl

end Padded

end Trim
