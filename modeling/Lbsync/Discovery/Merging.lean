import Lbsync.Discovery.Scan

/-!
# Merging entries

`mergeEntries` keeps every entry with an error or without a path, and of the other
entries with one path the first. It sorts what it keeps, so that the order of the
entries with one name and path is open, but not which entries there are.
-/

namespace Lbsync.Discovery

/-- The path under which an entry is merged. -/
def Entry.path (e : Entry) : Option GoString :=
  if e.error ≠ none ∨ e.cert.certPath = [] then none else some e.cert.certPath

theorem Entry.path_eq_none {e : Entry} :
    e.path = none ↔ e.error ≠ none ∨ e.cert.certPath = [] := by
  unfold Entry.path
  split_ifs with h <;> simp [h]

theorem Entry.path_eq_some {e : Entry} {path : GoString} (hpath : path ≠ []) :
    e.path = some path ↔ e.error = none ∧ e.cert.certPath = path := by
  unfold Entry.path
  split_ifs with h
  · refine iff_of_false nofun ?_
    rintro ⟨herror, rfl⟩
    exact h.elim (fun hne => hne herror) hpath
  · obtain ⟨herror, -⟩ : e.error = none ∧ e.cert.certPath ≠ [] := by simpa using h
    simp [herror]

theorem mergeLoop_eq_firsts (seen : List GoString) (entries : List Entry) :
    mergeLoop seen entries = Firsts.firsts Entry.path seen entries := by
  induction entries generalizing seen with
  | nil => rfl
  | cons e rest ih =>
      rw [mergeLoop, Firsts.firsts, Entry.path]
      by_cases hnone : e.error ≠ none ∨ e.cert.certPath = []
      · rw [if_pos hnone, if_pos hnone, ih]
      · rw [if_neg hnone, if_neg hnone, ih, ih]
        by_cases hseen : e.cert.certPath ∈ seen
        · simp only [if_pos hseen]
        · simp only [if_neg hseen]

/-- The result is the first entries in some order. -/
theorem mergeEntries_perm (s : Sorter) (entries : List Entry) :
    (mergeEntries s entries).Perm (Firsts.firsts Entry.path [] entries) := by
  rw [mergeEntries, mergeLoop_eq_firsts]
  exact s.perm _

section Merged

variable (s : Sorter) (entries : List Entry)

theorem mergeEntries_sorted : (mergeEntries s entries).Pairwise fun a b => a.rank ≤ b.rank :=
  (s.sorted _).imp fun hless => not_lt.mp (mt Entry.less_iff.mpr hless)

/-- An entry with an error or without a path is there as often as before. -/
theorem count_mergeEntries {e : Entry} (h : e.error ≠ none ∨ e.cert.certPath = []) :
    (mergeEntries s entries).count e = entries.count e := by
  have hkeyless : ∀ a, (a == e) = true → a.path = none := by
    intro a ha
    rw [eq_of_beq ha]
    exact Entry.path_eq_none.mpr h
  rw [(mergeEntries_perm s entries).count_eq, List.count_eq_length_filter,
    List.count_eq_length_filter, Firsts.filter_firsts_of_keyless hkeyless]

/-- Of the other entries with one path the first is there, once, and no other. -/
theorem filter_mergeEntries {path : GoString} (hpath : path ≠ []) :
    (mergeEntries s entries).filter (fun e => e.error = none ∧ e.cert.certPath = path) =
      (entries.find? fun e => e.error = none ∧ e.cert.certPath = path).toList := by
  simp only [← Entry.path_eq_some hpath]
  have hperm := (mergeEntries_perm s entries).filter fun e => decide (e.path = some path)
  rw [Firsts.filter_firsts_of_key List.not_mem_nil] at hperm
  -- At most one entry is left, so there is only one order.
  cases hfind : entries.find? fun e => decide (e.path = some path) with
  | none =>
      rw [hfind] at hperm
      exact hperm.eq_nil
  | some e =>
      rw [hfind] at hperm
      exact hperm.eq_singleton

/-- Merging once more changes nothing but possibly the order. -/
theorem mergeEntries_again (s' : Sorter) :
    (mergeEntries s' (mergeEntries s entries)).Perm (mergeEntries s entries) := by
  have hnodup : ((mergeEntries s entries).filterMap Entry.path).Nodup := by
    rw [((mergeEntries_perm s entries).filterMap Entry.path).nodup_iff]
    exact Firsts.nodup_filterMap_firsts
  have hsame : Firsts.firsts Entry.path [] (mergeEntries s entries) = mergeEntries s entries :=
    Firsts.firsts_eq_self (fun _ _ => List.not_mem_nil) hnodup
  simpa only [hsame] using mergeEntries_perm s' (mergeEntries s entries)

end Merged

/-- Merging loses and doubles nothing: the result is sorted, has the entries with an error or
without a path as often as before, has of the other entries with one path the first, and nothing
else; and merging it again gives the same entries. -/
theorem mergeEntries_lossless (s s' : Sorter) (entries : List Entry) :
    (mergeEntries s entries).Pairwise (fun a b => a.rank ≤ b.rank) ∧
    (∀ e : Entry, e.error ≠ none ∨ e.cert.certPath = [] →
      (mergeEntries s entries).count e = entries.count e) ∧
    (∀ path ≠ [],
      (mergeEntries s entries).filter (fun e => e.error = none ∧ e.cert.certPath = path) =
        (entries.find? fun e => e.error = none ∧ e.cert.certPath = path).toList) ∧
    (∀ e ∈ mergeEntries s entries, e ∈ entries) ∧
    (mergeEntries s' (mergeEntries s entries)).Perm (mergeEntries s entries) := by
  refine ⟨mergeEntries_sorted s entries, fun e => count_mergeEntries s entries,
    fun path => filter_mergeEntries s entries, fun e he => ?_, mergeEntries_again s entries s'⟩
  exact (Firsts.firsts_sublist [] entries).mem ((mergeEntries_perm s entries).mem_iff.mp he)

end Lbsync.Discovery
