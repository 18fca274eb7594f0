import Lbsync.Files.Location
import Mathlib.Data.List.Induction

/-!
# Joining in several steps

Cleaning a cleaned path changes nothing, so it does not matter whether the elements
of a path are joined at once or one after the other.
-/

namespace Lbsync.Files

/-- Cleaning the cleaned parts again gives them back. -/
theorem foldl_cleanStep_cleaned {rooted : Bool} {parts : List GoString}
    (hparts : ∀ part ∈ parts, slash ∉ part) :
    (parts.foldl (cleanStep rooted) []).reverse.foldl (cleanStep rooted) [] =
      parts.foldl (cleanStep rooted) [] := by
  induction parts using List.reverseRecOn with
  | nil => rfl
  | append_singleton parts next ih =>
      have ih := ih fun part hpart => hparts part (List.mem_append_left _ hpart)
      have hkept : ∀ part ∈ parts.foldl (cleanStep rooted) [], Kept part :=
        kept_foldl_cleanStep (fun part hpart => hparts part (List.mem_append_left _ hpart)) nofun
      rw [List.foldl_append, List.foldl_cons, List.foldl_nil]
      generalize parts.foldl (cleanStep rooted) [] = out at ih hkept ⊢
      -- a part that is added is added again
      have hadded (hstep : cleanStep rooted out next = next :: out) :
          (cleanStep rooted out next).reverse.foldl (cleanStep rooted) [] =
            cleanStep rooted out next := by
        rw [hstep, List.reverse_cons, List.foldl_append, ih, List.foldl_cons, List.foldl_nil, hstep]
      by_cases hskip : next = [] ∨ next = ascii "."
      · rw [cleanStep_skip hskip, ih]
      · by_cases hup : next = ascii ".."
        · subst hup
          cases out with
          | nil =>
              cases rooted with
              | true => rfl
              | false => rfl
          | cons last rest =>
              by_cases hlast : last = ascii ".."
              · exact hadded (by simp only [cleanStep, if_neg hskip, hlast, if_true])
              · rw [cleanStep_up_name hlast]
                rw [List.reverse_cons, List.foldl_append, List.foldl_cons, List.foldl_nil,
                  cleanStep_name (fun h => h.elim (hkept last List.mem_cons_self).2.1
                    (hkept last List.mem_cons_self).2.2) hlast] at ih
                exact (List.cons.inj ih).2
        · exact hadded (cleanStep_name hskip hup)

theorem head_clean (path : GoString) :
    (clean path).head? = some slash ↔ path.head? = some slash := by
  by_cases hrooted : path.head? = some slash
  · rw [clean_of_rooted hrooted]
    exact iff_of_true rfl hrooted
  · obtain ⟨⟨b, hb, hhead⟩, -⟩ := clean_of_relative hrooted
    rw [hhead]
    exact iff_of_false (fun h => hb (Option.some.inj h)) hrooted

/-- The parts of a cleaned path are added as they are. -/
theorem foldl_cleanStep_clean (path : GoString) :
    (splitSlash (clean path)).foldl (cleanStep (path.head? = some slash)) [] =
      (splitSlash path).foldl (cleanStep (path.head? = some slash)) [] := by
  have hrendered (rooted : Bool) :
      (splitSlash ([slash].intercalate (components rooted path))).foldl (cleanStep rooted) [] =
        (splitSlash path).foldl (cleanStep rooted) [] := by
    by_cases hnil : components rooted path = []
    · rw [hnil]
      exact (List.reverse_eq_nil_iff.mp hnil).symm
    · rw [splitSlash_intercalate hnil fun part hpart => (kept_of_mem_components hpart).1]
      exact foldl_cleanStep_cleaned fun _ => notMem_of_mem_splitSlash
  by_cases hrooted : path.head? = some slash
  · simp only [hrooted, decide_true]
    rw [clean_of_rooted hrooted, ← hrendered true]
    rfl
  · simp only [hrooted, decide_false]
    by_cases hnil : components false path = []
    · have hdot : clean path = ascii "." := by simp [clean, hrooted, hnil]
      rw [hdot]
      exact (List.reverse_eq_nil_iff.mp hnil).symm
    · have hrender : clean path = [slash].intercalate (components false path) := by
        simp [clean, hrooted, hnil, render]
      rw [hrender, hrendered]

/-- A cleaned path is determined by its parts and whether it starts with a slash. -/
theorem clean_congr {path path' : GoString}
    (hhead : path'.head? = some slash ↔ path.head? = some slash)
    (hparts : components (path.head? = some slash) path' =
      components (path.head? = some slash) path) : clean path' = clean path := by
  simp only [clean, hhead, hparts]

/-- Adding to a cleaned path is adding to the path. -/
theorem clean_append {path : GoString} (hpath : path ≠ []) (more : GoString) :
    clean (clean path ++ slash :: more) = clean (path ++ slash :: more) := by
  have hhead : (path ++ slash :: more).head? = path.head? := List.head?_append_of_ne_nil _ hpath
  apply clean_congr
  · rw [List.head?_append_of_ne_nil _ (clean_ne_nil path), hhead, head_clean]
  · simp only [hhead, components, splitSlash_append, List.foldl_append, foldl_cleanStep_clean]

theorem join_ne_nil (dir : GoString) {path : GoString} (hpath : path ≠ []) :
    join [dir, path] ≠ [] := by
  by_cases hdir : dir = []
  · simpa [join, hdir, hpath] using clean_ne_nil _
  · rw [join_pair hdir]
    exact clean_ne_nil _

/-- Joining in two steps is joining at once. -/
theorem join_join {dir : GoString} (hdir : dir ≠ []) (a b : GoString) :
    join [join [dir, a], b] = join [dir, a, b] := by
  have hne : dir ++ slash :: a ≠ [] := List.append_ne_nil_of_left_ne_nil hdir _
  rw [join_pair hdir, join_pair (clean_ne_nil _), clean_append hne]
  simp [join, hdir, List.intercalate]

end Lbsync.Files
