import Lbsync.GoString
import Mathlib.Data.List.Basic

/-!
# Lexical paths

`filepath.Clean` and `filepath.Join` on Unix, by components. A name without a
slash that is not empty, `.` or `..` is one component; joining it to a directory
appends it, so different names lead to different paths.
-/

namespace Lbsync.Files

/-- The separator. -/
def slash : UInt8 := 47

/-- The parts between the separators; empty parts included. -/
def splitSlash : GoString → List GoString
  | [] => [[]]
  | b :: rest =>
      if b = slash then [] :: splitSlash rest
      else
        match splitSlash rest with
        | [] => [[b]]
        | part :: parts => (b :: part) :: parts

/-- Add one part to the cleaned components, innermost first. -/
def cleanStep (rooted : Bool) (out : List GoString) (part : GoString) : List GoString :=
  if part = [] ∨ part = ascii "." then out
  else if part = ascii ".." then
    match out with
    | [] => if rooted then [] else [part]
    | last :: rest => if last = ascii ".." then part :: out else rest
  else part :: out

/-- The cleaned components of a path, outermost first. -/
def components (rooted : Bool) (path : GoString) : List GoString :=
  ((splitSlash path).foldl (cleanStep rooted) []).reverse

/-- Put the components together. -/
def render (rooted : Bool) (parts : List GoString) : GoString :=
  (if rooted then [slash] else []) ++ [slash].intercalate parts

/-- `filepath.Clean`. -/
def clean (path : GoString) : GoString :=
  let rooted := path.head? = some slash
  let parts := components rooted path
  if ¬ rooted ∧ parts = [] then ascii "." else render rooted parts

/-- `filepath.Join`. Leading empty elements are dropped. -/
def join (elems : List GoString) : GoString :=
  match elems.dropWhile (· = []) with
  | [] => []
  | first :: rest => clean ([slash].intercalate (first :: rest))

/-- One proper path component. -/
def IsComponent (name : GoString) : Prop :=
  slash ∉ name ∧ name ≠ [] ∧ name ≠ ascii "." ∧ name ≠ ascii ".."

instance (name : GoString) : Decidable (IsComponent name) := inferInstanceAs (Decidable (_ ∧ _))

theorem splitSlash_ne_nil (path : GoString) : splitSlash path ≠ [] := by
  cases path with
  | nil => simp [splitSlash]
  | cons b rest =>
      rw [splitSlash]
      split_ifs
      · simp
      · split <;> simp

theorem splitSlash_of_notMem {name : GoString} (h : slash ∉ name) : splitSlash name = [name] := by
  induction name with
  | nil => rfl
  | cons b rest ih =>
      obtain ⟨hb, hrest⟩ := not_or.mp (mt List.mem_cons.mpr h)
      simp [splitSlash, Ne.symm hb, ih hrest]

theorem splitSlash_append (dir path : GoString) :
    splitSlash (dir ++ slash :: path) = splitSlash dir ++ splitSlash path := by
  induction dir with
  | nil => simp [splitSlash]
  | cons b rest ih =>
      rw [List.cons_append, splitSlash, splitSlash, ih]
      by_cases hb : b = slash
      · simp [hb]
      · cases hsplit : splitSlash rest with
        | nil => exact absurd hsplit (splitSlash_ne_nil rest)
        | cons part parts => simp [hb]

/-- A proper component is appended to what is there. -/
theorem components_append (rooted : Bool) (dir : GoString) {name : GoString}
    (h : IsComponent name) :
    components rooted (dir ++ slash :: name) = components rooted dir ++ [name] := by
  obtain ⟨hslash, hnil, hdot, hdots⟩ := h
  have hstep (out : List GoString) : cleanStep rooted out name = name :: out := by
    simp [cleanStep, hnil, hdot, hdots]
  simp [components, splitSlash_append, splitSlash_of_notMem hslash, hstep]

theorem render_append (rooted : Bool) (parts : List GoString) (name : GoString) :
    render rooted (parts ++ [name]) =
      (if rooted then [slash] else []) ++ parts.flatMap (· ++ [slash]) ++ name := by
  have hparts : [slash].intercalate (parts ++ [name]) = parts.flatMap (· ++ [slash]) ++ name := by
    induction parts with
    | nil => simp [List.intercalate]
    | cons part parts ih =>
        cases parts with
        | nil => simp [List.intercalate]
        | cons next parts =>
            rw [List.cons_append, List.flatMap_cons, List.append_assoc, ← ih]
            simp [List.intercalate]
  rw [render, hparts, List.append_assoc]

theorem join_pair {dir : GoString} (hdir : dir ≠ []) (path : GoString) :
    join [dir, path] = clean (dir ++ slash :: path) := by
  simp [join, hdir, List.intercalate]

/-- Joining a proper component to a directory appends it to something that depends
on the directory alone. -/
theorem join_component (dir : GoString) :
    ∃ base : GoString, ∀ name, IsComponent name → join [dir, name] = base ++ name := by
  by_cases hdir : dir = []
  · refine ⟨[], fun name h => ?_⟩
    obtain ⟨hslash, hnil, hdot, hdots⟩ := h
    have hhead : name.head? ≠ some slash := fun hs => hslash (List.mem_of_head? hs)
    have hparts (rooted : Bool) : components rooted name = [name] := by
      simp [components, splitSlash_of_notMem hslash, cleanStep, hnil, hdot, hdots]
    simp [join, hdir, hnil, clean, hhead, hparts, render, List.intercalate]
  · let rooted : Bool := dir.head? = some slash
    refine ⟨(if rooted then [slash] else []) ++
      (components rooted dir).flatMap (· ++ [slash]), fun name h => ?_⟩
    have hhead : (dir ++ slash :: name).head? = dir.head? := by
      rw [List.head?_append_of_ne_nil _ hdir]
    rw [join_pair hdir, clean, hhead]
    simp only [components_append _ dir h]
    rw [if_neg (by simp), render_append]

/-- Different components lead to different paths. -/
theorem join_injective {dir a b : GoString} (ha : IsComponent a) (hb : IsComponent b)
    (h : join [dir, a] = join [dir, b]) : a = b := by
  obtain ⟨base, hbase⟩ := join_component dir
  rw [hbase a ha, hbase b hb] at h
  exact List.append_cancel_left h

end Lbsync.Files
