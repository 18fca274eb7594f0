import Lbsync.Files.Filepath

/-!
# Where a path leads

A location is the list of names from the root. A path is followed part by part
from the root or from the working directory. Cleaning a path does not change where
it leads, and joining two paths follows the second from where the first leads.
-/

namespace Lbsync.Files

/-- The name of a file or a directory. -/
abbrev Name := { name : GoString // IsComponent name }

/-- A place in the file system: the names from the root. -/
abbrev Location := List Name

/-- Follow one part of a path from a location, given innermost name first. -/
def follow (out : List Name) (part : GoString) : List Name :=
  if h : IsComponent part then ⟨part, h⟩ :: out
  else if part = ascii ".." then out.tail
  else out

/-- Follow the parts of a path from a location. -/
def walk (start : Location) (path : GoString) : Location :=
  ((splitSlash path).foldl follow start.reverse).reverse

/-- Where a path leads from a working directory. -/
def resolve (cwd : Location) (path : GoString) : Location :=
  walk (if path.head? = some slash then [] else cwd) path

theorem follow_component {out : List Name} {part : GoString} (h : IsComponent part) :
    follow out part = ⟨part, h⟩ :: out := dif_pos h

theorem follow_up {out : List Name} : follow out (ascii "..") = out.tail := rfl

section Walk

variable {start : Location}

theorem walk_append (dir path : GoString) :
    walk start (dir ++ slash :: path) = walk (walk start dir) path := by
  simp [walk, splitSlash_append]

theorem walk_name (name : Name) : walk start name.1 = start ++ [name] := by
  simp [walk, splitSlash_of_notMem name.2.1, follow_component name.2]

/-- The empty path and the dots do not lead further down. -/
theorem walk_of_dots {path : GoString}
    (h : path = [] ∨ path = ascii "." ∨ path = ascii "..") : walk start path <+: start := by
  have hsplit : splitSlash path = [path] := by
    rcases h with rfl | rfl | rfl <;> decide
  have hnot : ¬ IsComponent path := fun hc => h.elim hc.2.1 (Or.rec hc.2.2.1 hc.2.2.2)
  simp only [walk, hsplit, List.foldl_cons, List.foldl_nil, follow, dif_neg hnot]
  split_ifs
  · rw [List.tail_reverse, List.reverse_reverse]
    exact List.dropLast_prefix start
  · exact ⟨[], by simp⟩

end Walk

theorem notMem_of_mem_splitSlash {path part : GoString} (h : part ∈ splitSlash path) :
    slash ∉ part := by
  induction path generalizing part with
  | nil =>
      rw [List.mem_singleton.mp h]
      exact List.not_mem_nil
  | cons b rest ih =>
      rw [splitSlash] at h
      split_ifs at h with hb
      · rcases List.mem_cons.mp h with rfl | h
        · exact List.not_mem_nil
        · exact ih h
      · cases hsplit : splitSlash rest with
        | nil => exact absurd hsplit (splitSlash_ne_nil rest)
        | cons first parts =>
            rw [hsplit] at ih
            rcases List.mem_cons.mp (hsplit ▸ h) with rfl | h
            · rw [List.mem_cons, not_or]
              exact ⟨Ne.symm hb, ih List.mem_cons_self⟩
            · exact ih (List.mem_cons_of_mem _ h)

section CleanStep

variable {rooted : Bool} {out : List GoString}

theorem cleanStep_skip {part : GoString} (h : part = [] ∨ part = ascii ".") :
    cleanStep rooted out part = out := if_pos h

theorem cleanStep_name {part : GoString} (hskip : ¬ (part = [] ∨ part = ascii "."))
    (hup : part ≠ ascii "..") : cleanStep rooted out part = part :: out := by
  simp only [cleanStep, if_neg hskip, if_neg hup]

theorem cleanStep_up_name {last : GoString} (h : last ≠ ascii "..") :
    cleanStep rooted (last :: out) (ascii "..") = out := by
  simp [cleanStep, h, show ascii ".." ≠ [] ∧ ascii ".." ≠ ascii "." by decide]

theorem mem_cleanStep {part next : GoString} (h : part ∈ cleanStep rooted out next) :
    part ∈ out ∨ part = next ∧ next ≠ [] ∧ next ≠ ascii "." := by
  unfold cleanStep at h
  split at h
  · exact Or.inl h
  · rename_i hskip
    have hnext (heq : part = next) :
        part ∈ out ∨ part = next ∧ next ≠ [] ∧ next ≠ ascii "." :=
      Or.inr ⟨heq, not_or.mp hskip⟩
    split at h
    · cases out with
      | nil =>
          cases rooted with
          | true => exact absurd h List.not_mem_nil
          | false => exact hnext (List.mem_singleton.mp h)
      | cons last rest =>
          simp only at h
          split at h
          · exact (List.mem_cons.mp h).elim hnext Or.inl
          · exact Or.inl (List.mem_cons_of_mem _ h)
    · exact (List.mem_cons.mp h).elim hnext Or.inl

end CleanStep

/-- A part that is kept when a path is cleaned: a name, or a step up. -/
def Kept (part : GoString) : Prop := slash ∉ part ∧ part ≠ [] ∧ part ≠ ascii "."

theorem kept_cleanStep {rooted : Bool} {out : List GoString} (hout : ∀ part ∈ out, Kept part)
    {next : GoString} (hnext : slash ∉ next) :
    ∀ part ∈ cleanStep rooted out next, Kept part := by
  intro part hpart
  rcases mem_cleanStep hpart with hmem | ⟨rfl, hproper⟩
  · exact hout part hmem
  · exact ⟨hnext, hproper⟩

theorem kept_foldl_cleanStep {rooted : Bool} {parts out : List GoString}
    (hparts : ∀ part ∈ parts, slash ∉ part) (hout : ∀ part ∈ out, Kept part) :
    ∀ part ∈ parts.foldl (cleanStep rooted) out, Kept part := by
  induction parts generalizing out with
  | nil => exact hout
  | cons next rest ih =>
      exact ih (fun part hpart => hparts part (List.mem_cons_of_mem _ hpart))
        (kept_cleanStep hout (hparts next List.mem_cons_self))

theorem kept_of_mem_components {rooted : Bool} {path part : GoString}
    (h : part ∈ components rooted path) : Kept part :=
  kept_foldl_cleanStep (fun _ => notMem_of_mem_splitSlash) (by simp) part (List.mem_reverse.mp h)

/-- One more part, before or after cleaning. -/
theorem follow_cleaned {rooted : Bool} {base : List Name} (hbase : rooted = true → base = [])
    {out : List GoString} (hout : ∀ part ∈ out, Kept part) {next : GoString}
    (hnext : slash ∉ next) :
    follow (out.foldr (fun part acc => follow acc part) base) next =
      (cleanStep rooted out next).foldr (fun part acc => follow acc part) base := by
  by_cases hskip : next = [] ∨ next = ascii "."
  · have hnot : ¬ IsComponent next := fun hc => hskip.elim hc.2.1 hc.2.2.1
    have hup : next ≠ ascii ".." := by
      rcases hskip with rfl | rfl <;> decide
    rw [cleanStep_skip hskip, follow, dif_neg hnot, if_neg hup]
  · by_cases hup : next = ascii ".."
    · subst hup
      cases out with
      | nil =>
          cases rooted with
          | true =>
              rw [hbase rfl]
              rfl
          | false => rfl
      | cons last out =>
          by_cases hlast : last = ascii ".."
          · subst hlast
            rfl
          · obtain ⟨hslash, hnil, hdot⟩ := hout last List.mem_cons_self
            rw [cleanStep_up_name hlast, List.foldr_cons,
              follow_component ⟨hslash, hnil, hdot, hlast⟩, follow_up, List.tail_cons]
    · rw [@cleanStep_name rooted out next hskip hup, List.foldr_cons]

/-- Following the parts that are left after cleaning leads to the same place. -/
theorem foldl_follow_cleaned {rooted : Bool} {base : List Name}
    (hbase : rooted = true → base = []) {parts : List GoString}
    (hparts : ∀ part ∈ parts, slash ∉ part) {out : List GoString}
    (hout : ∀ part ∈ out, Kept part) :
    parts.foldl follow (out.foldr (fun part acc => follow acc part) base) =
      (parts.foldl (cleanStep rooted) out).foldr (fun part acc => follow acc part) base := by
  induction parts generalizing out with
  | nil => rfl
  | cons next rest ih =>
      have hnext := hparts next List.mem_cons_self
      rw [List.foldl_cons, List.foldl_cons, follow_cleaned hbase hout hnext]
      exact ih (fun part hpart => hparts part (List.mem_cons_of_mem _ hpart))
        (kept_cleanStep hout hnext)

theorem foldl_follow_components {rooted : Bool} {base : List Name}
    (hbase : rooted = true → base = []) (path : GoString) :
    (components rooted path).foldl follow base = (splitSlash path).foldl follow base := by
  rw [components, List.foldl_reverse]
  exact (foldl_follow_cleaned hbase (fun _ => notMem_of_mem_splitSlash) (by simp)).symm

/-- Splitting what was put together gives the parts back. -/
theorem splitSlash_intercalate {parts : List GoString} (hne : parts ≠ [])
    (h : ∀ part ∈ parts, slash ∉ part) : splitSlash ([slash].intercalate parts) = parts := by
  induction parts with
  | nil => exact absurd rfl hne
  | cons first rest ih =>
      have hfirst := splitSlash_of_notMem (h first List.mem_cons_self)
      cases rest with
      | nil => simp [List.intercalate, hfirst]
      | cons second rest =>
          have hjoined : [slash].intercalate (first :: second :: rest) =
              first ++ slash :: [slash].intercalate (second :: rest) := by
            simp [List.intercalate]
          rw [hjoined, splitSlash_append, hfirst,
            ih (List.cons_ne_nil _ _) fun part hpart => h part (List.mem_cons_of_mem _ hpart)]
          rfl

theorem foldl_splitSlash_intercalate {parts : List GoString} (h : ∀ part ∈ parts, slash ∉ part)
    (base : List Name) :
    (splitSlash ([slash].intercalate parts)).foldl follow base = parts.foldl follow base := by
  by_cases hne : parts = []
  · subst hne
    rfl
  · rw [splitSlash_intercalate hne h]

theorem walk_components {rooted : Bool} {start : Location} (hstart : rooted = true → start = [])
    (path : GoString) :
    walk start ([slash].intercalate (components rooted path)) = walk start path := by
  rw [walk, walk,
    foldl_splitSlash_intercalate fun part hpart => (kept_of_mem_components hpart).1,
    foldl_follow_components fun hrooted => by rw [hstart hrooted, List.reverse_nil]]

theorem clean_of_rooted {path : GoString} (h : path.head? = some slash) :
    clean path = slash :: [slash].intercalate (components true path) := by
  simp [clean, h, render]

/-- A relative path stays a relative path. -/
theorem clean_of_relative {path : GoString} (h : path.head? ≠ some slash) :
    (∃ b ≠ slash, (clean path).head? = some b) ∧
      ∀ start, walk start (clean path) = walk start path := by
  have hwalk (start : Location) := @walk_components false start nofun path
  cases hcomp : components false path with
  | nil =>
      have hdot : clean path = ascii "." := by simp [clean, h, hcomp]
      rw [hdot]
      refine ⟨⟨46, by decide, rfl⟩, fun start => ?_⟩
      rw [← hwalk start, hcomp]
      rfl
  | cons first rest =>
      have hrender : clean path = [slash].intercalate (first :: rest) := by
        simp [clean, h, hcomp, render]
      refine ⟨?_, fun start => by rw [hrender, ← hcomp, hwalk]⟩
      obtain ⟨hslash, hnil, _⟩ := kept_of_mem_components (hcomp ▸ List.mem_cons_self)
      obtain ⟨b, first, rfl⟩ := List.exists_cons_of_ne_nil hnil
      refine ⟨b, fun heq => hslash (heq ▸ List.mem_cons_self), ?_⟩
      rw [hrender]
      cases rest <;> simp [List.intercalate]

theorem clean_ne_nil (path : GoString) : clean path ≠ [] := by
  by_cases hrooted : path.head? = some slash
  · rw [clean_of_rooted hrooted]
    exact List.cons_ne_nil _ _
  · obtain ⟨⟨b, _, hhead⟩, _⟩ := clean_of_relative hrooted
    intro hnil
    rw [hnil] at hhead
    cases hhead

/-- Cleaning a path does not change where it leads. -/
theorem resolve_clean (cwd : Location) (path : GoString) :
    resolve cwd (clean path) = resolve cwd path := by
  by_cases hrooted : path.head? = some slash
  · have hempty : walk [] [] = [] := rfl
    rw [resolve, resolve, if_pos hrooted, clean_of_rooted hrooted, if_pos (List.head?_cons ..),
      ← List.nil_append (slash :: _), walk_append, hempty, walk_components fun _ => rfl]
  · obtain ⟨⟨b, hb, hhead⟩, hwalk⟩ := clean_of_relative hrooted
    rw [resolve, resolve, if_neg hrooted, hhead, if_neg fun heq => hb (Option.some.inj heq), hwalk]

/-- Joining follows the second path from where the first one leads. -/
theorem resolve_join (cwd : Location) {dir : GoString} (hdir : dir ≠ []) (path : GoString) :
    resolve cwd (join [dir, path]) = walk (resolve cwd dir) path := by
  rw [join_pair hdir, resolve_clean, resolve, resolve, walk_append,
    List.head?_append_of_ne_nil _ hdir]

end Lbsync.Files
