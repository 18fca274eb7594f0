import Lbsync.Files.Links

/-!
# Resolving symbolic links

`filepath.EvalSymlinks` builds a path without symbolic links, one component after the
other, and asks `os.Lstat` about each path it has built. It follows more links than
the system does, so it resolves every path that leads somewhere.
-/

namespace Lbsync.Files

/-- The path that is built: whether it starts with a slash, and its components. -/
structure Dest where
  rooted : Bool
  parts : List GoString

namespace Dest

/-- The path as a string. -/
def path (d : Dest) : GoString := render d.rooted d.parts

/-- Add a component. -/
def push (d : Dest) (part : GoString) : Dest := { d with parts := d.parts ++ [part] }

/-- Back up to the previous component if possible. A single component and a `..` stay. -/
def up (d : Dest) : Dest :=
  if d.parts.length ≤ 1 ∨ d.parts.getLast? = some (ascii "..") then d.push (ascii "..")
  else { d with parts := d.parts.dropLast }

end Dest

namespace LinkTree

variable (t : LinkTree)

/-- Add the parts of a path to what is built, with `jump` to go on after a symbolic link. -/
def evalWith (jump : Dest → List GoString → Except DiskErr Dest) :
    Dest → List GoString → Except DiskErr Dest
  | dest, [] => .ok dest
  | dest, part :: rest =>
      if part = [] ∨ part = ascii "." then evalWith jump dest rest
      else if part = ascii ".." then evalWith jump dest.up rest
      else
        match t.lstat (dest.push part).path with
        | .error e => .error e
        | .ok (.link target) =>
            -- the name of a link is taken away again, and with it everything before it
            -- when the target starts at the root
            jump (if target.head? = some slash then ⟨true, []⟩ else dest)
              (splitSlash target ++ rest)
        | .ok node =>
            if node.isDir = false ∧ rest ≠ [] then .error .io
            else evalWith jump (dest.push part) rest

/-- Add the parts of a path, through at most so many symbolic links. -/
def evalLinks : Nat → Dest → List GoString → Except DiskErr Dest
  | 0 => t.evalWith fun _ _ => .error .io
  | links + 1 => t.evalWith (evalLinks links)

/-- `filepath.EvalSymlinks`. -/
def evalSymlinks (path : GoString) : Except DiskErr GoString :=
  match t.evalLinks 255 ⟨path.head? = some slash, []⟩ (splitSlash path) with
  | .ok dest => .ok (clean dest.path)
  | .error e => .error e

/-- `filepath.Abs`. -/
def abs (path : GoString) : GoString :=
  if path.head? = some slash then clean path else join [t.wd, path]

/-- The path that was built leads to a location without meeting a link. -/
structure Tracks (d : Dest) (l : Location) : Prop where
  proper : ∀ part ∈ d.parts, IsComponent part ∨ part = ascii ".."
  walk : t.walkLinks 0 (t.start d.rooted) d.parts = .ok l

variable {t}

end LinkTree

namespace LinkTree

variable {t : LinkTree} {d : Dest} {l : Location} {part : GoString}

theorem enterable_root : t.Enterable [] := rfl

theorem head_intercalate {first : GoString} (hne : first ≠ []) (rest : List GoString) :
    ([slash].intercalate (first :: rest)).head? = first.head? := by
  cases rest with
  | nil => simp [List.intercalate]
  | cons second rest =>
      have hjoined : [slash].intercalate (first :: second :: rest) =
          first ++ slash :: [slash].intercalate (second :: rest) := by
        simp [List.intercalate]
      rw [hjoined, List.head?_append_of_ne_nil _ hne]

section Push

variable (hproper : ∀ part ∈ d.parts, IsComponent part ∨ part = ascii "..")
  (hname : IsComponent part)

include hproper hname

theorem proper_push : ∀ p ∈ (d.push part).parts, IsComponent p ∨ p = ascii ".." := by
  intro p hp
  rcases List.mem_append.mp hp with hp | hp
  · exact hproper p hp
  · exact Or.inl (List.mem_singleton.mp hp ▸ hname)

theorem notMem_push : ∀ p ∈ (d.push part).parts, slash ∉ p ∧ p ≠ [] := by
  intro p hp
  rcases proper_push hproper hname p hp with hcomp | rfl
  · exact ⟨hcomp.1, hcomp.2.1⟩
  · decide

/-- What is built is split into its components again. -/
theorem splitSlash_push :
    splitSlash (d.push part).path = (if d.rooted then [[]] else []) ++ d.parts ++ [part] := by
  have hsplit := splitSlash_intercalate (List.append_ne_nil_of_right_ne_nil d.parts
    (List.cons_ne_nil part [])) fun p hp => (notMem_push hproper hname p hp).1
  cases hrooted : d.rooted with
  | true => simp [Dest.path, Dest.push, render, hrooted, splitSlash, hsplit]
  | false => simp [Dest.path, Dest.push, render, hrooted, hsplit]

theorem head_push : (d.push part).path.head? = some slash ↔ d.rooted = true := by
  cases hrooted : d.rooted with
  | true => simp [Dest.path, Dest.push, render, hrooted]
  | false =>
      obtain ⟨first, rest, hparts⟩ := List.exists_cons_of_ne_nil
        (List.append_ne_nil_of_right_ne_nil d.parts (List.cons_ne_nil part []))
      obtain ⟨hslash, hne⟩ := notMem_push hproper hname first (by simp [Dest.push, hparts])
      have hhead : (d.push part).path.head? = first.head? := by
        simp only [Dest.path, Dest.push, render, hrooted, hparts, Bool.false_eq_true, if_false,
          List.nil_append]
        exact head_intercalate hne rest
      rw [hhead]
      exact iff_of_false (fun h => hslash (List.mem_of_head? h)) Bool.false_ne_true

end Push

/-- Walking a path that starts with a slash begins at the root. -/
theorem walk_rooted {jump : Location → List GoString → Except DiskErr Location} (rooted : Bool)
    (parts : List GoString) :
    t.walkWith jump (t.start rooted) ((if rooted then [[]] else []) ++ parts) =
      t.walkWith jump (t.start rooted) parts := by
  cases rooted with
  | true => exact walkWith_stay enterable_root (by decide) (by decide) parts
  | false => rfl

/-- `os.Lstat` of what is built finds the node there. -/
theorem lstat_push (h : t.Tracks d l) (henter : t.Enterable l) (hname : IsComponent part)
    {node : Inode} (hlook : t.look (l ++ [⟨part, hname⟩]) = some node) :
    t.lstat (d.push part).path = .ok node := by
  have hsplit := splitSlash_push h.proper hname
  have hlast : lastPart (d.push part).path = part := by simp [lastPart, hsplit]
  have hrooted : decide ((d.push part).path.head? = some slash) = d.rooted := by
    rw [Bool.decide_congr (head_push h.proper hname), Bool.decide_eq_true]
  have hwalk : t.walkLinks maxLinks (t.start d.rooted)
      ((if d.rooted then [[]] else []) ++ d.parts) = .ok l := by
    have hplain := @walkWith_of_plain t (t.walkLinks 39) _ _ _ h.walk []
    rw [List.append_nil] at hplain
    exact (walk_rooted d.rooted d.parts).trans hplain
  unfold lstat
  simp only [hlast, hname, dif_pos, hrooted, hsplit, List.dropLast_concat, hwalk, henter,
    not_true_eq_false, if_false, hlook]

theorem Tracks.push (h : t.Tracks d l) (henter : t.Enterable l) (hname : IsComponent part)
    {node : Inode} (hlook : t.look (l ++ [⟨part, hname⟩]) = some node)
    (hnode : ∀ target, node ≠ .link target) : t.Tracks (d.push part) (l ++ [⟨part, hname⟩]) where
  proper := proper_push h.proper hname
  walk := (walkWith_of_plain h.walk [part]).trans (walkWith_name henter hname hlook hnode [])

theorem Tracks.up (h : t.Tracks d l) (henter : t.Enterable l) : t.Tracks d.up l.dropLast := by
  unfold Dest.up
  split_ifs with hkeep
  · refine ⟨fun p hp => ?_, (walkWith_of_plain h.walk [ascii ".."]).trans (walkWith_up henter [])⟩
    rcases List.mem_append.mp hp with hp | hp
    · exact h.proper p hp
    · exact Or.inr (List.mem_singleton.mp hp)
  · obtain ⟨hlong, hlast⟩ := not_or.mp hkeep
    have hne : d.parts ≠ [] := fun hnil => hlong (by simp [hnil])
    -- the last component is a name, and it is the last step that was made
    have hparts := List.dropLast_append_getLast hne
    have hname : IsComponent (d.parts.getLast hne) :=
      (h.proper _ (List.getLast_mem hne)).resolve_right fun hup =>
        hlast (List.getLast?_eq_some_getLast hne ▸ congrArg some hup)
    obtain ⟨mid, hmid, rfl⟩ := exists_of_plain_name hname (hparts ▸ h.walk)
    rw [List.dropLast_concat]
    exact ⟨fun p hp => h.proper p (List.dropLast_subset _ hp), hmid⟩

/-- What a walk through links finds, building the path finds too. -/
def Resolves (t : LinkTree) (jump : Location → List GoString → Except DiskErr Location)
    (jump' : Dest → List GoString → Except DiskErr Dest) : Prop :=
  ∀ d l parts m, (∀ part ∈ parts, slash ∉ part) → t.Tracks d l → jump l parts = .ok m →
    ∃ d', jump' d parts = .ok d' ∧ t.Tracks d' m

theorem Resolves.walk {jump : Location → List GoString → Except DiskErr Location}
    {jump' : Dest → List GoString → Except DiskErr Dest} (h : t.Resolves jump jump') :
    t.Resolves (t.walkWith jump) (t.evalWith jump') := by
  intro d l parts m hparts htracks hwalk
  induction parts generalizing d l with
  | nil => exact ⟨d, rfl, Except.ok.inj hwalk ▸ htracks⟩
  | cons part rest ih =>
      have hrest : ∀ p ∈ rest, slash ∉ p := fun p hp => hparts p (List.mem_cons_of_mem part hp)
      obtain ⟨henter, hstep⟩ := walkStep_of_ok hwalk
      rw [evalWith]
      cases hstep with
      | @name hname node hlook hnode hwalk =>
          have hskip : ¬ (part = [] ∨ part = ascii ".") :=
            not_or.mpr ⟨hname.2.1, hname.2.2.1⟩
          have hgoes : ¬ (node.isDir = false ∧ rest ≠ []) := by
            rintro ⟨hfile, hne⟩
            obtain ⟨next, rest, rfl⟩ := List.exists_cons_of_ne_nil hne
            obtain ⟨hdir, -⟩ := walkStep_of_ok hwalk
            rw [Enterable, hlook, Option.any_some] at hdir
            cases hfile.symm.trans (Inode.isDir_of_enterable hdir)
          obtain ⟨d', heval, htracks'⟩ :=
            ih _ _ hrest (htracks.push henter hname hlook hnode) hwalk
          refine ⟨d', ?_, htracks'⟩
          rw [if_neg hskip, if_neg hname.2.2.2, lstat_push htracks henter hname hlook]
          cases node with
          | link target => exact absurd rfl (hnode target)
          | dir listable enterable => exact (if_neg hgoes).trans heval
          | file data => exact (if_neg hgoes).trans heval
          | other => exact (if_neg hgoes).trans heval
      | @link hname target hlook htarget hjump =>
          have hskip : ¬ (part = [] ∨ part = ascii ".") :=
            not_or.mpr ⟨hname.2.1, hname.2.2.1⟩
          rw [if_neg hskip, if_neg hname.2.2.2, lstat_push htracks henter hname hlook]
          have hmore : ∀ p ∈ splitSlash target ++ rest, slash ∉ p := fun p hp =>
            (List.mem_append.mp hp).elim notMem_of_mem_splitSlash (hrest p)
          have hroot : t.Tracks ⟨true, []⟩ [] := ⟨nofun, rfl⟩
          simp only
          split_ifs at hjump ⊢
          · exact h _ _ _ _ hmore hroot hjump
          · exact h _ _ _ _ hmore htracks hjump
      | up hup hback =>
          subst hup
          rw [if_neg (by decide), if_pos rfl]
          exact ih _ _ hrest (htracks.up henter) hback
      | stay hname hup hback =>
          have hskip : part = [] ∨ part = ascii "." := by
            by_contra hnot
            obtain ⟨hnil, hdot⟩ := not_or.mp hnot
            exact hname ⟨hparts part List.mem_cons_self, hnil, hdot, hup⟩
          rw [if_pos hskip]
          exact ih _ _ hrest htracks hback

theorem resolves_links {links more : Nat} (hle : links ≤ more) :
    t.Resolves (t.walkLinks links) (t.evalLinks more) := by
  induction links generalizing more with
  | zero =>
      have hnone (jump' : Dest → List GoString → Except DiskErr Dest) :
          t.Resolves (fun _ _ => .error .io) jump' := fun _ _ _ _ _ _ h => nomatch h
      cases more with
      | zero => exact (hnone _).walk
      | succ more => exact (hnone _).walk
  | succ links ih =>
      cases more with
      | zero => exact absurd hle (Nat.not_succ_le_zero links)
      | succ more => exact (ih (Nat.le_of_succ_le_succ hle)).walk

/-- A path that leads somewhere is resolved. -/
theorem exists_evalSymlinks {path : GoString} (h : t.locate path = .ok l) :
    ∃ resolved, t.evalSymlinks path = .ok resolved := by
  unfold locate at h
  split_ifs at h with hnil
  obtain ⟨d, heval, -⟩ := @resolves_links t maxLinks 255 (by decide)
    ⟨path.head? = some slash, []⟩ _ _ _ (fun _ => notMem_of_mem_splitSlash) ⟨nofun, rfl⟩ h
  exact ⟨clean d.path, by rw [evalSymlinks, heval]⟩

end LinkTree

end Lbsync.Files
