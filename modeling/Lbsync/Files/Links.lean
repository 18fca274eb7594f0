import Lbsync.Files.Disk
import Lbsync.Files.Location

/-!
# A file tree with symbolic links

What the calls that only read make of a tree of directories, files and symbolic
links. A path is followed part by part. At a symbolic link the parts of its target
take the place of its name, from the directory of the link or from the root, and the
system gives up after a number of links. A directory may refuse to be listed or to be
entered, and a node that is none of the others, a device or a file without read
permission, cannot be read.
-/

namespace Lbsync.Files

/-- What can be at a location. -/
inductive Inode where
  | dir (listable enterable : Bool)
  | file (data : Bytes)
  | link (target : GoString)
  | other
  deriving DecidableEq, Repr

namespace Inode

/-- Whether the node is a directory. -/
def isDir : Inode → Bool
  | dir _ _ => true
  | _ => false

/-- Whether the entries of the node can be listed. -/
def listable : Inode → Bool
  | dir listable _ => listable
  | _ => false

/-- Whether paths can lead through the node. -/
def enterable : Inode → Bool
  | dir _ enterable => enterable
  | _ => false

theorem isDir_of_enterable {node : Inode} (h : node.enterable = true) : node.isDir = true := by
  cases node with
  | dir listable enterable => rfl
  | file data => cases h
  | link target => cases h
  | other => cases h

end Inode

/-- The nodes by location, the working directory, and its path as `os.Getwd` gives it. -/
structure LinkTree where
  nodes : AList (fun _ : Location => Inode)
  cwd : Location
  wd : GoString

/-- An entry of a directory: its name, and whether it is itself a directory. -/
structure DirEntry where
  name : GoString
  isDir : Bool
  deriving DecidableEq, Repr

namespace LinkTree

variable (t : LinkTree)

/-- The node at a location. The root is a directory. -/
def look (l : Location) : Option Inode :=
  if l = [] then some (.dir true true) else t.nodes.lookup l

/-- A location is a directory that can be entered. -/
def Enterable (l : Location) : Prop := (t.look l).any Inode.enterable = true

instance (l : Location) : Decidable (t.Enterable l) := inferInstanceAs (Decidable (_ = _))

/-- Why a location cannot be entered. -/
def refusal (l : Location) : DiskErr := if t.look l = none then .notExist else .io

/-- Follow the parts of a path from a location, with `jump` to go on after a symbolic
link. -/
def walkWith (jump : Location → List GoString → Except DiskErr Location) :
    Location → List GoString → Except DiskErr Location
  | l, [] => .ok l
  | l, part :: rest =>
      if ¬ t.Enterable l then .error (t.refusal l)
      else if hname : IsComponent part then
        match t.look (l ++ [⟨part, hname⟩]) with
        | none => .error .notExist
        | some (.link target) =>
            if target = [] then .error .notExist
            else jump (if target.head? = some slash then [] else l) (splitSlash target ++ rest)
        | some _ => walkWith jump (l ++ [⟨part, hname⟩]) rest
      else if part = ascii ".." then walkWith jump l.dropLast rest
      else walkWith jump l rest

/-- Follow the parts of a path through at most so many symbolic links. -/
def walkLinks : Nat → Location → List GoString → Except DiskErr Location
  | 0 => t.walkWith fun _ _ => .error .io
  | links + 1 => t.walkWith (walkLinks links)

/-- How many symbolic links the system follows in one path. -/
def maxLinks : Nat := 40

/-- Where the parts of a path are followed from. -/
def start (rooted : Bool) : Location := if rooted then [] else t.cwd

/-- The location a path leads to. -/
def locate (path : GoString) : Except DiskErr Location :=
  if path = [] then .error .notExist
  else t.walkLinks maxLinks (t.start (path.head? = some slash)) (splitSlash path)

/-- `os.Stat`. -/
def stat (path : GoString) : Except DiskErr Inode :=
  match t.locate path with
  | .error e => .error e
  | .ok l =>
      match t.look l with
      | some node => .ok node
      | none => .error .notExist

/-- The last part of a path. -/
def lastPart (path : GoString) : GoString := (splitSlash path).getLast (splitSlash_ne_nil path)

/-- `os.Lstat`: a symbolic link at the end is not followed. -/
def lstat (path : GoString) : Except DiskErr Inode :=
  if hname : IsComponent (lastPart path) then
    match t.walkLinks maxLinks (t.start (path.head? = some slash)) (splitSlash path).dropLast with
    | .error e => .error e
    | .ok l =>
        if ¬ t.Enterable l then .error (t.refusal l)
        else
          match t.look (l ++ [⟨lastPart path, hname⟩]) with
          | some node => .ok node
          | none => .error .notExist
  else t.stat path

/-- `os.ReadFile`. -/
def readFile (path : GoString) : Except DiskErr Bytes :=
  match t.stat path with
  | .error e => .error e
  | .ok (.file data) => .ok data
  | .ok _ => .error .io

/-- The entry of a directory at a location, if there is one. -/
def entryAt (dir l : Location) : Option DirEntry :=
  match l.getLast?, t.look l with
  | some name, some node => if l.dropLast = dir then some ⟨name.1, node.isDir⟩ else none
  | _, _ => none

/-- `os.ReadDir`: the entries, sorted by name. -/
def readDir (path : GoString) : Except DiskErr (List DirEntry) :=
  match t.locate path with
  | .error e => .error e
  | .ok l =>
      if (t.look l).any Inode.listable then
        .ok ((t.nodes.keys.filterMap (t.entryAt l)).insertionSort fun a b => a.name ≤ b.name)
      else .error .io

section Walk

variable {t} {jump : Location → List GoString → Except DiskErr Location} {l m : Location}
  {part : GoString} {rest : List GoString}

/-- How the next part of a path is followed to the end. -/
inductive WalkStep (t : LinkTree) (jump : Location → List GoString → Except DiskErr Location)
    (l m : Location) (part : GoString) (rest : List GoString) : Prop
  | name (hname : IsComponent part) {node : Inode}
      (hlook : t.look (l ++ [⟨part, hname⟩]) = some node) (hnode : ∀ target, node ≠ .link target)
      (hrest : t.walkWith jump (l ++ [⟨part, hname⟩]) rest = .ok m)
  | link (hname : IsComponent part) {target : GoString}
      (hlook : t.look (l ++ [⟨part, hname⟩]) = some (.link target)) (htarget : target ≠ [])
      (hrest : jump (if target.head? = some slash then [] else l) (splitSlash target ++ rest) =
        .ok m)
  | up (hup : part = ascii "..") (hrest : t.walkWith jump l.dropLast rest = .ok m)
  | stay (hname : ¬ IsComponent part) (hup : part ≠ ascii "..")
      (hrest : t.walkWith jump l rest = .ok m)

theorem not_isComponent_up : ¬ IsComponent (ascii "..") := fun h => h.2.2.2 rfl

/-- A walk that arrives can enter where it is, and takes one of the steps. -/
theorem walkStep_of_ok (h : t.walkWith jump l (part :: rest) = .ok m) :
    t.Enterable l ∧ WalkStep t jump l m part rest := by
  rw [walkWith] at h
  by_cases henter : t.Enterable l
  · refine ⟨henter, ?_⟩
    rw [if_neg (not_not.mpr henter)] at h
    by_cases hname : IsComponent part
    · rw [dif_pos hname] at h
      cases hlook : t.look (l ++ [⟨part, hname⟩]) with
      | none => simp [hlook] at h
      | some node =>
          cases node with
          | link target =>
              simp only [hlook] at h
              split_ifs at h with htarget hrooted
              · exact .link hname hlook htarget (by rwa [if_pos hrooted])
              · exact .link hname hlook htarget (by rwa [if_neg hrooted])
          | dir listable enterable => exact .name hname hlook nofun (by simpa [hlook] using h)
          | file data => exact .name hname hlook nofun (by simpa [hlook] using h)
          | other => exact .name hname hlook nofun (by simpa [hlook] using h)
    · rw [dif_neg hname] at h
      split_ifs at h with hup
      · exact .up hup h
      · exact .stay hname hup h
  · rw [if_pos henter] at h
    cases h

theorem walkWith_name (henter : t.Enterable l) (hname : IsComponent part) {node : Inode}
    (hlook : t.look (l ++ [⟨part, hname⟩]) = some node) (hnode : ∀ target, node ≠ .link target)
    (rest : List GoString) :
    t.walkWith jump l (part :: rest) = t.walkWith jump (l ++ [⟨part, hname⟩]) rest := by
  rw [walkWith, if_neg (not_not.mpr henter), dif_pos hname, hlook]
  cases node with
  | link target => exact absurd rfl (hnode target)
  | dir listable enterable => rfl
  | file data => rfl
  | other => rfl

theorem walkWith_up (henter : t.Enterable l) (rest : List GoString) :
    t.walkWith jump l (ascii ".." :: rest) = t.walkWith jump l.dropLast rest := by
  rw [walkWith, if_neg (not_not.mpr henter), dif_neg not_isComponent_up, if_pos rfl]

theorem walkWith_stay (henter : t.Enterable l) (hname : ¬ IsComponent part)
    (hup : part ≠ ascii "..") (rest : List GoString) :
    t.walkWith jump l (part :: rest) = t.walkWith jump l rest := by
  rw [walkWith, if_neg (not_not.mpr henter), dif_neg hname, if_neg hup]

/-- A walk that meets no link does not depend on how links are followed, and goes on from
where it arrives. -/
theorem walkWith_of_plain {parts : List GoString} (h : t.walkLinks 0 l parts = .ok m)
    (more : List GoString) : t.walkWith jump l (parts ++ more) = t.walkWith jump m more := by
  induction parts generalizing l with
  | nil => rw [← Except.ok.inj h, List.nil_append]
  | cons part rest ih =>
      obtain ⟨henter, hstep⟩ := walkStep_of_ok h
      rw [List.cons_append]
      cases hstep with
      | name hname hlook hnode hrest => rw [walkWith_name henter hname hlook hnode, ih hrest]
      | link hname hlook htarget hrest => cases hrest
      | up hup hrest => rw [hup, walkWith_up henter, ih hrest]
      | stay hname hup hrest => rw [walkWith_stay henter hname hup, ih hrest]

/-- A walk that meets no link takes its last name away from where it arrives. -/
theorem exists_of_plain_name {parts : List GoString} {last : GoString} (hlast : IsComponent last)
    (h : t.walkLinks 0 l (parts ++ [last]) = .ok m) :
    ∃ mid, t.walkLinks 0 l parts = .ok mid ∧ m = mid ++ [⟨last, hlast⟩] := by
  induction parts generalizing l with
  | nil =>
      obtain ⟨-, hstep⟩ := walkStep_of_ok h
      cases hstep with
      | name hname hlook hnode hrest => exact ⟨l, rfl, (Except.ok.inj hrest).symm⟩
      | link hname hlook htarget hrest => cases hrest
      | up hup hrest => exact absurd (hup ▸ hlast) not_isComponent_up
      | stay hname hup hrest => exact absurd hlast hname
  | cons part rest ih =>
      obtain ⟨henter, hstep⟩ := walkStep_of_ok h
      cases hstep with
      | name hname hlook hnode hrest =>
          obtain ⟨mid, hmid, hm⟩ := ih hrest
          exact ⟨mid, (walkWith_name henter hname hlook hnode rest).trans hmid, hm⟩
      | link hname hlook htarget hrest => cases hrest
      | up hup hrest =>
          obtain ⟨mid, hmid, hm⟩ := ih hrest
          subst hup
          exact ⟨mid, (walkWith_up henter rest).trans hmid, hm⟩
      | stay hname hup hrest =>
          obtain ⟨mid, hmid, hm⟩ := ih hrest
          exact ⟨mid, (walkWith_stay henter hname hup rest).trans hmid, hm⟩

end Walk

section ReadDir

variable {t} {dir l : Location} {e : DirEntry} {path : GoString} {entries : List DirEntry}

theorem entryAt_eq_some (h : t.entryAt dir l = some e) :
    ∃ name : Name, l = dir ++ [name] ∧ e.name = name.1 := by
  unfold entryAt at h
  cases hlast : l.getLast? with
  | none => simp [hlast] at h
  | some name =>
      cases hlook : t.look l with
      | none => simp [hlast, hlook] at h
      | some node =>
          simp only [hlast, hlook] at h
          split_ifs at h with hdir
          obtain rfl := Option.some.inj h
          refine ⟨name, ?_, rfl⟩
          rw [← hdir, List.dropLast_append_getLast? name hlast]

theorem perm_of_readDir (h : t.readDir path = .ok entries) :
    ∃ dir, entries.Perm (t.nodes.keys.filterMap (t.entryAt dir)) := by
  unfold readDir at h
  cases hlocate : t.locate path with
  | error err => simp [hlocate] at h
  | ok dir =>
      simp only [hlocate] at h
      split_ifs at h
      refine ⟨dir, ?_⟩
      rw [← Except.ok.inj h]
      exact List.perm_insertionSort _ _

/-- The entries of a directory have different names. -/
theorem nodup_of_readDir (h : t.readDir path = .ok entries) :
    (entries.map DirEntry.name).Nodup := by
  obtain ⟨dir, hperm⟩ := perm_of_readDir h
  rw [(hperm.map DirEntry.name).nodup_iff, List.map_filterMap]
  apply List.Nodup.filterMap _ t.nodes.keys_nodup
  intro l l' name hname hname'
  obtain ⟨e, he, rfl⟩ := Option.map_eq_some_iff.mp hname
  obtain ⟨e', he', hsame⟩ := Option.map_eq_some_iff.mp hname'
  obtain ⟨n, rfl, hn⟩ := entryAt_eq_some he
  obtain ⟨n', rfl, hn'⟩ := entryAt_eq_some he'
  rw [Subtype.ext (hn.symm.trans (hsame.symm.trans hn'))]

/-- An entry has a proper name. -/
theorem isComponent_of_readDir (h : t.readDir path = .ok entries) (he : e ∈ entries) :
    IsComponent e.name := by
  obtain ⟨dir, hperm⟩ := perm_of_readDir h
  obtain ⟨l, -, hl⟩ := List.mem_filterMap.mp (hperm.mem_iff.mp he)
  obtain ⟨name, -, hname⟩ := entryAt_eq_some hl
  exact hname ▸ name.2

end ReadDir

/-- A file that can be read is somewhere. -/
theorem exists_locate {path : GoString} {data : Bytes} (h : t.readFile path = .ok data) :
    ∃ l, t.locate path = .ok l := by
  unfold readFile stat at h
  cases hlocate : t.locate path with
  | error e => simp [hlocate] at h
  | ok l => exact ⟨l, rfl⟩

end LinkTree

end Lbsync.Files
