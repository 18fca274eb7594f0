import Lbsync.Files.Directory
import Lbsync.Files.Location
import Mathlib.Data.List.Dedup

/-!
# A file tree

Files and directories by location. A directory is there when it was made or when
something is below it, and renaming one moves what is below it. There are no
symbolic links. Calls may fail and the process may stop, as on a `Disk`. The tree
notes every location at which a call creates, changes, renames or removes a file.
-/

namespace Lbsync.Files

/-- What can be at a location. -/
inductive Node where
  | dir
  | file (f : File)
  deriving DecidableEq, Repr

/-- The nodes by location. -/
abbrev NodeMap := AList (fun _ : Location => Node)

/-- The nodes, the umask, how the coming calls go, whether the process has stopped, and
the files touched so far. -/
structure Tree where
  nodes : NodeMap
  umask : UInt32
  faults : List Fault
  stopped : Bool
  touched : List Location

/-- The choice of `os.CreateTemp` in a directory for the pattern `.tmp-*`: a name that is not
in use. -/
structure TreeNamer where
  pick : NodeMap → Location → Name
  unused : ∀ nodes dir, ∀ k ∈ AList.keys nodes, ¬ dir ++ [pick nodes dir] <+: k
  named : ∀ nodes dir, ∃ digits, (pick nodes dir).1 = ascii ".tmp-" ++ digits

/-- A choice that is longer than every name in use. -/
def TreeNamer.longer : TreeNamer where
  pick nodes _ :=
    ⟨ascii ".tmp-" ++ List.replicate (nodes.keys.flatten.map Subtype.val).flatten.length 48, by
      refine ⟨?_, ?_, fun h => ?_, fun h => ?_⟩
      · simp [slash, ascii]
      · simp [ascii]
      · exact absurd (congrArg List.length h) (by simp [ascii])
      · exact absurd (congrArg List.length h) (by simp [ascii])⟩
  unused nodes dir k hk hused := by
    have hmem := hused.subset (List.mem_append_right dir List.mem_cons_self)
    have hle := (List.sublist_flatten_of_mem (List.mem_map_of_mem (f := Subtype.val)
      (List.mem_flatten_of_mem hk hmem))).length_le
    simp only [List.length_append, List.length_replicate] at hle
    have hpos : (ascii ".tmp-").length = 5 := rfl
    omega
  named _ _ := ⟨_, rfl⟩

namespace Tree

variable {α : Type*} (t : Tree)

/-- Something is below a location. -/
def HasBelow (l : Location) : Prop := ∃ k ∈ t.nodes.keys, l <+: k ∧ k ≠ l

instance (l : Location) : Decidable (t.HasBelow l) :=
  inferInstanceAs (Decidable (∃ k ∈ t.nodes.keys, _))

/-- A location is a directory. -/
def IsDir (l : Location) : Prop := l = [] ∨ t.nodes.lookup l = some .dir ∨ t.HasBelow l

instance (l : Location) : Decidable (t.IsDir l) := inferInstanceAs (Decidable (_ ∨ _ ∨ _))

/-- A file is on the way to a location, or there. -/
def Blocked (l : Location) : Prop :=
  ∃ k ∈ t.nodes.keys, k <+: l ∧ t.nodes.lookup k ≠ some .dir

instance (l : Location) : Decidable (t.Blocked l) :=
  inferInstanceAs (Decidable (∃ k ∈ t.nodes.keys, _))

/-- What is at a location; below a file nothing can be. -/
def look (l : Location) : Except DiskErr Node :=
  match t.nodes.lookup l with
  | some node => .ok node
  | none =>
      if t.IsDir l then .ok .dir
      else if t.Blocked l then .error .io
      else .error .notExist

/-- Put a file at a location. -/
def put (l : Location) (f : File) : Tree :=
  { t with nodes := t.nodes.insert l (.file f), touched := t.touched ++ [l] }

/-- Change a file that is there. -/
def modify (l : Location) (g : File → File) : Tree :=
  match t.nodes.lookup l with
  | some (.file f) => t.put l (g f)
  | _ => t

/-- Where something at or below one location is after it was moved to another. -/
def movedTo (old new k : Location) : Location := new ++ k.drop old.length

/-- The nodes at or below a location. -/
def subtree (l : Location) : List (Location × Node) :=
  (t.nodes.entries.map fun e => (e.1, e.2)).filter fun e => l <+: e.1

/-- Move what is at or below a location. The files among it are touched, before and after. -/
def move (old new : Location) : Tree :=
  { t with
    nodes := (t.subtree old).foldl
      (fun nodes e => (nodes.erase e.1).insert (movedTo old new e.1) e.2) t.nodes
    touched := t.touched ++ ((t.subtree old).filter fun e => e.2 ≠ .dir).flatMap
      fun e => [e.1, movedTo old new e.1] }

/-- The names in a directory, sorted. -/
def names (l : Location) : List GoString :=
  let below := (t.nodes.keys.filter fun k => l <+: k).filterMap fun k => (k.drop l.length).head?
  (below.dedup.map Subtype.val).insertionSort (· ≤ ·)

/-- How the next call goes. -/
def next : Fault × Tree :=
  if t.stopped then (.stop none, t)
  else
    match t.faults with
    | [] => (.pass, t)
    | .pass :: rest => (.pass, { t with faults := rest })
    | .fail w :: rest => (.fail w, { t with faults := rest })
    | .stop w :: rest => (.stop w, { t with faults := rest, stopped := true })

/-- Make a call that does `effect` when it passes and leaves `torn k` behind when it
is cut off after `k` bytes. -/
def call (effect : Tree → Except DiskErr α × Tree) (torn : Nat → Tree → Tree) :
    Except DiskErr α × Tree :=
  match t.next with
  | (.pass, t) => effect t
  | (.fail w, t) => (.error .io, (w.map fun k => torn k t).getD t)
  | (.stop w, t) => (.error .io, (w.map fun k => torn k t).getD t)

/-- A call that writes no data. -/
def simpleCall (effect : Tree → Except DiskErr α × Tree) : Except DiskErr α × Tree :=
  t.call effect fun _ t => t

/-- `os.MkdirAll` at a location. -/
def mkdirAll (l : Location) : Except DiskErr Unit × Tree :=
  t.simpleCall fun t =>
    if t.Blocked l then (.error .io, t)
    else if t.IsDir l then (.ok (), t)
    else (.ok (), { t with nodes := t.nodes.insert l .dir })

/-- `os.ReadFile`. -/
def readFile (l : Location) : Except DiskErr Bytes × Tree :=
  t.simpleCall fun t =>
    match t.look l with
    | .ok (.file f) => (.ok f.content, t)
    | .ok .dir => (.error .io, t)
    | .error e => (.error e, t)

/-- What `os.WriteFile` does: the mode applies to a new file only. -/
def overwrite (l : Location) (data : Bytes) (perm : UInt32) : Except DiskErr Unit × Tree :=
  match t.look l with
  | .ok (.file f) => (.ok (), t.put l { f with content := data })
  | .ok .dir => (.error .io, t)
  | .error e =>
      if t.IsDir l.dropLast then (.ok (), t.put l ⟨data, perm &&& ~~~t.umask⟩)
      else (.error e, t)

/-- `os.WriteFile`. -/
def writeFile (l : Location) (data : Bytes) (perm : UInt32) : Except DiskErr Unit × Tree :=
  t.call (fun t => t.overwrite l data perm) fun k t => (t.overwrite l (data.take k) perm).2

/-- `os.CreateTemp` in a directory. -/
def createTemp (tmp : TreeNamer) (l : Location) : Except DiskErr Name × Tree :=
  t.simpleCall fun t =>
    if t.IsDir l then
      let name := tmp.pick t.nodes l
      (.ok name, t.put (l ++ [name]) ⟨[], 0o600 &&& ~~~t.umask⟩)
    else (.error (if t.Blocked l then .io else .notExist), t)

/-- `Write` on the open temp file. -/
def write (l : Location) (data : Bytes) : Except DiskErr Unit × Tree :=
  t.call (fun t => (.ok (), t.modify l fun f => { f with content := data }))
    fun k t => t.modify l fun f => { f with content := data.take k }

/-- `Chmod` on the open temp file. -/
def chmod (l : Location) (perm : UInt32) : Except DiskErr Unit × Tree :=
  t.simpleCall fun t => (.ok (), t.modify l fun f => { f with mode := perm })

/-- `Close`. -/
def close : Except DiskErr Unit × Tree := t.simpleCall fun t => (.ok (), t)

/-- What is in the way of a rename: `os.Rename` replaces no directory, and a directory does not
replace a file. -/
def Obstructs (node : Node) (new : Location) : Prop :=
  match node, t.look new with
  | _, .ok .dir => True
  | .dir, .ok (.file _) => True
  | .file _, .ok (.file _) => False
  | _, .error _ => False

instance (node : Node) (new : Location) : Decidable (t.Obstructs node new) := by
  unfold Obstructs
  split <;> infer_instance

/-- `os.Rename`. Nothing is renamed to a location above or below its own. -/
def rename (old new : Location) : Except DiskErr Unit × Tree :=
  t.simpleCall fun t =>
    match t.look old with
    | .error e => (.error e, t)
    | .ok node =>
        if t.Obstructs node new then (.error .io, t)
        else if old = new then (.ok (), t)
        else if new <+: old ∨ old <+: new then (.error .io, t)
        else if t.IsDir new.dropLast then (.ok (), t.move old new)
        else (.error .notExist, t)

/-- `os.Remove`. -/
def remove (l : Location) : Except DiskErr Unit × Tree :=
  t.simpleCall fun t =>
    match t.look l with
    | .error e => (.error e, t)
    | .ok .dir =>
        if t.HasBelow l then (.error .io, t)
        else (.ok (), { t with nodes := t.nodes.erase l })
    | .ok (.file _) =>
        (.ok (), { t with nodes := t.nodes.erase l, touched := t.touched ++ [l] })

/-- `os.ReadDir`. -/
def readDir (l : Location) : Except DiskErr (List GoString) × Tree :=
  t.simpleCall fun t =>
    match t.look l with
    | .ok .dir => (.ok (t.names l), t)
    | .ok (.file _) => (.error .io, t)
    | .error e => (.error e, t)

/-- Where a file is, seen from the working directory. -/
def locate (cwd : Location) (path : Path) : Location := resolve cwd (join [path.dir, path.name])

/-- The calls on a tree. The empty path leads nowhere. -/
@[reducible] def calls (cwd : Location) : FileCalls Tree where
  mkdirAll dir t := if dir = [] then (.error .notExist, t) else t.mkdirAll (resolve cwd dir)
  readFile path t := t.readFile (locate cwd path)
  writeFile path data perm t := t.writeFile (locate cwd path) data perm
  write path data t := t.write (locate cwd path) data
  chmod path perm t := t.chmod (locate cwd path) perm
  close t := t.close
  rename old new t := t.rename (locate cwd old) (locate cwd new)
  remove path t := t.remove (locate cwd path)
  readDir dir t := if dir = [] then (.error .notExist, t) else t.readDir (resolve cwd dir)

/-- The tree as a file system. -/
@[reducible] def fileSystem (cwd : Location) (tmp : TreeNamer) : FileSystem Tree where
  toFileCalls := calls cwd
  createTemp dir t :=
    match t.createTemp tmp (resolve cwd dir) with
    | (.ok name, t) => (.ok ⟨dir, name.1⟩, t)
    | (.error e, t) => (.error e, t)

end Tree

/-- What calls may touch. -/
structure Tree.Within (region : Location → Prop) (t t' : Tree) : Prop where
  grows : ∀ l ∈ t.touched, l ∈ t'.touched
  within : ∀ l ∈ t'.touched, l ∈ t.touched ∨ region l

namespace Tree

variable {α : Type*} {region : Location → Prop} {t t' : Tree}

theorem Within.refl (t : Tree) : Within region t t := ⟨fun _ h => h, fun _ h => Or.inl h⟩

theorem Within.trans {t₁ t₂ t₃ : Tree} (h₁ : Within region t₁ t₂) (h₂ : Within region t₂ t₃) :
    Within region t₁ t₃ where
  grows l hl := h₂.grows l (h₁.grows l hl)
  within l hl := (h₂.within l hl).elim (h₁.within l) Or.inr

theorem Within.of_eq (h : t'.touched = t.touched) : Within region t t' :=
  ⟨fun _ hl => h ▸ hl, fun _ hl => Or.inl (h ▸ hl)⟩

theorem Within.of_append {ls : List Location} (h : t'.touched = t.touched ++ ls)
    (hls : ∀ l ∈ ls, region l) : Within region t t' where
  grows _ hl := h ▸ List.mem_append_left _ hl
  within l hl := (List.mem_append.mp (h ▸ hl)).imp_right (hls l)

theorem within_put {l : Location} (hl : region l) (f : File) : Within region t (t.put l f) :=
  .of_append rfl (by simpa using hl)

theorem within_modify {l : Location} (hl : region l) (g : File → File) :
    Within region t (t.modify l g) := by
  unfold modify
  split
  · exact within_put hl _
  · exact .refl t

theorem within_move {old new : Location} (hold : ∀ k, old <+: k → region k)
    (hnew : ∀ k, new <+: k → region k) : Within region t (t.move old new) := by
  refine .of_append rfl fun l hl => ?_
  obtain ⟨e, he, hl⟩ := List.mem_flatMap.mp hl
  have hbelow : old <+: e.1 := by
    simpa using (List.mem_filter.mp (List.mem_filter.mp he).1).2
  rcases List.mem_pair.mp hl with rfl | rfl
  · exact hold _ hbelow
  · exact hnew _ (List.prefix_append _ _)

theorem touched_next (t : Tree) : t.next.2.touched = t.touched := by
  unfold next
  split_ifs
  · rfl
  · split <;> rfl

/-- A call touches what its effect touches. -/
theorem within_call {effect : Tree → Except DiskErr α × Tree} {torn : Nat → Tree → Tree}
    (heffect : ∀ t, Within region t (effect t).2) (htorn : ∀ k t, Within region t (torn k t)) :
    Within region t (t.call effect torn).2 := by
  have hnext : Within region t t.next.2 := .of_eq t.touched_next
  unfold call
  generalize t.next = out at hnext ⊢
  obtain ⟨fault, t₁⟩ := out
  have hcut (w : Option Nat) : Within region t ((w.map fun k => torn k t₁).getD t₁) := by
    cases w with
    | none => exact hnext
    | some k => exact hnext.trans (htorn k t₁)
  cases fault with
  | pass => exact hnext.trans (heffect t₁)
  | fail w => exact hcut w
  | stop w => exact hcut w

theorem within_simpleCall {effect : Tree → Except DiskErr α × Tree}
    (heffect : ∀ t, Within region t (effect t).2) : Within region t (t.simpleCall effect).2 :=
  within_call heffect fun _ => .refl

theorem within_mkdirAll (l : Location) : Within region t (t.mkdirAll l).2 := by
  refine within_simpleCall fun t => ?_
  split_ifs
  · exact .refl t
  · exact .refl t
  · exact .of_eq rfl

theorem within_readFile (l : Location) : Within region t (t.readFile l).2 := by
  refine within_simpleCall fun t => ?_
  split <;> exact .refl t

theorem within_overwrite {l : Location} (hl : region l) (data : Bytes) (perm : UInt32) :
    Within region t (t.overwrite l data perm).2 := by
  unfold overwrite
  split
  · exact within_put hl _
  · exact .refl t
  · split_ifs
    · exact within_put hl _
    · exact .refl t

theorem within_writeFile {l : Location} (hl : region l) (data : Bytes) (perm : UInt32) :
    Within region t (t.writeFile l data perm).2 :=
  within_call (fun _ => within_overwrite hl _ _) fun _ _ => within_overwrite hl _ _

theorem within_createTemp (tmp : TreeNamer) {l : Location} (hl : ∀ name, region (l ++ [name])) :
    Within region t (t.createTemp tmp l).2 := by
  refine within_simpleCall fun t => ?_
  by_cases hdir : t.IsDir l
  · rw [if_pos hdir]
    exact within_put (hl _) _
  · rw [if_neg hdir]
    exact .refl t

theorem within_write {l : Location} (hl : region l) (data : Bytes) :
    Within region t (t.write l data).2 :=
  within_call (fun _ => within_modify hl _) fun _ _ => within_modify hl _

theorem within_chmod {l : Location} (hl : region l) (perm : UInt32) :
    Within region t (t.chmod l perm).2 :=
  within_simpleCall fun _ => within_modify hl _

theorem within_close : Within region t t.close.2 := within_simpleCall fun t => .refl t

/-- A rename touches what is at or below its two locations. To a location above it touches
nothing. -/
theorem within_rename {old new : Location} (hold : ∀ k, old <+: k → region k)
    (hnew : new <+: old ∨ ∀ k, new <+: k → region k) : Within region t (t.rename old new).2 := by
  refine within_simpleCall fun t => ?_
  split
  · exact .refl t
  · split_ifs with hobstructed hsame hrefused hdir
    · exact .refl t
    · exact .refl t
    · exact .refl t
    · refine within_move hold (hnew.resolve_left fun habove => hrefused (Or.inl habove))
    · exact .refl t

theorem within_remove {l : Location} (hl : region l) : Within region t (t.remove l).2 := by
  refine within_simpleCall fun t => ?_
  split
  · exact .refl t
  · split_ifs
    · exact .refl t
    · exact .of_eq rfl
  · exact .of_append rfl (by simpa using hl)

theorem within_readDir (l : Location) : Within region t (t.readDir l).2 := by
  refine within_simpleCall fun t => ?_
  split <;> exact .refl t

theorem isComponent_of_readDir {l : Location} {names : List GoString}
    (h : t.readDir l = (.ok names, t')) : ∀ name ∈ names, IsComponent name := by
  have hnames (t₁ : Tree) : ∀ name ∈ t₁.names l, IsComponent name := by
    intro name hname
    obtain ⟨entry, _, rfl⟩ := List.mem_map.mp ((List.mem_insertionSort _).mp hname)
    exact entry.2
  unfold readDir simpleCall call at h
  generalize t.next = out at h
  obtain ⟨fault, t₁⟩ := out
  cases fault with
  | pass =>
      simp only at h
      split at h
      · obtain rfl := Except.ok.inj (Prod.mk.inj h).1
        exact hnames t₁
      · cases congrArg Prod.fst h
      · cases congrArg Prod.fst h
  | fail w => cases congrArg Prod.fst h
  | stop w => cases congrArg Prod.fst h

section Steady

/-- No call fails. -/
def Steady (t : Tree) : Prop := t.faults = [] ∧ t.stopped = false

theorem call_steady (h : t.Steady) (effect : Tree → Except DiskErr α × Tree)
    (torn : Nat → Tree → Tree) : t.call effect torn = effect t := by
  simp [call, next, h.1, h.2]

theorem simpleCall_steady (h : t.Steady) (effect : Tree → Except DiskErr α × Tree) :
    t.simpleCall effect = effect t := call_steady h _ _

/-- A tree with nothing in it. -/
def empty : Tree := ⟨∅, 0, [], false, []⟩

/-- A tree with one directory. -/
def onlyDir (l : Location) : Tree :=
  { empty with nodes := if l = [] then ∅ else (∅ : NodeMap).insert l .dir }

theorem mkdirAll_empty (l : Location) : empty.mkdirAll l = (.ok (), onlyDir l) := by
  have hblocked : ¬ empty.Blocked l := by simp [Blocked, empty]
  have hdir : empty.IsDir l ↔ l = [] := by simp [IsDir, HasBelow, empty]
  rw [mkdirAll, simpleCall_steady (show empty.Steady from ⟨rfl, rfl⟩), if_neg hblocked]
  by_cases hroot : l = []
  · rw [if_pos (hdir.mpr hroot), onlyDir, if_pos hroot]
    rfl
  · rw [if_neg (mt hdir.mp hroot), onlyDir, if_neg hroot]
    rfl

/-- Where there is no file there is none to read. -/
theorem readFile_onlyDir (l k : Location) :
    ∃ e, (onlyDir l).readFile k = (.error e, onlyDir l) := by
  have hfile (f : File) : (onlyDir l).look k ≠ .ok (.file f) := by
    intro hlook
    unfold look at hlook
    split at hlook
    · rename_i node hnode
      obtain rfl := Except.ok.inj hlook
      unfold onlyDir at hnode
      split_ifs at hnode
      · cases hnode
      · by_cases hk : k = l
        · rw [hk, AList.lookup_insert] at hnode
          cases hnode
        · rw [AList.lookup_insert_ne hk] at hnode
          cases hnode
    · split_ifs at hlook
      cases hlook
  rw [readFile, simpleCall_steady (show (onlyDir l).Steady from ⟨rfl, rfl⟩)]
  split
  · rename_i f hlook
    exact absurd hlook (hfile f)
  · exact ⟨_, rfl⟩
  · exact ⟨_, rfl⟩

theorem createTemp_onlyDir (tmp : TreeNamer) (l : Location) :
    ∃ t', (onlyDir l).createTemp tmp l = (.ok (tmp.pick (onlyDir l).nodes l), t') ∧
      t'.touched = [l ++ [tmp.pick (onlyDir l).nodes l]] := by
  have hdir : (onlyDir l).IsDir l := by
    by_cases hroot : l = []
    · exact Or.inl hroot
    · refine Or.inr (Or.inl ?_)
      rw [onlyDir, if_neg hroot]
      exact AList.lookup_insert _
  rw [createTemp, simpleCall_steady (show (onlyDir l).Steady from ⟨rfl, rfl⟩), if_pos hdir]
  exact ⟨_, rfl, rfl⟩

/-- A tree with one file. -/
def onlyFile (l : Location) (f : File) : Tree :=
  { empty with nodes := (∅ : NodeMap).insert l (.file f) }

theorem hasBelow_onlyFile {l k : Location} {f : File} :
    (onlyFile l f).HasBelow k ↔ k <+: l ∧ l ≠ k := by
  simp [HasBelow, onlyFile, empty]

theorem look_onlyFile_of_below {l k : Location} {f : File} (h : k <+: l ∧ l ≠ k) :
    (onlyFile l f).look k = .ok .dir := by
  have hnone : (onlyFile l f).nodes.lookup k = none := AList.lookup_insert_ne (Ne.symm h.2)
  unfold look
  rw [hnone]
  exact if_pos (Or.inr (Or.inr (hasBelow_onlyFile.mpr h)))

theorem look_onlyFile_of_apart {l k : Location} {f : File} (hk : k ≠ []) (hbelow : ¬ k <+: l)
    (habove : ¬ l <+: k) : (onlyFile l f).look k = .error .notExist := by
  have hne : k ≠ l := fun heq => hbelow (heq ▸ List.prefix_rfl)
  have hnone : (onlyFile l f).nodes.lookup k = none := AList.lookup_insert_ne hne
  have hdir : ¬ (onlyFile l f).IsDir k := by
    rintro (h | h | h)
    · exact hk h
    · rw [hnone] at h
      cases h
    · exact hbelow (hasBelow_onlyFile.mp h).1
  have hblocked : ¬ (onlyFile l f).Blocked k := by
    simp [Blocked, onlyFile, empty, habove]
  unfold look
  rw [hnone]
  simp only [if_neg hdir, if_neg hblocked]

theorem names_onlyFile (l : Location) (name : Name) (rest : Location) (f : File) :
    (onlyFile (l ++ name :: rest) f).names l = [name.1] := by
  simp [names, onlyFile, empty, List.dedup_eq_self.mpr (List.nodup_singleton name)]

end Steady

/-- The locations strictly below another. -/
def Below (l k : Location) : Prop := l <+: k ∧ k ≠ l

instance (l k : Location) : Decidable (Below l k) := inferInstanceAs (Decidable (_ ∧ _))

theorem below_append_cons (l : Location) (name : Name) (rest : Location) :
    Below l (l ++ name :: rest) :=
  ⟨List.prefix_append _ _, by simp⟩

theorem Below.exists_eq {l k : Location} (h : Below l k) :
    ∃ name rest, k = l ++ name :: rest := by
  obtain ⟨⟨rest, rfl⟩, hne⟩ := h
  cases rest with
  | nil => exact absurd (List.append_nil l) hne
  | cons name rest => exact ⟨name, rest, rfl⟩

theorem Below.mono {l k m : Location} (h : Below l k) (hm : k <+: m) : Below l m := by
  obtain ⟨name, rest, rfl⟩ := h.exists_eq
  obtain ⟨more, rfl⟩ := hm
  rw [List.append_assoc]
  exact below_append_cons l name (rest ++ more)

theorem below_of_prefix {l k : Location} {name : Name} (h : l ++ [name] <+: k) : Below l k := by
  exact (below_append_cons l name []).mono h

section Directory

variable (cwd : Location) (tmp : TreeNamer) {dir : GoString} (hdir : dir ≠ [])

include hdir

theorem locate_name (name : Name) : locate cwd ⟨dir, name.1⟩ = resolve cwd dir ++ [name] := by
  rw [locate, resolve_join cwd hdir, walk_name]

/-- Work in a directory touches files below it only. -/
theorem keptIn_fileSystem :
    KeptIn (fileSystem cwd tmp) (Within (Below (resolve cwd dir))) dir where
  refl := .refl
  trans := .trans
  mkdirAll t := by
    simp only [if_neg hdir]
    exact within_mkdirAll _
  readFile path t := within_readFile _
  writeFile {name} hname data perm t := by
    have hl := locate_name cwd hdir ⟨name, hname⟩
    exact within_writeFile (hl ▸ below_append_cons _ _ []) data perm
  createTemp t := by
    have htemp := within_createTemp (t := t) tmp (below_append_cons (resolve cwd dir) · [])
    simp only
    generalize t.createTemp tmp (resolve cwd dir) = out at htemp ⊢
    obtain ⟨_ | name, t₁⟩ := out
    · exact htemp
    · exact htemp
  temp {t path t'} h := by
    simp only at h
    generalize t.createTemp tmp (resolve cwd dir) = out at h
    obtain ⟨_ | name, t₁⟩ := out
    · cases congrArg Prod.fst h
    · obtain rfl := Except.ok.inj (Prod.mk.inj h).1
      exact ⟨rfl, name.2⟩
  write {name} hname data t := by
    have hl := locate_name cwd hdir ⟨name, hname⟩
    exact within_write (hl ▸ below_append_cons _ _ []) data
  chmod {name} hname perm t := by
    have hl := locate_name cwd hdir ⟨name, hname⟩
    exact within_chmod (hl ▸ below_append_cons _ _ []) perm
  close t := within_close
  rename {old new} hold hnew t := by
    have hl := locate_name cwd hdir ⟨old, hold⟩
    refine within_rename (fun k hk => below_of_prefix (hl ▸ hk)) ?_
    rcases hnew with hnew | hdots
    · have hl' := locate_name cwd hdir ⟨new, hnew⟩
      exact Or.inr fun k hk => below_of_prefix (hl' ▸ hk)
    · refine Or.inl ?_
      rw [hl, locate, resolve_join cwd hdir]
      exact (walk_of_dots hdots).trans (List.prefix_append _ _)
  remove {name} hname t := by
    have hl := locate_name cwd hdir ⟨name, hname⟩
    exact within_remove (hl ▸ below_append_cons _ _ [])
  readDir t := by
    simp only [if_neg hdir]
    exact within_readDir _
  entries {t names t'} h := by
    simp only [if_neg hdir] at h
    exact isComponent_of_readDir h

end Directory

end Tree

end Lbsync.Files
