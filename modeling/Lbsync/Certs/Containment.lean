import Lbsync.Certs.Provider
import Lbsync.Files.Tree

/-!
# Which files a key reaches

The key of a record is text from another machine. `Apply` and `Rollback` work in
the directory that joining it to the serving directory gives, and touch files
anywhere below that directory: a rollback moves whole directories whose name looks
like a backup. So a key stays inside exactly if following it from the serving
directory ends strictly below, and two keys touch different files exactly if
neither ends at or below the other.
-/

namespace Lbsync.Certs

open Files Engine

theorem BundleFile.isComponent (f : BundleFile) : IsComponent f.fileName := by
  cases f <;> decide

section Kept

variable {σ : Type*} {fs : FileSystem σ} {kept : σ → σ → Prop}

theorem kept_writeFilesOn {dir : GoString} (h : KeptIn fs kept dir) (b : Bundle)
    (files : List BundleFile) (changed : Bool) (s : σ) :
    kept s (writeFilesOn fs dir b files changed s).2 :=
  writeFilesOn_keeps (P := kept s)
    (fun f _ s₁ _ hs => h.trans hs (h.writeAtomic f.isComponent _ f.perm s₁)) changed (h.refl s)

theorem kept_applyOn {cfg : Config} {r : Record} (h : KeptIn fs kept (cfg.dir r.key)) (s : σ) :
    kept s (applyOn cfg fs r s).2 :=
  applyOn_keeps (P := kept s) (fun s₁ hs => h.trans hs (h.mkdirAll s₁))
    (fun f s₁ _ hs => h.trans hs (h.writeAtomic f.isComponent _ f.perm s₁)) (h.refl s)

theorem snd_rollbackKeysOn_singleton (calls : FileCalls σ) (cfg : Config) (key : GoString)
    (s : σ) : (rollbackKeysOn cfg calls [key] s).2 = (calls.restoreDir (cfg.dir key) s).2 := by
  simp only [rollbackKeysOn, rollbackOn]
  rcases calls.restoreDir (cfg.dir key) s with ⟨_ | _, s₁⟩ <;> rfl

end Kept

variable (cfg : Config) (cwd : Location) (tmp : TreeNamer)

/-- Some `Apply` or `Rollback` for the key creates, changes, renames or removes a file at
the location. -/
def Touches (key : GoString) (l : Location) : Prop :=
  ∃ t : Tree, t.touched = [] ∧
    ((∃ r : Record, r.kind = kind ∧ r.key = key ∧
      l ∈ (applyOn cfg (Tree.fileSystem cwd tmp) r t).2.touched) ∨
    l ∈ (rollbackKeysOn cfg (Tree.calls cwd) [key] t).2.touched)

/-- The files of the key are in directories strictly below the serving directory. -/
def Contained (key : GoString) : Prop :=
  ∀ l, Touches cfg cwd tmp key l →
    ∃ sub name, l = sub ++ [name] ∧ Tree.Below (resolve cwd cfg.servingDir) sub

/-- The keys have no file in common. -/
def FilesApart (k k' : GoString) : Prop :=
  ∀ l, ¬ (Touches cfg cwd tmp k l ∧ Touches cfg cwd tmp k' l)

/-- Where following a key from the serving directory ends. -/
def place (key : GoString) : Location :=
  if cfg.servingDir = [] then resolve cwd key else walk (resolve cwd cfg.servingDir) key

/-- The empty key below the empty serving directory, with which no call succeeds. -/
def Nowhere (key : GoString) : Prop := cfg.servingDir = [] ∧ key = []

/-- The key leads strictly below the serving directory. -/
def Enters (key : GoString) : Prop :=
  Nowhere cfg key ∨ Tree.Below (resolve cwd cfg.servingDir) (place cfg cwd key)

/-- Neither key leads to or below the place of the other. -/
def Parted (k k' : GoString) : Prop :=
  Nowhere cfg k ∨ Nowhere cfg k' ∨
    ¬ place cfg cwd k <+: place cfg cwd k' ∧ ¬ place cfg cwd k' <+: place cfg cwd k

theorem dir_eq_nil_iff {key : GoString} : cfg.dir key = [] ↔ Nowhere cfg key := by
  unfold Nowhere
  by_cases hserving : cfg.servingDir = []
  · by_cases hkey : key = []
    · simp [Config.dir, join, hserving, hkey]
    · simp [Config.dir, join, hserving, hkey, clean_ne_nil]
  · simp [Config.dir, join_pair hserving, hserving, clean_ne_nil]

/-- The directory of a key is where the key leads. -/
theorem resolve_dir (key : GoString) : resolve cwd (cfg.dir key) = place cfg cwd key := by
  by_cases hserving : cfg.servingDir = []
  · rw [place, if_pos hserving]
    by_cases hkey : key = []
    · simp [Config.dir, join, hserving, hkey]
    · simp [Config.dir, join, hserving, hkey, List.intercalate, resolve_clean]
  · rw [place, if_neg hserving]
    exact resolve_join cwd hserving key

variable {cfg cwd tmp} {key : GoString}

/-- What a key touches is below its place, and it touches nothing if it leads nowhere. -/
theorem below_of_touches {l : Location} (h : Touches cfg cwd tmp key l) :
    ¬ Nowhere cfg key ∧ Tree.Below (place cfg cwd key) l := by
  obtain ⟨t, ht, hl⟩ := h
  by_cases hdir : cfg.dir key = []
  · have happly (r : Record) (hr : r.key = key) :
        (applyOn cfg (Tree.fileSystem cwd tmp) r t).2.touched = t.touched := by
      simp [snd_applyOn, Bundle.writeAtomicOn, hr, hdir]
    have hrollback :
        (rollbackKeysOn cfg (Tree.calls cwd) [key] t).2.touched = t.touched := by
      simp [snd_rollbackKeysOn_singleton, FileCalls.restoreDir, hdir]
    rcases hl with ⟨r, _, hr, hl⟩ | hl
    · rw [happly r hr, ht] at hl
      exact absurd hl List.not_mem_nil
    · rw [hrollback, ht] at hl
      exact absurd hl List.not_mem_nil
  · have hkept := Tree.keptIn_fileSystem cwd tmp hdir
    rw [resolve_dir] at hkept
    refine ⟨mt (dir_eq_nil_iff cfg).mpr hdir, ?_⟩
    have hwithin : ∀ t', Tree.Within (Tree.Below (place cfg cwd key)) t t' → l ∈ t'.touched →
        Tree.Below (place cfg cwd key) l := by
      intro t' hw hmem
      exact (hw.within l hmem).resolve_left (ht ▸ List.not_mem_nil)
    rcases hl with ⟨r, _, rfl, hl⟩ | hl
    · exact hwithin _ (kept_applyOn hkept t) hl
    · refine hwithin _ ?_ hl
      rw [snd_rollbackKeysOn_singleton]
      exact hkept.restoreDir t

/-- The first temp file in a directory that has nothing in it. -/
def firstTemp (tmp : TreeNamer) (l : Location) : Location :=
  l ++ [tmp.pick (Tree.onlyDir l).nodes l]

/-- A record that has one byte of certificate. -/
def byteRecord (key : GoString) : Record where
  kind := kind
  key := key
  version := ⟨0, 0, []⟩
  blobs := [(ascii "cert", [1])]
  metaData := []
  source := []

/-- Writing a file into an empty directory touches its first temp file. -/
theorem firstTemp_mem_writeAtomic (cwd : Location) (tmp : TreeNamer) {dir : GoString}
    (hdir : dir ≠ []) (f : BundleFile) (data : Bytes) (perm : UInt32) :
    firstTemp tmp (resolve cwd dir) ∈ ((Tree.fileSystem cwd tmp).writeAtomic ⟨dir, f.fileName⟩
      data perm (Tree.onlyDir (resolve cwd dir))).2.touched := by
  have hkept := Tree.keptIn_fileSystem cwd tmp hdir
  obtain ⟨e, hread⟩ := Tree.readFile_onlyDir (resolve cwd dir)
    (Tree.locate cwd ⟨dir, f.fileName⟩)
  obtain ⟨t, htemp, htouched⟩ := Tree.createTemp_onlyDir tmp (resolve cwd dir)
  have hcreate : (Tree.fileSystem cwd tmp).createTemp dir (Tree.onlyDir (resolve cwd dir)) =
      (.ok ⟨dir, (tmp.pick (Tree.onlyDir (resolve cwd dir)).nodes (resolve cwd dir)).1⟩, t) := by
    simp only [htemp]
  have hwrite : (Tree.fileSystem cwd tmp).writeAtomic ⟨dir, f.fileName⟩ data perm
      (Tree.onlyDir (resolve cwd dir)) =
      (Tree.fileSystem cwd tmp).replaceFile ⟨dir, f.fileName⟩ data perm
        (Tree.onlyDir (resolve cwd dir)) := by
    simp only [FileSystem.writeAtomic, hread]
  rw [hwrite]
  refine (hkept.after_createTemp f.isComponent data perm hcreate).grows _ ?_
  rw [htouched]
  exact List.mem_singleton.mpr rfl

/-- Unless it leads nowhere, a key touches a temp file in its place. -/
theorem touches_firstTemp (h : ¬ Nowhere cfg key) :
    Touches cfg cwd tmp key (firstTemp tmp (place cfg cwd key)) := by
  have hdir : cfg.dir key ≠ [] := mt (dir_eq_nil_iff cfg).mp h
  have hkept := Tree.keptIn_fileSystem cwd tmp hdir
  have hfirst := firstTemp_mem_writeAtomic cwd tmp hdir .cert [1]
    BundleFile.cert.perm
  refine ⟨Tree.empty, rfl, Or.inl ⟨byteRecord key, rfl, rfl, ?_⟩⟩
  have hkey : cfg.dir (byteRecord key).key = cfg.dir key := rfl
  rw [snd_applyOn, hkey, ← resolve_dir]
  have hdata : (fromRecord (byteRecord key)).data .cert = [1] := rfl
  simp only [Bundle.writeAtomicOn, if_neg hdir, Tree.mkdirAll_empty, BundleFile.all, writeFilesOn,
    hdata, if_neg (List.cons_ne_nil _ _)]
  generalize (Tree.fileSystem cwd tmp).writeAtomic ⟨cfg.dir key, BundleFile.cert.fileName⟩ [1]
    BundleFile.cert.perm (Tree.onlyDir (resolve cwd (cfg.dir key))) = out at hfirst ⊢
  obtain ⟨_ | wrote, t⟩ := out
  · exact hfirst
  · exact (kept_writeFilesOn hkept _ [.key, .chain, .fullchain] _ t).grows _ hfirst

/-- A rollback moves a directory that looks like a backup, with all that is in it. -/
theorem touches_moved (h : ¬ Nowhere cfg key) (name : Name) (rest : Location) (hrest : rest ≠ []) :
    Touches cfg cwd tmp key (place cfg cwd key ++ name :: rest) := by
  have hdir : cfg.dir key ≠ [] := mt (dir_eq_nil_iff cfg).mp h
  set l := place cfg cwd key with hl
  let backup : Name := ⟨name.1 ++ backupSuffix, isComponent_backup name.2⟩
  have hne : backup ≠ name := fun heq => (lt_backup name.1).ne' (congrArg Subtype.val heq)
  let t := Tree.onlyFile (l ++ backup :: rest) ⟨[], 0⟩
  refine ⟨t, rfl, Or.inr ?_⟩
  rw [snd_rollbackKeysOn_singleton]
  have hlocate (n : Name) : Tree.locate cwd ⟨cfg.dir key, n.1⟩ = l ++ [n] := by
    rw [Tree.locate_name cwd hdir, resolve_dir]
  have hsteady : t.Steady := ⟨rfl, rfl⟩
  have hlook : t.look l = .ok .dir :=
    Tree.look_onlyFile_of_below ⟨List.prefix_append _ _, by simp⟩
  have hread : t.readDir l = (.ok [backup.1], t) := by
    rw [Tree.readDir, Tree.simpleCall_steady hsteady, hlook, Tree.names_onlyFile]
  have htrim : trimBackup backup.1 = some name.1 := trimBackup_eq_some.mpr rfl
  have hrename : t.rename (l ++ [backup]) (l ++ [name]) =
      (.ok (), t.move (l ++ [backup]) (l ++ [name])) := by
    have hold : t.look (l ++ [backup]) = .ok .dir :=
      Tree.look_onlyFile_of_below ⟨by simp, by simpa using hrest⟩
    have hnew : t.look (l ++ [name]) = .error .notExist :=
      Tree.look_onlyFile_of_apart (by simp) (by simp [Ne.symm hne]) (by simp [hne])
    have hparent : t.IsDir (l ++ [name]).dropLast := by
      rw [List.dropLast_concat]
      exact Or.inr (Or.inr (Tree.hasBelow_onlyFile.mpr ⟨List.prefix_append _ _, by simp⟩))
    rw [Tree.rename, Tree.simpleCall_steady hsteady, hold]
    simp only [Tree.Obstructs, hnew, if_pos hparent]
    simp [hne, Ne.symm hne]
  have hrestored : (Tree.calls cwd).restoreDir (cfg.dir key) t =
      (.ok (), t.move (l ++ [backup]) (l ++ [name])) := by
    simp only [FileCalls.restoreDir, if_neg hdir, resolve_dir, ← hl, hread,
      FileCalls.restoreNames, htrim, hlocate, hrename]
  rw [hrestored]
  have hmoved : Tree.movedTo (l ++ [backup]) (l ++ [name]) (l ++ backup :: rest) =
      l ++ name :: rest := by
    simp [Tree.movedTo]
  refine List.mem_append_right _
    (List.mem_flatMap.mpr ⟨(l ++ backup :: rest, .file ⟨[], 0⟩), ?_, ?_⟩)
  · simp [Tree.subtree, t, Tree.onlyFile]
  · simp [hmoved]

theorem contained_iff : Contained cfg cwd tmp key ↔ Enters cfg cwd key := by
  constructor
  · intro h
    by_cases hnowhere : Nowhere cfg key
    · exact Or.inl hnowhere
    · obtain ⟨sub, name, heq, hbelow⟩ := h _ (touches_firstTemp hnowhere)
      obtain ⟨rfl, -⟩ := List.append_inj' heq rfl
      exact Or.inr hbelow
  · intro h l hl
    obtain ⟨hnowhere, hbelow⟩ := below_of_touches hl
    have henters := h.resolve_left hnowhere
    obtain ⟨name, rest, rfl⟩ := hbelow.exists_eq
    refine ⟨_, _, (List.dropLast_append_getLast (by simp)).symm, henters.mono ?_⟩
    rw [List.dropLast_append_of_ne_nil (List.cons_ne_nil _ _)]
    exact List.prefix_append _ _

/-- When one key leads to or below the place of another, both touch some file. -/
theorem exists_touches_of_prefix (tmp : TreeNamer) {k k' : GoString} (hk : ¬ Nowhere cfg k)
    (hk' : ¬ Nowhere cfg k') (h : place cfg cwd k <+: place cfg cwd k') :
    ∃ l, Touches cfg cwd tmp k l ∧ Touches cfg cwd tmp k' l := by
  refine ⟨_, ?_, touches_firstTemp hk'⟩
  obtain ⟨rest, heq⟩ := h
  cases rest with
  | nil =>
      rw [← heq, List.append_nil]
      exact touches_firstTemp hk
  | cons name rest =>
      rw [firstTemp, ← heq, List.append_assoc, List.cons_append]
      exact touches_moved hk name _ (by simp)

theorem filesApart_iff {k k' : GoString} :
    FilesApart cfg cwd tmp k k' ↔ Parted cfg cwd k k' := by
  constructor
  · intro h
    by_cases hk : Nowhere cfg k
    · exact Or.inl hk
    by_cases hk' : Nowhere cfg k'
    · exact Or.inr (Or.inl hk')
    refine Or.inr (Or.inr ⟨fun hpre => ?_, fun hpre => ?_⟩)
    · obtain ⟨l, hl, hl'⟩ := exists_touches_of_prefix tmp hk hk' hpre
      exact h l ⟨hl, hl'⟩
    · obtain ⟨l, hl', hl⟩ := exists_touches_of_prefix tmp hk' hk hpre
      exact h l ⟨hl, hl'⟩
  · rintro h l ⟨hl, hl'⟩
    obtain ⟨hk, hbelow, _⟩ := below_of_touches hl
    obtain ⟨hk', hbelow', _⟩ := below_of_touches hl'
    obtain ⟨hnot, hnot'⟩ := (h.resolve_left hk).resolve_left hk'
    exact (List.prefix_or_prefix_of_prefix hbelow hbelow').elim hnot hnot'

/-- A key stays strictly below the serving directory exactly if it leads there, and two keys
touch different files exactly if they lead to places of which neither is in the other. -/
theorem serving_containment_iff (cfg : Config) (cwd : Location) (tmp : TreeNamer) :
    (∀ key, Contained cfg cwd tmp key ↔ Enters cfg cwd key) ∧
      ∀ k k', FilesApart cfg cwd tmp k k' ↔ Parted cfg cwd k k' :=
  ⟨fun _ => contained_iff, fun _ _ => filesApart_iff⟩

/-- The name of the certificate file. -/
def certName : Name := ⟨BundleFile.cert.fileName, BundleFile.cert.isComponent⟩

/-- The certificate file of `/s/a`. -/
def servedA : Location := [⟨ascii "s", by decide⟩, ⟨ascii "a", by decide⟩, certName]

theorem touches_of_byteRecord {l : Location}
    (h : l ∈ (applyOn cfg (Tree.fileSystem cwd tmp) (byteRecord key) Tree.empty).2.touched) :
    Touches cfg cwd tmp key l :=
  ⟨Tree.empty, rfl, Or.inl ⟨byteRecord key, rfl, rfl, h⟩⟩

/-- The key `..` writes the certificate next to the serving directory, and `a` and `./a` write
the same file. -/
theorem dots_key_escapes :
    [certName] ∈ (applyOn sampleConfig (Tree.fileSystem [] TreeNamer.longer)
      (byteRecord (ascii "..")) Tree.empty).2.touched ∧
    ¬ Contained sampleConfig [] TreeNamer.longer (ascii "..") ∧
    ¬ FilesApart sampleConfig [] TreeNamer.longer (ascii "a") (ascii "./a") := by
  have hescape : [certName] ∈ (applyOn sampleConfig (Tree.fileSystem [] TreeNamer.longer)
      (byteRecord (ascii "..")) Tree.empty).2.touched := by decide +kernel
  refine ⟨hescape, fun h => ?_, fun h => h servedA ⟨?_, ?_⟩⟩
  · obtain ⟨sub, name, heq, hbelow⟩ := h _ (touches_of_byteRecord hescape)
    obtain ⟨rfl, -⟩ := List.append_inj' (show [] ++ [certName] = sub ++ [name] from heq) rfl
    exact absurd hbelow (by decide)
  · exact touches_of_byteRecord (by decide +kernel)
  · exact touches_of_byteRecord (by decide +kernel)

/-- Two plain names stay inside and apart. -/
theorem plain_keys_contained :
    Contained sampleConfig [] TreeNamer.longer (ascii "a") ∧
      FilesApart sampleConfig [] TreeNamer.longer (ascii "a") (ascii "b") := by
  obtain ⟨hcontained, hapart⟩ := serving_containment_iff sampleConfig [] TreeNamer.longer
  exact ⟨(hcontained _).mpr (Or.inr (by decide)), (hapart _ _).mpr (Or.inr (Or.inr (by decide)))⟩

end Lbsync.Certs
