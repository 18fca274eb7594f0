import Lbsync.Certs.Rollback
import Lbsync.Files.Failures

/-!
# What a served directory keeps of its history

`Apply` writes the files its record has content for and leaves the others alone:
an empty member is skipped, not removed. So after a successful `Apply` the files
the record has content for are the same on every node, and each of the others is
what the last earlier record with content for it left.
-/

namespace Lbsync.Certs

open Files Engine

/-- A successful run of writes has the data of the bundle in place and leaves the files it has
no data for alone, whatever calls failed on the way. -/
theorem writeFiles_content {tmp : TempNamer} {dir : GoString} {b : Bundle} {fs : List BundleFile}
    (hfs : fs.Nodup) {changed wrote : Bool} {d d' : Disk}
    (hrun : writeFiles tmp dir b fs changed d = ((wrote, none), d')) (f : BundleFile) :
    d'.content ⟨dir, f.fileName⟩ =
      if f ∈ fs ∧ b.data f ≠ [] then some (b.data f) else d.content ⟨dir, f.fileName⟩ := by
  induction fs generalizing changed d with
  | nil =>
      obtain rfl : d = d' := congrArg Prod.snd hrun
      simp
  | cons g rest ih =>
      obtain ⟨hg, hrest⟩ := List.nodup_cons.mp hfs
      simp only [writeFilesOn] at hrun
      split_ifs at hrun with hdata
      · rw [ih hrest hrun]
        by_cases hfg : f = g
        · subst hfg
          simp [hg, hdata]
        · simp [hfg]
      · have hend := writeAtomic_ends tmp d ((g.avoids tmp dir).tempPath_ne d) (b.data g) g.perm
        rcases hwrite : Files.writeAtomic tmp d ⟨dir, g.fileName⟩ (b.data g) g.perm with
          ⟨_ | c, d₁⟩
        · simp only [hwrite] at hrun
          cases congrArg (fun r => r.1.2) hrun
        · simp only [hwrite] at hrun hend
          rw [ih hrest hrun]
          by_cases hfg : f = g
          · subst hfg
            simp [hg, hdata, hend.content]
          · have happart := BundleFile.apart dir hfg
            have hkept : d₁.file ⟨dir, f.fileName⟩ = d.file ⟨dir, f.fileName⟩ :=
              hend.file_of_ne happart.ne happart.ne_backup
                (BundleFile.plain_of_mem_names _ f.fileName_mem_names).not_temp
            simp [hfg, Disk.content, hkept]

variable {cfg : Config}

/-- A successful `Apply` has the record's content in place and leaves the files it has none
for alone. -/
theorem served_of_apply {r : Record} {w w' : World} {changed : Bool}
    (hrun : apply cfg r w = (.ok changed, w')) (f : BundleFile) :
    w'.served cfg r.key f =
      if r.blob f.blobName ≠ [] then some (r.blob f.blobName) else w.served cfg r.key f := by
  simp only [apply, applyOn, Bundle.writeAtomicOn] at hrun
  rcases w.serving.mkdirAll_cases with hmkdir | hmkdir
  · simp only [hmkdir] at hrun
    rcases hwrite : writeFiles cfg.temp (cfg.dir r.key) (fromRecord r) BundleFile.all false
      w.serving.next.2 with ⟨⟨wrote, _ | e⟩, d⟩
    · simp only [hwrite] at hrun
      obtain ⟨_, rfl⟩ := Prod.mk.inj hrun
      refine (writeFiles_content (show BundleFile.all.Nodup by decide) hwrite f).trans ?_
      simp only [BundleFile.mem_all, true_and, data_fromRecord, Disk.content, Disk.file_next]
      rfl
    · simp only [hwrite] at hrun
      cases congrArg Prod.fst hrun
  · simp only [hmkdir] at hrun
    cases congrArg Prod.fst hrun

/-- `Apply` touches no other directory. -/
theorem file_apply_of_dir (r : Record) (w : World) {q : Path} (hq : q.dir ≠ cfg.dir r.key) :
    (apply cfg r w).2.serving.file q = w.serving.file q := by
  refine applyOn_keeps (P := fun d : Disk => d.file q = w.serving.file q)
    (fun d hkept => (d.file_mkdirAll q).trans hkept) (fun f d _ hkept => ?_) rfl
  have hend := writeAtomic_ends cfg.temp d ((f.avoids cfg.temp (cfg.dir r.key)).tempPath_ne d)
    (r.blob f.blobName) f.perm
  exact (hend.file_of_dir hq).trans hkept

variable (cfg)

/-- The node with a running process, whose coming calls go as given. -/
def World.facing (w : World) (faults : List Fault) : World :=
  { w with serving := { w.serving with faults := faults, stopped := false } }

/-- The records are applied one after the other, each with success. -/
inductive Applies : World → List Record → World → Prop
  | nil (w : World) : Applies w [] w
  | snoc {w w₁ w₂ : World} {rs : List Record} {r : Record} {changed : Bool}
      (faults : List Fault) (before : Applies w rs w₁)
      (run : apply cfg r (w₁.facing faults) = (.ok changed, w₂)) : Applies w (rs ++ [r]) w₂

/-- The content of the last record of a lineage directory that has some for the file. -/
def lastContent (key : GoString) (rs : List Record) (f : BundleFile) : Option Bytes :=
  (rs.reverse.find? fun r => cfg.dir r.key = cfg.dir key ∧ r.blob f.blobName ≠ []).map
    fun r => r.blob f.blobName

variable {cfg}

theorem lastContent_append (key : GoString) (rs : List Record) (r : Record) (f : BundleFile) :
    lastContent cfg key (rs ++ [r]) f =
      if cfg.dir r.key = cfg.dir key ∧ r.blob f.blobName ≠ [] then some (r.blob f.blobName)
      else lastContent cfg key rs f := by
  unfold lastContent
  rw [List.reverse_append, List.reverse_singleton, List.singleton_append, List.find?_cons]
  split_ifs with h
  · simp [h]
  · simp [h]

/-- What is served after a run of successful calls is what the last record with content for
the file had. -/
theorem Applies.served {w w' : World} {rs : List Record} (h : Applies cfg w rs w')
    {key : GoString} (hempty : ∀ f, w.served cfg key f = none) (f : BundleFile) :
    w'.served cfg key f = lastContent cfg key rs f := by
  induction h with
  | nil => exact hempty f
  | @snoc w₁ w₂ rs r changed faults _ run ih =>
      rw [lastContent_append, ← ih]
      by_cases hdir : cfg.dir r.key = cfg.dir key
      · have hserved := served_of_apply run f
        simp only [World.served, hdir] at hserved ⊢
        rw [hserved]
        simp only [true_and]
        rfl
      · rw [if_neg fun hc => hdir hc.1]
        have hkept := file_apply_of_dir r (w₁.facing faults)
          (q := ⟨cfg.dir key, f.fileName⟩) (Ne.symm hdir)
        rw [run] at hkept
        exact congrArg (Option.map File.content) hkept

/-- Two nodes, each with any run of successful calls behind it, apply the same record. The
files it has content for are then the record's on both; each other file is what the last
earlier record with content for it left there, so the nodes serve the same exactly when
those agree. -/
theorem served_after_same_apply {cfg₁ cfg₂ : Config} {w₁ w₂ w₁' w₂' : World} {r : Record}
    (hempty₁ : ∀ f, w₁.served cfg₁ r.key f = none) (hempty₂ : ∀ f, w₂.served cfg₂ r.key f = none)
    {rs₁ rs₂ : List Record} (h₁ : Applies cfg₁ w₁ (rs₁ ++ [r]) w₁')
    (h₂ : Applies cfg₂ w₂ (rs₂ ++ [r]) w₂') :
    (∀ f, r.blob f.blobName ≠ [] → w₁'.served cfg₁ r.key f = some (r.blob f.blobName) ∧
      w₂'.served cfg₂ r.key f = some (r.blob f.blobName)) ∧
    (∀ f, r.blob f.blobName = [] → w₁'.served cfg₁ r.key f = lastContent cfg₁ r.key rs₁ f ∧
      w₂'.served cfg₂ r.key f = lastContent cfg₂ r.key rs₂ f) ∧
    ((∀ f, w₁'.served cfg₁ r.key f = w₂'.served cfg₂ r.key f) ↔
      ∀ f, r.blob f.blobName = [] →
        lastContent cfg₁ r.key rs₁ f = lastContent cfg₂ r.key rs₂ f) := by
  have hserved₁ := h₁.served hempty₁
  have hserved₂ := h₂.served hempty₂
  simp only [lastContent_append, true_and] at hserved₁ hserved₂
  refine ⟨fun f hdata => ?_, fun f hdata => ?_, ?_⟩
  · simp [hserved₁, hserved₂, hdata]
  · simp [hserved₁, hserved₂, hdata]
  · refine forall_congr' fun f => ?_
    by_cases hdata : r.blob f.blobName = []
    · simp [hserved₁, hserved₂, hdata]
    · simp [hserved₁, hserved₂, hdata]

/-- A node that serves nothing yet. -/
def blankWorld : World := { sampleWorld with serving := { sampleWorld.serving with files := ∅ } }

/-- The node after some records were applied. -/
def appliedWorld (rs : List Record) : World :=
  rs.foldl (fun w r => (apply sampleConfig r (w.facing [])).2) blankWorld

/-- A record of the lineage `a` with a certificate, a key and the given chain. -/
def chainedRecord (chain : Bytes) : Record :=
  ⟨kind, ascii "a", ⟨0, 0, []⟩,
    [(ascii "cert", [2]), (ascii "key", [3]), (ascii "chain", chain)], [], []⟩

theorem applies_once : Applies sampleConfig blankWorld [chainedRecord []]
    (appliedWorld [chainedRecord []]) :=
  .snoc [] (.nil _) (Prod.ext (by decide : _ = Except.ok true) rfl)

theorem applies_twice : Applies sampleConfig blankWorld [chainedRecord [9], chainedRecord []]
    (appliedWorld [chainedRecord [9], chainedRecord []]) :=
  .snoc [] (.snoc [] (.nil _) (Prod.ext (by decide : _ = Except.ok true) rfl))
    (Prod.ext (by decide : _ = Except.ok false) rfl)

theorem blankWorld_empty (f : BundleFile) :
    blankWorld.served sampleConfig (ascii "a") f = none := by
  cases f <;> decide

/-- Both nodes apply a record without a chain; the one that had applied a chain before still
serves it. -/
theorem stale_chain_kept :
    Applies sampleConfig blankWorld [chainedRecord []] (appliedWorld [chainedRecord []]) ∧
    Applies sampleConfig blankWorld [chainedRecord [9], chainedRecord []]
      (appliedWorld [chainedRecord [9], chainedRecord []]) ∧
    (chainedRecord []).blob BundleFile.chain.blobName = [] ∧
    (appliedWorld [chainedRecord []]).served sampleConfig (ascii "a") .chain = none ∧
    (appliedWorld [chainedRecord [9], chainedRecord []]).served sampleConfig (ascii "a") .chain =
      some [9] :=
  ⟨applies_once, applies_twice, by decide, by decide, by decide⟩

/-- The certificate is the record's on both nodes. -/
theorem same_certificate_served :
    (appliedWorld [chainedRecord []]).served sampleConfig (ascii "a") .cert = some [2] ∧
    (appliedWorld [chainedRecord [9], chainedRecord []]).served sampleConfig (ascii "a") .cert =
      some [2] :=
  (served_after_same_apply (r := chainedRecord []) blankWorld_empty blankWorld_empty
    (show Applies sampleConfig blankWorld ([] ++ [chainedRecord []]) _ from applies_once)
    (show Applies sampleConfig blankWorld ([chainedRecord [9]] ++ [chainedRecord []]) _ from
      applies_twice)).1 .cert (by decide)

end Lbsync.Certs
