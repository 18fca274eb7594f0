import Lbsync.Discovery.Merging
import Lbsync.Files.Joins

/-!
# The lineages that are published

`Local` lists a record for every usable entry of `live` whose `cert.pem` resolves to a
file that no entry before it resolves to. A certificate that can be read is resolved,
and it is read again under the path it was scanned under.
-/

namespace Lbsync.Discovery

open Files Engine

variable {t : LinkTree} {liveDir : GoString}

/-- The entry is or points to a directory with a certificate and a private key. -/
structure Usable (c : Certs.Crypto) (t : LinkTree) (liveDir : GoString) (e : DirEntry) : Prop where
  not_readme : e.name ≠ ascii "README"
  dir : e.isDir = true ∨ ∃ info, t.stat (join [liveDir, e.name]) = .ok info ∧ info.isDir = true
  cert : ∃ raw, t.readFile (join [liveDir, e.name, ascii "cert.pem"]) = .ok raw ∧
    (c.parseCertificate raw).isSome
  key : ∃ raw, t.readFile (join [liveDir, e.name, ascii "privkey.pem"]) = .ok raw ∧
    c.looksLikePrivateKey raw = true

/-- The resolved path of the certificate of an entry. There is none for the `README`, for what
is not a directory, and when it cannot be resolved. -/
def certFile (t : LinkTree) (liveDir : GoString) (e : DirEntry) : Option GoString :=
  if e.name = [] ∨ e.name = ascii "README" ∨ dirError t liveDir e ≠ none then none
  else (resolveCertPath t (join [liveDir, e.name, ascii "cert.pem"])).toOption

theorem resolveCertPath_ne_nil {path resolved : GoString}
    (h : resolveCertPath t path = .ok resolved) : resolved ≠ [] := by
  unfold resolveCertPath LinkTree.evalSymlinks at h
  cases heval : t.evalLinks 255 ⟨path.head? = some slash, []⟩ (splitSlash path) with
  | error e => simp [heval] at h
  | ok dest =>
      simp only [heval] at h
      rw [← Except.ok.inj h, LinkTree.abs]
      split_ifs
      · exact clean_ne_nil _
      · exact join_ne_nil t.wd (clean_ne_nil dest.path)

theorem dirError_eq_none {e : DirEntry} :
    dirError t liveDir e = none ↔
      e.isDir = true ∨ ∃ info, t.stat (join [liveDir, e.name]) = .ok info ∧ info.isDir = true := by
  unfold dirError
  cases hdir : e.isDir with
  | true => simp
  | false =>
      cases hstat : t.stat (join [liveDir, e.name]) with
      | error err => simp
      | ok info => cases hinfo : info.isDir <;> simp [hinfo]

/-- What the scan can make of an entry of a name, and the path it then has. -/
inductive Observed (name : GoString) : Option Entry → Option GoString → Prop
  | skipped : Observed name none none
  | failed (err : EntryErr) : Observed name (some ⟨⟨[], name⟩, some err⟩) none
  | resolved {path : GoString} (hne : path ≠ []) :
      Observed name (some ⟨⟨path, name⟩, none⟩) (some path)

theorem observed_scanEntry (t : LinkTree) (liveDir : GoString) (e : DirEntry) :
    Observed e.name (scanEntry t liveDir e) (certFile t liveDir e) := by
  unfold scanEntry certFile
  by_cases hskip : e.name = [] ∨ e.name = ascii "README"
  · rw [if_pos hskip, if_pos (or_assoc.mp (Or.inl hskip))]
    exact .skipped
  · obtain ⟨hname, hreadme⟩ := not_or.mp hskip
    rw [if_neg hskip]
    cases hdir : dirError t liveDir e with
    | some err => simpa using Observed.failed err
    | none =>
        rw [if_neg (by simp [hname, hreadme])]
        cases hresolve : resolveCertPath t (join [liveDir, e.name, ascii "cert.pem"]) with
        | error err => exact .failed _
        | ok path => exact .resolved (resolveCertPath_ne_nil hresolve)

theorem Observed.path {name : GoString} {entry : Option Entry} {path : Option GoString}
    (h : Observed name entry path) : entry.bind Entry.path = path := by
  cases h with
  | skipped => rfl
  | failed err => rfl
  | resolved hne => simp [Entry.path, hne]

/-- An entry without an error is one whose path was resolved. -/
theorem Observed.usable {name : GoString} {entry : Entry} {path : Option GoString}
    (h : Observed name (some entry) path) :
    entry.cert.fallbackID = name ∧ (entry.error = none ↔ path.isSome) := by
  cases h with
  | failed err => exact ⟨rfl, by simp⟩
  | resolved hne => exact ⟨rfl, by simp⟩

theorem Observed.exists_entry {name path : GoString} {entry : Option Entry}
    (h : Observed name entry (some path)) : ∃ found, entry = some found := by
  cases h with
  | resolved hne => exact ⟨_, rfl⟩

/-- The names that are left of the entries of a directory. -/
def foundNames (s : Sorter) (t : LinkTree) (liveDir : GoString) (entries : List DirEntry) :
    List GoString :=
  (((mergeEntries s (entries.filterMap (scanEntry t liveDir))).filter
    fun e => e.error = none).map Entry.cert).map Cert.fallbackID

section Live

variable (s : Sorter) {entries : List DirEntry}

theorem mem_mergeEntries {entry : Entry} :
    entry ∈ mergeEntries s (entries.filterMap (scanEntry t liveDir)) ↔
      ∃ e, scanEntry t liveDir e = some entry ∧
        Firsts.FirstIn (certFile t liveDir) [] entries e := by
  have hpath : (fun e => (scanEntry t liveDir e).bind Entry.path) = certFile t liveDir :=
    funext fun e => (observed_scanEntry t liveDir e).path
  rw [(mergeEntries_perm s _).mem_iff, Firsts.mem_firsts, Firsts.firstIn_filterMap, hpath]

/-- The names of the entries that are the first with their resolved path are left. -/
theorem mem_foundNames {name : GoString} :
    name ∈ foundNames s t liveDir entries ↔ ∃ e, e.name = name ∧
      (certFile t liveDir e).isSome ∧ Firsts.FirstIn (certFile t liveDir) [] entries e := by
  simp only [foundNames, List.map_map, List.mem_map, List.mem_filter, decide_eq_true_eq,
    mem_mergeEntries]
  constructor
  · rintro ⟨entry, ⟨⟨e, hscan, hfirst⟩, herror⟩, rfl⟩
    obtain ⟨hname, hiff⟩ := (hscan ▸ observed_scanEntry t liveDir e).usable
    exact ⟨e, hname.symm, hiff.mp herror, hfirst⟩
  · rintro ⟨e, rfl, hsome, hfirst⟩
    obtain ⟨path, hpath⟩ := Option.isSome_iff_exists.mp hsome
    obtain ⟨entry, hscan⟩ := (hpath ▸ observed_scanEntry t liveDir e).exists_entry
    obtain ⟨hname, hiff⟩ := (hscan ▸ observed_scanEntry t liveDir e).usable
    exact ⟨entry, ⟨⟨e, hscan, hfirst⟩, hiff.mpr hsome⟩, hname⟩

/-- No name is left twice. -/
theorem nodup_foundNames (h : (entries.map DirEntry.name).Nodup) :
    (foundNames s t liveDir entries).Nodup := by
  have hmerged : ((mergeEntries s (entries.filterMap (scanEntry t liveDir))).map
      fun entry => entry.cert.fallbackID).Nodup := by
    rw [((mergeEntries_perm s _).map _).nodup_iff]
    refine List.Nodup.sublist ((Firsts.firsts_sublist _ _).map _) ?_
    rw [List.Nodup, List.pairwise_map] at h ⊢
    refine List.Pairwise.filterMap _ (fun e e' hne entry hentry entry' hentry' => ?_) h
    have hname := observed_scanEntry t liveDir e
    have hname' := observed_scanEntry t liveDir e'
    rw [hentry] at hname
    rw [hentry'] at hname'
    rw [hname.usable.1, hname'.usable.1]
    exact hne
  rw [foundNames, List.map_map]
  exact hmerged.sublist (List.filter_sublist.map _)

end Live

section Local

variable {cfg : Certs.Config} {root : GoString} (hroot : root ≠ [])

include hroot

/-- The path of a file of a lineage is the same in the scan and in `Local`. -/
theorem join_lineage (name file : GoString) :
    join [join [root, ascii "live", name], file] =
      join [join [root, ascii "live"], name, file] := by
  have hlive : join [root, ascii "live"] ≠ [] := join_ne_nil root (by decide)
  rw [← join_join hroot, join_join hlive]

/-- A lineage is read when its certificate and its key parse. -/
theorem isSome_localRecord (s : Sorter) (t : LinkTree) (w : Certs.World) (name : GoString) :
    (Certs.localRecord cfg (observe s t root w) name).isSome ↔
      (∃ raw, t.readFile (join [join [root, ascii "live"], name, ascii "cert.pem"]) = .ok raw ∧
        (cfg.crypto.parseCertificate raw).isSome) ∧
      ∃ raw, t.readFile (join [join [root, ascii "live"], name, ascii "privkey.pem"]) = .ok raw ∧
        cfg.crypto.looksLikePrivateKey raw = true := by
  simp only [Certs.localRecord, observe, lineageReads, join_lineage hroot, Certs.readLineage]
  cases t.readFile (join [join [root, ascii "live"], name, ascii "cert.pem"]) with
  | error e => simp [Certs.Crypto.load]
  | ok raw =>
      cases hparse : cfg.crypto.parseCertificate raw with
      | none => simp [Certs.Crypto.load, hparse]
      | some leaf =>
          cases t.readFile (join [join [root, ascii "live"], name, ascii "privkey.pem"]) with
          | error e => simp [Certs.Crypto.load, Certs.Crypto.loadKey, hparse]
          | ok key =>
              cases hkey : cfg.crypto.looksLikePrivateKey key with
              | false => simp [Certs.Crypto.load, Certs.Crypto.loadKey, hparse, hkey]
              | true => simp [Certs.Crypto.load, Certs.Crypto.loadKey, hparse, hkey]

/-- An entry is usable when its certificate can be resolved and its lineage can be read. A
certificate that can be read can be resolved. -/
theorem usable_iff (s : Sorter) (t : LinkTree) (w : Certs.World) {e : DirEntry}
    (hname : e.name ≠ []) :
    Usable cfg.crypto t (join [root, ascii "live"]) e ↔
      (certFile t (join [root, ascii "live"]) e).isSome ∧
        (Certs.localRecord cfg (observe s t root w) e.name).isSome := by
  rw [isSome_localRecord hroot]
  constructor
  · rintro ⟨hreadme, hdir, ⟨raw, hraw, hparse⟩, hkey⟩
    refine ⟨?_, ⟨raw, hraw, hparse⟩, hkey⟩
    obtain ⟨l, hlocate⟩ := t.exists_locate hraw
    obtain ⟨resolved, heval⟩ := LinkTree.exists_evalSymlinks hlocate
    have hnone := dirError_eq_none.mpr hdir
    simp [certFile, hname, hreadme, hnone, resolveCertPath, heval, Except.toOption]
  · rintro ⟨hresolved, hcert, hkey⟩
    unfold certFile at hresolved
    split_ifs at hresolved with hskip
    · cases hresolved
    · obtain ⟨-, hreadme, hdir⟩ : e.name ≠ [] ∧ e.name ≠ ascii "README" ∧
          dirError t (join [root, ascii "live"]) e = none := by simpa using hskip
      exact ⟨hreadme, dirError_eq_none.mp hdir, hcert, hkey⟩

theorem scanned_observe (s : Sorter) (w : Certs.World) {entries : List DirEntry}
    (hread : t.readDir (join [root, ascii "live"]) = .ok entries) :
    (observe s t root w).scanned = .ok (foundNames s t (join [root, ascii "live"]) entries) := by
  simp only [observe, scanAll, scanAllVerbose, scanCertbotVerbose, if_neg hroot, hread,
    if_pos hroot]
  rfl

/-- `Local` lists one record for each usable entry of `live` whose `cert.pem` resolves to a
path that no entry before it resolves to, under the name of the entry, and no others. -/
theorem published_lineages (cfg : Certs.Config) (s : Sorter) (t : LinkTree) (w : Certs.World)
    {entries : List DirEntry} (hread : t.readDir (join [root, ascii "live"]) = .ok entries) :
    ∃ recs, ((Certs.provider cfg).locals (observe s t root w)).1 = .ok recs ∧
      (recs.map Record.key).Nodup ∧
      ∀ name, name ∈ recs.map Record.key ↔
        ∃ e, e.name = name ∧ Usable cfg.crypto t (join [root, ascii "live"]) e ∧
          Firsts.FirstIn (certFile t (join [root, ascii "live"])) [] entries e := by
  let names := foundNames s t (join [root, ascii "live"]) entries
  have hlocals : ((Certs.provider cfg).locals (observe s t root w)).1 =
      .ok (names.filterMap (Certs.localRecord cfg (observe s t root w))) := by
    change (Certs.locals cfg (observe s t root w)).1 = _
    rw [Certs.locals, scanned_observe hroot s w hread]
  have hnames : names.Nodup := nodup_foundNames s (LinkTree.nodup_of_readDir hread)
  refine ⟨_, hlocals, ?_, fun name => ?_⟩
  · rw [Certs.keys_localRecords]
    exact hnames.sublist List.filter_sublist
  · rw [Certs.keys_localRecords, List.mem_filter, mem_foundNames]
    constructor
    · rintro ⟨⟨e, rfl, hresolved, hfirst⟩, hrecord⟩
      have hne := (LinkTree.isComponent_of_readDir hread hfirst.mem).2.1
      exact ⟨e, rfl, (usable_iff hroot s t w hne).mpr ⟨hresolved, hrecord⟩, hfirst⟩
    · rintro ⟨e, rfl, husable, hfirst⟩
      have hne := (LinkTree.isComponent_of_readDir hread hfirst.mem).2.1
      obtain ⟨hresolved, hrecord⟩ := (usable_iff hroot s t w hne).mp husable
      exact ⟨⟨e, rfl, hresolved, hfirst⟩, hrecord⟩

end Local

/-- A proper name as a component of a location. -/
def component (name : String) (h : IsComponent (ascii name)) : Name := ⟨ascii name, h⟩

/-- The location of `live` under `/r`. -/
def liveAt : Location := [component "r" (by decide), component "live" (by decide)]

theorem isComponent_a : IsComponent (ascii "a") := by decide

/-- `/r/live` with a lineage `a`, and a second directory `b` with the given certificate. -/
def twoLineages (cert : Inode) : LinkTree where
  nodes :=
    let a := liveAt ++ [component "a" isComponent_a]
    let b := liveAt ++ [component "b" (by decide)]
    [(liveAt.dropLast, Inode.dir true true), (liveAt, .dir true true),
      (a, .dir true true), (a ++ [component "cert.pem" (by decide)], .file [1]),
      (a ++ [component "privkey.pem" (by decide)], .file [1]),
      (b, .dir true true), (b ++ [component "cert.pem" (by decide)], cert),
      (b ++ [component "privkey.pem" (by decide)], .file [2])].foldl
        (fun nodes e => nodes.insert e.1 e.2) ∅
  cwd := []
  wd := ascii "/"

/-- What `Local` looks at when nothing is served. -/
def idleWorld : Certs.World where
  scanned := .ok []
  reads _ := ⟨.ok [], .ok [], .ok [], .ok [], .ok []⟩
  serving := { files := ∅, umask := 0o022, faults := [], stopped := false }
  commands := ⟨fun _ => true, 0⟩

/-- The certificate of `b` is a link to that of `a`. Both are usable, and `Local` lists `a`. -/
theorem aliased_lineage_dropped :
    let t := twoLineages (.link (ascii "../a/cert.pem"))
    let liveDir := join [ascii "/r", ascii "live"]
    t.readDir liveDir = .ok [⟨ascii "a", true⟩, ⟨ascii "b", true⟩] ∧
    Usable Certs.sampleConfig.crypto t liveDir ⟨ascii "b", true⟩ ∧
    (((Certs.provider Certs.sampleConfig).locals
      (observe .insertion t (ascii "/r") idleWorld)).1.map fun recs => recs.map Record.key) =
        .ok [ascii "a"] := by
  intro t liveDir
  refine ⟨by decide +kernel, ⟨by decide, Or.inl rfl, ⟨[1], by decide +kernel, by decide⟩,
    ⟨[2], by decide +kernel, by decide⟩⟩, by decide +kernel⟩

/-- With a certificate of its own `b` is listed. -/
theorem own_certificate_listed :
    ∃ recs, ((Certs.provider Certs.sampleConfig).locals
        (observe .insertion (twoLineages (.file [2])) (ascii "/r") idleWorld)).1 = .ok recs ∧
      ascii "b" ∈ recs.map Record.key := by
  have hread : (twoLineages (.file [2])).readDir (join [ascii "/r", ascii "live"]) =
      .ok [⟨ascii "a", true⟩, ⟨ascii "b", true⟩] := by decide +kernel
  obtain ⟨recs, hlocals, -, hkeys⟩ := published_lineages (by decide) Certs.sampleConfig .insertion
    (twoLineages (.file [2])) idleWorld hread
  refine ⟨recs, hlocals, (hkeys (ascii "b")).mpr ⟨⟨ascii "b", true⟩, rfl, ?_, ?_⟩⟩
  · exact ⟨by decide, Or.inl rfl, ⟨[2], by decide +kernel, by decide⟩,
      ⟨[2], by decide +kernel, by decide⟩⟩
  · rw [← Firsts.mem_firsts]
    decide +kernel

end Lbsync.Discovery
