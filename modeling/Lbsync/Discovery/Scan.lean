import Lbsync.Certs.Provider
import Lbsync.Files.EvalSymlinks
import Lbsync.Lib.Firsts
import Mathlib.Data.Prod.Lex

/-!
# Discovery

The scan of certbot's `live` directory makes an entry of everything in it but the
`README`: an error, or the resolved path of its `cert.pem`. Entries whose certificate
is the same file are merged, the first one stays, and the result is sorted.

`sort.Slice` is not stable; any function that sorts is admitted.
-/

namespace Lbsync.Discovery

open Files

/-- A certificate that was discovered: its resolved path and the name of its directory. -/
structure Cert where
  certPath : GoString
  fallbackID : GoString
  deriving DecidableEq, Repr

/-- Why an entry is not usable. -/
inductive EntryErr where
  | stat (e : DiskErr)
  | notDirectory
  | resolveCert (e : DiskErr)
  deriving DecidableEq, Repr

/-- One observation of the scan. An entry with an error has no path. -/
structure Entry where
  cert : Cert
  error : Option EntryErr
  deriving DecidableEq, Repr

/-- The conventional directory of certbot. -/
def defaultRoot : GoString := ascii "/etc/letsencrypt"

section Scan

variable (t : LinkTree)

/-- The absolute path without symbolic links. -/
def resolveCertPath (path : GoString) : Except DiskErr GoString :=
  match t.evalSymlinks path with
  | .error e => .error e
  | .ok resolved => .ok (t.abs resolved)

/-- What is wrong when an entry is neither a directory nor a link to one. -/
def dirError (liveDir : GoString) (e : DirEntry) : Option EntryErr :=
  if e.isDir then none
  else
    match t.stat (join [liveDir, e.name]) with
    | .error err => some (.stat err)
    | .ok info => if info.isDir then none else some .notDirectory

/-- The observation about one entry of the directory; none about the `README`. -/
def scanEntry (liveDir : GoString) (e : DirEntry) : Option Entry :=
  if e.name = [] ∨ e.name = ascii "README" then none
  else
    match dirError t liveDir e with
    | some err => some ⟨⟨[], e.name⟩, some err⟩
    | none =>
        match resolveCertPath t (join [liveDir, e.name, ascii "cert.pem"]) with
        | .error err => some ⟨⟨[], e.name⟩, some (.resolveCert err)⟩
        | .ok resolved => some ⟨⟨resolved, e.name⟩, none⟩

/-- Scan `live` under the root. A directory that is not there has no entries. -/
def scanCertbotVerbose (root : GoString) : Except DiskErr (List Entry) :=
  let root := if root = [] then defaultRoot else root
  let liveDir := join [root, ascii "live"]
  match t.readDir liveDir with
  | .error .notExist => .ok []
  | .error e => .error e
  | .ok dirEntries => .ok (dirEntries.filterMap (scanEntry t liveDir))

end Scan

/-- The order of the merged entries: by name, then by path. -/
def Entry.less (a b : Entry) : Prop :=
  if a.cert.fallbackID ≠ b.cert.fallbackID then a.cert.fallbackID < b.cert.fallbackID
  else a.cert.certPath < b.cert.certPath

instance (a b : Entry) : Decidable (a.less b) := inferInstanceAs (Decidable (ite ..))

/-- `sort.Slice` with this order. -/
structure Sorter where
  sort : List Entry → List Entry
  perm : ∀ l, (sort l).Perm l
  sorted : ∀ l, (sort l).Pairwise fun a b => ¬ b.less a

/-- What entries are ordered by. -/
def Entry.rank (e : Entry) : GoString ×ₗ GoString := toLex (e.cert.fallbackID, e.cert.certPath)

theorem Entry.less_iff {a b : Entry} : a.less b ↔ a.rank < b.rank := by
  unfold Entry.less Entry.rank
  rw [Prod.Lex.toLex_lt_toLex]
  by_cases hname : a.cert.fallbackID = b.cert.fallbackID
  · simp [hname]
  · simp [hname]

/-- Sorting by insertion. -/
def Sorter.insertion : Sorter where
  sort l := l.insertionSort fun a b => ¬ b.less a
  perm l := List.perm_insertionSort _ l
  sorted l := by
    have htotal : Std.Total fun a b : Entry => ¬ b.less a := ⟨fun a b => by
      simp only [Entry.less_iff, not_lt]
      exact le_total _ _⟩
    have htrans : IsTrans Entry fun a b => ¬ b.less a := ⟨fun a b c hab hbc => by
      simp only [Entry.less_iff, not_lt] at hab hbc ⊢
      exact hab.trans hbc⟩
    exact List.pairwise_insertionSort _ l

/-- The loop of `mergeEntries`. -/
def mergeLoop (seen : List GoString) : List Entry → List Entry
  | [] => []
  | e :: rest =>
      if e.error ≠ none ∨ e.cert.certPath = [] then e :: mergeLoop seen rest
      else if e.cert.certPath ∈ seen then mergeLoop seen rest
      else e :: mergeLoop (e.cert.certPath :: seen) rest

/-- Drop the entries whose path was seen before, and sort the others. -/
def mergeEntries (s : Sorter) (entries : List Entry) : List Entry := s.sort (mergeLoop [] entries)

/-- Run the scan, unless the root is empty. -/
def scanAllVerbose (s : Sorter) (t : LinkTree) (root : GoString) : Except DiskErr (List Entry) :=
  if root ≠ [] then
    match scanCertbotVerbose t root with
    | .error e => .error e
    | .ok entries => .ok (mergeEntries s entries)
  else .ok (mergeEntries s [])

/-- The certificates of the entries without an error. -/
def scanAll (s : Sorter) (t : LinkTree) (root : GoString) : Except DiskErr (List Cert) :=
  match scanAllVerbose s t root with
  | .error e => .error e
  | .ok entries => .ok ((entries.filter fun e => e.error = none).map Entry.cert)

/-- The five reads of a lineage directory, of which the first two are of one file. -/
def lineageReads (t : LinkTree) (dir : GoString) : Certs.Reads where
  leaf := t.readFile (join [dir, ascii "cert.pem"])
  cert := t.readFile (join [dir, ascii "cert.pem"])
  key := t.readFile (join [dir, ascii "privkey.pem"])
  chain := t.readFile (join [dir, ascii "chain.pem"])
  full := t.readFile (join [dir, ascii "fullchain.pem"])

/-- What `Local` of the certificate provider sees of a tree that does not change meanwhile. -/
def observe (s : Sorter) (t : LinkTree) (root : GoString) (w : Certs.World) : Certs.World :=
  { w with
    scanned :=
      match scanAll s t root with
      | .ok certs => .ok (certs.map Cert.fallbackID)
      | .error _ => .error .scan
    reads := fun lineage => lineageReads t (join [root, ascii "live", lineage]) }

end Lbsync.Discovery
