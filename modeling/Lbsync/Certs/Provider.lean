import Lbsync.Certs.Bundle
import Lbsync.Engine.Tick
import Lbsync.Hook

/-!
# The certificate provider

`Local` lists the lineages whose bundle could be read, `Apply` writes a winning
bundle into the serving directory of its lineage, `Flush` runs the hook and
`Rollback` restores the backups of the given lineages.
-/

namespace Lbsync.Certs

open Files Engine

/-- The kind of certificate records. -/
def kind : GoString := ascii "certs"

/-- The record of a bundle. Its version covers the certificate only. -/
def toRecord (b : Bundle) (host : GoString) : Record where
  kind := kind
  key := b.lineage
  version := {
    primary := unix b.version.notBefore
    secondary := unix b.version.notAfter
    tiebreak := b.version.serial ++ ascii ":" ++ b.version.sha256 }
  blobs := [(ascii "cert", b.certPEM), (ascii "key", b.keyPEM), (ascii "chain", b.chainPEM),
    (ascii "full", b.fullPEM)]
  metaData := [(ascii "domain", b.domain), (ascii "serial", b.version.serial),
    (ascii "sha256", b.version.sha256),
    (ascii "not_after", formatInt (unix b.version.notAfter) 10)]
  source := host

/-- The zero value of a bundle version; the zero time is the first instant of year 1. -/
def BundleVersion.zero : BundleVersion :=
  ⟨-62135596800 * 1000000000, -62135596800 * 1000000000, [], []⟩

/-- The bundle of a record, without its version. -/
def fromRecord (r : Record) : Bundle where
  lineage := r.key
  domain := r.metaValue (ascii "domain")
  version := BundleVersion.zero
  certPEM := r.blob (ascii "cert")
  keyPEM := r.blob (ascii "key")
  chainPEM := r.blob (ascii "chain")
  fullPEM := r.blob (ascii "full")

/-- What the provider is configured with, and the libraries it uses. -/
structure Config where
  servingDir : GoString
  host : GoString
  runner : Runner
  crypto : Crypto
  temp : TempNamer

/-- The serving directory of a lineage. -/
def Config.dir (cfg : Config) (key : GoString) : GoString := join [cfg.servingDir, key]

/-- What the provider works on: what discovery finds, what the reads of each lineage
return, the disk with the serving directories, and the commands. -/
structure World where
  scanned : Except Err (List GoString)
  reads : GoString → Reads
  serving : Disk
  commands : Commands

variable (cfg : Config)

/-- The record of a lineage, if its bundle can be read. -/
def localRecord (w : World) (lineage : GoString) : Option Record :=
  match readLineage cfg.crypto lineage (w.reads lineage) with
  | .ok b => some (toRecord b cfg.host)
  | .error _ => none

/-- The records of the lineages that can be read. -/
def locals (w : World) : Except Err (List Record) × World :=
  match w.scanned with
  | .ok lineages => (.ok (lineages.filterMap (localRecord cfg w)), w)
  | .error e => (.error e, w)

/-- Write a winning bundle into the serving directory of its lineage. The gauge of its expiry is
left out; its label, the key, is taken to be valid UTF-8. -/
def applyOn {σ : Type*} (fs : FileSystem σ) (r : Record) (s : σ) : Except Err Bool × σ :=
  match (fromRecord r).writeAtomicOn fs (cfg.dir r.key) s with
  | ((_, some _), s) => (.error .io, s)
  | ((changed, none), s) => (.ok changed, s)

/-- `Apply` on the disk with the serving directories. -/
def apply (r : Record) (w : World) : Except Err Bool × World :=
  let applied := applyOn cfg (Disk.fileSystem cfg.temp) r w.serving
  (applied.1, { w with serving := applied.2 })

/-- Run the hook. -/
def flush (w : World) : Except Err Unit × World :=
  ((cfg.runner.run w.commands).1, { w with commands := (cfg.runner.run w.commands).2 })

/-- Restore the lineages one after the other; an error does not stop the rest. -/
def rollbackKeysOn {σ : Type*} (fs : FileCalls σ) : List GoString → σ → Except DiskErr Unit × σ
  | [], s => (.ok (), s)
  | key :: rest, s =>
      match rollbackOn fs (cfg.dir key) s with
      | (.ok _, s) => rollbackKeysOn fs rest s
      | (.error e, s) => (.error e, (rollbackKeysOn fs rest s).2)

/-- Restore lineages on a disk. -/
abbrev rollbackKeys (keys : List GoString) (d : Disk) : Except DiskErr Unit × Disk :=
  rollbackKeysOn cfg Disk.calls keys d

/-- The certificate provider. -/
def provider : Provider World where
  kind := kind
  locals := locals cfg
  apply := apply cfg
  flush := flush cfg
  rollback keys w :=
    match rollbackKeys cfg keys w.serving with
    | (.ok _, d) => (.ok (), { w with serving := d })
    | (.error _, d) => (.error .io, { w with serving := d })
  locals_kind := by
    intro w rs h r hr
    unfold locals at h
    cases hs : w.scanned with
    | error e => simp [hs] at h
    | ok lineages =>
        simp only [hs, Except.ok.injEq] at h
        subst h
        obtain ⟨lineage, _, hrec⟩ := List.mem_filterMap.mp hr
        unfold localRecord at hrec
        split at hrec
        · exact Option.some.inj hrec ▸ rfl
        · cases hrec

variable {cfg}

theorem localRecord_eq_some {w : World} {l : GoString} {r : Record}
    (h : localRecord cfg w l = some r) :
    ∃ b, readLineage cfg.crypto l (w.reads l) = .ok b ∧ r = toRecord b cfg.host := by
  unfold localRecord at h
  split at h
  · exact ⟨_, ‹_›, (Option.some.inj h).symm⟩
  · cases h

theorem localRecord_key {w : World} {l : GoString} {r : Record}
    (h : localRecord cfg w l = some r) : r.key = l := by
  obtain ⟨b, hb, rfl⟩ := localRecord_eq_some h
  exact (readLineage_eq_ok hb).1

/-- The keys of the records are the lineages that can be read. -/
theorem keys_localRecords (w : World) (lineages : List GoString) :
    (lineages.filterMap (localRecord cfg w)).map Record.key =
      lineages.filter fun lineage => (localRecord cfg w lineage).isSome := by
  induction lineages with
  | nil => rfl
  | cons lineage rest ih =>
      cases hr : localRecord cfg w lineage with
      | none => rw [List.filterMap_cons_none hr, List.filter_cons_of_neg (by simp [hr]), ih]
      | some r =>
          rw [List.filterMap_cons_some hr, List.filter_cons_of_pos (by simp [hr]), List.map_cons,
            ih, localRecord_key hr]

/-- The name of the blob a file of the bundle travels in. -/
def BundleFile.blobName : BundleFile → GoString
  | cert => ascii "cert"
  | key => ascii "key"
  | chain => ascii "chain"
  | fullchain => ascii "full"

theorem data_fromRecord (r : Record) (f : BundleFile) :
    (fromRecord r).data f = r.blob f.blobName := by
  cases f <;> rfl

/-- `Apply` leaves what writing the bundle leaves. -/
theorem snd_applyOn {σ : Type*} (cfg : Config) (fs : FileSystem σ) (r : Record) (s : σ) :
    (applyOn cfg fs r s).2 = ((fromRecord r).writeAtomicOn fs (cfg.dir r.key) s).2 := by
  unfold applyOn
  rcases (fromRecord r).writeAtomicOn fs (cfg.dir r.key) s with ⟨⟨_, _ | _⟩, s₁⟩ <;> rfl

theorem serving_apply (cfg : Config) (r : Record) (w : World) :
    (apply cfg r w).2.serving =
      ((fromRecord r).writeAtomic cfg.temp (cfg.dir r.key) w.serving).2 :=
  snd_applyOn cfg _ r w.serving

/-- What making the directory and every single write keep, `Apply` keeps. -/
theorem applyOn_keeps {σ : Type*} {fs : FileSystem σ} {r : Record} {P : σ → Prop}
    (hmkdir : ∀ s, P s → P (fs.mkdirAll (cfg.dir r.key) s).2)
    (hwrite : ∀ (f : BundleFile) s, r.blob f.blobName ≠ [] → P s →
      P (fs.writeAtomic ⟨cfg.dir r.key, f.fileName⟩ (r.blob f.blobName) f.perm s).2)
    {s : σ} (h : P s) : P (applyOn cfg fs r s).2 := by
  rw [snd_applyOn]
  refine Bundle.writeAtomicOn_keeps hmkdir (fun f s hdata hs => ?_) h
  rw [data_fromRecord] at hdata ⊢
  exact hwrite f s hdata hs

/-- What restoring a directory keeps, `Rollback` keeps. -/
theorem rollbackKeysOn_keeps {σ : Type*} {fs : FileCalls σ} {P : σ → Prop}
    (hrestore : ∀ key s, P s → P (fs.restoreDir (cfg.dir key) s).2) (keys : List GoString)
    {s : σ} (h : P s) : P (rollbackKeysOn cfg fs keys s).2 := by
  induction keys generalizing s with
  | nil => exact h
  | cons key rest ih =>
      have hnext := hrestore key s h
      unfold rollbackKeysOn rollbackOn
      generalize fs.restoreDir (cfg.dir key) s = out at hnext ⊢
      obtain ⟨_ | _, s₁⟩ := out <;> exact ih hnext

theorem serving_rollback (keys : List GoString) (w : World) :
    ((provider cfg).rollback keys w).2.serving = (rollbackKeys cfg keys w.serving).2 := by
  simp only [provider]
  rcases rollbackKeys cfg keys w.serving with ⟨_ | _, d⟩ <;> rfl

theorem blob_toRecord (b : Bundle) (host : GoString) (f : BundleFile) :
    (toRecord b host).blob f.blobName = b.data f := by
  cases f <;> rfl

/-- A toy library: a certificate is its bytes, its first byte is the second it becomes
valid at, and every other byte string is a key. -/
def sampleCrypto : Crypto where
  decode raw := some ⟨ascii "CERTIFICATE", raw⟩
  parseX509 raw := raw.head?.map fun b => ⟨b.toNat * 1000000000, 0, 0, [], []⟩
  parsePKCS8 _ := true
  parsePKCS1 _ := false
  parseEC _ := false
  sum256 data := (data ++ List.replicate 32 0).take 32
  sum256_length data := by simp

/-- A provider that serves under `/s` and verifies. -/
def sampleConfig : Config where
  servingDir := ascii "/s"
  host := ascii "h"
  runner := ⟨[ascii "verify"], []⟩
  crypto := sampleCrypto
  temp := TempNamer.longer

end Lbsync.Certs
