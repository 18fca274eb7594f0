import Lbsync.Files.AtomicFile
import Lbsync.Files.Filepath

/-!
# Certificate bundles

A bundle is the leaf certificate, the private key and the optional chain and
fullchain of one lineage. `readLineage` assembles it from five separate reads:
`cert.pem` is read twice, once to be parsed and once to be stored. PEM, X.509 and
SHA-256 are parameters.
-/

namespace Lbsync.Certs

open Files

/-- An instant, in nanoseconds since the epoch. -/
abbrev Time := Int

/-- `Time.Unix`: whole seconds, rounded down. -/
def unix (t : Time) : Int := t / 1000000000

/-- The fields of an X.509 certificate that are read. -/
structure Leaf where
  notBefore : Time
  notAfter : Time
  serial : Int
  dnsNames : List GoString
  commonName : GoString
  deriving DecidableEq, Repr

/-- A PEM block. -/
structure Block where
  blockType : GoString
  bytes : Bytes

/-- The library functions a bundle rests on. -/
structure Crypto where
  decode : Bytes → Option Block
  parseX509 : Bytes → Option Leaf
  parsePKCS8 : Bytes → Bool
  parsePKCS1 : Bytes → Bool
  parseEC : Bytes → Bool
  sum256 : Bytes → Bytes
  sum256_length : ∀ data, (sum256 data).length = 32

/-- Why a bundle could not be read. -/
inductive LoadErr where
  | read (e : DiskErr)
  | parse
  | notKey
  deriving DecidableEq, Repr

namespace Crypto

variable (c : Crypto)

/-- Parse a certificate in PEM or DER form. -/
def parseCertificate (raw : Bytes) : Option Leaf :=
  match c.decode raw with
  | some block =>
      if block.blockType ≠ ascii "CERTIFICATE" then none else c.parseX509 block.bytes
  | none => c.parseX509 raw

/-- Whether the bytes are a PEM private key that parses. -/
def looksLikePrivateKey (raw : Bytes) : Bool :=
  match c.decode raw with
  | none => false
  | some block => c.parsePKCS8 block.bytes || c.parsePKCS1 block.bytes || c.parseEC block.bytes

/-- The certificate in what was read from a file. -/
def load : Except DiskErr Bytes → Except LoadErr Leaf
  | .error e => .error (.read e)
  | .ok raw =>
      match c.parseCertificate raw with
      | none => .error .parse
      | some leaf => .ok leaf

/-- The private key in what was read from a file. -/
def loadKey : Except DiskErr Bytes → Except LoadErr Bytes
  | .error e => .error (.read e)
  | .ok raw => if c.looksLikePrivateKey raw then .ok raw else .error .notKey

end Crypto

/-- The best host name of a certificate. -/
def primaryDomain (leaf : Leaf) (fallback : GoString) : GoString :=
  match leaf.dnsNames with
  | name :: _ => name
  | [] => if leaf.commonName ≠ [] then leaf.commonName else fallback

/-- One lower-case hexadecimal digit. -/
def hexDigit (n : Nat) : UInt8 := UInt8.ofNat (if n < 10 then 48 + n else 87 + n)

/-- The two digits of a byte. -/
def hexByte (b : UInt8) : GoString := [hexDigit (b.toNat / 16), hexDigit (b.toNat % 16)]

/-- `hex.EncodeToString`. -/
def hexEncode (data : Bytes) : GoString := data.flatMap hexByte

/-- A number in a base up to sixteen, as `big.Int.Text` and `strconv.FormatInt` write it. -/
def formatInt (n : Int) (base : Nat) : GoString :=
  (if n < 0 then ascii "-" else []) ++
    (Nat.toDigits base n.natAbs).map fun ch => UInt8.ofNat ch.toNat

/-- The hexadecimal digest of some bytes. -/
def Crypto.sha256Hex (c : Crypto) (data : Bytes) : GoString := hexEncode (c.sum256 data)

/-- What orders bundles. -/
structure BundleVersion where
  notBefore : Time
  notAfter : Time
  serial : GoString
  sha256 : GoString
  deriving DecidableEq, Repr

/-- The files of a lineage directory, in the order they are written. -/
inductive BundleFile where
  | cert | key | chain | fullchain
  deriving DecidableEq, Repr

namespace BundleFile

/-- All four files. -/
def all : List BundleFile := [cert, key, chain, fullchain]

@[simp] theorem mem_all (f : BundleFile) : f ∈ all := by
  cases f <;> decide

/-- The name of the file. -/
def fileName : BundleFile → GoString
  | cert => ascii "cert.pem"
  | key => ascii "privkey.pem"
  | chain => ascii "chain.pem"
  | fullchain => ascii "fullchain.pem"

/-- The mode the file is written with. -/
def perm : BundleFile → UInt32
  | cert => 0o644
  | key => 0o600
  | chain => 0o644
  | fullchain => 0o644

theorem fileName_injective : Function.Injective fileName := by
  intro f g h
  cases f <;> cases g <;> first | rfl | exact absurd h (by decide)

end BundleFile

/-- A certificate bundle of one lineage. -/
structure Bundle where
  lineage : GoString
  domain : GoString
  version : BundleVersion
  certPEM : Bytes
  keyPEM : Bytes
  chainPEM : Bytes
  fullPEM : Bytes
  deriving DecidableEq, Repr

namespace Bundle

/-- What the bundle has for a file. -/
def data (b : Bundle) : BundleFile → Bytes
  | .cert => b.certPEM
  | .key => b.keyPEM
  | .chain => b.chainPEM
  | .fullchain => b.fullPEM

end Bundle

/-- What the five reads of a lineage return, in the order they are made. -/
structure Reads where
  leaf : Except DiskErr Bytes
  cert : Except DiskErr Bytes
  key : Except DiskErr Bytes
  chain : Except DiskErr Bytes
  full : Except DiskErr Bytes
  deriving DecidableEq

/-- The bytes of an optional file; a failed read leaves nothing. -/
def optionalFile : Except DiskErr Bytes → Bytes
  | .ok data => data
  | .error _ => []

/-- Assemble a bundle from the reads. The version is that of the certificate that
was parsed, except for the digest, which is that of the second read. -/
def readLineage (c : Crypto) (lineage : GoString) (got : Reads) : Except LoadErr Bundle :=
  match c.load got.leaf with
  | .error e => .error e
  | .ok leaf =>
      match got.cert with
      | .error e => .error (.read e)
      | .ok certPEM =>
          match c.loadKey got.key with
          | .error e => .error e
          | .ok keyPEM =>
              .ok {
                lineage := lineage
                domain := primaryDomain leaf lineage
                version := {
                  notBefore := leaf.notBefore
                  notAfter := leaf.notAfter
                  serial := formatInt leaf.serial 16
                  sha256 := c.sha256Hex certPEM }
                certPEM := certPEM
                keyPEM := keyPEM
                chainPEM := optionalFile got.chain
                fullPEM := optionalFile got.full }

section Code

variable {σ : Type*}

/-- Write the files of a bundle that are not empty, in order. On an error the rest
is not written; what changed before is reported with it. -/
def writeFilesOn (fs : FileSystem σ) (dir : GoString) (b : Bundle) :
    List BundleFile → Bool → σ → (Bool × Option DiskErr) × σ
  | [], changed, s => ((changed, none), s)
  | f :: rest, changed, s =>
      if b.data f = [] then writeFilesOn fs dir b rest changed s
      else
        match fs.writeAtomic ⟨dir, f.fileName⟩ (b.data f) f.perm s with
        | (.error e, s) => ((changed, some e), s)
        | (.ok wrote, s) => writeFilesOn fs dir b rest (changed || wrote) s

/-- Write a bundle into a directory. -/
def Bundle.writeAtomicOn (fs : FileSystem σ) (b : Bundle) (dir : GoString) (s : σ) :
    (Bool × Option DiskErr) × σ :=
  match fs.mkdirAll dir s with
  | (.error e, s) => ((false, some e), s)
  | (.ok _, s) => writeFilesOn fs dir b BundleFile.all false s

/-- Restore the backups in a directory. -/
def rollbackOn (fs : FileCalls σ) (dir : GoString) (s : σ) : Except DiskErr Unit × σ :=
  fs.restoreDir dir s

/-- What every single write keeps, the writes of a bundle keep. -/
theorem writeFilesOn_keeps {fs : FileSystem σ} {dir : GoString} {b : Bundle} {P : σ → Prop}
    {files : List BundleFile}
    (hwrite : ∀ f ∈ files, ∀ s, b.data f ≠ [] → P s →
      P (fs.writeAtomic ⟨dir, f.fileName⟩ (b.data f) f.perm s).2)
    (changed : Bool) {s : σ} (h : P s) : P (writeFilesOn fs dir b files changed s).2 := by
  induction files generalizing changed s with
  | nil => exact h
  | cons f rest ih =>
      have hrest := ih fun g hg => hwrite g (List.mem_cons_of_mem f hg)
      unfold writeFilesOn
      split_ifs with hdata
      · exact hrest changed h
      · have hnext := hwrite f List.mem_cons_self s hdata h
        generalize fs.writeAtomic ⟨dir, f.fileName⟩ (b.data f) f.perm s = out at hnext ⊢
        obtain ⟨_ | wrote, s₁⟩ := out
        · exact hnext
        · exact hrest _ hnext

/-- So does writing the bundle, if the call that makes the directory keeps it. -/
theorem Bundle.writeAtomicOn_keeps {fs : FileSystem σ} {dir : GoString} {b : Bundle}
    {P : σ → Prop} (hmkdir : ∀ s, P s → P (fs.mkdirAll dir s).2)
    (hwrite : ∀ f s, b.data f ≠ [] → P s →
      P (fs.writeAtomic ⟨dir, f.fileName⟩ (b.data f) f.perm s).2)
    {s : σ} (h : P s) : P (b.writeAtomicOn fs dir s).2 := by
  have hmade := hmkdir s h
  unfold writeAtomicOn
  generalize fs.mkdirAll dir s = out at hmade ⊢
  obtain ⟨_ | _, s₁⟩ := out
  · exact hmade
  · exact writeFilesOn_keeps (fun f _ => hwrite f) false hmade

end Code

/-- Write files on a disk. -/
abbrev writeFiles (tmp : TempNamer) (dir : GoString) (b : Bundle) (files : List BundleFile)
    (changed : Bool) (d : Disk) : (Bool × Option DiskErr) × Disk :=
  writeFilesOn (Disk.fileSystem tmp) dir b files changed d

/-- Write a bundle on a disk. -/
abbrev Bundle.writeAtomic (tmp : TempNamer) (b : Bundle) (dir : GoString) (d : Disk) :
    (Bool × Option DiskErr) × Disk :=
  b.writeAtomicOn (Disk.fileSystem tmp) dir d

theorem hexDigit_inj : ∀ a < 16, ∀ b < 16, hexDigit a = hexDigit b → a = b := by decide

theorem hexByte_injective : Function.Injective hexByte := by
  intro a b h
  simp only [hexByte, List.cons.injEq, and_true] at h
  have ha := a.toNat_lt
  have hb := b.toNat_lt
  have hhigh := hexDigit_inj (a.toNat / 16) (by omega) (b.toNat / 16) (by omega) h.1
  have hlow := hexDigit_inj (a.toNat % 16) (by omega) (b.toNat % 16) (by omega) h.2
  exact UInt8.toNat_inj.mp (by omega)

theorem hexEncode_injective : Function.Injective hexEncode := by
  intro xs
  induction xs with
  | nil =>
      intro ys h
      cases ys with
      | nil => rfl
      | cons y ys => simp [hexEncode, hexByte] at h
  | cons x xs ih =>
      intro ys h
      cases ys with
      | nil => simp [hexEncode, hexByte] at h
      | cons y ys =>
          have hsplit : hexByte x ++ hexEncode xs = hexByte y ++ hexEncode ys := h
          obtain ⟨hhead, htail⟩ := List.append_inj hsplit rfl
          rw [hexByte_injective hhead, ih htail]

theorem length_hexEncode (data : Bytes) : (hexEncode data).length = 2 * data.length := by
  induction data with
  | nil => rfl
  | cons b data ih =>
      have hcons : hexEncode (b :: data) = hexByte b ++ hexEncode data := rfl
      rw [hcons, List.length_append, ih]
      simp [hexByte]
      omega

theorem Crypto.length_sha256Hex (c : Crypto) (data : Bytes) : (c.sha256Hex data).length = 64 := by
  rw [sha256Hex, length_hexEncode, c.sum256_length]

theorem Crypto.loadKey_eq_ok {c : Crypto} {got : Except DiskErr Bytes} {key : Bytes}
    (h : c.loadKey got = .ok key) : got = .ok key := by
  cases got with
  | error e => cases h
  | ok raw =>
      rw [loadKey] at h
      split_ifs at h
      exact congrArg Except.ok (Except.ok.inj h)

/-- What a bundle that could be read is made of. -/
theorem readLineage_eq_ok {c : Crypto} {lineage : GoString} {got : Reads} {b : Bundle}
    (h : readLineage c lineage got = .ok b) :
    b.lineage = lineage ∧ got.cert = .ok b.certPEM ∧ got.key = .ok b.keyPEM ∧
      b.chainPEM = optionalFile got.chain ∧ b.fullPEM = optionalFile got.full ∧
      b.version.sha256 = c.sha256Hex b.certPEM := by
  unfold readLineage at h
  cases hleaf : c.load got.leaf with
  | error e => simp [hleaf] at h
  | ok leaf =>
      cases hcert : got.cert with
      | error e => simp [hleaf, hcert] at h
      | ok certPEM =>
          cases hkey : c.loadKey got.key with
          | error e => simp [hleaf, hcert, hkey] at h
          | ok keyPEM =>
              simp only [hleaf, hcert, hkey, Except.ok.injEq] at h
              subst h
              exact ⟨rfl, rfl, Crypto.loadKey_eq_ok hkey, rfl, rfl, rfl⟩

end Lbsync.Certs
