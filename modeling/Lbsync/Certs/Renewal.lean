import Lbsync.Certs.Provider
import Lbsync.Engine.ScriptedKV
import Lbsync.Lib.Runs

/-!
# Renewals and the reads of a tick

One node owns a lineage. Its four files are replaced one at a time while the node
reads them one at a time, so a bundle may mix files of before and after a
renewal. The version of a record covers the certificate only: a mixed bundle with
the final certificate is published under the final version, and nothing replaces
it afterwards. Also the certificate is read twice, for its times and serial and for
its bytes and digest, and a record that mixes two certificates may be newer than
either. Once the files have settled, an error-free tick puts them into the cluster
exactly when no such record is in the way.
-/

namespace Lbsync.Certs

open Files Engine Runs

/-- The files of the lineage, what this tick has read so far, and the cluster. -/
structure Renewal where
  files : BundleFile → Bytes
  taken : List Bytes
  store : Store

/-- The files in the order in which a bundle reads them. -/
def readOrder : List BundleFile := [.cert, .cert, .key, .chain, .fullchain]

/-- The five reads of a tick, once all of them are made. -/
def readsOf : List Bytes → Option Reads
  | [leaf, cert, key, chain, full] => some ⟨.ok leaf, .ok cert, .ok key, .ok chain, .ok full⟩
  | _ => none

/-- What the reads return when the files do not change. -/
def settledReads (files : BundleFile → Bytes) : Reads :=
  ⟨.ok (files .cert), .ok (files .cert), .ok (files .key), .ok (files .chain),
    .ok (files .fullchain)⟩

/-- A file is replaced, the node makes its next read, the node does the rest of its tick,
or other nodes change other entries of the cluster. -/
inductive RenewalAction where
  | replace (f : BundleFile) (data : Bytes)
  | read
  | finish (t : ScriptedTick World)
  | others (store : Store)

/-- The provider finds the lineage. -/
def World.Lists (w : World) (lineage : GoString) : Prop :=
  match w.scanned with
  | .ok lineages => lineage ∈ lineages
  | .error _ => False

instance (w : World) (lineage : GoString) : Decidable (w.Lists lineage) :=
  match h : w.scanned with
  | .ok lineages => decidable_of_iff (lineage ∈ lineages) (by simp [World.Lists, h])
  | .error _ => isFalse (by simp [World.Lists, h])

variable (cfg : Config) (lineage : GoString) (certs : List Bytes)

namespace Renewal

/-- One action. -/
def step (s : Renewal) : RenewalAction → Option Renewal
  | .replace f data => some { s with files := Function.update s.files f data }
  | .read => readOrder[s.taken.length]?.map fun f => { s with taken := s.taken ++ [s.files f] }
  | .finish t =>
      some { s with taken := [], store := t.run (provider cfg) s.store }
  | .others store => some { s with store := store }

/-- Only listed contents are put into `cert.pem`, a tick goes on with what it has read,
and other nodes do not publish the lineage. -/
def Allowed (s : Renewal) : RenewalAction → Prop
  | .replace f data => f = .cert → data ∈ certs
  | .read => True
  | .finish t => readsOf s.taken = some (t.world.reads lineage) ∧ t.world.Lists lineage
  | .others store => store kind lineage = s.store kind lineage

instance (s : Renewal) (a : RenewalAction) : Decidable (s.Allowed lineage certs a) :=
  match a with
  | .replace f data => inferInstanceAs (Decidable (f = .cert → data ∈ certs))
  | .read => .isTrue trivial
  | .finish _ => inferInstanceAs (Decidable (_ ∧ _))
  | .others _ => inferInstanceAs (Decidable (_ = _))

/-- Nothing is published and no tick has begun. -/
structure Start (s : Renewal) : Prop where
  cert_mem : s.files .cert ∈ certs
  taken : s.taken = []
  store : s.store kind lineage = none

/-- Every run of replacements, reads and ticks. -/
def Reaches : Renewal → Renewal → Prop := Run (step cfg) (Allowed lineage certs)

/-- The stored record is that of a bundle with a listed certificate under its digest, and
so will be the next one. -/
structure Sound (s : Renewal) : Prop where
  cert_mem : s.files .cert ∈ certs
  taken_mem : ∀ data, s.taken[1]? = some data → data ∈ certs
  stored : ∀ r, s.store kind lineage = some r → ∃ b, r = toRecord b cfg.host ∧
    b.version.sha256 = cfg.crypto.sha256Hex b.certPEM ∧ b.certPEM ∈ certs

end Renewal

/-- The record holds exactly the given contents. -/
def Holds (files : BundleFile → Bytes) (stored : Option Record) : Prop :=
  ∃ r, stored = some r ∧ ∀ f : BundleFile, r.blob f.blobName = files f

/-- How new a certificate is: the version of a record that has read it both times. -/
def Crypto.certVersion (c : Crypto) (data : Bytes) : WithBot Version :=
  (c.parseCertificate data).elim ⊥ fun leaf =>
    (⟨unix leaf.notBefore, unix leaf.notAfter,
      formatInt leaf.serial 16 ++ ascii ":" ++ c.sha256Hex data⟩ : Version)

/-- How new the certificate is that the record holds. -/
def Crypto.heldVersion (c : Crypto) (r : Record) : WithBot Version :=
  c.certVersion (r.blob BundleFile.cert.blobName)

/-- The times and the serial of the record are not those of the certificate that it holds. -/
def Torn (c : Crypto) (r : Record) : Prop := c.heldVersion r ≠ r.version

variable {cfg lineage certs}

theorem find_localRecords {w : World} {ls : List GoString} (hmem : lineage ∈ ls) :
    (ls.filterMap (localRecord cfg w)).find? (fun r => r.key = lineage) =
      localRecord cfg w lineage := by
  induction ls with
  | nil => cases hmem
  | cons l rest ih =>
      cases hr : localRecord cfg w l with
      | none =>
          rw [List.filterMap_cons_none hr]
          by_cases hrest : lineage ∈ rest
          · exact ih hrest
          · obtain rfl : lineage = l := (List.mem_cons.mp hmem).resolve_right hrest
            rw [hr, List.find?_eq_none]
            intro r hfound hkey
            obtain ⟨l', hl', hr'⟩ := List.mem_filterMap.mp hfound
            have hkey' : r.key = lineage := by simpa using hkey
            exact hrest (hkey' ▸ localRecord_key hr' ▸ hl')
      | some r =>
          rw [List.filterMap_cons_some hr, List.find?_cons, localRecord_key hr]
          by_cases hl : l = lineage
          · simp [hl, ← hr]
          · simp only [hl, decide_false]
            exact ih ((List.mem_cons.mp hmem).resolve_left (Ne.symm hl))

/-- The local record of a lineage that is listed. -/
theorem own_eq_localRecord (t : ScriptedTick World) (h : t.world.Lists lineage) :
    t.own (provider cfg) lineage = localRecord cfg t.world lineage := by
  cases hs : t.world.scanned with
  | error e => simp [World.Lists, hs] at h
  | ok ls =>
      have hlocals : ((provider cfg).locals t.world).1 =
          .ok (ls.filterMap (localRecord cfg t.world)) := by
        simp [provider, locals, hs]
      have hmem : lineage ∈ ls.reverse := by simpa [World.Lists, hs] using h
      rw [ScriptedTick.own, hlocals, localMap, lookup_indexLocals, ← List.filterMap_reverse,
        find_localRecords hmem]

theorem readsOf_cert {taken : List Bytes} {got : Reads} (h : readsOf taken = some got)
    {data : Bytes} (hdata : got.cert = .ok data) : taken[1]? = some data := by
  unfold readsOf at h
  split at h
  · rw [← Option.some.inj h] at hdata
    exact congrArg some (Except.ok.inj hdata)
  · cases h

namespace Renewal

theorem Start.sound {s : Renewal} (h : Start lineage certs s) : Sound cfg lineage certs s where
  cert_mem := h.cert_mem
  taken_mem data hdata := by simp [h.taken] at hdata
  stored r hr := by simp [h.store] at hr

/-- A read of the certificate takes a listed one. -/
theorem taken_mem_read {s t : Renewal} (hs : Sound cfg lineage certs s)
    (h : s.step cfg .read = some t) : ∀ data, t.taken[1]? = some data → data ∈ certs := by
  obtain ⟨f, hf, rfl⟩ := Option.map_eq_some_iff.mp h
  intro data hdata
  cases htaken : s.taken with
  | nil => simp [htaken] at hdata
  | cons first rest =>
      cases rest with
      | nil =>
          have hcert : BundleFile.cert = f := by simpa [htaken, readOrder] using hf
          have hread : s.files f = data := by simpa [htaken] using hdata
          rw [← hread, ← hcert]
          exact hs.cert_mem
      | cons second rest => exact hs.taken_mem data (by simpa [htaken] using hdata)

/-- What a tick stores is what was there or a bundle made of its reads. -/
theorem stored_finish {s : Renewal} (hs : Sound cfg lineage certs s) {t : ScriptedTick World}
    (h : s.Allowed lineage certs (.finish t)) {r : Record}
    (hr : t.run (provider cfg) s.store kind lineage = some r) :
    ∃ b, r = toRecord b cfg.host ∧ b.version.sha256 = cfg.crypto.sha256Hex b.certPEM ∧
      b.certPEM ∈ certs := by
  have hrun := t.run_eq (provider cfg) s.store lineage
  rw [own_eq_localRecord t h.2] at hrun
  rcases published_eq_or (localRecord cfg t.world lineage) (s.store kind lineage)
      (t.script.call lineage) with hkept | ⟨_, hnew⟩
  · exact hs.stored r ((hkept.symm.trans hrun.symm).trans hr)
  · obtain ⟨b, hb, rfl⟩ := localRecord_eq_some ((hnew.symm.trans hrun.symm).trans hr)
    obtain ⟨_, hcert, _, _, _, hsha⟩ := readLineage_eq_ok hb
    exact ⟨b, rfl, hsha, hs.taken_mem _ (readsOf_cert h.1 hcert)⟩

theorem sound_step {s t : Renewal} {a : RenewalAction} (hs : Sound cfg lineage certs s)
    (ha : s.Allowed lineage certs a) (h : s.step cfg a = some t) : Sound cfg lineage certs t := by
  cases a with
  | replace f data =>
      rw [← Option.some.inj h]
      refine ⟨?_, hs.taken_mem, hs.stored⟩
      by_cases hf : f = .cert
      · subst hf
        simpa using ha rfl
      · simpa [Function.update_of_ne (Ne.symm hf)] using hs.cert_mem
  | read =>
      have htaken := taken_mem_read hs h
      obtain ⟨f, _, rfl⟩ := Option.map_eq_some_iff.mp h
      exact ⟨hs.cert_mem, htaken, hs.stored⟩
  | finish tick =>
      rw [← Option.some.inj h]
      exact ⟨hs.cert_mem, by simp, fun r hr => stored_finish hs ha hr⟩
  | others store =>
      rw [← Option.some.inj h]
      refine ⟨hs.cert_mem, hs.taken_mem, fun r hr => hs.stored r ?_⟩
      exact Eq.trans (Eq.symm ha) hr

theorem sound_of_reaches {s₀ s : Renewal} (hstart : Start lineage certs s₀)
    (hrun : Reaches cfg lineage certs s₀ s) : Sound cfg lineage certs s :=
  Run.invariant (I := Sound cfg lineage certs) (fun _ _ _ => sound_step) hrun hstart.sound

end Renewal

/-- One read. -/
theorem Renewal.reaches_read {s : Renewal} {f : BundleFile}
    (hf : readOrder[s.taken.length]? = some f) :
    Reaches cfg lineage certs s { s with taken := s.taken ++ [s.files f] } := by
  have hstep : s.step cfg .read = some { s with taken := s.taken ++ [s.files f] } := by
    simp [step, hf]
  exact (Run.refl s).tail (show s.Allowed lineage certs .read from trivial) hstep

/-- Between ticks, five reads of settled files and the rest of the tick lead to the
cluster that tick leaves. -/
theorem Renewal.reaches_settled_tick {s : Renewal} (hidle : s.taken = []) {t : ScriptedTick World}
    (hlists : t.world.Lists lineage) (hreads : t.world.reads lineage = settledReads s.files) :
    Reaches cfg lineage certs s { s with store := t.run (provider cfg) s.store } := by
  obtain ⟨files, taken, store⟩ := s
  subst hidle
  let cert := files .cert
  let all := [cert, cert, files .key, files .chain, files .fullchain]
  have hread (n : Nat) (f : BundleFile) (hf : readOrder[(all.take n).length]? = some f) :
      Reaches cfg lineage certs ⟨files, all.take n, store⟩
        ⟨files, all.take n ++ [files f], store⟩ := reaches_read hf
  have hreads₅ : Reaches cfg lineage certs ⟨files, [], store⟩ ⟨files, all, store⟩ :=
    (hread 0 .cert rfl).trans <| (hread 1 .cert rfl).trans <| (hread 2 .key rfl).trans <|
      (hread 3 .chain rfl).trans (hread 4 .fullchain rfl)
  have hallowed : Allowed lineage certs ⟨files, all, store⟩ (.finish t) :=
    ⟨congrArg some hreads.symm, hlists⟩
  exact hreads₅.tail hallowed rfl

/-- Bundles under one version have the same digest. -/
theorem sha256_eq_of_version {c : Crypto} {b b' : Bundle} {host host' : GoString}
    (hb : b.version.sha256 = c.sha256Hex b.certPEM)
    (hb' : b'.version.sha256 = c.sha256Hex b'.certPEM)
    (h : (toRecord b host).version = (toRecord b' host').version) :
    c.sum256 b.certPEM = c.sum256 b'.certPEM := by
  have htie := congrArg Version.tiebreak h
  simp only [toRecord, hb, hb'] at htie
  have hlen : (c.sha256Hex b.certPEM).length = (c.sha256Hex b'.certPEM).length := by
    rw [c.length_sha256Hex, c.length_sha256Hex]
  exact hexEncode_injective (List.append_inj_right' htie hlen)

theorem data_of_settled {b : Bundle} {files : BundleFile → Bytes}
    (h : readLineage cfg.crypto lineage (settledReads files) = .ok b) (f : BundleFile) :
    b.data f = files f := by
  obtain ⟨_, hcert, hkey, hchain, hfull, _⟩ := readLineage_eq_ok h
  cases f with
  | cert => exact (Except.ok.inj hcert).symm
  | key => exact (Except.ok.inj hkey).symm
  | chain => exact hchain
  | fullchain => exact hfull

/-- The record of settled files has the version of their certificate. -/
theorem certVersion_of_settled {b : Bundle} {files : BundleFile → Bytes}
    (h : readLineage cfg.crypto lineage (settledReads files) = .ok b) :
    cfg.crypto.certVersion (files .cert) = (toRecord b cfg.host).version := by
  unfold readLineage settledReads at h
  cases hleaf : cfg.crypto.parseCertificate (files .cert) with
  | none => simp [Crypto.load, hleaf] at h
  | some leaf =>
      cases hkey : cfg.crypto.loadKey (.ok (files .key)) with
      | error e => simp [Crypto.load, hleaf, hkey] at h
      | ok key =>
          simp only [Crypto.load, hleaf, hkey, Except.ok.injEq] at h
          subst h
          simp [Crypto.certVersion, hleaf, toRecord]

/-- A record under the final version holds the final certificate. -/
theorem cert_of_version {certs : List Bytes} {b b' : Bundle} {files : BundleFile → Bytes}
    (hinj : Set.InjOn cfg.crypto.sum256 {data | data ∈ certs}) (hmem : files .cert ∈ certs)
    (hfinal : readLineage cfg.crypto lineage (settledReads files) = .ok b)
    (hsha : b'.version.sha256 = cfg.crypto.sha256Hex b'.certPEM) (hmem' : b'.certPEM ∈ certs)
    (hversion : (toRecord b' cfg.host).version = (toRecord b cfg.host).version) :
    b'.certPEM = files .cert := by
  obtain ⟨_, _, _, _, _, hsha'⟩ := readLineage_eq_ok hfinal
  have hb : b.certPEM = files .cert := data_of_settled hfinal .cert
  refine hinj hmem' hmem ?_
  rw [← hb]
  exact sha256_eq_of_version hsha hsha' hversion

/-- Let the files have settled, with the final certificate at least as new as the one that is
published. After one more error-free tick the cluster holds exactly the final contents if and
only if before that tick it held neither a record under the final version with another key,
chain or fullchain, nor a newer record that mixes two certificates and has other contents. -/
theorem renewal_corrected_iff (hinj : Set.InjOn cfg.crypto.sum256 {data | data ∈ certs})
    {s₀ s : Renewal} (hstart : s₀.Start lineage certs)
    (hrun : Renewal.Reaches cfg lineage certs s₀ s) {b : Bundle}
    (hfinal : readLineage cfg.crypto lineage (settledReads s.files) = .ok b)
    (hnewest : ∀ r ∈ s.store kind lineage,
      cfg.crypto.heldVersion r ≤ cfg.crypto.certVersion (s.files .cert))
    {t : ScriptedTick World} (hlists : t.world.Lists lineage)
    (hreads : t.world.reads lineage = settledReads s.files)
    (hclean : t.script.call lineage = Outcome.clean) :
    Holds s.files (t.run (provider cfg) s.store kind lineage) ↔
      ∀ r ∈ s.store kind lineage,
        (r.version = (toRecord b cfg.host).version →
          ∀ f ≠ BundleFile.cert, r.blob f.blobName = s.files f) ∧
        (Torn cfg.crypto r → (toRecord b cfg.host).version < r.version →
          ∀ f : BundleFile, r.blob f.blobName = s.files f) := by
  have hsound := Renewal.sound_of_reaches hstart hrun
  have hown : t.own (provider cfg) lineage = some (toRecord b cfg.host) := by
    rw [own_eq_localRecord t hlists, localRecord, hreads, hfinal]
  have hrun' : t.run (provider cfg) s.store kind lineage =
      if keeps (toRecord b cfg.host) (s.store kind lineage) then s.store kind lineage
      else some (toRecord b cfg.host) := by
    rw [← published_clean, ← hclean, ← hown]
    exact t.run_eq (provider cfg) s.store lineage
  rw [hrun']
  cases hstored : s.store kind lineage with
  | none =>
      refine iff_of_true ⟨_, rfl, fun f => ?_⟩ (fun r hr => by cases hr)
      rw [blob_toRecord, data_of_settled hfinal]
  | some r =>
      simp only [Option.mem_def, Option.some.injEq, forall_eq']
      cases hkeeps : keeps (toRecord b cfg.host) (some r) with
      | false =>
          -- the final bundle is strictly newer and is published
          have hlt : r.version < (toRecord b cfg.host).version :=
            WithBot.coe_lt_coe.mp (keeps_eq_false_iff.mp hkeeps)
          refine iff_of_true ⟨_, rfl, fun f => ?_⟩ ⟨fun heq => ?_, fun _ hgt => ?_⟩
          · rw [blob_toRecord, data_of_settled hfinal]
          · exact absurd heq hlt.ne
          · exact absurd hgt hlt.not_gt
      | true =>
          -- the stored record is not older and stays
          have hle : (toRecord b cfg.host).version ≤ r.version :=
            WithBot.coe_le_coe.mp (keeps_iff.mp hkeeps)
          obtain ⟨b', hb', hsha', hmem'⟩ := hsound.stored r hstored
          constructor
          · rintro ⟨r', hr', hblobs⟩
            obtain rfl := Option.some.inj hr'
            exact ⟨fun _ f _ => hblobs f, fun _ _ => hblobs⟩
          · rintro ⟨hsame, hnewer⟩
            refine ⟨r, rfl, fun f => ?_⟩
            rcases hle.lt_or_eq with hlt | heq
            · -- a whole certificate would not be newer than the final one
              refine hnewer (fun hwhole => hlt.not_ge ?_) hlt f
              have hheld := hnewest r hstored
              rw [hwhole, certVersion_of_settled hfinal] at hheld
              exact WithBot.coe_le_coe.mp hheld
            · by_cases hf : f = .cert
              · subst hf hb'
                rw [blob_toRecord]
                exact cert_of_version hinj hsound.cert_mem hfinal hsha' hmem' heq.symm
              · exact hsame heq.symm f hf

/-- A lineage `a` whose four files are alike. -/
def sampleRenewal : Renewal := ⟨fun _ => [1], [], fun _ _ => none⟩

/-- The rest of a tick without errors that has read the given contents. -/
def errorFreeTick (leaf cert key chain full : Bytes) : ScriptedTick World where
  world := {
    scanned := .ok [ascii "a"]
    reads := fun _ => ⟨.ok leaf, .ok cert, .ok key, .ok chain, .ok full⟩
    serving := ⟨∅, 0o022, [], false⟩
    commands := ⟨fun _ => true, 0⟩ }
  order := MapOrder.insertion
  script := ⟨.ok [], fun _ => Outcome.clean⟩

/-- The certificate is replaced, a whole tick runs, and then the other files are
replaced. -/
def tornRenewal : List RenewalAction :=
  [.replace .cert [2], .read, .read, .read, .read, .read,
    .finish (errorFreeTick [2] [2] [1] [1] [1]),
    .replace .key [2], .replace .chain [2], .replace .fullchain [2]]

/-- The certificate is replaced, put back between the two reads of a tick, and replaced
again with the other files. -/
def revertedRenewal : List RenewalAction :=
  [.replace .cert [2], .read, .replace .cert [1], .read, .read, .read, .read,
    .finish (errorFreeTick [2] [1] [1] [1] [1]),
    .replace .cert [2], .replace .key [2], .replace .chain [2], .replace .fullchain [2]]

/-- A whole tick runs, and then all files are replaced. -/
def wholeRenewal : List RenewalAction :=
  [.read, .read, .read, .read, .read, .finish (errorFreeTick [1] [1] [1] [1] [1]),
    .replace .cert [2], .replace .key [2], .replace .chain [2], .replace .fullchain [2]]

/-- The bundle of lineage `a` whose four files are alike. -/
def sampleBundle (c : Crypto) (data : Bytes) (second : Int) : Bundle :=
  ⟨ascii "a", ascii "a", ⟨second * 1000000000, 0, ascii "0", c.sha256Hex data⟩,
    data, data, data, data⟩

/-- The digests of older certificates are greater. -/
def reversedConfig : Config :=
  { sampleConfig with
    crypto :=
      { sampleCrypto with
        sum256 := fun data => (sampleCrypto.sum256 data).map (255 - ·)
        sum256_length := fun data => by
          rw [List.length_map, sampleCrypto.sum256_length] } }

theorem start_sampleRenewal : sampleRenewal.Start (ascii "a") [[1], [2]] :=
  ⟨by decide, rfl, rfl⟩

theorem injOn_of_pairwise {f : Bytes → Bytes} {l : List Bytes}
    (hpairs : ∀ x ∈ l, ∀ y ∈ l, f x = f y → x = y) : Set.InjOn f {data | data ∈ l} :=
  fun x hx y hy => hpairs x hx y hy

/-- The lineage has settled on `[2]`, which is at least as new as what is published, and an
error-free tick leaves the key `[1]` in the cluster. -/
def Missed (cfg : Config) (s : Renewal) : Prop :=
  readLineage cfg.crypto (ascii "a") (settledReads s.files) = .ok (sampleBundle cfg.crypto [2] 2) ∧
  (errorFreeTick [2] [2] [2] [2] [2]).world.reads (ascii "a") = settledReads s.files ∧
  (∀ r ∈ s.store kind (ascii "a"),
    cfg.crypto.heldVersion r ≤ cfg.crypto.certVersion (s.files .cert)) ∧
  (((errorFreeTick [2] [2] [2] [2] [2]).run (provider cfg) s.store kind (ascii "a")).map
    fun r => r.blob (ascii "key")) = some [1]

instance (cfg : Config) (s : Renewal) : Decidable (Missed cfg s) :=
  inferInstanceAs (Decidable (_ ∧ _))

/-- Two renewals that stay unpublished: the key of before the renewal was published with the
new certificate, and the old certificate was published under the times of the new one. -/
theorem torn_bundle_stays :
    sampleRenewal.Start (ascii "a") [[1], [2]] ∧
    (Set.InjOn sampleConfig.crypto.sum256 {data | data ∈ [[1], [2]]} ∧
      ∃ s, Renewal.Reaches sampleConfig (ascii "a") [[1], [2]] sampleRenewal s ∧
        Missed sampleConfig s) ∧
    (Set.InjOn reversedConfig.crypto.sum256 {data | data ∈ [[1], [2]]} ∧
      ∃ s, Renewal.Reaches reversedConfig (ascii "a") [[1], [2]] sampleRenewal s ∧
        Missed reversedConfig s) :=
  ⟨start_sampleRenewal,
    ⟨injOn_of_pairwise (by decide), Run.exists_of_replay tornRenewal (by decide +kernel)⟩,
    ⟨injOn_of_pairwise (by decide), Run.exists_of_replay revertedRenewal (by decide +kernel)⟩⟩

/-- A renewal between two ticks reaches the cluster. -/
theorem whole_renewal_published :
    ∃ s, Renewal.Reaches sampleConfig (ascii "a") [[1], [2]] sampleRenewal s ∧
      Holds s.files ((errorFreeTick [2] [2] [2] [2] [2]).run (provider sampleConfig) s.store kind
        (ascii "a")) := by
  obtain ⟨s, hrun, hfinal, hreads, hnewest, hstored⟩ :
      ∃ s, Renewal.Reaches sampleConfig (ascii "a") [[1], [2]] sampleRenewal s ∧
        readLineage sampleCrypto (ascii "a") (settledReads s.files) =
          .ok (sampleBundle sampleCrypto [2] 2) ∧
        (errorFreeTick [2] [2] [2] [2] [2]).world.reads (ascii "a") = settledReads s.files ∧
        (∀ r ∈ s.store kind (ascii "a"),
          sampleCrypto.heldVersion r ≤ sampleCrypto.certVersion (s.files .cert)) ∧
        s.store kind (ascii "a") =
          some (toRecord (sampleBundle sampleCrypto [1] 1) (ascii "h")) :=
    Run.exists_of_replay wholeRenewal (by decide +kernel)
  refine ⟨s, hrun, (renewal_corrected_iff (injOn_of_pairwise (by decide)) start_sampleRenewal
    hrun hfinal hnewest (by decide) hreads rfl).mpr ?_⟩
  rw [hstored]
  rintro r hr
  obtain rfl := Option.some.inj hr
  exact ⟨fun hversion => absurd hversion (by decide), fun _ hnewer => absurd hnewer (by decide)⟩

end Lbsync.Certs
