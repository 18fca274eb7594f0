import Lbsync.Blob.Provider
import Lbsync.Certs.Provider
import Lbsync.Config.BlobResources
import Lbsync.Files.Filepath

/-!
# Starting the modules

Each module package registers a factory under its name. `startModules` parses the blob
resources, builds the modules that the configuration names, in order, and then starts them:
the certs and the blob module register a provider with the engine, the other ones say that
they are not implemented. Nothing is started unless everything can be built.
-/

namespace Lbsync.Agent

open Config Files Engine

/-- The loop of `strings.Fields`: how many symbols of a blank are still to be skipped, the word
read so far, and the rest of the text. -/
def fieldsFrom : Nat → GoString → GoString → List GoString
  | _, word, [] => if word = [] then [] else [word]
  | n + 1, word, _ :: s => fieldsFrom n word s
  | 0, word, b :: s =>
      match Trim.blankLength whiteSpace (b :: s) with
      | 0 => fieldsFrom 0 (word ++ [b]) s
      | n + 1 => if word = [] then fieldsFrom n [] s else word :: fieldsFrom n [] s

/-- `strings.Fields`: the words of a text between its blanks. -/
def fields (s : GoString) : List GoString := fieldsFrom 0 [] s

/-- What every factory gets. -/
structure ModuleConfig where
  letsencryptPath : GoString
  servingDir : GoString
  verifyCmd : List GoString
  reloadCmd : List GoString
  blobResources : List BlobResource
  hostname : GoString

/-- A module as its factory builds it. -/
inductive Module where
  | certs (cfg : ModuleConfig)
  | blob (resources : List BlobResource) (host : GoString)
  | stub (name intent : GoString)

def Module.name : Module → GoString
  | .certs _ => ascii "certs"
  | .blob _ _ => ascii "blob"
  | .stub name _ => name

/-- A factory may fail; none of the registered ones does. -/
abbrev Factory := ModuleConfig → Except Err Module

abbrev Registry := AList (fun _ : GoString => Factory)

/-- Add a factory; a later one of the same name replaces an earlier one. -/
def register (registry : Registry) (name : GoString) (f : Factory) : Registry :=
  registry.insert name f

/-- What each module that is not implemented yet is meant to do. -/
def intents : List (GoString × GoString) :=
  [(ascii "acme-leader",
      ascii ("elect a single node (cluster.Leader) to run certbot/ACME renewal; pairs with the " ++
        "certs module to avoid duplicate ACME orders")),
    (ascii "ratelimit",
      ascii ("enforce fleet-wide rate limits using cluster.Counter (atomic Incr/Decr) plus an " ++
        "HTTP check endpoint")),
    (ascii "ocsp",
      ascii "fetch and share OCSP staples as a newest-wins engine.Provider (kind=ocsp)"),
    (ascii "pubsub",
      ascii ("fan out cache purge / feature flags / maintenance toggles using cluster.Topic")),
    (ascii "health",
      ascii "share upstream health and membership via short-TTL cluster keys")]

/-- The registry after the init functions of the packages, which visit the intents in some
order. -/
def initialRegistry (ord : MapOrder) : Registry :=
  let blob := register ∅ (ascii "blob") fun cfg => .ok (.blob cfg.blobResources cfg.hostname)
  let certs := register blob (ascii "certs") fun cfg => .ok (.certs cfg)
  (ord.visit (intents.map Prod.fst)).foldl
    (fun registry name =>
      register registry name fun _ => .ok (.stub name ((intents.lookup name).getD []))) certs

/-- Why no module was started. -/
inductive ModuleErr where
  | blobResources (e : ItemError)
  | unknownModule (name : GoString)
  | buildModule (name : GoString) (e : Err)
  deriving DecidableEq

/-- The loop of `Build`. -/
def buildLoop (registry : Registry) (cfg : ModuleConfig) (out : List Module) :
    List GoString → Except ModuleErr (List Module)
  | [] => .ok out
  | name :: names =>
      match registry.lookup name with
      | none => .error (.unknownModule name)
      | some f =>
          match f cfg with
          | .error e => .error (.buildModule name e)
          | .ok m => buildLoop registry cfg (out ++ [m]) names

/-- The named modules, in order. -/
def build (registry : Registry) (names : List GoString) (cfg : ModuleConfig) :
    Except ModuleErr (List Module) :=
  buildLoop registry cfg [] names

/-- The file at a path: the directory `filepath.Dir` returns, and the rest behind the last
slash. -/
def pathOf (path : GoString) : Path where
  dir := clean (path.reverse.dropWhile (· ≠ slash)).reverse
  name := (path.reverse.takeWhile (· ≠ slash)).reverse

example : pathOf (ascii "/etc//haproxy/blocked.lst") =
    ⟨ascii "/etc/haproxy", ascii "blocked.lst"⟩ := by decide

/-- The libraries the providers use. -/
structure Libraries where
  crypto : Certs.Crypto
  temp : TempNamer

/-- A provider that is registered with the engine. The certs provider looks for lineages below
its root. -/
inductive Registered where
  | certs (root : GoString) (cfg : Certs.Config)
  | blob (cfg : Blob.Config)

/-- The kind of the provider. -/
def Registered.kind : Registered → GoString
  | .certs _ _ => Certs.kind
  | .blob _ => Blob.kind

/-- What the start of a module writes to the log. -/
inductive LogLine where
  | notImplemented (name intent : GoString)
  | started (name : GoString)
  deriving DecidableEq

/-- What starting modules leaves behind: the providers of the engine, the modules whose gauge is
set to one, and the log. -/
structure Started where
  providers : List Registered
  enabled : List GoString
  log : List LogLine

/-- Nothing has been started. -/
def Started.nothing : Started := ⟨[], [], []⟩

/-- A resource as the blob module starts it. -/
def startResource (r : BlobResource) : Blob.Resource where
  name := r.name
  source := r.source
  dest := pathOf r.dest
  strategy := r.strategy
  runner := ⟨r.verify, r.reload⟩

/-- The provider of the certs module. -/
def certsProvider (lib : Libraries) (cfg : ModuleConfig) : Certs.Config where
  servingDir := cfg.servingDir
  host := cfg.hostname
  runner := ⟨cfg.verifyCmd, cfg.reloadCmd⟩
  crypto := lib.crypto
  temp := lib.temp

/-- The provider of the blob module. -/
def blobProvider (lib : Libraries) (resources : List BlobResource) (host : GoString) :
    Blob.Config where
  resources := resources.map startResource
  host := host
  sum256 := lib.crypto.sum256
  temp := lib.temp

/-- Start a module. -/
def Module.start (lib : Libraries) (a : Started) : Module → Started
  | .certs cfg =>
      { a with
        providers := a.providers ++ [.certs cfg.letsencryptPath (certsProvider lib cfg)] }
  | .blob resources host =>
      { a with providers := a.providers ++ [.blob (blobProvider lib resources host)] }
  | .stub name intent => { a with log := a.log ++ [.notImplemented name intent] }

/-- The body of the loop that starts the modules. -/
def startModule (lib : Libraries) (a : Started) (m : Module) : Started :=
  let started := m.start lib a
  { started with
    enabled := started.enabled ++ [m.name]
    log := started.log ++ [.started m.name] }

/-- The settings that decide about the modules. -/
structure Settings where
  letsencryptPath : GoString
  servingDir : GoString
  blobResources : GoString
  modules : GoString
  verifyCmd : GoString
  reloadCmd : GoString
  hostname : GoString

/-- The configuration of the modules. -/
def moduleConfig (cfg : Settings) (blobResources : List BlobResource) : ModuleConfig where
  letsencryptPath := cfg.letsencryptPath
  servingDir := cfg.servingDir
  verifyCmd := fields cfg.verifyCmd
  reloadCmd := fields cfg.reloadCmd
  blobResources := blobResources
  hostname := cfg.hostname

/-- Build all modules, then start them. -/
def startModules (lib : Libraries) (registry : Registry) (cfg : Settings) :
    Except ModuleErr Started :=
  match parseBlobResources cfg.blobResources with
  | .error e => .error (.blobResources e)
  | .ok blobResources =>
      match build registry (parseList cfg.modules) (moduleConfig cfg blobResources) with
      | .error e => .error e
      | .ok mods => .ok (mods.foldl (startModule lib) .nothing)

/-- The module of a name, if there is one. -/
def moduleOf (cfg : ModuleConfig) (name : GoString) : Option Module :=
  if name = ascii "certs" then some (.certs cfg)
  else if name = ascii "blob" then some (.blob cfg.blobResources cfg.hostname)
  else (intents.lookup name).map (.stub name)

/-- What starting a module registers with the engine. -/
def Module.registers (lib : Libraries) : Module → Option Registered
  | .certs cfg => some (.certs cfg.letsencryptPath (certsProvider lib cfg))
  | .blob resources host => some (.blob (blobProvider lib resources host))
  | .stub _ _ => none

/-- What the module of a name registers with the engine. -/
def providerOf (lib : Libraries) (cfg : ModuleConfig) (name : GoString) : Option Registered :=
  (moduleOf cfg name).bind (Module.registers lib)

/-- The names of the modules. -/
def moduleNames : List GoString := ascii "certs" :: ascii "blob" :: intents.map Prod.fst

section Registry

theorem lookup_register (registry : Registry) (n : GoString) (f : Factory) (name : GoString) :
    (register registry n f).lookup name = if name = n then some f else registry.lookup name := by
  unfold register
  by_cases hn : name = n
  · rw [if_pos hn, hn, AList.lookup_insert]
  · rw [if_neg hn, AList.lookup_insert_ne hn]

theorem lookup_register_names (g : GoString → Factory) (names : List GoString)
    (registry : Registry) (name : GoString) :
    (names.foldl (fun r n => register r n (g n)) registry).lookup name =
      if name ∈ names then some (g name) else registry.lookup name := by
  induction names generalizing registry with
  | nil => simp
  | cons n names ih =>
      rw [List.foldl_cons, ih, lookup_register]
      by_cases hrest : name ∈ names
      · simp [hrest]
      · by_cases hn : name = n
        · simp [hn]
        · simp [hrest, hn]

theorem names_intents_notMem :
    ascii "certs" ∉ intents.map Prod.fst ∧ ascii "blob" ∉ intents.map Prod.fst := by decide

theorem intents_lookup_isSome : ∀ name ∈ intents.map Prod.fst, (intents.lookup name).isSome := by
  decide +kernel

theorem intents_lookup_eq_none {name : GoString} (h : name ∉ intents.map Prod.fst) :
    intents.lookup name = none := by
  refine List.lookup_eq_none_iff.mpr fun entry hentry => ?_
  have hne : name ≠ entry.1 := fun heq => h (heq ▸ List.mem_map_of_mem hentry)
  simpa using hne

/-- Whatever the order of registration, the factory of a name builds its module. -/
theorem lookup_initialRegistry (ord : MapOrder) (cfg : ModuleConfig) (name : GoString) :
    ((initialRegistry ord).lookup name).map (fun f => f cfg) =
      (moduleOf cfg name).map Except.ok := by
  have hvisited : name ∈ ord.visit (intents.map Prod.fst) ↔ name ∈ intents.map Prod.fst :=
    (ord.perm _).mem_iff
  unfold initialRegistry moduleOf
  simp only [lookup_register_names, hvisited]
  by_cases hintent : name ∈ intents.map Prod.fst
  · have hcerts : name ≠ ascii "certs" := fun h => names_intents_notMem.1 (h ▸ hintent)
    have hblob : name ≠ ascii "blob" := fun h => names_intents_notMem.2 (h ▸ hintent)
    obtain ⟨intent, hlookup⟩ := Option.isSome_iff_exists.mp (intents_lookup_isSome name hintent)
    simp [hintent, hcerts, hblob, hlookup]
  · simp only [if_neg hintent, intents_lookup_eq_none hintent, lookup_register]
    by_cases hcerts : name = ascii "certs"
    · simp [hcerts]
    · rw [if_neg hcerts, if_neg hcerts]
      by_cases hblob : name = ascii "blob"
      · simp [hblob]
      · simp [hblob]

end Registry

section Build

variable {cfg : ModuleConfig} {ord : MapOrder} {name : GoString} {names : List GoString}

theorem lookup_of_moduleOf (ord : MapOrder) {m : Module} (h : moduleOf cfg name = some m) :
    ∃ f, (initialRegistry ord).lookup name = some f ∧ f cfg = .ok m := by
  have hlookup := lookup_initialRegistry ord cfg name
  rw [h] at hlookup
  exact Option.map_eq_some_iff.mp hlookup

theorem lookup_of_moduleOf_none (h : moduleOf cfg name = none) :
    (initialRegistry ord).lookup name = none := by
  have hlookup := lookup_initialRegistry ord cfg name
  rw [h] at hlookup
  exact Option.map_eq_none_iff.mp hlookup

theorem buildLoop_eq_ok_iff {out built : List Module} :
    buildLoop (initialRegistry ord) cfg out names = .ok built ↔
      ∃ mods, List.Forall₂ (fun name m => moduleOf cfg name = some m) names mods ∧
        built = out ++ mods := by
  induction names generalizing out with
  | nil => simp [buildLoop, eq_comm]
  | cons name names ih =>
      rw [buildLoop]
      cases hm : moduleOf cfg name with
      | none =>
          rw [lookup_of_moduleOf_none hm]
          simp [List.forall₂_cons_left_iff, hm]
      | some m =>
          obtain ⟨f, hf, hbuilt⟩ := lookup_of_moduleOf ord hm
          simp only [hf, hbuilt, ih]
          constructor
          · rintro ⟨mods, hmods, rfl⟩
            exact ⟨m :: mods, .cons hm hmods, by simp⟩
          · rintro ⟨mods, hmods, rfl⟩
            obtain ⟨m', rest, hm', hrest, rfl⟩ := List.forall₂_cons_left_iff.mp hmods
            obtain rfl : m = m' := Option.some.inj (hm.symm.trans hm')
            exact ⟨rest, hrest, by simp⟩

theorem buildLoop_eq_error {out : List Module} {e : ModuleErr}
    (h : buildLoop (initialRegistry ord) cfg out names = .error e) :
    ∃ name ∈ names, moduleOf cfg name = none ∧ e = .unknownModule name := by
  induction names generalizing out with
  | nil => simp [buildLoop] at h
  | cons name names ih =>
      rw [buildLoop] at h
      cases hm : moduleOf cfg name with
      | none =>
          rw [lookup_of_moduleOf_none hm] at h
          exact ⟨name, List.mem_cons_self, hm, (Except.error.inj h).symm⟩
      | some m =>
          obtain ⟨f, hf, hbuilt⟩ := lookup_of_moduleOf ord hm
          simp only [hf, hbuilt] at h
          obtain ⟨unknown, hmem, hnone, rfl⟩ := ih h
          exact ⟨unknown, List.mem_cons_of_mem name hmem, hnone, rfl⟩

/-- The modules that are started register their providers in order. -/
theorem foldl_startModule (lib : Libraries) (mods : List Module) (a : Started) :
    (mods.foldl (startModule lib) a).providers =
        a.providers ++ mods.filterMap (Module.registers lib) ∧
      (mods.foldl (startModule lib) a).enabled = a.enabled ++ mods.map Module.name := by
  induction mods generalizing a with
  | nil => simp
  | cons m mods ih =>
      obtain ⟨hproviders, henabled⟩ := ih (startModule lib a m)
      rw [List.foldl_cons, hproviders, henabled]
      cases m <;> simp [startModule, Module.start, List.filterMap_cons, Module.registers]

theorem name_of_moduleOf {m : Module} (h : moduleOf cfg name = some m) : m.name = name := by
  unfold moduleOf at h
  split_ifs at h with hcerts hblob
  · exact Option.some.inj h ▸ hcerts.symm
  · exact Option.some.inj h ▸ hblob.symm
  · obtain ⟨intent, -, rfl⟩ := Option.map_eq_some_iff.mp h
    rfl

theorem moduleOf_isSome_iff : (moduleOf cfg name).isSome ↔ name ∈ moduleNames := by
  have hintents : (intents.lookup name).isSome ↔ name ∈ intents.map Prod.fst := by
    by_cases hname : name ∈ intents.map Prod.fst
    · simp only [hname, intents_lookup_isSome name hname]
    · simp [hname, intents_lookup_eq_none hname]
  unfold moduleOf moduleNames
  rw [List.mem_cons, List.mem_cons, ← hintents]
  split_ifs with hcerts hblob
  · simp [hcerts]
  · simp [hblob]
  · simp [hcerts, hblob]

theorem providerOf_of_moduleOf {lib : Libraries} {m : Module} (h : moduleOf cfg name = some m) :
    providerOf lib cfg name = m.registers lib := by
  rw [providerOf, h, Option.bind_some]

theorem registers_of_moduleOf (lib : Libraries) {mods : List Module}
    (h : List.Forall₂ (fun name m => moduleOf cfg name = some m) names mods) :
    mods.filterMap (Module.registers lib) = names.filterMap (providerOf lib cfg) ∧
      mods.map Module.name = names ∧ ∀ name ∈ names, name ∈ moduleNames := by
  induction h with
  | nil => exact ⟨rfl, rfl, nofun⟩
  | cons hm _ ih =>
      obtain ⟨hregisters, hnames, hknown⟩ := ih
      rw [List.filterMap_cons, List.filterMap_cons, providerOf_of_moduleOf hm, hregisters,
        List.map_cons, hnames, name_of_moduleOf hm]
      exact ⟨rfl, rfl, List.forall_mem_cons.mpr
        ⟨moduleOf_isSome_iff.mp (Option.isSome_iff_exists.mpr ⟨_, hm⟩), hknown⟩⟩

end Build

variable {lib : Libraries} {ord : MapOrder} {cfg : Settings} {a : Started}

/-- The modules that are started are those that the configuration names. -/
theorem startModules_eq_ok (h : startModules lib (initialRegistry ord) cfg = .ok a) :
    ∃ resources, parseBlobResources cfg.blobResources = .ok resources ∧
      a.providers =
        (parseList cfg.modules).filterMap (providerOf lib (moduleConfig cfg resources)) ∧
      a.enabled = parseList cfg.modules ∧ ∀ name ∈ parseList cfg.modules, name ∈ moduleNames := by
  unfold startModules at h
  cases hparse : parseBlobResources cfg.blobResources with
  | error e => simp [hparse] at h
  | ok resources =>
      simp only [hparse] at h
      cases hbuild : build (initialRegistry ord) (parseList cfg.modules)
          (moduleConfig cfg resources) with
      | error e => simp [hbuild] at h
      | ok built =>
          obtain ⟨mods, hmods, hout⟩ := buildLoop_eq_ok_iff.mp hbuild
          obtain rfl : built = mods := hout
          obtain ⟨hproviders, henabled⟩ := foldl_startModule lib built .nothing
          obtain ⟨hregisters, hnames, hknown⟩ := registers_of_moduleOf lib hmods
          simp only [hbuild, Except.ok.injEq] at h
          rw [← h, hproviders, henabled, hregisters, hnames]
          exact ⟨resources, rfl, rfl, rfl, hknown⟩

theorem startModules_isOk_iff :
    (∃ a, startModules lib (initialRegistry ord) cfg = .ok a) ↔
      (∃ resources, parseBlobResources cfg.blobResources = .ok resources) ∧
        ∀ name ∈ parseList cfg.modules, name ∈ moduleNames := by
  constructor
  · rintro ⟨a, h⟩
    obtain ⟨resources, hparse, -, -, hknown⟩ := startModules_eq_ok h
    exact ⟨⟨resources, hparse⟩, hknown⟩
  · rintro ⟨⟨resources, hparse⟩, hknown⟩
    simp only [startModules, hparse]
    cases hbuild : build (initialRegistry ord) (parseList cfg.modules)
        (moduleConfig cfg resources) with
    | ok built => exact ⟨_, rfl⟩
    | error e =>
        obtain ⟨name, hname, hnone, -⟩ := buildLoop_eq_error hbuild
        have hsome : (moduleOf (moduleConfig cfg resources) name).isSome :=
          moduleOf_isSome_iff.mpr (hknown name hname)
        rw [hnone] at hsome
        cases hsome

/-- No resource that is parsed from a configuration has a command. -/
theorem parseBlobResources_no_command {s : GoString} {resources : List BlobResource}
    (h : parseBlobResources s = .ok resources) :
    ∀ r ∈ resources, r.verify = [] ∧ r.reload = [] := by
  rcases parseItems_spec (parseList s) [] with ⟨rs, hok, hitems⟩ | ⟨e, herror, -⟩
  · obtain rfl : rs = resources := Except.ok.inj (hok.symm.trans h)
    intro r hr
    have hmem : Except.ok r ∈ (parseList s).map parseItem := by
      rw [hitems]
      exact List.mem_map_of_mem hr
    obtain ⟨item, -, hitem⟩ := List.mem_map.mp hmem
    unfold parseItem at hitem
    split at hitem
    · cases hitem
    · split at hitem
      · rw [← Except.ok.inj hitem]
        exact ⟨rfl, rfl⟩
      · cases hitem
  · cases herror.symm.trans h

theorem kind_of_providerOf {cfg : ModuleConfig} {name : GoString} :
    (providerOf lib cfg name).map Registered.kind =
      if name = ascii "certs" ∨ name = ascii "blob" then some name else none := by
  unfold providerOf moduleOf
  by_cases hcerts : name = ascii "certs"
  · simp [hcerts, Module.registers, Registered.kind, Certs.kind]
  · by_cases hblob : name = ascii "blob"
    · rw [if_neg hcerts, if_pos hblob, if_pos (Or.inr hblob), hblob]
      rfl
    · rw [if_neg hcerts, if_neg hblob, if_neg (not_or.mpr ⟨hcerts, hblob⟩)]
      cases intents.lookup name <;> rfl

theorem mem_providers_blob {cfg : ModuleConfig} {names : List GoString} {bcfg : Blob.Config}
    (h : .blob bcfg ∈ names.filterMap (providerOf lib cfg)) :
    bcfg = blobProvider lib cfg.blobResources cfg.hostname := by
  obtain ⟨name, -, hname⟩ := List.mem_filterMap.mp h
  unfold providerOf moduleOf at hname
  split_ifs at hname with hcerts hblob
  · cases hname
  · cases hname
    rfl
  · cases hlookup : intents.lookup name <;> simp [hlookup, Module.registers] at hname

/-- No file of a blob provider that was started has a command. -/
theorem blob_without_commands (h : startModules lib (initialRegistry ord) cfg = .ok a)
    {bcfg : Blob.Config} (hmem : .blob bcfg ∈ a.providers) :
    ∀ res ∈ bcfg.resources, res.runner = ⟨[], []⟩ := by
  obtain ⟨resources, hparse, hproviders, -⟩ := startModules_eq_ok h
  rw [hproviders] at hmem
  rw [mem_providers_blob hmem]
  intro res hres
  obtain ⟨r, hr, rfl⟩ := List.mem_map.mp hres
  obtain ⟨hverify, hreload⟩ := parseBlobResources_no_command hparse r hr
  rw [startResource, hverify, hreload]

/-- The modules are started as they are configured, whatever the order in which the packages
register them. Starting succeeds exactly when the blob resources parse and every name in the
list is a module's. Then exactly the named modules are enabled, the engine has the providers of
the certs and the blob module, as often and in the order they are named, and no file of the
blob provider has a command. -/
theorem started_as_configured (lib : Libraries) (ord : MapOrder) (cfg : Settings) :
    ((∃ a, startModules lib (initialRegistry ord) cfg = .ok a) ↔
      (∃ resources, parseBlobResources cfg.blobResources = .ok resources) ∧
        ∀ name ∈ parseList cfg.modules, name ∈ moduleNames) ∧
    ∀ a, startModules lib (initialRegistry ord) cfg = .ok a →
      a.enabled = parseList cfg.modules ∧
      a.providers.map Registered.kind =
        (parseList cfg.modules).filter (fun name => name = ascii "certs" ∨ name = ascii "blob") ∧
      ∀ bcfg, .blob bcfg ∈ a.providers → ∀ res ∈ bcfg.resources, res.runner = ⟨[], []⟩ := by
  refine ⟨startModules_isOk_iff, fun a h => ?_⟩
  obtain ⟨resources, -, hproviders, henabled, -⟩ := startModules_eq_ok h
  refine ⟨henabled, ?_, fun bcfg hmem => blob_without_commands h hmem⟩
  rw [hproviders, List.map_filterMap, ← List.filterMap_eq_filter]
  refine List.filterMap_congr fun name _ => ?_
  rw [kind_of_providerOf]
  simp [Option.guard]

end Lbsync.Agent
