import Lbsync.Config.BlobResources
import Lbsync.Files.Filepath

/-!
# Starting the cluster backend

`run` starts an embedded Olric member when the WAN port is zero and the HTTPS backend
otherwise. Only the first way asks for a password unless `-insecure` is set. The second
one has its peers authenticated by a CA, if one is configured. What the machine and the
libraries do is a parameter.
-/

namespace Lbsync.Config

open Files

/-- The settings that decide about the backend. -/
structure Settings where
  peers : GoString
  clusterEnv : GoString
  bindAddr : GoString
  advertiseAddr : GoString
  olricPort : Int
  memberlistPort : Int
  replicaCount : Int
  wanPort : Int
  tlsCert : GoString
  tlsKey : GoString
  tlsCA : GoString
  password : GoString
  gossipKey : GoString
  insecure : Bool
  hostname : GoString

/-- The configuration of the facade. -/
structure ClusterConfig where
  env : GoString
  bindAddr : GoString
  bindPort : Int
  memberlistPort : Int
  advertiseAddr : GoString
  peers : List GoString
  password : GoString
  gossipKey : Bytes
  replicaCount : Int

/-- The part of an Olric member's configuration that is set. -/
structure OlricConfig where
  bindAddr : GoString
  bindPort : Int
  memberlistBindAddr : GoString
  memberlistBindPort : Int
  advertisePort : Int
  advertiseAddr : GoString
  peers : List GoString
  authentication : Option GoString
  secretKey : Bytes
  replicaCount : Int
  readQuorum : Int
  writeQuorum : Int

/-- What a TLS server asks of its clients. -/
inductive ClientAuth where
  | noClientCert
  | requestClientCert
  | requireAnyClientCert
  | verifyClientCertIfGiven
  | requireAndVerifyClientCert
  deriving DecidableEq

variable {C Pool : Type*}

/-- The part of a TLS configuration that is set. -/
structure TLSConfig (C Pool : Type*) where
  certificates : List C := []
  clientAuth : ClientAuth := .noClientCert
  clientCAs : Option Pool := none
  rootCAs : Option Pool := none
  insecureSkipVerify : Bool := false

/-- The configuration of the HTTPS backend. -/
structure WanConfig (C Pool : Type*) where
  bindAddr : GoString
  port : Int
  peers : List GoString
  certFile : GoString
  keyFile : GoString
  caFile : GoString
  hostname : GoString
  tlsConfig : Option (TLSConfig C Pool) := none

/-- The HTTPS backend after its start. -/
structure WanBackend (C Pool : Type*) where
  addr : GoString × Int
  peers : List GoString
  server : TLSConfig C Pool
  client : TLSConfig C Pool

/-- The machine and the libraries: `os.Hostname`, base64, what `config.New` returns and whether
the member starts, certificates, files, and whether an address can be listened on. -/
structure Machine (C Pool : Type*) where
  hostname : Option GoString
  decodeString : GoString → Option Bytes
  newConfig : GoString → OlricConfig
  starts : OlricConfig → Bool
  generateSelfSigned : GoString → Option C
  loadX509KeyPair : GoString → GoString → Option C
  readFile : GoString → Option Bytes
  appendCertsFromPEM : Bytes → Option Pool
  listens : GoString × Int → Bool

/-- Why no backend was started. -/
inductive StartErr where
  | refused
  | gossipKeyEncoding
  | gossipKeyLength (n : Nat)
  | olric
  | caWithoutCert
  | selfSigned
  | keyPair
  | caFile
  | caParse
  | listen
  deriving DecidableEq

/-- The gossip key, if one is set. -/
def decodeGossipKey (m : Machine C Pool) (gossipKey : GoString) : Except StartErr Bytes :=
  if gossipKey = [] then .ok []
  else
    match m.decodeString gossipKey with
    | none => .error .gossipKeyEncoding
    | some decoded =>
        if decoded.length ∈ [16, 24, 32] then .ok decoded
        else .error (.gossipKeyLength decoded.length)

/-- The configuration of the facade, unless it would lack a password. -/
def buildClusterConfig (m : Machine C Pool) (cfg : Settings) (peers : List GoString) :
    Except StartErr ClusterConfig :=
  if cfg.insecure = false ∧ cfg.password = [] then .error .refused
  else
    match decodeGossipKey m cfg.gossipKey with
    | .error e => .error e
    | .ok gossipKey =>
        .ok
          { env := cfg.clusterEnv
            bindAddr := cfg.bindAddr
            bindPort := cfg.olricPort
            memberlistPort := cfg.memberlistPort
            advertiseAddr := cfg.advertiseAddr
            peers := peers
            password := cfg.password
            gossipKey := gossipKey
            replicaCount :=
              if cfg.replicaCount ≤ 0 then peers.length + 1 else cfg.replicaCount }

/-- The configuration of the member, on top of the defaults of its environment. -/
def olricConfig (m : Machine C Pool) (cfg : ClusterConfig) : OlricConfig :=
  let c := m.newConfig (if cfg.env = [] then ascii "lan" else cfg.env)
  { c with
    bindAddr := cfg.bindAddr
    bindPort := cfg.bindPort
    memberlistBindAddr := cfg.bindAddr
    memberlistBindPort := cfg.memberlistPort
    advertisePort := cfg.memberlistPort
    advertiseAddr := if cfg.advertiseAddr = [] then c.advertiseAddr else cfg.advertiseAddr
    peers := cfg.peers
    authentication := if cfg.password = [] then c.authentication else some cfg.password
    secretKey := if cfg.gossipKey = [] then c.secretKey else cfg.gossipKey
    replicaCount := if 0 < cfg.replicaCount then cfg.replicaCount else c.replicaCount
    readQuorum := if 0 < cfg.replicaCount then 1 else c.readQuorum
    writeQuorum := if 0 < cfg.replicaCount then 1 else c.writeQuorum }

/-- Start an embedded member. -/
def newCluster (m : Machine C Pool) (cfg : ClusterConfig) : Except StartErr OlricConfig :=
  if m.starts (olricConfig m cfg) then .ok (olricConfig m cfg) else .error .olric

/-- The certificate of the HTTPS backend: an ephemeral one unless a file is configured. -/
def loadCertificate (m : Machine C Pool) (certFile keyFile hostname : GoString) :
    Except StartErr C :=
  if certFile = [] then
    match m.generateSelfSigned hostname with
    | none => .error .selfSigned
    | some cert => .ok cert
  else
    match m.loadX509KeyPair certFile keyFile with
    | none => .error .keyPair
    | some cert => .ok cert

/-- The certificates of the configured CA. -/
def loadCA (m : Machine C Pool) (caFile : GoString) : Except StartErr Pool :=
  match m.readFile (clean caFile) with
  | none => .error .caFile
  | some caPEM =>
      match m.appendCertsFromPEM caPEM with
      | none => .error .caParse
      | some caPool => .ok caPool

/-- The TLS configurations of server and client. Without a CA nobody verifies anything. -/
def buildTLSConfig (m : Machine C Pool) (certFile keyFile caFile hostname : GoString) :
    Except StartErr (TLSConfig C Pool × TLSConfig C Pool) :=
  if caFile ≠ [] ∧ certFile = [] then .error .caWithoutCert
  else
    match loadCertificate m certFile keyFile hostname with
    | .error e => .error e
    | .ok cert =>
        if caFile = [] then
          .ok ({ certificates := [cert] }, { insecureSkipVerify := true })
        else
          match loadCA m caFile with
          | .error e => .error e
          | .ok caPool =>
              .ok
                ({ certificates := [cert]
                   clientAuth := .requireAndVerifyClientCert
                   clientCAs := some caPool },
                 { certificates := [cert], rootCAs := some caPool })

/-- The TLS configurations the backend uses; a given server configuration is for tests. -/
def wanTLS (m : Machine C Pool) (cfg : WanConfig C Pool) :
    Except StartErr (TLSConfig C Pool × TLSConfig C Pool) :=
  match cfg.tlsConfig with
  | some serverTLS => .ok (serverTLS, { insecureSkipVerify := true })
  | none =>
      buildTLSConfig m cfg.certFile cfg.keyFile cfg.caFile
        (if cfg.hostname = [] then ascii "localhost" else cfg.hostname)

/-- The address the backend listens on. -/
def WanConfig.addr (cfg : WanConfig C Pool) : GoString × Int :=
  (if cfg.bindAddr = [] then ascii "0.0.0.0" else cfg.bindAddr, cfg.port)

/-- Start the HTTPS backend. -/
def newWan (m : Machine C Pool) (cfg : WanConfig C Pool) : Except StartErr (WanBackend C Pool) :=
  match wanTLS m cfg with
  | .error e => .error e
  | .ok (serverTLS, clientTLS) =>
      if m.listens cfg.addr then .ok ⟨cfg.addr, cfg.peers, serverTLS, clientTLS⟩
      else .error .listen

/-- A started backend. -/
inductive Backend (C Pool : Type*) where
  | olric (c : OlricConfig)
  | wan (b : WanBackend C Pool)

/-- The node's name; `os.Hostname` unless one is configured. -/
def nodeName (m : Machine C Pool) (cfg : Settings) : GoString :=
  if cfg.hostname = [] then m.hostname.getD (ascii "unknown") else cfg.hostname

/-- The configuration `run` gives the HTTPS backend. -/
def wanConfig (m : Machine C Pool) (cfg : Settings) (peers : List GoString) : WanConfig C Pool where
  bindAddr := cfg.bindAddr
  port := cfg.wanPort
  peers := peers
  certFile := cfg.tlsCert
  keyFile := cfg.tlsKey
  caFile := cfg.tlsCA
  hostname := nodeName m cfg

/-- The backend `run` starts. -/
def startBackend (m : Machine C Pool) (cfg : Settings) : Except StartErr (Backend C Pool) :=
  if cfg.wanPort = 0 then
    match buildClusterConfig m cfg (parseList cfg.peers) with
    | .error e => .error e
    | .ok clusterCfg => (newCluster m clusterCfg).map .olric
  else (newWan m (wanConfig m cfg (parseList cfg.peers))).map .wan

/-- Both ends verify each other against the certificates of the configured CA. -/
structure MutualTLS (m : Machine C Pool) (caFile : GoString) (server client : TLSConfig C Pool) :
    Prop where
  clientAuth : server.clientAuth = .requireAndVerifyClientCert
  verifies : client.insecureSkipVerify = false
  ca : ∃ caPool, loadCA m caFile = .ok caPool ∧ server.clientCAs = some caPool ∧
    client.rootCAs = some caPool

/-- The backend authenticates its peers. -/
def Backend.Authenticates (m : Machine C Pool) (cfg : Settings) : Backend C Pool → Prop
  | .olric c => ∃ password, c.authentication = some password ∧ password ≠ []
  | .wan b => MutualTLS m cfg.tlsCA b.server b.client

section Starts

variable {m : Machine C Pool} {cfg : Settings}

/-- Without `-insecure` the facade is configured with the password, and there is one. -/
theorem password_of_buildClusterConfig {peers : List GoString} {c : ClusterConfig}
    (hsecure : cfg.insecure = false) (h : buildClusterConfig m cfg peers = .ok c) :
    c.password = cfg.password ∧ cfg.password ≠ [] := by
  by_cases hpassword : cfg.password = []
  · rw [buildClusterConfig, if_pos ⟨hsecure, hpassword⟩] at h
    cases h
  · rw [buildClusterConfig, if_neg fun hrefuse => hpassword hrefuse.2] at h
    cases hkey : decodeGossipKey m cfg.gossipKey with
    | error e => simp [hkey] at h
    | ok gossipKey =>
        simp only [hkey] at h
        rw [← Except.ok.inj h]
        exact ⟨rfl, hpassword⟩

theorem authentication_olricConfig {c : ClusterConfig} (h : c.password ≠ []) :
    (olricConfig m c).authentication = some c.password := if_neg h

/-- Server and client verify each other exactly when a CA is configured. -/
theorem mutualTLS_buildTLSConfig_iff {certFile keyFile caFile hostname : GoString}
    {server client : TLSConfig C Pool}
    (h : buildTLSConfig m certFile keyFile caFile hostname = .ok (server, client)) :
    MutualTLS m caFile server client ↔ caFile ≠ [] := by
  by_cases hguard : caFile ≠ [] ∧ certFile = []
  · rw [buildTLSConfig, if_pos hguard] at h
    cases h
  · rw [buildTLSConfig, if_neg hguard] at h
    cases hcert : loadCertificate m certFile keyFile hostname with
    | error e => simp [hcert] at h
    | ok cert =>
        simp only [hcert] at h
        by_cases hca : caFile = []
        · rw [if_pos hca] at h
          obtain ⟨rfl, rfl⟩ := Prod.mk.inj (Except.ok.inj h)
          exact ⟨fun htls => absurd htls.verifies (by simp), fun hne => absurd hca hne⟩
        · rw [if_neg hca] at h
          cases hpool : loadCA m caFile with
          | error e => simp [hpool] at h
          | ok caPool =>
              simp only [hpool] at h
              obtain ⟨rfl, rfl⟩ := Prod.mk.inj (Except.ok.inj h)
              exact ⟨fun _ => hca, fun _ => ⟨rfl, rfl, caPool, hpool, rfl, rfl⟩⟩

theorem tls_of_newWan {wanCfg : WanConfig C Pool} {b : WanBackend C Pool}
    (h : newWan m wanCfg = .ok b) : wanTLS m wanCfg = .ok (b.server, b.client) := by
  unfold newWan at h
  rcases htls : wanTLS m wanCfg with e | ⟨server, client⟩
  · simp [htls] at h
  · simp only [htls] at h
    split_ifs at h
    obtain rfl := Except.ok.inj h
    rfl

/-- Without `-insecure`, a started backend authenticates its peers exactly when it is the
Olric member or a CA is configured. -/
theorem startBackend_authenticates_iff (m : Machine C Pool) (cfg : Settings) (b : Backend C Pool)
    (hsecure : cfg.insecure = false) (h : startBackend m cfg = .ok b) :
    b.Authenticates m cfg ↔ cfg.wanPort = 0 ∨ cfg.tlsCA ≠ [] := by
  unfold startBackend at h
  split_ifs at h with hport
  · refine ⟨fun _ => Or.inl hport, fun _ => ?_⟩
    cases hbuild : buildClusterConfig m cfg (parseList cfg.peers) with
    | error e => simp [hbuild] at h
    | ok clusterCfg =>
        obtain ⟨hsame, hpassword⟩ := password_of_buildClusterConfig hsecure hbuild
        rw [← hsame] at hpassword
        simp only [hbuild, newCluster] at h
        split_ifs at h
        · obtain rfl := Except.ok.inj h
          exact ⟨clusterCfg.password, authentication_olricConfig hpassword, hpassword⟩
        · cases h
  · rcases hnew : newWan m (wanConfig m cfg (parseList cfg.peers)) with e | wanBackend
    · rw [hnew] at h
      cases h
    · rw [hnew] at h
      obtain rfl := Except.ok.inj h
      have htls := tls_of_newWan hnew
      exact (mutualTLS_buildTLSConfig_iff htls).trans ⟨Or.inr, fun hor => hor.resolve_left hport⟩

end Starts

/-- The default settings. -/
def defaultSettings : Settings where
  peers := []
  clusterEnv := ascii "lan"
  bindAddr := ascii "0.0.0.0"
  advertiseAddr := []
  olricPort := 3320
  memberlistPort := 3322
  replicaCount := 0
  wanPort := 0
  tlsCert := []
  tlsKey := []
  tlsCA := []
  password := []
  gossipKey := []
  insecure := false
  hostname := []

/-- A machine on which every call succeeds. -/
def willingMachine : Machine Unit Unit where
  hostname := some (ascii "node")
  decodeString s := some s
  newConfig _ := ⟨[], 0, [], 0, 0, [], [], none, [], 1, 1, 1⟩
  starts _ := true
  generateSelfSigned _ := some ()
  loadX509KeyPair _ _ := some ()
  readFile _ := some []
  appendCertsFromPEM _ := some ()
  listens _ := true

/-- A configured CA makes the HTTPS backend authenticate its peers. -/
theorem wan_with_ca_authenticates :
    ∃ b, startBackend willingMachine
        { defaultSettings with
          wanPort := 8443, tlsCert := ascii "cert.pem", tlsCA := ascii "ca.pem" } = .ok b ∧
      b.Authenticates willingMachine
        { defaultSettings with
          wanPort := 8443, tlsCert := ascii "cert.pem", tlsCA := ascii "ca.pem" } :=
  ⟨_, rfl, (startBackend_authenticates_iff willingMachine
    { defaultSettings with
      wanPort := 8443, tlsCert := ascii "cert.pem", tlsCA := ascii "ca.pem" } _ rfl rfl).mpr
    (Or.inr (by decide))⟩

/-- With nothing but a WAN port, neither a password nor a certificate is asked for. -/
theorem wan_without_ca_unauthenticated :
    ({ defaultSettings with wanPort := 8443 } : Settings).insecure = false ∧
      ∃ b, startBackend willingMachine { defaultSettings with wanPort := 8443 } = .ok b ∧
        ¬ b.Authenticates willingMachine { defaultSettings with wanPort := 8443 } := by
  refine ⟨rfl, _, rfl, ?_⟩
  intro h
  exact absurd h.clientAuth (by decide)

end Lbsync.Config
