import Lbsync.Certs.Bundle
import Lbsync.Engine.Tick
import Lbsync.Hook

/-!
# The blob provider

Each configured resource maps a source file to a destination. `Local` lists the
sources that can be read, `Apply` writes a winning blob to its destination,
`Flush` runs the hook of every resource that changed in this tick and `Rollback`
restores the destinations of the given resources.
-/

namespace Lbsync.Blob

open Files Engine Certs

/-- The kind of blob records. -/
def kind : GoString := ascii "blob"

/-- One configured file. -/
structure Resource where
  name : GoString
  source : GoString
  dest : Path
  strategy : GoString
  runner : Runner

/-- What the provider is configured with, and the libraries it uses. -/
structure Config where
  resources : List Resource
  host : GoString
  sum256 : Bytes → Bytes
  temp : TempNamer

/-- The resource of a name; a later one replaces an earlier one. -/
def Config.byName (cfg : Config) (name : GoString) : Option Resource :=
  cfg.resources.reverse.find? fun res => res.name = name

/-- What reading a source and asking for its modification time return. -/
structure Source where
  read : Except DiskErr Bytes
  modTime : Except DiskErr Time

/-- What the provider works on: the sources, the disk with the destinations, the resources
that changed in this tick, the order in which the next `Flush` visits them, and the
commands. -/
structure World where
  sources : GoString → Source
  dests : Disk
  pending : List GoString
  order : MapOrder
  commands : Commands

variable (cfg : Config)

/-- The hexadecimal digest of some bytes. -/
def Config.sha256Hex (data : Bytes) : GoString := hexEncode (cfg.sum256 data)

/-- The version of a source: its digest, after its modification time unless the strategy
is `sha`. -/
def sourceVersion (res : Resource) (src : Source) (sha : GoString) : Version where
  primary :=
    if res.strategy ≠ ascii "sha" then
      match src.modTime with
      | .ok t => unix t
      | .error _ => 0
    else 0
  secondary := 0
  tiebreak := sha

/-- The record of a resource, if its source can be read. -/
def localRecord (w : World) (res : Resource) : Option Record :=
  match (w.sources res.source).read with
  | .error _ => none
  | .ok data =>
      some {
        kind := kind
        key := res.name
        version := sourceVersion res (w.sources res.source) (cfg.sha256Hex data)
        blobs := [(ascii "data", data)]
        metaData := [(ascii "sha256", cfg.sha256Hex data)]
        source := cfg.host }

/-- The records of the sources that can be read. A new tick has no pending resources. -/
def locals (w : World) : Except Err (List Record) × World :=
  (.ok (cfg.resources.filterMap (localRecord cfg w)), { w with pending := [] })

/-- Write a winning blob to its destination. A resource that is not configured here is
skipped. -/
def apply (r : Record) (w : World) : Except Err Bool × World :=
  match cfg.byName r.key with
  | none => (.ok false, w)
  | some res =>
      match writeAtomic cfg.temp w.dests res.dest (r.blob (ascii "data")) 0o644 with
      | (.error _, d) => (.error .io, { w with dests := d })
      | (.ok true, d) => (.ok true, { w with dests := d, pending := w.pending.insert r.key })
      | (.ok false, d) => (.ok false, { w with dests := d })

/-- Run the hooks of the resources one after the other and keep the first error. -/
def runHooks : List GoString → Commands → Option Err × Commands
  | [], cs => (none, cs)
  | name :: rest, cs =>
      match cfg.byName name with
      | none => runHooks rest cs
      | some res =>
          match res.runner.run cs with
          | (.ok _, cs) => runHooks rest cs
          | (.error e, cs) => (some e, (runHooks rest cs).2)

/-- Run the hooks of the pending resources. They stay pending when one fails. -/
def flush (w : World) : Except Err Unit × World :=
  match runHooks cfg (w.order.visit w.pending) w.commands with
  | (none, cs) => (.ok (), { w with pending := [], commands := cs })
  | (some e, cs) => (.error e, { w with commands := cs })

/-- Restore the destinations one after the other; an error does not stop the rest. -/
def restoreKeys : List GoString → Disk → Except DiskErr Unit × Disk
  | [], d => (.ok (), d)
  | key :: rest, d =>
      match cfg.byName key with
      | none => restoreKeys rest d
      | some res =>
          match restore d res.dest with
          | (.ok _, d) => restoreKeys rest d
          | (.error e, d) => (.error e, (restoreKeys rest d).2)

/-- The blob provider. -/
def provider : Provider World where
  kind := kind
  locals := locals cfg
  apply := apply cfg
  flush := flush cfg
  rollback keys w :=
    match restoreKeys cfg keys w.dests with
    | (.ok _, d) => (.ok (), { w with dests := d })
    | (.error _, d) => (.error .io, { w with dests := d })
  locals_kind := by
    intro w rs h r hr
    obtain rfl : cfg.resources.filterMap (localRecord cfg w) = rs := Except.ok.inj h
    obtain ⟨res, _, hrec⟩ := List.mem_filterMap.mp hr
    unfold localRecord at hrec
    split at hrec
    · cases hrec
    · exact Option.some.inj hrec ▸ rfl

variable {cfg}

/-- With distinct names every resource is found under its name. -/
theorem Config.byName_of_mem (hnames : (cfg.resources.map Resource.name).Nodup) {res : Resource}
    (hres : res ∈ cfg.resources) : cfg.byName res.name = some res := by
  unfold Config.byName
  cases hfound : cfg.resources.reverse.find? fun other => other.name = res.name with
  | none =>
      have hnone := List.find?_eq_none.mp hfound res (List.mem_reverse.mpr hres)
      simp at hnone
  | some other =>
      have hname : other.name = res.name := by simpa using List.find?_some hfound
      have hmem := List.mem_reverse.mp (List.mem_of_find?_eq_some hfound)
      rw [List.inj_on_of_nodup_map hnames hmem hres hname]

theorem Config.mem_of_byName {name : GoString} {res : Resource}
    (h : cfg.byName name = some res) : res ∈ cfg.resources ∧ res.name = name :=
  ⟨List.mem_reverse.mp (List.mem_of_find?_eq_some h), by simpa using List.find?_some h⟩

end Lbsync.Blob
