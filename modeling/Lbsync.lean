import Lbsync.Lib.NewestWins
import Lbsync.Lib.Runs
import Lbsync.Lib.Frames
import Lbsync.Lib.Backup
import Lbsync.Lib.Lex
import Lbsync.Lib.Trim
import Lbsync.Lib.Firsts
import Lbsync.Lib.Slices
import Lbsync.Lib.Percent
import Lbsync.Lib.Decoding
import Lbsync.GoString
import Lbsync.Engine.Record
import Lbsync.Engine.Tick
import Lbsync.Engine.Gather
import Lbsync.Engine.ScriptedKV
import Lbsync.Engine.TickSpec
import Lbsync.Engine.Places
import Lbsync.Engine.Merges
import Lbsync.Engine.Registers
import Lbsync.Engine.ReadFailures
import Lbsync.Engine.ErrorFree
import Lbsync.Engine.Machine
import Lbsync.Engine.Moves
import Lbsync.Engine.Local
import Lbsync.Engine.Kinds
import Lbsync.Engine.Reconcile
import Lbsync.Engine.SharedTick
import Lbsync.Engine.Resting
import Lbsync.Engine.NextTick
import Lbsync.Engine.Knowledge
import Lbsync.Olric.DMap
import Lbsync.Olric.Facade
import Lbsync.Olric.CleanTick
import Lbsync.Olric.Winners
import Lbsync.Olric.IndexRepair
import Lbsync.Olric.Stabilisation
import Lbsync.Olric.Interleaving
import Lbsync.Olric.LockSafety
import Lbsync.Olric.Outcomes
import Lbsync.Olric.Provenance
import Lbsync.Olric.Leases
import Lbsync.Olric.Convergence
import Lbsync.Olric.Served
import Lbsync.Olric.Kinds
import Lbsync.Olric.Agents
import Lbsync.Olric.PutMachine
import Lbsync.Olric.IndexSafety
import Lbsync.Olric.Refinement
import Lbsync.Olric.Resting
import Lbsync.Olric.Idempotence
import Lbsync.Wan.Backend
import Lbsync.Wan.Merge
import Lbsync.Wan.KeyListing
import Lbsync.Wan.Network
import Lbsync.Wan.Invariant
import Lbsync.Wan.SingleOrigin
import Lbsync.Wan.ApplyOrder
import Lbsync.Wan.Silence
import Lbsync.Wan.Agreement
import Lbsync.Wan.Restarts
import Lbsync.Wan.Routes
import Lbsync.Wan.Server
import Lbsync.Wan.Wire
import Lbsync.Wan.SoloTick
import Lbsync.Wan.Repair
import Lbsync.Wan.NextTick
import Lbsync.Wan.Mesh
import Lbsync.Wan.Kinds
import Lbsync.Wan.Traffic
import Lbsync.Backends
import Lbsync.Modules
import Lbsync.Files.Disk
import Lbsync.Files.FileSystem
import Lbsync.Files.AtomicFile
import Lbsync.Files.Failures
import Lbsync.Files.Contents
import Lbsync.Files.AllOrNothing
import Lbsync.Files.Modes
import Lbsync.Files.Fates
import Lbsync.Files.Calls
import Lbsync.Files.Filepath
import Lbsync.Files.Backups
import Lbsync.Files.Undo
import Lbsync.Files.Directory
import Lbsync.Files.Location
import Lbsync.Files.Joins
import Lbsync.Files.Links
import Lbsync.Files.EvalSymlinks
import Lbsync.Files.Tree
import Lbsync.Hook
import Lbsync.Certs.Bundle
import Lbsync.Certs.Provider
import Lbsync.Certs.VersionOrder
import Lbsync.Certs.Serving
import Lbsync.Certs.KeyModes
import Lbsync.Certs.Rollback
import Lbsync.Certs.Retry
import Lbsync.Certs.Idle
import Lbsync.Certs.History
import Lbsync.Certs.HalfWritten
import Lbsync.Certs.Containment
import Lbsync.Certs.Renewal
import Lbsync.Blob.Provider
import Lbsync.Blob.Rollback
import Lbsync.Blob.Idle
import Lbsync.Blob.Reloads
import Lbsync.Blob.Edits
import Lbsync.Discovery.Scan
import Lbsync.Discovery.Merging
import Lbsync.Discovery.Lineages
import Lbsync.Config.BlobResources
import Lbsync.Config.RoundTrip
import Lbsync.Config.Transport
import Lbsync.Idempotence
import Lbsync.Fleet
import Lbsync.Deployment
import Lbsync.LocalRuns
import Lbsync.Integrity
import Lbsync.Agent.Startup
import Lbsync.Agent.Hooks
import Lbsync.Agent.Counters
