import NuSync.Lib.System
import NuSync.Lib.OrderedMap
import NuSync.Lib.PairTree
import NuSync.Lib.SplitTree
import NuSync.Lib.AppendOnly
import NuSync.Lib.Replace
import NuSync.Lib.DirTree
import NuSync.Lib.FileBytes
import NuSync.Lib.Base64
import NuSync.Go.Bytes
import NuSync.Go.Utf8
import NuSync.Go.Url
import NuSync.Go.Text
import NuSync.Go.Path
import NuSync.Store.Meta
import NuSync.Chunker
import NuSync.Merkle
import NuSync.Store.Cas
import NuSync.Store.CasConcurrent
import NuSync.Store.CasCrash
import NuSync.Store.Catalog
import NuSync.Auth.Hmac
import NuSync.Auth.Http
import NuSync.Auth.Replay
import NuSync.Dataplane.Meta
import NuSync.Discovery
import NuSync.Control.Service
import NuSync.Dataplane.Chunk
import NuSync.Scheduler
import NuSync.Scheduler.Rarity
import NuSync.Scheduler.Cooldown
import NuSync.Watcher
import NuSync.Watcher.Loop
import NuSync.Watcher.Tree
import NuSync.Watcher.PerPath
import NuSync.Assembler.AnyOrder
import NuSync.Orchestrator.Pull
import NuSync.Orchestrator.Failure
import NuSync.Orchestrator.GoodPeer
import NuSync.Orchestrator.Lifetime
import NuSync.Orchestrator.DiffReading
import NuSync.Orchestrator.Idempotence
import NuSync.Orchestrator.Assembly
import NuSync.Daemon.Handlers
import NuSync.Daemon.Fidelity
import NuSync.Daemon.Selection
import NuSync.Daemon.Decision
import NuSync.Daemon.Channels
import NuSync.Daemon.IngestPaths
import NuSync.Daemon.InternalState
import NuSync.Daemon.Step
import NuSync.Daemon.Served
import NuSync.Daemon.Clock
import NuSync.Daemon.ClockCalls
import NuSync.Cluster
import NuSync.Coherence
import NuSync.Daemon.ChangeDetection
import NuSync.Daemon.Race
import NuSync.Daemon.Overlap
import NuSync.Daemon.Watched
import NuSync.Daemon.UserEdits
import NuSync.Daemon.OwnWrites
import NuSync.Daemon.Convergence
import NuSync.Daemon.Dissemination
import NuSync.Lib.Flooding
import NuSync.Daemon.Waves
import NuSync.Lib.Pairwise
import NuSync.Daemon.AntiEntropy
import NuSync.Provenance
import NuSync.Go.JsonString
import NuSync.Go.Json
import NuSync.Go.JsonRecord
import NuSync.Store.Format
import NuSync.Dataplane.Reply
import NuSync.Discovery.Gossip
import NuSync.Daemon.WriteOrder
import NuSync.Dataplane.Unauthorized
import NuSync.HealthyPull
import NuSync.Daemon.Syncs
