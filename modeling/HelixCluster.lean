import HelixCluster.Porcupine.NoFalseAlarm
import HelixCluster.Mvcc.Compaction
import HelixCluster.DeltaCrdt.LwwMap
import HelixCluster.DeltaCrdt.OrSetDelivery
import HelixCluster.DeltaCrdt.OrSetExchange
import HelixCluster.DeltaCrdt.PnCounter
import HelixCluster.Crdt.VectorClock
import HelixCluster.HashSlot.SlotMap
import HelixCluster.Hlc.Causality
import HelixCluster.Hlc.Drift
import HelixCluster.AntiEntropy.NoLostWrite
import HelixCluster.OfflineSync.Rounds
import HelixCluster.Swim.Convergence
import HelixCluster.Swim.Stale
import HelixCluster.Swim.SuspicionRuns
import HelixCluster.SlotMigration.Controller
import HelixCluster.Leader.Lease
import HelixCluster.FlowControl.Fairness
import HelixCluster.Session.Merge
import HelixCluster.Kraft.Quorum
import HelixCluster.Omega.Versions
import HelixCluster.Omega.Gang
import HelixCluster.Omega.Conservation
import HelixCluster.ClassAd.Equality
import HelixCluster.Voting.Decider
import HelixCluster.Billing.Meter
import HelixCluster.Backfill.Schedule
import HelixCluster.WatchManager.Delivery
import HelixCluster.FailConfirm.Quorum
import HelixCluster.Constraints.Completeness
import HelixCluster.Rebalance.Minimal
import HelixCluster.AdmissionControl.Tolerance
import HelixCluster.DevicePlugin.Exclusive
import HelixCluster.Wireguard.Ruleset
import HelixCluster.TieredCache.Coherence
import HelixCluster.Avro.TypeSafety
import HelixCluster.WebSocket.Reassembly
import HelixCluster.ConfigSync.Convergence
import HelixCluster.Mvcc.BtreeShape
import HelixCluster.Gpu.Holding
import HelixCluster.EdgeGateway.Isolation
import HelixCluster.HeaderSanitize.Sanitize
import HelixCluster.Discovery.Agreement
import HelixCluster.Discovery.Balance
import HelixCluster.MultiRaft.PersistHook
import HelixCluster.Hlc.Encoding
import HelixCluster.AuditProof
import HelixCluster.Informer
import HelixCluster.Lru
import HelixCluster.Preempt
import HelixCluster.HeartbeatCoalescer
import HelixCluster.RateLimit
import HelixCluster.PriorityQueue
import HelixCluster.Gpu.Available
