import SnapshotRetention.Command.Program
import SnapshotRetention.Desk.ShardDesk
import SnapshotRetention.Main
import SnapshotRetention.Trial.Harness
import SnapshotRetention.Trial.Rehearsal
import SnapshotRetention.Proofs.Keeper.CycleOutcome
import SnapshotRetention.Proofs.Writer.ExactRetention
import SnapshotRetention.Proofs.Writer.RetentionSafety
import SnapshotRetention.Proofs.Writer.FailedDeletes
import SnapshotRetention.Proofs.Writer.Snapshots
import SnapshotRetention.Proofs.Writer.Traceless
import SnapshotRetention.Proofs.Manifest.Positions
import SnapshotRetention.Proofs.Manifest.Damage
import SnapshotRetention.Proofs.Writer.Blocked
import SnapshotRetention.Proofs.Writer.LateReleases
import SnapshotRetention.Proofs.Keeper.Generations
import SnapshotRetention.Proofs.Writer.Outlived
import SnapshotRetention.Proofs.Command.Backup
import SnapshotRetention.Proofs.Writer.Recovery
import SnapshotRetention.Proofs.Writer.Rejected
import SnapshotRetention.Proofs.Writer.Accepted
import SnapshotRetention.Proofs.Shard.Lifecycle
import SnapshotRetention.Proofs.Manifest.Names
import SnapshotRetention.Proofs.Command.Inspect
import SnapshotRetention.Proofs.Shard.Unrecovered
import SnapshotRetention.Proofs.Writer.Numbers
import SnapshotRetention.Proofs.Writer.StockDecisions
import SnapshotRetention.Proofs.Store.Calls
import SnapshotRetention.Proofs.Writer.Strays
import SnapshotRetention.Proofs.Catalog.DeleteOrder
import SnapshotRetention.Proofs.Keeper.ReleaseOrder
import SnapshotRetention.Proofs.Writer.Reliable
import SnapshotRetention.Proofs.Writer.ReleaseOrder
import SnapshotRetention.Proofs.Command.Sizes
import SnapshotRetention.Proofs.Catalog.References
