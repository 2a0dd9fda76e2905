import ArcGraph.Mvcc.Gc
import ArcGraph.Mvcc.InstallTurn
import ArcGraph.Wal.ReplayOrder
import ArcGraph.Wal.Budget
import ArcGraph.Wal.CrashRecovery
import ArcGraph.Wal.Reclaim
import ArcGraph.Index.PrimaryReject
import ArcGraph.Index.PageImages
import ArcGraph.Index.SecondaryRollback
import ArcGraph.Idempotency.BindingOrder
import ArcGraph.Redo.Flushing
import ArcGraph.Redo.Convergence
import ArcGraph.Redo.PermanentTombstone
import ArcGraph.Extent.Recovery
import ArcGraph.Permissions.ReadAcl
import ArcGraph.Bolt.Discipline
import ArcGraph.Graph.Dangling
import ArcGraph.Graph.Rollback
import ArcGraph.PropertyIndex.Lookup
import ArcGraph.Merge.Plan
import ArcGraph.Explore.Visible
import ArcGraph.Intern.Stability
import ArcGraph.Tel.Scan
import ArcGraph.Query.Aggregate
import ArcGraph.Redo.RangeOrder
import ArcGraph.Mvcc.ChainIndex
import ArcGraph.Records.ArrivalOrder
import ArcGraph.Community.Membership
