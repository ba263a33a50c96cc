import NextSQL.Undo.Journal
import NextSQL.Mvcc.Conflicts
import NextSQL.Mvcc.Snapshots
import NextSQL.Txn.Deadlock
import NextSQL.Wal.Scan
import NextSQL.Storage.AllocatorRecovery
import NextSQL.Storage.Nonces
import NextSQL.Sql.ImplySound
import NextSQL.Sql.PruneSound
import NextSQL.Sql.Rename
import NextSQL.Sql.SegmentsSound
import NextSQL.Sql.SubquerySound
import NextSQL.Backup.ArchiveSound
import NextSQL.Executor.Idempotency
import NextSQL.Executor.ResultCache
import NextSQL.Executor.PlanCache
import NextSQL.Cdc.Stream
import NextSQL.Replication.Position
import NextSQL.Sql.Spatial
import NextSQL.Executor.Views
import NextSQL.Btree.SplitKeys
import NextSQL.Security.Audit
import NextSQL.Storage.Slotted
import NextSQL.Storage.AllocatorPartition
import NextSQL.Types.Coerce
import NextSQL.Executor.Window
import NextSQL.Cron
