import NeonStorage.Compute.LwLsnCache
import NeonStorage.Compute.ShardMap
import NeonStorage.Ingest.BatchOperations
import NeonStorage.Ingest.ClogTruncate
import NeonStorage.OrioleDb.BuffersRecovery
import NeonStorage.OrioleDb.ColdStartRuns
import NeonStorage.OrioleDb.Reopen
import NeonStorage.Pageserver.Compaction.KeyRetentionReplay
import NeonStorage.Pageserver.Compaction.Level0Records
import NeonStorage.Pageserver.Compaction.SplitJobs
import NeonStorage.Pageserver.Datadir.Directories
import NeonStorage.Pageserver.DeletionQueue.SplitBrain
import NeonStorage.Pageserver.DirtyBytes
import NeonStorage.Pageserver.DiskBtree.Reader
import NeonStorage.Pageserver.GcBlock
import NeonStorage.Pageserver.KeyPartitioning
import NeonStorage.Pageserver.LayerMap.ImageConsistent
import NeonStorage.Pageserver.LayerMap.ReadPath
import NeonStorage.Pageserver.LayerMap.Visibility
import NeonStorage.Pageserver.TenantSize
import NeonStorage.Pageserver.UploadQueue.ReuploadSafety
import NeonStorage.Pageserver.UploadQueue.Safety
import NeonStorage.Protocol.Feedback
import NeonStorage.Protocol.Streaming
import NeonStorage.Proxy.DynamicLimiter
import NeonStorage.Safekeeper.Durability
import NeonStorage.Safekeeper.PartialBackup
import NeonStorage.Safekeeper.WalBackup
import NeonStorage.Safekeeper.WalSenders
import NeonStorage.StorageController.Generations
import NeonStorage.StorageController.MigrationFinish
import NeonStorage.StorageController.SafekeeperExclusion
import NeonStorage.StorageController.SchedulerRuns
import NeonStorage.WalProposer.Donor
