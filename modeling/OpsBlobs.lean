import OpsBlobs.JsMap
import OpsBlobs.DiffLines
import OpsBlobs.EditScript
import OpsBlobs.CodeUnits
import OpsBlobs.RegExp
import OpsBlobs.PileReads
import OpsBlobs.LongestPile
import OpsBlobs.CutRun
import OpsBlobs.MemAccount
import OpsBlobs.MetadataCrash
import OpsBlobs.FailingCalls
import OpsBlobs.ApplyRestore
import OpsBlobs.VersionRecords
import OpsBlobs.ConflictDecisions
import OpsBlobs.ContentStaging
import OpsBlobs.FileFaults
import OpsBlobs.GlobMatch
import OpsBlobs.HlcText
import OpsBlobs.DiffReads
import OpsBlobs.Segments
import OpsBlobs.Diff3
import OpsBlobs.Diff3Symmetry
import OpsBlobs.Diff3Sound
import OpsBlobs.Hlc
import OpsBlobs.Types
import OpsBlobs.VersionDag
import OpsBlobs.StateMerge
import OpsBlobs.MergeBase
import OpsBlobs.MergeOutcome
import OpsBlobs.MergeCollision
import OpsBlobs.Coroutine
import OpsBlobs.ConflictMarkers
import OpsBlobs.ExclusionPolicy
import OpsBlobs.FileRegistry
import OpsBlobs.Interleaving
import OpsBlobs.World
import OpsBlobs.OperationLogger
import OpsBlobs.SyncApplicator
import OpsBlobs.ApplySpec
import OpsBlobs.SnapshotGuard
import OpsBlobs.EditPreserved
import OpsBlobs.UnloggedEdit
import OpsBlobs.ApplyRegistry
import OpsBlobs.ApplyOccupied
import OpsBlobs.GraphWalk
import OpsBlobs.VersionGraph
import OpsBlobs.CausalDominance
import OpsBlobs.VersionBytes
import OpsBlobs.Diff3Mirror
import OpsBlobs.MirroredMerge
import OpsBlobs.ConflictHold
import OpsBlobs.VersionSweep
import OpsBlobs.SweepAnswers
import OpsBlobs.AncestorWalk
import OpsBlobs.EventRun
import OpsBlobs.LineJournal
import OpsBlobs.OplogJournal
import OpsBlobs.OplogCrash
import OpsBlobs.OplogFailure
import OpsBlobs.RegistryJournal
import OpsBlobs.RegistryCrash
import OpsBlobs.Base64
import OpsBlobs.PackedContent
import OpsBlobs.ContentIntegrity
import OpsBlobs.PackMaintenance
import OpsBlobs.PackPasses
import OpsBlobs.PendingContent
import OpsBlobs.RegistryScan
import OpsBlobs.MetadataRebuild
import OpsBlobs.RebuildReplay
import OpsBlobs.CarefulRun
import OpsBlobs.CapturePhantom
import OpsBlobs.HlcSession
import OpsBlobs.VersionDagStore
import OpsBlobs.OpIdentity
import OpsBlobs.RegistryTasks
import OpsBlobs.ApplyFaults
import OpsBlobs.PackRefinement
import OpsBlobs.PackIndexFile
import OpsBlobs.PackFiles
import OpsBlobs.PackScript
import OpsBlobs.PackLinked
import OpsBlobs.PackSound
import OpsBlobs.PackCrash
import OpsBlobs.PackTasks
import OpsBlobs.PackTaskSteps
import OpsBlobs.PackTaskSpecs
import OpsBlobs.PackConcurrent
import OpsBlobs.JsNumber
import OpsBlobs.ColdRead
import OpsBlobs.MarkerRoundTrip
import OpsBlobs.MergeFold
import OpsBlobs.PathIndex
import OpsBlobs.ExcludedPaths
import OpsBlobs.OfflineCapture
import OpsBlobs.PendingReplay
import OpsBlobs.GhostCode
import OpsBlobs.LocalHistory
import OpsBlobs.LocalChain
import OpsBlobs.ChainedHandlers
import OpsBlobs.Ledger
import OpsBlobs.SyncErrors
import OpsBlobs.SyncServer
import OpsBlobs.Promises
import OpsBlobs.WorkerPool
import OpsBlobs.Packing
import OpsBlobs.Encryption
import OpsBlobs.ServerApi
import OpsBlobs.ServerPull
import OpsBlobs.RemoteProjection
import OpsBlobs.OpPush
import OpsBlobs.BlobDownload
import OpsBlobs.VaultPeers
import OpsBlobs.ScopedStaging
import OpsBlobs.HeadSweep
import OpsBlobs.HeadFolds
import OpsBlobs.SyncHost
import OpsBlobs.SyncRound
import OpsBlobs.SyncSafety
