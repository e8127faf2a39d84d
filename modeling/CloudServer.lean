import CloudServer.ByteMemory
import CloudServer.InputStream
import CloudServer.Execution
import CloudServer.Database
import CloudServer.StorageCore
import CloudServer.ContainerFormat
import CloudServer.Packing
import CloudServer.DataWriter
import CloudServer.Catalog
import CloudServer.PlainIndex
import CloudServer.Uploads
import CloudServer.UploadInvariant
import CloudServer.DedupInvariant
import CloudServer.Interaction
import CloudServer.LruCache
import CloudServer.ReadCache
import CloudServer.RecvDecoder
import CloudServer.RestoreTable
import CloudServer.Restore
import CloudServer.RestoreStream
import CloudServer.Downloads
import CloudServer.RoundTrip
import CloudServer.DataReceiver
import CloudServer.RecipeUpload
import CloudServer.RecipeSender
import CloudServer.RecipeRoundTrip
import CloudServer.Lifecycle
import CloudServer.Durability
import CloudServer.Queries
import CloudServer.Scheduling
import CloudServer.Sessions
import CloudServer.Framing
import CloudServer.FailingChannel
import CloudServer.ClientLocks
import CloudServer.RestoreLoop
import CloudServer.SendBuffer
import CloudServer.Fetching
import CloudServer.UnknownFingerprints
import CloudServer.BatchDecoding
import CloudServer.ContainerBounds
import CloudServer.DownloadEntries
import CloudServer.TruncatedIndex
import CloudServer.Accounting
import CloudServer.LogicalAccounting
import CloudServer.CacheRecency
import CloudServer.ReaderWriterQueue
import CloudServer.QueueBlocks
import CloudServer.QueueInvariant
import CloudServer.QueueCalls
import CloudServer.QueuedWriter
import CloudServer.Threads
import CloudServer.CrashConsistency
import CloudServer.CommittedReads
import CloudServer.Fairness
import CloudServer.WriterTermination
import CloudServer.RecipeDirectory
import CloudServer.UploadSessions
import CloudServer.WholeFiles
