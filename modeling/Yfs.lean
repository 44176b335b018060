import Yfs.AckWindow
import Yfs.AllocatedIds
import Yfs.AtMostOnce
import Yfs.AttributeCoherence
import Yfs.BlockAllocation
import Yfs.CachedTypes
import Yfs.CancelledCalls
import Yfs.ConcurrentCreates
import Yfs.ConcurrentRequests
import Yfs.ConnectionRefs
import Yfs.Deadlines
import Yfs.DirectoryHistory
import Yfs.DirectoryRemoval
import Yfs.ExtentRefinement
import Yfs.FileHistory
import Yfs.Handles
import Yfs.InodeExhaustion
import Yfs.LockBalance
import Yfs.LockDiscipline
import Yfs.LockQueue
import Yfs.LockQuiescence
import Yfs.MarshallRoundTrip
import Yfs.OwnedBlocks
import Yfs.PollWakeups
import Yfs.PoolExhaustion
import Yfs.PoolShutdown
import Yfs.PutLimits
import Yfs.RecordedReplies
import Yfs.RemoteObjects
import Yfs.ReplyBuffers
import Yfs.ReplyWindow
import Yfs.RpcRefinement
import Yfs.SenderWakeups
import Yfs.StreamFraming
import Yfs.UnmarshallBounds
