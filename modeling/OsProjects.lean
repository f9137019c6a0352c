import OsProjects.KeyValue.Device
import OsProjects.KeyValue.WriteBufferRing
import OsProjects.KeyValue.Logfs
import OsProjects.Jit.ParserCorrect
import OsProjects.KeyValue.Replay
import OsProjects.Persistent.Allocator
import OsProjects.Library.Ring
import OsProjects.KeyValue.LogfsLog
import OsProjects.KeyValue.LogfsRuns
import OsProjects.KeyValue.Visitor
import OsProjects.KeyValue.VisitorRuns
import OsProjects.KeyValue.RestoreTail
import OsProjects.Library.AvlTree
import OsProjects.Persistent.Avl
import OsProjects.Persistent.Places
import OsProjects.Persistent.WordTree
import OsProjects.Persistent.WordCells
import OsProjects.Persistent.WordHeap
import OsProjects.Persistent.WordRotate
import OsProjects.Persistent.WordUpdate
import OsProjects.Persistent.WordRemove
import OsProjects.Persistent.WordStore
import OsProjects.Persistent.WordMultiset
import OsProjects.Persistent.WordBlocks
import OsProjects.Jit.Reflect
import OsProjects.Jit.ReflectCorrect
import OsProjects.Threads.Scheduler
import OsProjects.Threads.RunQueue
import OsProjects.Threads.SchedulerRuns
import OsProjects.Threads.Fairness
import OsProjects.KeyValue.FlusherThread
import OsProjects.KeyValue.FlusherProtocol
import OsProjects.Persistent.Sessions
import OsProjects.KeyValue.WriteBufferFifo
import OsProjects.KeyValue.LogfsTail
import OsProjects.KeyValue.CacheFlush
import OsProjects.KeyValue.CachedRead
import OsProjects.KeyValue.RecordRuns
import OsProjects.KeyValue.ChainScan
import OsProjects.KeyValue.IndexRuns
import OsProjects.KeyValue.FaultyLog
import OsProjects.KeyValue.FailedMutation
import OsProjects.KeyValue.FailedFlush
import OsProjects.KeyValue.LockBalance
import OsProjects.KeyValue.RetryLoop
import OsProjects.KeyValue.NullArguments
import OsProjects.KeyValue.RestoreReturns
import OsProjects.Persistent.WordBalance
import OsProjects.Persistent.WordFailure
import OsProjects.Threads.Alarm
import OsProjects.Threads.AlarmRuns
import OsProjects.Threads.Preemption
import OsProjects.Shell.ReadLine
import OsProjects.Shell.LineSlot
import OsProjects.Shell.History
import OsProjects.Library.Scan
import OsProjects.Monitor.CpuUtil
import OsProjects.Monitor.NetParse
import OsProjects.Jit.OperandNames
import OsProjects.Jit.Lexer
import OsProjects.Jit.Literals
import OsProjects.Persistent.Fallback
import OsProjects.KeyValue.Occupancy
import OsProjects.KeyValue.ChainOrder
import OsProjects.KeyValue.IndexProbes
import OsProjects.KeyValue.PeekMark
import OsProjects.KeyValue.MarkRuns
import OsProjects.KeyValue.Layers
import OsProjects.KeyValue.Strands
import OsProjects.KeyValue.Volume
import OsProjects.KeyValue.VolumeStore
import OsProjects.KeyValue.Reopen
import OsProjects.KeyValue.Sessions
import OsProjects.KeyValue.Linearization
import OsProjects.KeyValue.LogService
import OsProjects.KeyValue.BoundedWaiting
import OsProjects.Library.Zipper
import OsProjects.Library.Strings
import OsProjects.Library.CText
import OsProjects.Shell.LineText
import OsProjects.Shell.LineSessions
import OsProjects.Persistent.WordRoom
import OsProjects.Persistent.Commands
import OsProjects.Persistent.Requests
import OsProjects.Persistent.Program
import OsProjects.Persistent.Recall
import OsProjects.Jit.Target
import OsProjects.Jit.Main
import OsProjects.Threads.Rounds
