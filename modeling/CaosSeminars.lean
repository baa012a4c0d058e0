import CaosSeminars.Library.Trace
import CaosSeminars.Library.Chain
import CaosSeminars.Library.AtomicStack
import CaosSeminars.LockFree.Machine
import CaosSeminars.LockFree.Invariant
import CaosSeminars.LockFree.Reclamation
import CaosSeminars.LockFree.Linearizable
import CaosSeminars.Epoll.Connection
import CaosSeminars.Epoll.Stream
import CaosSeminars.Epoll.FullBuffer
import CaosSeminars.Epoll.Readiness
import CaosSeminars.Epoll.Wakeup
import CaosSeminars.Epoll.HalfClose
import CaosSeminars.Epoll.Resources
import CaosSeminars.Fuse.Document
import CaosSeminars.Library.Writes
import CaosSeminars.Fuse.JsonFs
import CaosSeminars.Fuse.Built
import CaosSeminars.Fuse.Faithful
import CaosSeminars.Fuse.Lookup
import CaosSeminars.LowLevelIo.BufferedWriter
import CaosSeminars.LowLevelIo.BufferedStream
import CaosSeminars.Library.Pipe
import CaosSeminars.LowLevelIo.FailedWrites
import CaosSeminars.LowLevelIo.CopyLines
import CaosSeminars.TcpEcho.Session
import CaosSeminars.TcpEcho.Relay
import CaosSeminars.TcpEcho.Client
import CaosSeminars.TcpEcho.Exchange
import CaosSeminars.TcpEcho.Lockstep
import CaosSeminars.TcpEcho.QuitTest
import CaosSeminars.Condvar.Barrier
import CaosSeminars.TcpFork.Reaper
import CaosSeminars.Processes.RunOnce
import CaosSeminars.Library.StackOrder
import CaosSeminars.LockFree.ProducerConsumer
import CaosSeminars.LockFree.ManyConsumers
import CaosSeminars.Library.Schedule
import CaosSeminars.LowLevelIo.ReadRetry
import CaosSeminars.LowLevelIo.WriteSchedules
import CaosSeminars.LowLevelIo.PerfVariants
import CaosSeminars.TcpEcho.SameSession
import CaosSeminars.UdpEcho.Server
import CaosSeminars.LockFree.PopResult
import CaosSeminars.Library.Allocator
import CaosSeminars.LockFree.Destroy
import CaosSeminars.TcpFork.Descriptors
import CaosSeminars.Library.FibMod
import CaosSeminars.Library.Flags
import CaosSeminars.Library.Listing
import CaosSeminars.Library.X86
import CaosSeminars.Assembly.FibLoop
import CaosSeminars.Assembly.FibRec
import CaosSeminars.Assembly.FibAgree
import CaosSeminars.Assembly.MySum
import CaosSeminars.Assembly.SumN
import CaosSeminars.Assembly.IntArgument
import CaosSeminars.LowLevelIo.ErrorHandlingIo
import CaosSeminars.Fuse.Mount
import CaosSeminars.Library.Words
import CaosSeminars.Processes.Tokenise
import CaosSeminars.Epoll.Dispatch
import CaosSeminars.Epoll.LogLine
import CaosSeminars.Signals.Sigint
import CaosSeminars.Library.Stdio
import CaosSeminars.TcpFork.LogRecords
import CaosSeminars.Signals.Sigqueue
import CaosSeminars.Library.X86ReadOnly
import CaosSeminars.Assembly.AvxAdd
import CaosSeminars.Library.ForLoop
import CaosSeminars.Memory.Matmul
import CaosSeminars.Library.SizeLoop
import CaosSeminars.Memory.CacheLine
import CaosSeminars.NoSync.Counter
import CaosSeminars.Crypto.OneTimePad
import CaosSeminars.Library.Potential
import CaosSeminars.LockFree.Progress
import CaosSeminars.Faulty.Machine
import CaosSeminars.NoSync.AtomicCounter
import CaosSeminars.NoSync.Attained
import CaosSeminars.Faulty.Safety
import CaosSeminars.Faulty.Aborts
import CaosSeminars.Faulty.Progress
import CaosSeminars.Mutexes.Deadlock
import CaosSeminars.Processes.PsTail
import CaosSeminars.Processes.PsTailRuns
import CaosSeminars.Processes.PsTailEnds
import CaosSeminars.Epoll.Isolation
import CaosSeminars.UdpEcho.Duplicates
import CaosSeminars.Memory.ListTraversal
import CaosSeminars.Threads.MultipleCreate
import CaosSeminars.Condvar.Progress
import CaosSeminars.Signals.Sigprocmask
import CaosSeminars.Signals.Sigwait
import CaosSeminars.TcpEcho.Cuts
