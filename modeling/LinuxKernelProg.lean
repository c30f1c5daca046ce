import LinuxKernelProg.Lib.Run
import LinuxKernelProg.Lib.Ring
import LinuxKernelProg.Lib.RingSteps
import LinuxKernelProg.Lib.Mask
import LinuxKernelProg.Lib.Loop
import LinuxKernelProg.Lib.Ticker
import LinuxKernelProg.Lib.History
import LinuxKernelProg.Lib.CString
import LinuxKernelProg.Lib.CBuffer
import LinuxKernelProg.Lib.Strtok
import LinuxKernelProg.Lib.BoundedMap
import LinuxKernelProg.Lib.ArrayMap
import LinuxKernelProg.Lib.Stopwatch
import LinuxKernelProg.Lib.Cbpf
import LinuxKernelProg.Lib.Refcount
import LinuxKernelProg.Lib.Vsnprintf
import LinuxKernelProg.Lib.Text
import LinuxKernelProg.Lib.Scan
import LinuxKernelProg.Lib.Sscanf
import LinuxKernelProg.Lib.Turns
import LinuxKernelProg.Lib.RwSem
import LinuxKernelProg.Lib.WeakMemory
import LinuxKernelProg.Lib.Rcu
import LinuxKernelProg.Lib.Ledger
import LinuxKernelProg.Lib.Kthread
import LinuxKernelProg.Lib.Kfifo
import LinuxKernelProg.Lib.HalfRing
import LinuxKernelProg.Lib.Holdings
import LinuxKernelProg.Lib.Shards
import LinuxKernelProg.Lib.WordMemory
import LinuxKernelProg.Lib.Slab
import LinuxKernelProg.Lib.Writes
import LinuxKernelProg.Lib.Intervals
import LinuxKernelProg.Lib.NotifierChain
import LinuxKernelProg.Lib.Locks
import LinuxKernelProg.Lib.Publish
import LinuxKernelProg.Lib.LostUpdate
import LinuxKernelProg.Lib.Seqlock
import LinuxKernelProg.Sync.ListRcu.Agree
import LinuxKernelProg.Sync.ListRcu.Interleave
import LinuxKernelProg.Sync.ListRcu.Inv
import LinuxKernelProg.Sync.ListRcu.Safety
import LinuxKernelProg.Sync.ListRcu.Readers
import LinuxKernelProg.Sync.ListRcu.Unload
import LinuxKernelProg.Sync.ListRcu.Printed
import LinuxKernelProg.Sync.RefcountExample
import LinuxKernelProg.Sync.KrefExample
import LinuxKernelProg.Sync.WwTest
import LinuxKernelProg.Sync.HandOver.Basic
import LinuxKernelProg.Sync.HandOver.Semaphores
import LinuxKernelProg.Sync.HandOver.WaitQueues
import LinuxKernelProg.Sync.Rwsem
import LinuxKernelProg.Sync.Rwspin
import LinuxKernelProg.Sync.CpuRwsem
import LinuxKernelProg.Sync.MemoryBarriers
import LinuxKernelProg.Sync.RcuPointer.Basic
import LinuxKernelProg.Sync.RcuPointer.Safe
import LinuxKernelProg.Sync.RcuPointer.Unload
import LinuxKernelProg.Sync.LockfreeList.Basic
import LinuxKernelProg.Sync.LockfreeList.Ops
import LinuxKernelProg.Sync.LockfreeList.Shape
import LinuxKernelProg.Sync.LockfreeList.Listed
import LinuxKernelProg.Sync.LockfreeList.Unload
import LinuxKernelProg.Sync.LocklessQueue.Basic
import LinuxKernelProg.Sync.LocklessQueue.Passed
import LinuxKernelProg.Sync.LocklessQueue.Single
import LinuxKernelProg.Sync.RcuCallbacks
import LinuxKernelProg.Sync.KthreadStop.References
import LinuxKernelProg.Sync.KthreadStop.Queues
import LinuxKernelProg.Sync.KthreadStop.Running
import LinuxKernelProg.Sync.KthreadAt
import LinuxKernelProg.Sync.ThreadRollback
import LinuxKernelProg.Sync.UnloadFree
import LinuxKernelProg.Sync.Delays
import LinuxKernelProg.Sync.KthreadSeq
import LinuxKernelProg.Sync.Workers
import LinuxKernelProg.Mm.VmallocMap
import LinuxKernelProg.Mm.Neutral
import LinuxKernelProg.Mm.Scalability
import LinuxKernelProg.Mm.SafeAlloc
import LinuxKernelProg.Vm.PageTable
import LinuxKernelProg.Vm.Walk
import LinuxKernelProg.Vm.WalkAgree
import LinuxKernelProg.Vm.Paddr
import LinuxKernelProg.Vm.Frame
import LinuxKernelProg.Vm.Userwalk
import LinuxKernelProg.Vm.Userapp
import LinuxKernelProg.Vm.WriteStatus
import LinuxKernelProg.Vm.Arm64Walk
import LinuxKernelProg.Vm.InspectVma
import LinuxKernelProg.Vm.VmaViewer
import LinuxKernelProg.Vm.VmaShown
import LinuxKernelProg.Vm.VmaTotals
import LinuxKernelProg.Vm.VmaType
import LinuxKernelProg.Vm.VmaRace
import LinuxKernelProg.EBpf.ExecCount
import LinuxKernelProg.EBpf.ExecRace
import LinuxKernelProg.EBpf.PrintCounts
import LinuxKernelProg.EBpf.PinnedMap
import LinuxKernelProg.EBpf.FuncLatency.Basic
import LinuxKernelProg.EBpf.FuncLatency.Calls
import LinuxKernelProg.EBpf.FuncLatency.Extremes
import LinuxKernelProg.EBpf.LockContention
import LinuxKernelProg.EBpf.SyscallTracer
import LinuxKernelProg.EBpf.Memleak
import LinuxKernelProg.EBpf.DynamicTraces
import LinuxKernelProg.EBpf.SampleRace
import LinuxKernelProg.EBpf.RecordBytes
import LinuxKernelProg.Security.SeccompModes
import LinuxKernelProg.Security.ApparmorInfo
import LinuxKernelProg.Security.CurrentProfile
import LinuxKernelProg.Security.Keys
import LinuxKernelProg.Notifiers.CrashDump
import LinuxKernelProg.Notifiers.CustomNotifier
import LinuxKernelProg.Interfaces.Counter
import LinuxKernelProg.Interfaces.Printlog
import LinuxKernelProg.BuggyModules.Deadlock
import LinuxKernelProg.BuggyModules.MissingLock
import LinuxKernelProg.BuggyModules.RcuMisuse
