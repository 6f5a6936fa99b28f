import LinuxKernel.V011.Mm.FileContents
import LinuxKernel.V011.WaitQueueSound
import LinuxKernel.V011.Fs.BufferUnique
import LinuxKernel.V011.Timer
import LinuxKernel.V011.ExitOnce
import LinuxKernel.V011.MallocSound
import LinuxKernel.V011.Fs.PipeFifo
import LinuxKernel.V011.TtyLines
import LinuxKernel.V011.Math
import LinuxKernel.V011.BlkDrv.HdOnce
import LinuxKernel.V011.ConsoleScreen
import LinuxKernel.V098.Fs.LocksMap
import LinuxKernel.V098.Fs.LockWaiters
import LinuxKernel.V098.Kernel.TreeForest
import LinuxKernel.V098.Kernel.WaitRings
import LinuxKernel.V098.Fs.PipeWaiters
import LinuxKernel.V098.Fs.FreeListsSound
import LinuxKernel.V098.Net.SockRoute
import LinuxKernel.V098.Net.UnixWrites
import LinuxKernel.V098.Fs.FatCacheSound
import LinuxKernel.V098.Net.SockCharges
import LinuxKernel.V098.Net.TcpAcks
import LinuxKernel.V098.Net.TimerOrder
import LinuxKernel.V011.BlkDrv.Elevator
import LinuxKernel.V011.Fs.BufferQueues
import LinuxKernel.V011.Fs.BufferSpin
import LinuxKernel.V011.Fs.FileOffsetSafe
import LinuxKernel.V011.Fs.DirLookup
import LinuxKernel.V011.Fs.Access
import LinuxKernel.V011.Fs.ExecSizes
import LinuxKernel.V011.Fs.ExecStrings
import LinuxKernel.V011.Kill
import LinuxKernel.V011.TtyWrite
import LinuxKernel.V011.Fork
import LinuxKernel.V011.SchedFair
import LinuxKernel.V011.SigReturn
import LinuxKernel.V011.ConPrints
import LinuxKernel.V011.TtyAlarm
import LinuxKernel.V011.SetIds
import LinuxKernel.V011.Fs.Dup2
import LinuxKernel.V011.Fs.SuperMaps
import LinuxKernel.V011.Fs.Truncate
import LinuxKernel.V011.Mm.VerifyArea
import LinuxKernel.V011.VsprintfSpec
import LinuxKernel.V098.Fs.ExtReadRing
import LinuxKernel.V098.Net.Route
import LinuxKernel.V098.Kernel.Ioport
import LinuxKernel.V098.Kernel.Itimer
import LinuxKernel.V098.Mm.FreePagesCount
import LinuxKernel.V098.Mm.PageRangeRemap
import LinuxKernel.V098.Fs.MsdosName
import LinuxKernel.V098.Fs.MsdosTextSound
import LinuxKernel.V098.Net.SeqShift
import LinuxKernel.V098.Kernel.Mktime
import LinuxKernel.V098.Net.ChecksumSound
import LinuxKernel.V012.Math.StoreReal
import LinuxKernel.V012.Math.IntRound
import LinuxKernel.V012.Math.Emulate
import LinuxKernel.V098.Fs.FatWalksFree
