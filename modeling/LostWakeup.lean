import LostWakeup.Ipc.Pipe
import LostWakeup.Ipc.PendingSignals
import LostWakeup.Atomic.Semaphore
import LostWakeup.Mm.Kalloc
import LostWakeup.Lib.RadixTagsRefine
import LostWakeup.Lib.GangLookup
import LostWakeup.Fs.Fat32.Bitmap
import LostWakeup.Mm.VmaLayout
import LostWakeup.Fs.PageCache
import LostWakeup.Fs.Fat32.DirLookup
import LostWakeup.Fs.Fat32.Getdents
import LostWakeup.Fs.Vfs.Namex
import LostWakeup.Mm.AddressSpaces
import LostWakeup.Mm.ForkIsolation
import LostWakeup.Mm.Munmap
import LostWakeup.Atomic.Futex
import LostWakeup.Fs.Bio
import LostWakeup.Fs.Writeback
import LostWakeup.Fs.ShortReads
import LostWakeup.Fs.Mpage
import LostWakeup.Fs.ReadAhead
import LostWakeup.Fs.FailedWrites
import LostWakeup.Fs.ZeroGaps
import LostWakeup.Fs.Fat32.Unlink
import LostWakeup.Mm.SharedFile
import LostWakeup.Fs.Fat32.SizeTracking
import LostWakeup.Fs.Fat32.OneInode
import LostWakeup.Fs.Fat32.Shutdown
import LostWakeup.Fs.Fat32.Mount
import LostWakeup.Fs.Fat32.ClusterAlloc
import LostWakeup.Fs.Fat32.IndexTable
import LostWakeup.Fs.Fat32.Trunc
import LostWakeup.Fs.Fat32.BlockMap
import LostWakeup.Mm.SharedFork
import LostWakeup.Process.Clone
import LostWakeup.Process.Vfork
import LostWakeup.Process.UserStack
import LostWakeup.Process.ExecArgs
import LostWakeup.Process.StackFrames
import LostWakeup.Mm.Found
import LostWakeup.Mm.AllocFailure
import LostWakeup.Mm.Remap
import LostWakeup.Mm.Faults
import LostWakeup.Mm.Translation
import LostWakeup.Mm.VmaCopy
import LostWakeup.Mm.Placement
import LostWakeup.Mm.Protect
import LostWakeup.Mm.UserCopy
import LostWakeup.Mm.Copyout
import LostWakeup.Lib.Sbuf
import LostWakeup.Ipc.SocketStream
import LostWakeup.Ipc.Ports
import LostWakeup.Ipc.Shm
import LostWakeup.Ipc.PipeClose
import LostWakeup.Process.Siblings
import LostWakeup.Process.RunQueues
import LostWakeup.Fs.Fat32.ReadFrame
import LostWakeup.Fs.FileOffsets
import LostWakeup.Lib.Strings
import LostWakeup.Fs.Fat32.ShortName
import LostWakeup.Fs.Fat32.InsertPoint
import LostWakeup.Fs.Fat32.ShortNames
import LostWakeup.Fs.Fat32.EntryDelete
import LostWakeup.Fs.Fat32.DirEmpty
import LostWakeup.Fs.Fat32.NewDirectory
import LostWakeup.Ipc.SignalMask
import LostWakeup.Driver.Console
import LostWakeup.Fs.Append
import LostWakeup.Fs.Sendfile
import LostWakeup.Fs.Vfs.Dirfd
import LostWakeup.Fs.Vfs.Getcwd
import LostWakeup.Fs.Fat32.NameBuffers
import LostWakeup.Fs.Fat32.MalformedRuns
import LostWakeup.Fs.Fat32.MappingDestroy
import LostWakeup.Lib.Clock
import LostWakeup.Lib.HashTable
import LostWakeup.Lib.Sprintf
import LostWakeup.Process.Itimer
import LostWakeup.Atomic.TimedWait
import LostWakeup.Fs.Select
