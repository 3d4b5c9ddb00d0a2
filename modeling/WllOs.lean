import WllOs.Mm.Theorems.AreaPool
import WllOs.Mm.Theorems.Asid
import WllOs.Platform.Theorems.Tlb
import WllOs.Ipc.Theorems.Shm
import WllOs.Task.Theorems.Manager
import WllOs.Task.Theorems.Credentials
import WllOs.Fs.Theorems.Flock
import WllOs.Fs.Theorems.Deadlock
import WllOs.Fs.Theorems.EventFd
import WllOs.Task.Theorems.Delivery
import WllOs.Task.Theorems.Vfork
import WllOs.Task.Theorems.GroupExit
import WllOs.Fs.Theorems.UserIo
import WllOs.Fs.Theorems.SocketLocks
import WllOs.Fs.Theorems.Net
import WllOs.Fs.Theorems.FlushLoop
import WllOs.Fs.Theorems.DirtyRanges
import WllOs.Fs.Theorems.VfatFiles
import WllOs.Fs.Theorems.CleanPageCache
import WllOs.Fs.Theorems.BlockCache
import WllOs.Fs.Theorems.Openat2
import WllOs.Fs.Theorems.Operations
import WllOs.Fs.Theorems.Access
import WllOs.Mm.Theorems.FreeArea
import WllOs.Mm.Theorems.Discard
import WllOs.Mm.Theorems.Heap
import WllOs.Task.Theorems.Limits
import WllOs.Task.Theorems.IntervalTimer
import WllOs.Mm.Theorems.SharedWriteback
import WllOs.Mm.Theorems.PagedSpace
import WllOs.Fs.Theorems.PipeWrite
import WllOs.Fs.Theorems.Pselect
import WllOs.Fs.Theorems.Dirents
import WllOs.Fs.Theorems.MemFileSystem
import WllOs.Fs.Theorems.NodeCreation
import WllOs.Fs.Theorems.Ext4Exchange
import WllOs.Mm.Theorems.FrameConservation
import WllOs.Mm.Theorems.HeapConservation
import WllOs.Task.Theorems.Wakeup
