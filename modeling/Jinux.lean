import Jinux.Vm.Coverage
import Jinux.Vm.Snapshot
import Jinux.Vm.VmoRights
import Jinux.Vm.FrameHandles
import Jinux.Vm.PageTableMap
import Jinux.Process.VdsoMapping
import Jinux.Fs.ChannelEof
import Jinux.Fs.ChannelReady
import Jinux.Fs.SharedMapping
import Jinux.Sync.RwMutexWake
import Jinux.Task.RunQueue
import Jinux.Ext2.FreeCounts
import Jinux.Ext2.DirBlocks
import Jinux.Ext2.StaleInode
import Jinux.Time.ClockMonotone
import Jinux.Virtio.BlockDevice
import Jinux.Signal.Unblockable
import Jinux.Signal.Sigreturn
import Jinux.Process.Kill
import Jinux.Process.FutexSpaces
import Jinux.Process.FutexWait
import Jinux.Process.Terminal
import Jinux.Process.Sharing
import Jinux.Trap.RecycleAllocator
import Jinux.Fs.FileTableLock
import Jinux.Ext2.LinkCounts
import Jinux.Ext2.DirScan
import Jinux.Ext2.Disk
import Jinux.Net.TcpStream
