import Kolibri.Posix.HandleRuns
import Kolibri.Ipc
import Kolibri.UserHeap.Runs
import Kolibri.Shmem.Runs
import Kolibri.Posix.Futex
import Kolibri.DiskCache.Transparent
import Kolibri.PortArea
import Kolibri.Partitions
import Kolibri.Fs.XfsLookup
import Kolibri.Unpack.Oracle
import Kolibri.Network.TcpTimer
import Kolibri.Fs.ExtTimes
import Kolibri.Ntfs.RunList
import Kolibri.Ntfs.Neighbours
import Kolibri.Video.BlitWindow
import Kolibri.KolibriImg.PutGet
import Kolibri.Sync.RwsemStates
import Kolibri.DiskCache.Layout
import Kolibri.Network.Acceptance
import Kolibri.Gui.WindowStack
import Kolibri.Network.SocketRing
import Kolibri.Time.TimerPass
import Kolibri.DiskCache.ReadChunks
import Kolibri.Network.FragmentOwners
import Kolibri.Posix.PipeWakeups
import Kolibri.Blkdev.AhciWait
import Kolibri.Time.Clock
import Kolibri.Network.ArpAging
import Kolibri.Slab.LockFree
import Kolibri.Coff.Auxiliary
import Kolibri.KernelHeap.BadFree
import Kolibri.Crc
import Kolibri.Bitmap.Oracle
import Kolibri.Video.BlitOracle
import Kolibri.Ntfs.WriteRecord
import Kolibri.Fs.FatLegalNames
import Kolibri.Fs.ExfatSearch
import Kolibri.Gui.WindowPosition
import Kolibri.KolibriImg.Damaged
import Kolibri.Ntfs.Pointer
