import Xv6Memfs.Verified.CacheDemand
import Xv6Memfs.Verified.CacheTransparent
import Xv6Memfs.Verified.ExecReturns
import Xv6Memfs.Verified.FileWrite
import Xv6Memfs.Verified.GrepLines
import Xv6Memfs.Verified.GrepMatch
import Xv6Memfs.Verified.IdeRefine
import Xv6Memfs.Verified.InodeCoherence
import Xv6Memfs.Verified.InodeSlots
import Xv6Memfs.Verified.Kill
import Xv6Memfs.Verified.LogCrash
import Xv6Memfs.Verified.LogReservation
import Xv6Memfs.Verified.Madt
import Xv6Memfs.Verified.PagingErase
import Xv6Memfs.Verified.Paths
import Xv6Memfs.Verified.PipeFifo
import Xv6Memfs.Verified.SharedFile
import Xv6Memfs.Verified.Spinlock
import Xv6Memfs.Verified.SplitPath
import Xv6Memfs.Verified.UserMem
