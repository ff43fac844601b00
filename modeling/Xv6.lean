import Xv6.Console.LineDiscipline
import Xv6.Disk.Coherence
import Xv6.Fs.FullDir
import Xv6.Fs.IcacheCoherence
import Xv6.Fs.Tree
import Xv6.Grep.Lines
import Xv6.Ide.Queue
import Xv6.Log.Crash
import Xv6.Log.Reservation
import Xv6.Mkfs.Boot
import Xv6.Mkfs.Fresh
import Xv6.Mp.Config
import Xv6.Paging.Fork
import Xv6.Pipe.Lossless
import Xv6.Pipe.Waiters
import Xv6.Sched.Attribution
import Xv6.Sched.Kill
import Xv6.Sched.Policies
import Xv6.Sched.Reaping
import Xv6.Sched.RoundRobin
import Xv6.Sched.Sleep
import Xv6.Sched.Times
import Xv6.Sched.Waiting
import Xv6.Sh.Grammar
import Xv6.Sh.Nulterminate
import Xv6.Str.Memmove
import Xv6.Sync.SleepLock
import Xv6.Sync.Spinlock
import Xv6.Syscall.Args
import Xv6.Umalloc.Honest
import Xv6.Vm.Stray
