import Xv6.Log.Crash
import Xv6.Log.Reserve
import Xv6.Ptable.Fairness
import Xv6.Ptable.KillTarget
import Xv6.Ptable.ExitWait
import Xv6.Pipe.Wakeup
import Xv6.Fs.SharedWrite
import Xv6.User.Malloc
import Xv6.User.Parse
import Xv6.Kernel.Exec
import Xv6.Bio.Refine
import Xv6.Ftable.Release
import Xv6.Ptable.Scheduler
import Xv6.Fs.DirMap
import Xv6.Console.Faults
import Xv6.Exec.Outcome
import Xv6.User.Memmove
import Xv6.Kernel.Mp
import Xv6.User.Grep
import Xv6.Kernel.Sleeplock
import Xv6.Fs.Paths
import Xv6.Kernel.Ide
import Xv6.Kernel.Args
import Xv6.Kernel.Memory
import Xv6.Mkfs.Reading
