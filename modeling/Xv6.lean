import Xv6.Log.Crash
import Xv6.Log.Reserve
import Xv6.Bio.Capacity
import Xv6.Virtio.Requests
import Xv6.Race.CounterInv
import Xv6.Proc.WaitInv
import Xv6.Ipc.Wakeup
import Xv6.Tty.Discipline
import Xv6.Umalloc.Program
import Xv6.Sh.Print
import Xv6.Proc.SleepLock
import Xv6.Proc.Interrupted
import Xv6.Proc.Kill
import Xv6.Proc.Trace
import Xv6.Vm.PageMapInv
import Xv6.Mkfs.Agree
import Xv6.Itable.Reuse
import Xv6.Sched.LostWakeup
import Xv6.Vm.ExecAtomic
import Xv6.Vm.UserString
import Xv6.Fs.Path
import Xv6.Fs.SharedWrite
import Xv6.Fs.Files
import Xv6.Memmove
import Xv6.Printint
import Xv6.Grep
