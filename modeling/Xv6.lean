import Xv6.Kernel.Log.Admission
import Xv6.Kernel.Log.Atomic
import Xv6.Kernel.Log.Balance
import Xv6.Kernel.Proc.Accounts
import Xv6.Kernel.Proc.Growproc
import Xv6.Kernel.Sched.Kill
import Xv6.Kernel.Sched.WaitWake
import Xv6.Kernel.Vm.FiniteMap
import Xv6.Kernel.Sched.Condition
import Xv6.Kernel.Sleeplock
import Xv6.Kernel.Pipe.Strand
import Xv6.Kernel.Log.Sleep
import Xv6.Kernel.Console.Read
import Xv6.Kernel.Console.Write
import Xv6.Kernel.Interruptible
import Xv6.Kernel.Virtio.Protocol
import Xv6.Kernel.Fs.Shared
import Xv6.Kernel.Fs.NameMap
import Xv6.Kernel.Fs.Balance
import Xv6.Kernel.Fs.Fileread
import Xv6.Kernel.Exec.Arguments
import Xv6.User.Grep
import Xv6.User.Itoa
