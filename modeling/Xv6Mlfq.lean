import Xv6Mlfq.Stats
import Xv6Mlfq.Starvation
import Xv6Mlfq.BoostPeriod
import Xv6Mlfq.Kernel.Exclusion
import Xv6Mlfq.Kernel.Wait
import Xv6Mlfq.Fs.Lru
import Xv6Mlfq.Fs.Reserve
import Xv6Mlfq.Fs.Flat
import Xv6Mlfq.Virtio
import Xv6Mlfq.Fs.Names
import Xv6Mlfq.Kernel.NextBoost
import Xv6Mlfq.Layout
import Xv6Mlfq.Fs.WriteLog
import Xv6Mlfq.Fs.Image
import Xv6Mlfq.PipeRead
import Xv6Mlfq.Vm.Exec
import Xv6Mlfq.Console
import Xv6Mlfq.User.Grep
import Xv6Mlfq.User.Memmove
