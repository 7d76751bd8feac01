import Xv6.Mem.FreeList
import Xv6.Vm.Ages
import Xv6.Proc.Shares
import Xv6.Proc.Queue
import Xv6.Proc.Stamps
import Xv6.Proc.Lifecycle
import Xv6.Proc.Sleep
import Xv6.Ipc.Discipline
import Xv6.Fs.Crash
import Xv6.Fs.Image
import Xv6.Fs.Namex
import Xv6.Fs.Reservation
import Xv6.Fs.Coherence
import Xv6.Proc.Demand
import Xv6.Proc.Arguments
import Xv6.Proc.Syscall
import Xv6.User.Memmove
import Xv6.User.Sbrk
import Xv6.User.Roundtrip
import Xv6.User.Grep
