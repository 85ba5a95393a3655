import Xv6.Log.Recovery
import Xv6.Log.Reserve
import Xv6.Sched.Lives
import Xv6.Bio.Coherence
import Xv6.Console.Discipline
import Xv6.Virtio.Protocol
import Xv6.Sh.Parser
import Xv6.Umalloc.Integrity
import Xv6.Itable.Sound
import Xv6.Mkfs.Volume
import Xv6.Vm.Strings
import Xv6.Pipe.Records
import Xv6.User.Grep
import Xv6.User.Pingpong
import Xv6.User.Primes
import Xv6.Memmove
import Xv6.Sched.Ticks
import Xv6.Sched.Pids
import Xv6.Fs.Crowd
import Xv6.Vm.Kalloc
