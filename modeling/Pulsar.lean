import Pulsar.Kernel.Wakeups
import Pulsar.Kernel.Flush
import Pulsar.Kernel.Epoll
import Pulsar.Proc.Asid
import Pulsar.Proc.Exclusive
import Pulsar.Proc.Loans
import Pulsar.Proc.Spaces
import Pulsar.Proc.Mail
import Pulsar.System.Deferred
import Pulsar.Net.Receive
import Pulsar.Net.Ports
import Pulsar.Kernel.Backlog
import Pulsar.Libc.Mutex
import Pulsar.Libc.Allocator
import Pulsar.System.Shared
import Pulsar.Proc.Directed
import Pulsar.System.Exec
import Pulsar.Proc.Registers
import Pulsar.Shell.Replies
import Pulsar.Wl.Callbacks
import Pulsar.Ext2.Super
import Pulsar.Ext2.Hostile
import Pulsar.Ext2.Reading
import Pulsar.Legacy.Staging
import Pulsar.Ext2.Realpath
import Pulsar.Ext2.DirPath
import Pulsar.Net.Checksum
import Pulsar.Kernel.Control
import Pulsar.Vm.Leaks
import Pulsar.Arch.Numbers
import Pulsar.Arch.Touched
import Pulsar.Libc.Civil
import Pulsar.Libc.Memory
import Pulsar.Libc.Sort
import Pulsar.Libc.Convert
import Pulsar.Kernel.Pipes
import Pulsar.Shell.Damage
import Pulsar.Vm.Merged
import Pulsar.Vm.Stack
import Pulsar.Vm.Pulse
import Pulsar.Shell.Compose
import Pulsar.Vm.Contents
import Pulsar.Plib.Blur
import Pulsar.Plib.Text
import Pulsar.Plib.Pixels
import Pulsar.Proc.Alarm
import Pulsar.Plib.Keyboard
import Pulsar.Virtio.Input
import Pulsar.System.Memory
