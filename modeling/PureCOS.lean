import PureCOS.Ext2.Reads
import PureCOS.Ext2.Walks
import PureCOS.Process.SignalReturn
import PureCOS.Process.Pids
import PureCOS.Sched.Wakeup
import PureCOS.Vfs.PositionedWrites
import PureCOS.Tmpfs.FailedWrites
import PureCOS.Libc.Qsort
import PureCOS.Io.BlockDevice
import PureCOS.Libc.Stdio
import PureCOS.PureL.Locals
import PureCOS.Shell.Quoting
import PureCOS.Net.Dot11Data
import PureCOS.Net.ArpCache
import PureCOS.Net.DhcpRuns
import PureCOS.Net.DnsCache
import PureCOS.Net.DnsAnswers
import PureCOS.Fs.Initramfs
import PureCOS.Ipc.MailboxSend
import PureCOS.Net.TcpWire
import PureCOS.Time.Civil
import PureCOS.Libc.Time
import PureCOS.Libc.MallocLimits
import PureCOS.Fs.InstallLayout
import PureCOS.Fs.Accounts
import PureCOS.Libc.Vsnprintf
import PureCOS.Libc.Vfscanf
import PureCOS.Random.HashDrbg
import PureCOS.PureL.Concat
import PureCOS.Shell.Substitution
import PureCOS.Shell.Assignments
import PureCOS.Shell.Errexit
import PureCOS.Mm.ContiguousSearch
import PureCOS.Diagnostics.Klog
