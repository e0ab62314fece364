import Xv6.Param
import Xv6.Lib.Scan
import Xv6.Lib.Run
import Xv6.Lib.WriteProg
import Xv6.Lib.LockOrder
import Xv6.Proc.Defs
import Xv6.Proc.Ops
import Xv6.Proc.Step
import Xv6.Proc.Frame
import Xv6.Proc.Metrics
import Xv6.Proc.Lottery
import Xv6.Proc.Lifecycle
import Xv6.Proc.Table
import Xv6.Proc.Perf
import Xv6.Proc.Locks
import Xv6.Fs.Commit
import Xv6.Fs.Log
import Xv6.File.Pipe
import Xv6.Proc.Sleep
import Xv6.Fs.Layout
import Xv6.Fs.Blocks
import Xv6.Fs.Mkfs
import Xv6.Fs.Dir
import Xv6.File.Sysfile
import Xv6.Fs.Bio
import Xv6.Fs.Iref
import Xv6.Lib.Count
import Xv6.File.Refs
import Xv6.User.Grep
import Xv6.Lib.Cumul
import Xv6.User.Umalloc
import Xv6.Fs.Path
import Xv6.Vm.Mmu
import Xv6.Vm.Uvm
import Xv6.Vm.Grow
import Xv6.Dev.Console
import Xv6.Fs.Data
import Xv6.Lib.Copy
import Xv6.Kernel.String
import Xv6.Lib.Buffer
import Xv6.Lib.Decimal
import Xv6.User.Report
import Xv6.Lib.Runs
import Xv6.User.Ulib
import Xv6.User.Uniq
import Xv6.User.Find
import Xv6.User.Sh
import Xv6.User.ShText
import Xv6.Vm.Map
import Xv6.Lib.SList
import Xv6.Dev.Ide
import Xv6.Dev.MemIde
import Xv6.Kernel.Spinlock
