import Sugimotos.Mm.Frame
import Sugimotos.Mm.AllocExact
import Sugimotos.Proc.Wait
import Sugimotos.Proc.Clone
import Sugimotos.Proc.Sched
import Sugimotos.Fs.Truncate
import Sugimotos.Fs.FailedOpen
import Sugimotos.Drivers.Sleep
import Sugimotos.Drivers.GpuOwn
import Sugimotos.Drivers.InputEvents
import Sugimotos.Proc.Ranges
import Sugimotos.Proc.UserMaps
import Sugimotos.Proc.Snapshot
import Sugimotos.Proc.Leaks
import Sugimotos.Proc.Undo
import Sugimotos.Proc.ExecArgs
import Sugimotos.Event.Kevent
import Sugimotos.Apps.Getchar
import Sugimotos.Gui.Events
import Sugimotos.Gui.Overflow
import Sugimotos.Gui.Stacking
import Sugimotos.Fs.RootDir
import Sugimotos.Mm.GiveBack
import Sugimotos.Gui.SetText
import Sugimotos.Proc.FaultProgress
import Sugimotos.Lib.Printf
import Sugimotos.Apps.Decimal
import Sugimotos.Apps.SplitArgs
import Sugimotos.Apps.History
import Sugimotos.Fs.InodeTable
import Sugimotos.Proc.Flush
import Sugimotos.Arch.UserContext
import Sugimotos.Proc.CopyView
import Sugimotos.Syscall.Dispatch
import Sugimotos.Proc.Touches
import Sugimotos.Proc.WaitStatus
import Sugimotos.Syscall.Runs
import Sugimotos.Syscall.Execution
import Sugimotos.Apps.FileDb
import Sugimotos.Apps.Arguments
import Sugimotos.Fs.Session
import Sugimotos.Gui.Badges
import Sugimotos.Apps.Console
import Sugimotos.Apps.Terminal
import Sugimotos.Apps.ShellFs
import Sugimotos.Fs.SharedReads
import Sugimotos.Fs.Checked
import Sugimotos.Math.Exact
import Sugimotos.Fs.CheckedReads
import Sugimotos.Fs.CheckedScan
import Sugimotos.Fs.HostileDisk
