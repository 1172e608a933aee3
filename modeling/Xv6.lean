import Xv6.Dev.Console
import Xv6.Dev.Ends
import Xv6.Dev.Ide
import Xv6.Dev.Pipe
import Xv6.Fs.Agree
import Xv6.Fs.Balance
import Xv6.Fs.Bitmap
import Xv6.Fs.Calls
import Xv6.Fs.Content
import Xv6.Fs.Counts
import Xv6.Fs.Dir
import Xv6.Fs.Disk
import Xv6.Fs.Effect
import Xv6.Fs.File
import Xv6.Fs.Follow
import Xv6.Fs.Inject
import Xv6.Fs.Inode
import Xv6.Fs.Layout
import Xv6.Fs.Map
import Xv6.Fs.Mkfs
import Xv6.Fs.Path
import Xv6.Fs.Race
import Xv6.Fs.Reach
import Xv6.Fs.Refs
import Xv6.Fs.Sections
import Xv6.Fs.Symlink
import Xv6.Fs.Trunc
import Xv6.Lib.Bytes
import Xv6.Lib.Chain
import Xv6.Lib.Counters
import Xv6.Lib.Disk
import Xv6.Lib.Ledger
import Xv6.Lib.Prog
import Xv6.Lib.Ring
import Xv6.Lib.Sections
import Xv6.Lib.Slots
import Xv6.Lib.Splice
import Xv6.Lib.Tally
import Xv6.Lib.Transition
import Xv6.Lib.Zoom
import Xv6.Log.Atomic
import Xv6.Log.Bio
import Xv6.Log.Cache
import Xv6.Log.Commit
import Xv6.Log.Concurrent
import Xv6.Log.Crash
import Xv6.Log.Log
import Xv6.Log.Mutex
import Xv6.Log.Refine
import Xv6.Log.Room
import Xv6.Log.Store
import Xv6.Mlfq.Boost
import Xv6.Mlfq.Dictator
import Xv6.Mlfq.Effect
import Xv6.Mlfq.Invariant
import Xv6.Mlfq.Level
import Xv6.Mlfq.Membership
import Xv6.Mlfq.Pick
import Xv6.Mlfq.Priority
import Xv6.Mlfq.Proc
import Xv6.Mlfq.Queue
import Xv6.Mlfq.Sched
import Xv6.Mlfq.Smp
import Xv6.Thread.Args
import Xv6.Thread.Boot
import Xv6.Thread.Covers
import Xv6.Thread.Create
import Xv6.Thread.Effect
import Xv6.Thread.Exec
import Xv6.Thread.Exit
import Xv6.Thread.Family
import Xv6.Thread.Holes
import Xv6.Thread.Image
import Xv6.Thread.Join
import Xv6.Thread.Kill
import Xv6.Thread.Kinit
import Xv6.Thread.Limit
import Xv6.Thread.Locks
import Xv6.Thread.Lodge
import Xv6.Thread.Memlimit
import Xv6.Thread.Own
import Xv6.Thread.Pages
import Xv6.Thread.Proc
import Xv6.Thread.Program
import Xv6.Thread.Recycle
import Xv6.Thread.Replace
import Xv6.Thread.Sched
import Xv6.Thread.Spec
import Xv6.Thread.Spinlock
import Xv6.Thread.Stacks
import Xv6.Thread.Steady
import Xv6.Thread.Switch
import Xv6.Thread.Syscall
import Xv6.Thread.System
import Xv6.Thread.Trace
import Xv6.Thread.Vm
import Xv6.Thread.VmSpec
