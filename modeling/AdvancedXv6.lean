import AdvancedXv6.Lib.Effect
import AdvancedXv6.Lib.Run
import AdvancedXv6.Lib.Redo
import AdvancedXv6.Lib.Ring
import AdvancedXv6.Access.Login
import AdvancedXv6.Access.Block
import AdvancedXv6.Access.Blockers
import AdvancedXv6.Access.Owners
import AdvancedXv6.Access.History
import AdvancedXv6.Swap.Layout
import AdvancedXv6.Swap.State
import AdvancedXv6.Swap.Pageswap
import AdvancedXv6.Swap.Vm
import AdvancedXv6.Swap.Proc
import AdvancedXv6.Swap.Owner
import AdvancedXv6.Swap.Entry
import AdvancedXv6.Swap.Quiet
import AdvancedXv6.Swap.Wf
import AdvancedXv6.Swap.KallocSpec
import AdvancedXv6.Swap.VictimSpec
import AdvancedXv6.Swap.EvictSpec
import AdvancedXv6.Swap.SwapArea
import AdvancedXv6.Swap.SwapOutSpec
import AdvancedXv6.Swap.MapSpec
import AdvancedXv6.Swap.FreeSpec
import AdvancedXv6.Swap.AllocSpec
import AdvancedXv6.Swap.FaultSpec
import AdvancedXv6.Swap.Trail
import AdvancedXv6.Swap.ProcSpec
import AdvancedXv6.Swap.CopySpec
import AdvancedXv6.Swap.SyscallSpec
import AdvancedXv6.Swap.ExitSpec
import AdvancedXv6.Swap.UserSpec
import AdvancedXv6.Swap.ExecSpec
import AdvancedXv6.Swap.Controller
import AdvancedXv6.Swap.Choice
import AdvancedXv6.Jobs.State
import AdvancedXv6.Jobs.Proc
import AdvancedXv6.Jobs.Step
import AdvancedXv6.Jobs.Move
import AdvancedXv6.Jobs.Turn
import AdvancedXv6.Jobs.Wf
import AdvancedXv6.Jobs.Suspend
import AdvancedXv6.Jobs.Lives
import AdvancedXv6.Jobs.StartLater
import AdvancedXv6.Jobs.Clock
import AdvancedXv6.Jobs.Accounting
import AdvancedXv6.Jobs.Aging
import AdvancedXv6.Jobs.Signals
import AdvancedXv6.Jobs.Trap
import AdvancedXv6.Jobs.Reuse
import AdvancedXv6.Jobs.Handler
import AdvancedXv6.Log.State
import AdvancedXv6.Log.Spec
import AdvancedXv6.Log.Crash
import AdvancedXv6.Log.Step
import AdvancedXv6.Log.Admission
import AdvancedXv6.Files.State
import AdvancedXv6.Files.Inode
import AdvancedXv6.Files.Dir
import AdvancedXv6.Files.File
import AdvancedXv6.Files.Syscall
import AdvancedXv6.Files.Step
import AdvancedXv6.Files.Counts
import AdvancedXv6.Files.CacheSpec
import AdvancedXv6.Files.InodeSpec
import AdvancedXv6.Files.DirSpec
import AdvancedXv6.Files.FileSpec
import AdvancedXv6.Files.TableSpec
import AdvancedXv6.Files.CallSpec
import AdvancedXv6.Files.ProcSpec
import AdvancedXv6.Files.OpenSpec
import AdvancedXv6.Files.LinkSpec
import AdvancedXv6.Files.Balance
import AdvancedXv6.Files.Story
import AdvancedXv6.Files.Check
import AdvancedXv6.Files.Modes
import AdvancedXv6.Files.Guarded
import AdvancedXv6.Files.Tree
import AdvancedXv6.Files.Entries
import AdvancedXv6.Files.Linked
import AdvancedXv6.Files.Walk
import AdvancedXv6.Files.NameSpec
import AdvancedXv6.Files.Exact
import AdvancedXv6.Files.Known
import AdvancedXv6.Files.Still
import AdvancedXv6.Files.Failures
import AdvancedXv6.Files.Meets
import AdvancedXv6.Pipes.State
import AdvancedXv6.Pipes.Lossless
import AdvancedXv6.Console.State
import AdvancedXv6.Console.Order
import AdvancedXv6.Family.State
import AdvancedXv6.Family.Wf
import AdvancedXv6.Family.Exit
import AdvancedXv6.Family.Children
import AdvancedXv6.Family.Kill
import AdvancedXv6.Cache.State
import AdvancedXv6.Cache.Owned
import AdvancedXv6.Cache.Content
import AdvancedXv6.Cache.Step
import AdvancedXv6.Cache.Commit
import AdvancedXv6.Cache.Coherent
import AdvancedXv6.Lib.Links
import AdvancedXv6.Lib.Bytes
import AdvancedXv6.Disk.State
import AdvancedXv6.Disk.Place
import AdvancedXv6.Disk.Logged
import AdvancedXv6.Disk.Alloc
import AdvancedXv6.Disk.Content
import AdvancedXv6.Disk.Trunc
import AdvancedXv6.Disk.Arrays
import AdvancedXv6.Disk.Calls
import AdvancedXv6.Disk.Sound
import AdvancedXv6.Disk.Keep
import AdvancedXv6.Disk.CallSpec
import AdvancedXv6.Disk.Runs
import AdvancedXv6.Disk.Touch
import AdvancedXv6.Disk.Walk
import AdvancedXv6.Disk.Reserve
import AdvancedXv6.Disk.Names
import AdvancedXv6.Disk.Directory
import AdvancedXv6.Disk.DirMap
import AdvancedXv6.Disk.Paths
import AdvancedXv6.Icache.State
import AdvancedXv6.Icache.WriteBack
import AdvancedXv6.Lib.Counting
import AdvancedXv6.Swap.Stock
import AdvancedXv6.Swap.Boot
import AdvancedXv6.Swap.Growth
import AdvancedXv6.Swap.Spaces
import AdvancedXv6.Swap.Flat
import AdvancedXv6.Swap.Copyout
import AdvancedXv6.Swap.Machine
import AdvancedXv6.Swap.Refine
import AdvancedXv6.Swap.Runs
import AdvancedXv6.Swap.Release
import AdvancedXv6.Lib.Circle
import AdvancedXv6.Heap.State
import AdvancedXv6.Heap.Blocks
import AdvancedXv6.Heap.Free
import AdvancedXv6.Heap.Malloc
import AdvancedXv6.Heap.Sbrk
import AdvancedXv6.Heap.Discipline
import AdvancedXv6.Heap.Requests
import AdvancedXv6.Lib.Copy
import AdvancedXv6.Strings.Memmove
import AdvancedXv6.Lib.Prefixes
import AdvancedXv6.Strings.Grep
import AdvancedXv6.Jobs.Select
import AdvancedXv6.Jobs.Counters
import AdvancedXv6.Jobs.Switches
import AdvancedXv6.Jobs.Tally
import AdvancedXv6.Lib.Simulate
import AdvancedXv6.Shell.State
import AdvancedXv6.Shell.Grammar
import AdvancedXv6.Shell.Complete
import AdvancedXv6.Shell.Lexer
import AdvancedXv6.Shell.Parser
import AdvancedXv6.Disk.Mkfs
import AdvancedXv6.Disk.Append
import AdvancedXv6.Disk.Image
import AdvancedXv6.Disk.Make
import AdvancedXv6.Disk.Shipped
import AdvancedXv6.Disk.Holes
import AdvancedXv6.Disk.Agree
import AdvancedXv6.Locks.State
import AdvancedXv6.Locks.Flow
import AdvancedXv6.Locks.Spin
import AdvancedXv6.Locks.Threads
import AdvancedXv6.Locks.Wf
import AdvancedXv6.Locks.Step
import AdvancedXv6.Locks.Table
import AdvancedXv6.Locks.Switch
import AdvancedXv6.Locks.Run
import AdvancedXv6.Locks.Exclusion
import AdvancedXv6.Locks.Sleeplock
import AdvancedXv6.Locks.Deadlock
