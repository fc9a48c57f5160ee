import OSN.Lib.Run
import OSN.Lib.Ring
import OSN.Lib.Threads
import OSN.Lib.Discipline
import OSN.Lib.Triple
import OSN.Lib.Linearizable
import OSN.Lib.CondVar
import OSN.Lib.Headcount
import OSN.Lib.Redo
import OSN.Lib.Owner
import OSN.Lib.Circle
import OSN.Lib.Bytes
import OSN.Lib.Ends
import OSN.Lib.Tenancy
import OSN.Kernel.Proc
import OSN.Kernel.Harts
import OSN.Kernel.Killed
import OSN.Kernel.ProcQueue
import OSN.Kernel.Mlfq
import OSN.Kernel.MlfqSteps
import OSN.Kernel.MlfqQueues
import OSN.Kernel.MlfqOrder
import OSN.Kernel.MlfqSlice
import OSN.Kernel.MlfqAgeing
import OSN.Kernel.MlfqAccount
import OSN.Kernel.Scan
import OSN.Kernel.Fcfs
import OSN.Kernel.Pbs
import OSN.Kernel.PbsHistory
import OSN.Kernel.Streams
import OSN.Kernel.Threads
import OSN.Kernel.LockOrder
import OSN.Kernel.Writes
import OSN.Kernel.Critical
import OSN.Kernel.Switch
import OSN.Kernel.Family
import OSN.Kernel.Forking
import OSN.Kernel.Niceness
import OSN.Kernel.ScanLocks
import OSN.Kernel.Syscall
import OSN.Kernel.SetPriority
import OSN.Kernel.Waitx
import OSN.Kernel.Traps
import OSN.Kernel.LockProtocol
import OSN.Kernel.Children
import OSN.Kernel.Wakeups
import OSN.Kernel.Log
import OSN.Kernel.LogAtomic
import OSN.Kernel.LogSpace
import OSN.Kernel.PipeFifo
import OSN.Kernel.BufferCache
import OSN.Kernel.VirtioDisk
import OSN.Fs.Disk
import OSN.Fs.Inode
import OSN.Fs.Dir
import OSN.Fs.Calls
import OSN.Fs.Refs
import OSN.Fs.Reading
import OSN.Fs.Mkfs
import OSN.Fs.Blocks
import OSN.Fs.Owners
import OSN.Fs.Contents
import OSN.Fs.Ownership
import OSN.Server.Dictionary
import OSN.Server.Parsing
import OSN.Server.Client
import OSN.Server.RequestsList
import OSN.Server.Locks
import OSN.Server.Concurrent
import OSN.Server.Linearize
import OSN.Stadium.Match
import OSN.Stadium.Lifetimes
import OSN.Stadium.Seats
import OSN.Stadium.Shutdown
import OSN.Stadium.Goals
import OSN.Stadium.Defence
import OSN.Courses.Registration
import OSN.Courses.Steps
import OSN.Courses.Assistants
import OSN.Courses.Alone
import OSN.Courses.Labs
import OSN.Courses.Withdrawal
import OSN.Courses.Ledger
import OSN.Courses.Tutorials
import OSN.Courses.Stranded
import OSN.Fs.MkfsImage
import OSN.Fs.MkfsFiles
import OSN.Fs.MkfsNames
import OSN.Fs.Steady
import OSN.Fs.SteadyCalls
import OSN.Fs.Whole
import OSN.Fs.Holes
import OSN.Fs.Accounts
import OSN.Fs.Passes
import OSN.Fs.Files
import OSN.Fs.PartWrites
import OSN.Fs.ByteArray
import OSN.Lib.OpenFile
import OSN.Reversal.CopyLoop
import OSN.Reversal.Programs
import OSN.Vm.Ram
import OSN.Vm.Pagetable
import OSN.Vm.Entries
import OSN.Vm.Tree
import OSN.Vm.Walk
import OSN.Vm.Mapping
import OSN.Vm.Mappages
import OSN.Vm.Unmapping
import OSN.Vm.Refines
import OSN.Vm.UserCopy
import OSN.Vm.Uvmalloc
import OSN.Vm.Growproc
import OSN.Kernel.PipeRead
import OSN.Lib.LineEditor
import OSN.Kernel.ConsoleLines
import OSN.Lib.Slots
import OSN.Fs.DirSlots
import OSN.Fs.DirMap
import OSN.Fs.Paths
import OSN.Vm.Freewalk
import OSN.Vm.UserTable
import OSN.Vm.Exec
import OSN.Vm.UserImage
import OSN.Vm.Loading
import OSN.Vm.ArgStack
import OSN.Vm.Rooms
import OSN.Vm.AllOrNothing
import OSN.Vm.NewImage
import OSN.Vm.Uvmcopy
import OSN.Vm.UserView
import OSN.Vm.Estate
import OSN.Vm.Procs
import OSN.Vm.Hosting
import OSN.Vm.PrivateMemory
import OSN.Vm.KernelEnd
import OSN.Vm.Families
import OSN.Vm.Userinit
import OSN.Lib.Refinement
import OSN.Vm.ProcRuns
import OSN.Vm.Census
import OSN.Lib.Extents
import OSN.User.Umalloc
import OSN.Lib.Around
import OSN.User.FreeRing
import OSN.User.FreeBlocks
import OSN.User.Malloc
import OSN.User.MallocRuns
import OSN.Lib.Journal
import OSN.Kernel.LogRuns
import OSN.User.Grep
import OSN.User.Shell
import OSN.User.ShellWords
import OSN.User.ShellGrammar
