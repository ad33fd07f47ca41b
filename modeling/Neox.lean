import Neox.Lib.Run
import Neox.Lib.Pending
import Neox.Lib.Ring
import Neox.Layout
import Neox.Task.State
import Neox.Task.Scheduler
import Neox.Task.Invariant
import Neox.Task.SchedulerRuns
import Neox.Task.Fairness
import Neox.Task.Machine
import Neox.Task.Steady
import Neox.Task.Interrupts
import Neox.Task.Threads
import Neox.Task.History
import Neox.Task.Semaphores
import Neox.Task.Locks
import Neox.Task.Condvars
import Neox.Task.Processes
import Neox.Task.AddressSpaces
import Neox.Task.Reaper
import Neox.Task.Ownership
import Neox.Lib.Bytes
import Neox.Lib.Encoding
import Neox.Lib.Checked
import Neox.Lib.Traced
import Neox.Lib.Segment
import Neox.Lib.Tiling
import Neox.Arch.Context
import Neox.Arch.ContextRuns
import Neox.Lib.Stack
import Neox.Arch.Descriptors
import Neox.Arch.Processor
import Neox.Arch.Traps
import Neox.Arch.TrapRuns
import Neox.Arch.UserMode
import Neox.Arch.TimeSharing
import Neox.Arch.Pic
import Neox.Mm.Pmm
import Neox.Mm.Paging
import Neox.Mm.Bitmap
import Neox.Mm.Allocations
import Neox.Mm.Placement
import Neox.Mm.Uses
import Neox.Mm.Mappings
import Neox.Mm.Directories
import Neox.Mm.Refinement
import Neox.Mm.Growth
import Neox.Mm.Supply
import Neox.Mm.Rights
import Neox.Mm.Heap
import Neox.Mm.HeapBlocks
import Neox.Mm.HeapMemory
import Neox.Mm.HeapRefinement
import Neox.Mm.HeapRuns
import Neox.Mm.Boot
import Neox.Mm.Vam
import Neox.Mm.VamSearch
import Neox.Mm.Start
import Neox.Mm.Overlay
import Neox.Mm.Ledger
import Neox.Mm.Reclaim
import Neox.Mm.HeapGrowth
import Neox.Mm.IdleStack
import Neox.Mm.HeapFailure
import Neox.Mm.Apart
import Neox.Mm.NoUserWords
import Neox.Mm.UserAccess
import Neox.Mm.UserRanges
import Neox.Elf.Loader
import Neox.Elf.Bounds
import Neox.Elf.Permissions
import Neox.Elf.Reclamation
import Neox.Elf.Rollback
import Neox.Fs.File
import Neox.Fs.Mount
import Neox.Fs.Reads
import Neox.Fs.Remount
import Neox.Fs.Cursors
import Neox.Klib.Lists
import Neox.Boot.Multiboot
import Neox.Klib.Printf
import Neox.Drivers.Vga
import Neox.Drivers.Console
import Neox.Fs.Mkfs
import Neox.Fs.ReadBack
import Neox.Proc.State
import Neox.Proc.StackPages
import Neox.Proc.Exec
import Neox.Proc.UserStack
import Neox.Proc.Syscall
import Neox.Proc.ThreadCreation
import Neox.Proc.DirectMap
import Neox.Proc.Confinement
import Neox.Proc.KernelThreads
import Neox.Proc.KernelRuns
import Neox.Proc.ExecArguments
import Neox.Proc.StackBalance
import Neox.Proc.FrameAccounts
import Neox.Mm.Translations
