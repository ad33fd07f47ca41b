import Neox.Elf.Loader
import Neox.Task.State

/-!
# Processes and their memory

`process.c`, the parts of `thread.c` that acquire and release memory, and the user stacks of
`usermode.c`. A thread or a process is named as in the tasking model; its record here has the
fields that own memory.
-/

namespace Neox

/-- `struct user_stack`: its `virt` and the heap block it lives in. -/
structure UserStack where
  virt : Nat
  block : Nat
  deriving DecidableEq, Repr

/-- `struct process`: its heap block, page directory, user stacks and linked threads. -/
structure ProcessMemory where
  block : Nat
  pageDirectory : Nat
  userStacks : List UserStack
  threads : List ThreadId
  deriving DecidableEq, Repr

/-- `struct thread`: its heap block, process, stacks, `usermode_desc` and whether it has
terminated. -/
structure ThreadMemory where
  block : Nat
  process : ProcessId
  kernelStack : Nat
  userStack : Nat
  usermodeDesc : Nat
  terminated : Bool
  deriving DecidableEq, Repr

/-- The memory manager's state, the processes in `process_list` and the threads that
`thread_create` has returned and `thread_destroy` has not freed. `files` is what `fs_find` and
`fs_file_data` answer on the mounted image. -/
structure Kernel where
  mm : Mm
  pids : List ProcessId
  processes : ProcessId → ProcessMemory
  tids : List ThreadId
  threads : ThreadId → ThreadMemory
  nextPid : ProcessId
  nextTid : ThreadId
  files : List UInt8 → Option (Option ElfImage)

/-- `sizeof(struct process)`. -/
abbrev processSize : Nat := 320

/-- `sizeof(struct thread)`. -/
abbrev threadSize : Nat := 80

/-- `sizeof(struct user_stack)`. -/
abbrev userStackRecordSize : Nat := 12

/-- `sizeof(struct usermode_desc)`. -/
abbrev usermodeDescSize : Nat := 8

/-- `USER_STACK_SIZE`. -/
@[simp] abbrev userStackSize : Nat := pageSize

/-- `USER_STACK_REGION_START`. -/
@[simp] abbrev userStackRegionStart : Nat := 0x80000000

/-- `USER_STACK_REGION_END`. -/
@[simp] abbrev userStackRegionEnd : Nat := 0xC0000000

/-! ## Processes -/

namespace Kernel

def setProcess (k : Kernel) (p : ProcessId) (process : ProcessMemory) : Kernel :=
  { k with processes := Function.update k.processes p process }

end Kernel

/-- `process_create`; the name and the descriptor table are not part of the record here. -/
def processCreate (k : Kernel) : Except Stop (Option ProcessId × Kernel) := do
  let (block, mm) ← kmalloc k.mm processSize
  if block = 0 then return (none, { k with mm := mm })
  match ← pagingCreateDirectory mm with
  | (none, mm) => do
      let mm ← kfree mm block
      return (none, { k with mm := mm })
  | (some directory, mm) =>
      let process : ProcessMemory :=
        { block := block, pageDirectory := directory, userStacks := [], threads := [] }
      return (some k.nextPid,
        { k.setProcess k.nextPid process with
          mm := mm, pids := k.pids ++ [k.nextPid], nextPid := k.nextPid + 1 })

/-- `process_destroy`. -/
def processDestroy (k : Kernel) (p : ProcessId) : Except Stop Kernel := do
  if (k.processes p).threads ≠ [] then throw (.assertion .noThreads)
  if (k.processes p).userStacks ≠ [] then throw (.assertion .noUserStacks)
  let mm ← if (k.processes p).pageDirectory ≠ 0 then
      pagingDestroyDirectory k.mm (k.processes p).pageDirectory
    else pure k.mm
  let mm ← kfree mm (k.processes p).block
  return { k with mm := mm, pids := k.pids.erase p }

/-! ## Kernel threads -/

/-- The frame of page `i` of a kernel stack is released: the body of the loops of `thread_create`
and `thread_destroy`. -/
def releaseStackPage (stack : Nat) (m : Mm) (i : Nat) : Except Stop Mm := do
  let phys ← pagingTranslate m m.kernelDirectory (stack + i * pageSize)
  let m ← pagingUnmap m m.kernelDirectory (stack + i * pageSize)
  return if phys ≠ 0 then m.freePage phys else m

/-- The loop of `thread_create` that maps the stack: `i` pages are mapped and `n` are left. `false`
is a failure of `pmm_alloc_page`, after the roll-back. -/
def mapStackPages (directory stack : Nat) (m : Mm) (i : Nat) : Nat → Except Stop (Bool × Mm)
  | 0 => return (true, m)
  | n + 1 =>
      let (phys, m) := m.allocPage
      if phys = 0 then do
        let m ← (List.range i).reverse.foldlM (releaseStackPage stack) m
        return (false, m)
      else do
        let m ← pagingMap m m.kernelDirectory (stack + i * pageSize) phys
          (pagePresent ||| pageWritable)
        if !(← pagingValidateMapping m m.kernelDirectory (stack + i * pageSize)) then
          throw (.assertion .mapped)
        if !(← pagingValidateMapping m directory (stack + i * pageSize)) then
          throw (.assertion .mapped)
        mapStackPages directory stack m (i + 1) n

/-- The pages of a kernel stack. -/
abbrev kernelStackPages : Nat := kernelStackSize / pageSize

/-- `thread_create`. The initial frame it builds on the stack is left out. -/
def threadCreate (k : Kernel) (p : ProcessId) : Except Stop (Option ThreadId × Kernel) := do
  let (block, mm) ← kmalloc k.mm threadSize
  if block = 0 then return (none, { k with mm := mm })
  let (stack, mm) := vamAllocStack mm
  if stack = 0 then
    let mm ← kfree mm block
    return (none, { k with mm := mm })
  let (mapped, mm) ← mapStackPages (k.processes p).pageDirectory stack mm 0 kernelStackPages
  if !mapped then
    let mm ← kfree (vamFreeStack mm stack) block
    return (none, { k with mm := mm })
  if (← pagingTranslate mm mm.kernelDirectory (stack + kernelStackSize - 4)) = 0 then
    let mm ← kfree (vamFreeStack mm stack) block
    return (none, { k with mm := mm })
  let thread : ThreadMemory :=
    { block := block, process := p, kernelStack := stack, userStack := 0, usermodeDesc := 0,
      terminated := false }
  return (some k.nextTid,
    { k with
      mm := mm, tids := k.tids ++ [k.nextTid],
      threads := Function.update k.threads k.nextTid thread, nextTid := k.nextTid + 1 })

/-- `thread_add`, which links the thread in its process. -/
def linkThread (k : Kernel) (t : ThreadId) : Kernel :=
  let p := (k.threads t).process
  k.setProcess p { k.processes p with threads := (k.processes p).threads ++ [t] }

/-! ## User stacks -/

/-- `user_stack_alloc` from `virt` down, over at most `n` addresses. -/
def userStackAllocFrom (m : Mm) (process : ProcessMemory) (virt : Nat) : Nat → Except Stop Nat
  | 0 => return 0
  | n + 1 => do
      let occupied := process.userStacks.any fun stack => stack.virt == virt
      let free ← if occupied then pure false
        else do
          let phys ← pagingTranslate m process.pageDirectory virt
          pure (phys == 0)
      if free then return virt else userStackAllocFrom m process (virt - userStackSize) n

/-- `user_stack_alloc`. -/
def userStackAlloc (m : Mm) (process : ProcessMemory) : Except Stop Nat :=
  userStackAllocFrom m process (userStackRegionEnd - userStackSize)
    ((userStackRegionEnd - userStackRegionStart) / userStackSize)

/-- `user_stack_reserve`. -/
def userStackReserve (k : Kernel) (p : ProcessId) (virt : Nat) : Except Stop (Bool × Kernel) := do
  let (block, mm) ← kmalloc k.mm userStackRecordSize
  if block = 0 then return (false, { k with mm := mm })
  let process := k.processes p
  return (true, { k.setProcess p
    { process with userStacks := process.userStacks ++ [⟨virt, block⟩] } with mm := mm })

/-- `usermode_stack_release`. -/
def usermodeStackRelease (k : Kernel) (p : ProcessId) (virt : Nat) : Except Stop Kernel :=
  let process := k.processes p
  match process.userStacks.find? fun stack => stack.virt == virt with
  | none => throw (.assertion .reserved)
  | some stack => do
      let mm ← kfree k.mm stack.block
      let userStacks := process.userStacks.eraseP fun stack => stack.virt == virt
      return { k.setProcess p { process with userStacks := userStacks } with mm := mm }

/-- `PAGE_PRESENT | PAGE_WRITABLE | PAGE_USER`. -/
abbrev userPageFlags : Nat := pagePresent ||| pageWritable ||| pageUser

/-- `paging_translate`, `paging_unmap` and `pmm_free_page` of a user stack's page, as
`thread_destroy` does them. -/
def releaseUserPage (m : Mm) (directory virt : Nat) : Except Stop Mm := do
  let phys ← pagingTranslate m directory virt
  let m ← pagingUnmap m directory virt
  return if phys ≠ 0 then m.freePage phys else m

/-- The second half of `usermode_thread_create` and `usermode_elf_thread_create`: the stack's page
`phys` is mapped and the kernel-side thread created. -/
def usermodeThreadFinish (k : Kernel) (p : ProcessId) (desc stack phys : Nat) :
    Except Stop (Option ThreadId × Kernel) := do
  let directory := (k.processes p).pageDirectory
  let mm ← pagingMap k.mm directory stack phys userPageFlags
  if !(← pagingValidateMapping mm directory stack) then throw (.assertion .mapped)
  match ← threadCreate { k with mm := mm } p with
  | (none, k) => do
      let mm ← pagingUnmap k.mm (k.processes p).pageDirectory stack
      let k ← usermodeStackRelease { k with mm := mm.freePage phys } p stack
      let mm ← kfree k.mm desc
      return (none, { k with mm := mm })
  | (some t, k) =>
      let thread := { k.threads t with userStack := stack, usermodeDesc := desc }
      return (some t, { k with threads := Function.update k.threads t thread })

/-- `usermode_thread_create`. A failure of `pmm_alloc_page` does not release the reservation. -/
def usermodeThreadCreate (k : Kernel) (p : ProcessId) : Except Stop (Option ThreadId × Kernel) := do
  let (desc, mm) ← kmalloc k.mm usermodeDescSize
  if desc = 0 then return (none, { k with mm := mm })
  let stack ← userStackAlloc mm (k.processes p)
  if stack = 0 then
    let mm ← kfree mm desc
    return (none, { k with mm := mm })
  let (reserved, k) ← userStackReserve { k with mm := mm } p stack
  if !reserved then
    let mm ← kfree k.mm desc
    return (none, { k with mm := mm })
  let (phys, mm) := k.mm.allocPage
  if phys = 0 then
    let mm ← kfree mm desc
    return (none, { k with mm := mm })
  usermodeThreadFinish { k with mm := mm } p desc stack phys

/-- `usermode_elf_thread_create`. -/
def usermodeElfThreadCreate (k : Kernel) (p : ProcessId) (entry : Nat) :
    Except Stop (Option ThreadId × Kernel) := do
  if entry = 0 then return (none, k)
  let (desc, mm) ← kmalloc k.mm usermodeDescSize
  if desc = 0 then return (none, { k with mm := mm })
  let stack ← userStackAlloc mm (k.processes p)
  if stack = 0 then
    let mm ← kfree mm desc
    return (none, { k with mm := mm })
  let (reserved, k) ← userStackReserve { k with mm := mm } p stack
  if !reserved then
    let mm ← kfree k.mm desc
    return (none, { k with mm := mm })
  let (phys, mm) := k.mm.allocPage
  if phys = 0 then
    let k ← usermodeStackRelease { k with mm := mm } p stack
    let mm ← kfree k.mm desc
    return (none, { k with mm := mm })
  usermodeThreadFinish { k with mm := mm } p desc stack phys

/-- `usermode_stack_create`: the new stack pointer, or `none` where it returns `false`. -/
def usermodeStackCreate (k : Kernel) (p : ProcessId) : Except Stop (Option Nat × Kernel) := do
  let stack ← userStackAlloc k.mm (k.processes p)
  if stack = 0 then return (none, k)
  let (reserved, k) ← userStackReserve k p stack
  if !reserved then return (none, k)
  let (phys, mm) := k.mm.allocPage
  if phys = 0 then
    let k ← usermodeStackRelease { k with mm := mm } p stack
    return (none, k)
  let directory := (k.processes p).pageDirectory
  let mm ← pagingMap mm directory stack phys userPageFlags
  if !(← pagingValidateMapping mm directory stack) then
    let mm ← pagingUnmap mm directory stack
    let k ← usermodeStackRelease { k with mm := mm.freePage phys } p stack
    return (none, k)
  return (some (stack + userStackSize), { k with mm := mm })

/-! ## Destruction -/

/-- The user stack of a thread and its reservation. -/
def releaseUserStack (k : Kernel) (p : ProcessId) (stack : Nat) : Except Stop Kernel := do
  let mm ← releaseUserPage k.mm (k.processes p).pageDirectory stack
  usermodeStackRelease { k with mm := mm } p stack

/-- `thread_destroy`. -/
def threadDestroy (k : Kernel) (t : ThreadId) : Except Stop Kernel := do
  let thread := k.threads t
  let p := thread.process
  if !thread.terminated then throw (.assertion .terminated)
  let k := k.setProcess p { k.processes p with threads := (k.processes p).threads.erase t }
  let mm ← if thread.kernelStack ≠ 0 then do
      let mm ← (List.range kernelStackPages).foldlM (releaseStackPage thread.kernelStack) k.mm
      pure (vamFreeStack mm thread.kernelStack)
    else pure k.mm
  let k := { k with mm := mm }
  let k ← if thread.usermodeDesc ≠ 0 then do
      if thread.userStack = 0 then throw (.assertion .userStack)
      let k ← releaseUserStack k p thread.userStack
      let mm ← kfree k.mm thread.usermodeDesc
      pure { k with mm := mm }
    else if thread.userStack ≠ 0 then releaseUserStack k p thread.userStack
    else pure k
  let mm ← kfree k.mm thread.block
  return { k with mm := mm, tids := k.tids.erase t }

end Neox
