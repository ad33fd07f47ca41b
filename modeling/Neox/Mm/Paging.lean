import Neox.Mm.Pmm
import Neox.Lib.Bytes
import Neox.Lib.Checked

/-!
# Page directories and page tables

`mm/paging.c`. A page directory or a page table is a frame of 1024 words and is named by its frame
number; the code keeps the address `PHYS_TO_VIRT` gives for that frame. `direct` is that
conversion, made where the code makes it, together with the access that follows: a frame outside
the direct map is not reached through it, and what such an access does instead is not described
further.
-/

namespace Neox

open Bytes

/-- The `ASSERT`s of the memory manager, of processes and of threads that depend on its state. -/
inductive Assertion where
  /-- `heap_expand`: `heap_head != NULL` and `heap_end >= HEAP_START`. -/
  | heapHead
  /-- `kfree`: the pointer is that of a block in use. -/
  | allocated
  /-- `thread_create`, `usermode_thread_create` and `sys_exec`: the page is mapped. -/
  | mapped
  /-- `process_destroy`: `list_empty(&process->threads)`. -/
  | noThreads
  /-- `process_destroy`: `list_empty(&process->user_stacks)`. -/
  | noUserStacks
  /-- `usermode_stack_release`: the stack is reserved. -/
  | reserved
  /-- `thread_destroy`: `thread->state == THREAD_TERMINATED`. -/
  | terminated
  /-- `thread_destroy`: `thread->user_stack != 0`. -/
  | userStack
  /-- `scheduler_start`: there is a stack slot, and a frame for each of its pages. -/
  | idleStack
  deriving DecidableEq, Repr

/-- Why the kernel stops. -/
inductive Stop where
  | assertion (a : Assertion)
  | pageFault
  /-- `PHYS_TO_VIRT(phys)` is dereferenced and is not an address of the direct map. -/
  | wild (phys : Nat)
  /-- `exec_build_user_stack` stores at this offset from the start of the page, which is outside. -/
  | outsideStack (offset : Nat)
  /-- A loop does not end. -/
  | hang
  deriving DecidableEq, Repr

/-- A block of the kernel heap: the address of its `struct heap_block`, its size and its flag. -/
structure HeapBlock where
  addr : Nat
  size : Nat
  free : Bool
  deriving DecidableEq, Repr

/-- A mapping that `paging_map` installed or `paging_unmap` removed; `table` says whether a page
table was allocated or freed for it. -/
inductive PagingEvent where
  | map (directory virt : Nat) (table : Bool)
  | unmap (directory virt : Nat) (table : Bool)
  deriving DecidableEq, Repr

/-- Physical memory and the globals of `mm/`: `kernel_directory`, the block list from `heap_head`,
`heap_end` and `kernel_stack_bitmap`. `trace` records the mappings made and removed; nothing reads
it. -/
structure Mm where
  pmm : Pmm
  frames : Nat → Block
  kernelDirectory : Nat
  heap : List HeapBlock
  heapEnd : Nat
  stackSlots : Nat → Bool
  trace : List PagingEvent

/-! ## Entries -/

/-- `PAGE_PRESENT`. -/
abbrev pagePresent : Nat := 1

/-- `PAGE_WRITABLE`. -/
abbrev pageWritable : Nat := 2

/-- `PAGE_USER`. -/
abbrev pageUser : Nat := 4

/-- `entry & PAGE_PRESENT`. -/
def present (entry : Nat) : Bool := entry % 2 == 1

/-- `entry & PAGE_USER`. -/
def userAccess (entry : Nat) : Bool := entry / 4 % 2 == 1

/-- `entry & PAGE_FRAME_MASK`. -/
def frameMask (entry : Nat) : Nat := entry / pageSize * pageSize

/-- `(phys & PAGE_FRAME_MASK) | flags`. -/
def pageEntry (phys flags : Nat) : Nat := frameMask phys ||| flags

/-- `virt >> 22`. -/
def directoryIndex (virt : Nat) : Nat := virt / 0x400000

/-- `(virt >> 12) & 0x3FF`. -/
def tableIndex (virt : Nat) : Nat := virt / pageSize % pageDirectoryEntries

/-- The frame behind `PHYS_TO_VIRT(phys)`. -/
def direct (phys : Nat) : Except Stop Nat :=
  if kernelVirtBase ≤ physToVirt phys ∧ physToVirt phys < kernelBootstrapEnd then
    .ok (phys / pageSize)
  else .error (.wild phys)

namespace Mm

/-- `table->entries[index]`. -/
def entry (m : Mm) (table index : Nat) : Nat := word (m.frames table) index

/-- `table->entries[index] = entry`. -/
def setEntry (m : Mm) (table index entry : Nat) : Mm :=
  { m with frames := Function.update m.frames table (setWord (m.frames table) index entry) }

/-- Note a mapping made or removed. -/
def record (m : Mm) (event : PagingEvent) : Mm := { m with trace := m.trace ++ [event] }

/-- `memset(frame, 0, PAGE_SIZE)`. -/
def zeroFrame (m : Mm) (frame : Nat) : Mm :=
  { m with frames := Function.update m.frames frame zero }

/-- The physical address the MMU translates `virt` to. -/
def walk (m : Mm) (directory virt : Nat) : Option Nat :=
  let pde := m.entry directory (directoryIndex virt)
  if present pde then
    let pte := m.entry (pde / pageSize) (tableIndex virt)
    if present pte then some (frameMask pte + virt % pageSize) else none
  else none

/-- The byte at `virt`. -/
def readByte (m : Mm) (directory virt : Nat) : Except Stop UInt8 :=
  match m.walk directory virt with
  | some phys => .ok (m.frames (phys / pageSize) (phys % pageSize))
  | none => .error .pageFault

/-- `pmm_alloc_page`. -/
def allocPage (m : Mm) : Nat × Mm :=
  let (phys, pmm) := pmmAllocPage m.pmm
  (phys, { m with pmm := pmm })

/-- `pmm_free_page`. -/
def freePage (m : Mm) (phys : Nat) : Mm := { m with pmm := pmmFreePage m.pmm phys }

section Entry

variable (m : Mm) {t u i j w : Nat}

theorem entry_lt (t i : Nat) : m.entry t i < wordModulus := word_lt _ i

theorem setEntry_entry (t i u j : Nat) (h : w < wordModulus) :
    (m.setEntry t i w).entry u j = if u = t ∧ j = i then w else m.entry u j := by
  unfold entry setEntry
  by_cases hu : u = t
  · subst hu
    simp only [Function.update_self, true_and]
    exact word_setWord _ i j h
  · simp [hu]

theorem zeroFrame_entry (t u j : Nat) :
    (m.zeroFrame t).entry u j = if u = t then 0 else m.entry u j := by
  unfold entry zeroFrame
  by_cases hu : u = t
  · simp [hu]
  · simp [hu]

@[simp] theorem setEntry_pmm : (m.setEntry t i w).pmm = m.pmm := rfl
@[simp] theorem setEntry_kernelDirectory :
    (m.setEntry t i w).kernelDirectory = m.kernelDirectory := rfl
@[simp] theorem record_entry (e : PagingEvent) : (m.record e).entry t i = m.entry t i := rfl
@[simp] theorem record_pmm (e : PagingEvent) : (m.record e).pmm = m.pmm := rfl
@[simp] theorem record_kernelDirectory (e : PagingEvent) :
    (m.record e).kernelDirectory = m.kernelDirectory := rfl
@[simp] theorem record_frames (e : PagingEvent) : (m.record e).frames = m.frames := rfl
@[simp] theorem freePage_entry (phys : Nat) : (m.freePage phys).entry t i = m.entry t i := rfl
@[simp] theorem freePage_frames (phys : Nat) : (m.freePage phys).frames = m.frames := rfl
@[simp] theorem freePage_kernelDirectory (phys : Nat) :
    (m.freePage phys).kernelDirectory = m.kernelDirectory := rfl
theorem freePage_pmm (phys : Nat) : (m.freePage phys).pmm = pmmFreePage m.pmm phys := rfl

theorem setEntry_frames_of_ne (h : u ≠ t) : (m.setEntry t i w).frames u = m.frames u :=
  Function.update_of_ne h _ _

theorem setEntry_entry_of_ne (h : u ≠ t) : (m.setEntry t i w).entry u j = m.entry u j := by
  unfold entry
  rw [setEntry_frames_of_ne m h]

theorem zeroFrame_frames_of_ne (h : u ≠ t) : (m.zeroFrame t).frames u = m.frames u :=
  Function.update_of_ne h _ _

end Entry

end Mm

section PageEntry

variable {phys flags : Nat}

theorem frameMask_lt (h : phys < wordModulus) : frameMask phys < wordModulus := by
  simp only [frameMask, pageSize, wordModulus] at *
  omega

theorem frameMask_div : frameMask phys / pageSize = phys / pageSize := by
  simp only [frameMask, pageSize]
  omega

theorem pageEntry_eq (h : flags < pageSize) : pageEntry phys flags = frameMask phys + flags := by
  unfold pageEntry frameMask
  rw [Nat.mul_comm]
  exact (Nat.two_pow_add_eq_or_of_lt (i := 12) h _).symm

theorem pageEntry_div (h : flags < pageSize) : pageEntry phys flags / pageSize = phys / pageSize := by
  rw [pageEntry_eq h]
  simp only [frameMask, pageSize] at *
  omega

theorem pageEntry_mod (h : flags < pageSize) : pageEntry phys flags % pageSize = flags := by
  rw [pageEntry_eq h]
  simp only [frameMask, pageSize] at *
  omega

theorem pageEntry_lt (hp : phys < wordModulus) (h : flags < pageSize) :
    pageEntry phys flags < wordModulus := by
  rw [pageEntry_eq h]
  simp only [frameMask, pageSize, wordModulus] at *
  omega

theorem present_pageEntry (h : flags < pageSize) : present (pageEntry phys flags) = present flags := by
  rw [pageEntry_eq h]
  unfold present frameMask
  simp only [pageSize]
  congr 1
  omega

theorem present_zero : present 0 = false := rfl

/-- The direct map reaches the first 16 MiB. -/
theorem direct_eq_ok {t : Nat} (hp : phys < wordModulus) :
    direct phys = .ok t ↔ phys < bootstrapMapSize ∧ t = phys / pageSize := by
  unfold direct physToVirt
  simp only [kernelVirtBase, kernelBootstrapEnd, kernelPhysOffset, wordModulus, bootstrapMapSize] at *
  split
  · constructor
    · intro h
      cases h
      exact ⟨by omega, rfl⟩
    · rintro ⟨-, rfl⟩
      rfl
  · constructor
    · intro h
      cases h
    · rintro ⟨h, -⟩
      omega

end PageEntry

/-! ## Operations -/

/-- `paging_get_table`. -/
def pagingGetTable (m : Mm) (directory index : Nat) : Except Stop (Option Nat) :=
  let entry := m.entry directory index
  if present entry then do
    let table ← direct (frameMask entry)
    return some table
  else return none

/-- `paging_alloc_table`. -/
def pagingAllocTable (m : Mm) : Except Stop (Option Nat × Mm) :=
  let (phys, m) := m.allocPage
  if phys = 0 then return (none, m)
  else do
    let table ← direct phys
    return (some table, m.zeroFrame table)

/-- `paging_map`. When no page table can be allocated it prints a message and maps nothing. -/
def pagingMap (m : Mm) (directory virt phys flags : Nat) : Except Stop Mm := do
  match ← pagingGetTable m directory (directoryIndex virt) with
  | some table =>
      let m := m.setEntry table (tableIndex virt) (pageEntry phys flags)
      return m.record (.map directory virt false)
  | none =>
      match ← pagingAllocTable m with
      | (none, m) => return m
      | (some table, m) =>
          let m := m.setEntry directory (directoryIndex virt)
            (pageEntry (table * pageSize) (pagePresent ||| (flags &&& (pageWritable ||| pageUser))))
          let m := m.setEntry table (tableIndex virt) (pageEntry phys flags)
          return m.record (.map directory virt true)

/-- `paging_unmap`. -/
def pagingUnmap (m : Mm) (directory virt : Nat) : Except Stop Mm := do
  let pde := m.entry directory (directoryIndex virt)
  if !present pde then return m
  match ← pagingGetTable m directory (directoryIndex virt) with
  | none => return m
  | some table =>
      let m := m.setEntry table (tableIndex virt) 0
      if (List.range pageDirectoryEntries).any fun i => present (m.entry table i) then
        return m.record (.unmap directory virt false)
      let m := (m.freePage (frameMask pde)).setEntry directory (directoryIndex virt) 0
      return m.record (.unmap directory virt true)

/-- `paging_translate`. -/
def pagingTranslate (m : Mm) (directory virt : Nat) : Except Stop Nat := do
  match ← pagingGetTable m directory (directoryIndex virt) with
  | none => return 0
  | some table =>
      let entry := m.entry table (tableIndex virt)
      if !present entry then return 0
      return frameMask entry + virt % pageSize

/-- `paging_copy_kernel_mappings`: the loop copies PDE 768 and up. -/
def pagingCopyKernelMappings (m : Mm) (directory : Nat) : Mm :=
  { m with
    frames := Function.update m.frames directory
      (copyWords (m.frames directory) kernelPdeStart (m.frames m.kernelDirectory)) }

/-- `paging_create_directory`. -/
def pagingCreateDirectory (m : Mm) : Except Stop (Option Nat × Mm) :=
  let (phys, m) := m.allocPage
  if phys = 0 then return (none, m)
  else do
    let directory ← direct phys
    return (some directory, pagingCopyKernelMappings (m.zeroFrame directory) directory)

/-- The inner loop of `paging_destroy_directory`: free every page the table maps. -/
def pagingDestroyTable (m : Mm) (table : Nat) : Mm :=
  (List.range pageDirectoryEntries).foldl (fun m i =>
    let pte := m.entry table i
    if present pte then (m.freePage (frameMask pte)).setEntry table i 0 else m) m

/-- One iteration of the outer loop of `paging_destroy_directory`. -/
def pagingDestroyEntry (directory : Nat) (m : Mm) (index : Nat) : Except Stop Mm := do
  let pde := m.entry directory index
  if !present pde then return m
  let table ← direct (frameMask pde)
  return ((pagingDestroyTable m table).freePage (frameMask pde)).setEntry directory index 0

/-- `paging_destroy_directory`. -/
def pagingDestroyDirectory (m : Mm) (directory : Nat) : Except Stop Mm := do
  let m ← (List.range kernelPdeStart).foldlM (pagingDestroyEntry directory) m
  return m.freePage (directory * pageSize)

/-- `paging_validate_mapping`. -/
def pagingValidateMapping (m : Mm) (directory virt : Nat) : Except Stop Bool := do
  match ← pagingGetTable m directory (directoryIndex virt) with
  | none => return false
  | some table => return present (m.entry table (tableIndex virt))

/-- The body of `paging_user_range_valid`'s loop. -/
def pagingUserPage (m : Mm) (directory page : Nat) : Except Stop Bool := do
  match ← pagingGetTable m directory (directoryIndex page) with
  | none => return false
  | some table =>
      let entry := m.entry table (tableIndex page)
      return present entry && userAccess entry

/-- `paging_user_range_valid` for a directory that is not `NULL`. -/
def pagingUserRangeValid (m : Mm) (directory addr len : Nat) : Except Stop Bool :=
  if len = 0 then return true
  else if (addr + len) % wordModulus < addr then return false
  else
    let start := frameMask addr
    let last := frameMask ((addr + len - 1) % wordModulus)
    (List.range ((last - start) / pageSize + 1)).allM fun i =>
      pagingUserPage m directory (start + i * pageSize)

/-- The inner loop of `paging_user_string_valid`: `n` characters are left in the page. -/
def pagingScanPage (m : Mm) (directory : Nat) (address : Nat) : Nat → Except Stop (Option Bool × Nat)
  | 0 => return (none, address)
  | n + 1 => do
      if (← m.readByte directory address) = 0 then return (some true, address)
      if userVirtEnd < address + 1 then return (some false, address + 1)
      pagingScanPage m directory (address + 1) n

/-- The outer loop of `paging_user_string_valid`. A page that ends at the top of the address space
is scanned over and over: `page_end` is 0. -/
def pagingScanPages (m : Mm) (directory : Nat) (address : Nat) : Nat → Except Stop Bool
  | 0 => throw .hang
  | n + 1 => do
      if !(← pagingUserRangeValid m directory address 1) then return false
      match ← pagingScanPage m directory address
          ((frameMask address + pageSize) % wordModulus - address) with
      | (some found, _) => return found
      | (none, address) => pagingScanPages m directory address n

/-- `paging_user_string_valid`. No more pages than the address space has are visited once. -/
def pagingUserStringValid (m : Mm) (directory string : Nat) : Except Stop Bool :=
  if string = 0 then return false
  else pagingScanPages m directory string (wordModulus / pageSize + 1)

/-! ## What the operations do -/

section Spec

open Checked

variable {m m' : Mm} {directory virt phys flags index : Nat}

/-- `paging_get_table` follows a present entry through the direct map. -/
theorem pagingGetTable_spec {table : Option Nat}
    (h : pagingGetTable m directory index = .ok table) :
    present (m.entry directory index) = true ∧
      table = some (m.entry directory index / pageSize) ∧
      m.entry directory index / pageSize < bootstrapMapSize / pageSize ∨
    present (m.entry directory index) = false ∧ table = none := by
  unfold pagingGetTable at h
  simp only [] at h
  split at h
  · next hp =>
    obtain ⟨t, ht, h⟩ := bind_eq_ok.mp h
    cases pure_eq_ok.mp h
    have hlt := m.entry_lt directory index
    obtain ⟨h1, rfl⟩ := (direct_eq_ok (frameMask_lt hlt)).mp ht
    rw [frameMask_div]
    refine .inl ⟨hp, rfl, ?_⟩
    simp only [frameMask, pageSize, bootstrapMapSize] at *
    omega
  · next hp =>
    rw [pure_eq_ok] at h
    exact .inr ⟨by simpa using hp, h.symm⟩

/-- `paging_map` writes into the page table that is there, finds no page for a new one, or
installs a new one. -/
theorem pagingMap_spec (h : pagingMap m directory virt phys flags = .ok m') :
    (present (m.entry directory (directoryIndex virt)) = true ∧
      m' = (m.setEntry (m.entry directory (directoryIndex virt) / pageSize) (tableIndex virt)
        (pageEntry phys flags)).record (.map directory virt false)) ∨
    present (m.entry directory (directoryIndex virt)) = false ∧
      (m.allocPage = (0, m') ∨
      ∃ p m₁ t, m.allocPage = (p, m₁) ∧ p ≠ 0 ∧ direct p = .ok t ∧
        m' = (((m₁.zeroFrame t).setEntry directory (directoryIndex virt)
          (pageEntry (t * pageSize)
            (pagePresent ||| (flags &&& (pageWritable ||| pageUser))))).setEntry t (tableIndex virt)
          (pageEntry phys flags)).record (.map directory virt true)) := by
  unfold pagingMap at h
  obtain ⟨table, htable, h⟩ := bind_eq_ok.mp h
  rcases pagingGetTable_spec htable with ⟨hp, rfl, -⟩ | ⟨hp, rfl⟩
  · exact .inl ⟨hp, (pure_eq_ok.mp h).symm⟩
  · refine .inr ⟨hp, ?_⟩
    obtain ⟨⟨table, m₁⟩, halloc, h⟩ := bind_eq_ok.mp h
    unfold pagingAllocTable at halloc
    rcases hpage : m.allocPage with ⟨p, m₂⟩
    rw [hpage] at halloc
    simp only [] at halloc
    split at halloc
    · next hz =>
      cases pure_eq_ok.mp halloc
      cases pure_eq_ok.mp h
      exact .inl (by rw [hz])
    · next hz =>
      obtain ⟨t, ht, halloc⟩ := bind_eq_ok.mp halloc
      cases pure_eq_ok.mp halloc
      exact .inr ⟨p, m₂, t, rfl, hz, ht, (pure_eq_ok.mp h).symm⟩

/-- `paging_unmap` finds no page table, clears an entry, or clears the last one and frees the
table. -/
theorem pagingUnmap_spec (h : pagingUnmap m directory virt = .ok m') :
    (present (m.entry directory (directoryIndex virt)) = false ∧ m' = m) ∨
    present (m.entry directory (directoryIndex virt)) = true ∧
      (((∃ j < pageDirectoryEntries, present ((m.setEntry
          (m.entry directory (directoryIndex virt) / pageSize) (tableIndex virt) 0).entry
            (m.entry directory (directoryIndex virt) / pageSize) j) = true) ∧
        m' = (m.setEntry (m.entry directory (directoryIndex virt) / pageSize) (tableIndex virt)
          0).record (.unmap directory virt false)) ∨
      (∀ j < pageDirectoryEntries, present ((m.setEntry
          (m.entry directory (directoryIndex virt) / pageSize) (tableIndex virt) 0).entry
            (m.entry directory (directoryIndex virt) / pageSize) j) = false) ∧
        m' = (((m.setEntry (m.entry directory (directoryIndex virt) / pageSize) (tableIndex virt)
          0).freePage (frameMask (m.entry directory (directoryIndex virt)))).setEntry directory
            (directoryIndex virt) 0).record (.unmap directory virt true)) := by
  unfold pagingUnmap at h
  simp only [] at h
  split at h
  · next hp =>
    exact .inl ⟨by simpa using hp, (pure_eq_ok.mp h).symm⟩
  · next hp =>
    refine .inr ⟨by simpa using hp, ?_⟩
    obtain ⟨table, htable, h⟩ := bind_eq_ok.mp h
    rcases pagingGetTable_spec htable with ⟨-, rfl, -⟩ | ⟨hp', rfl⟩
    · simp only [] at h
      split at h
      · next hany =>
        obtain ⟨j, hj, hpresent⟩ := List.any_eq_true.mp hany
        exact .inl ⟨⟨j, List.mem_range.mp hj, hpresent⟩, (pure_eq_ok.mp h).symm⟩
      · next hany =>
        refine .inr ⟨fun j hj => ?_, (pure_eq_ok.mp h).symm⟩
        by_contra hne
        exact hany (List.any_eq_true.mpr ⟨j, List.mem_range.mpr hj, by simpa using hne⟩)
    · simp [hp'] at hp

/-- `paging_translate` is the MMU's translation; 0 stands for none, and for address 0. -/
theorem pagingTranslate_spec (h : pagingTranslate m directory virt = .ok phys) :
    phys = (m.walk directory virt).getD 0 := by
  unfold pagingTranslate at h
  obtain ⟨table, htable, h⟩ := bind_eq_ok.mp h
  unfold Mm.walk
  rcases pagingGetTable_spec htable with ⟨hp, rfl, -⟩ | ⟨hp, rfl⟩
  · simp only [hp, if_true]
    simp only [] at h
    split at h
    · next he =>
      rw [if_neg (by simpa using he)]
      exact (pure_eq_ok.mp h).symm
    · next he =>
      rw [if_pos (by simpa using he)]
      exact (pure_eq_ok.mp h).symm
  · simp only [hp]
    exact (pure_eq_ok.mp h).symm

/-- `paging_validate_mapping` says whether the MMU translates the address. -/
theorem pagingValidateMapping_spec {valid : Bool}
    (h : pagingValidateMapping m directory virt = .ok valid) :
    valid = (m.walk directory virt).isSome := by
  unfold pagingValidateMapping at h
  obtain ⟨table, htable, h⟩ := bind_eq_ok.mp h
  unfold Mm.walk
  rcases pagingGetTable_spec htable with ⟨hp, rfl, -⟩ | ⟨hp, rfl⟩
  · simp only [hp, if_true]
    rw [← pure_eq_ok.mp h]
    split <;> simp_all
  · simp only [hp]
    exact (pure_eq_ok.mp h).symm

end Spec

end Neox
