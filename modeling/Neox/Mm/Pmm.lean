import Neox.Layout
import Mathlib.Algebra.Group.Nat.Defs
import Mathlib.Logic.Function.Basic

/-!
# The physical page allocator

`mm/pmm.c`. The bitmap is one bit a page, `true` when the page is taken. Physical addresses are
`Nat`; `NULL` is 0. The memory statistics that only `printf` reads are left out.
-/

namespace Neox

/-- The allocator's globals: `total_pages`, `bitmap`, `free_pages` and `fail_allocations`. -/
structure Pmm where
  totalPages : Nat
  bitmap : Nat → Bool
  freePages : Nat
  failAllocations : Nat

/-- `struct multiboot_mmap_entry`. -/
structure MmapEntry where
  addr : Nat
  len : Nat
  type : Nat
  deriving DecidableEq, Repr

/-- `MULTIBOOT_MEMORY_AVAILABLE`. -/
abbrev multibootMemoryAvailable : Nat := 1

/-- What `pmm_init` reads: the memory map, the boot information block, the `rootfs` module and the
linker's `kernel_end`. `stale` is what the storage chosen for the bitmap held before. -/
structure BootInfo where
  mmap : Option (List MmapEntry)
  mbInfo : Nat
  totalSize : Nat
  module : Option (Nat × Nat)
  kernelEnd : Nat
  stale : Nat → Bool

/-! ## `pmm_init` -/

/-- `page` is one of the `uint32_t` indices `firstPage + i`, `i < pages`. -/
def inPageRange (firstPage pages page : Nat) : Bool :=
  decide ((page + (wordModulus - firstPage)) % wordModulus < pages)

/-- `bitmap_clear_range`. -/
def bitmapClearRange (bitmap : Nat → Bool) (addr len : Nat) : Nat → Bool := fun page =>
  if inPageRange (addr / pageSize % wordModulus) (len / pageSize % wordModulus) page then false
  else bitmap page

/-- `bitmap_set_range`. -/
def bitmapSetRange (bitmap : Nat → Bool) (addr len : Nat) : Nat → Bool := fun page =>
  if inPageRange (addr / pageSize % wordModulus)
      ((len + pageSize - 1) % 2 ^ 64 / pageSize % wordModulus) page then true
  else bitmap page

/-- The first pass over the memory map. -/
def highestAddress (mmap : List MmapEntry) : Nat :=
  mmap.foldl (fun highest entry =>
    if entry.type = multibootMemoryAvailable then max highest ((entry.addr + entry.len) % 2 ^ 64)
    else highest) 0

/-- The second pass over the memory map. -/
def clearAvailable (mmap : List MmapEntry) (bitmap : Nat → Bool) : Nat → Bool :=
  mmap.foldl (fun bitmap entry =>
    if entry.type = multibootMemoryAvailable then bitmapClearRange bitmap entry.addr entry.len
    else bitmap) bitmap

/-- `pmm_init`. -/
def pmmInit (info : BootInfo) : Pmm :=
  match info.mmap with
  | none => { totalPages := 0, bitmap := info.stale, freePages := 0, failAllocations := 0 }
  | some mmap =>
      let totalPages := (highestAddress mmap + pageSize - 1) % 2 ^ 64 / pageSize % wordModulus
      let bitmapSize := (totalPages + 7) % wordModulus / 8
      let mbInfoPhysical := virtToPhys info.mbInfo
      let mbInfoEnd := (mbInfoPhysical + info.totalSize) % wordModulus
      let reservedEnd := if info.kernelEnd < mbInfoEnd then mbInfoEnd else info.kernelEnd
      let bitmapAddress := (reservedEnd + pageSize - 1) % wordModulus / pageSize * pageSize
      let bitmapPages := (bitmapSize + pageSize - 1) / pageSize
      let bitmap := fun page => if page / 8 < bitmapSize then true else info.stale page
      let bitmap := clearAvailable mmap bitmap
      let bitmap := bitmapSetRange bitmap 0 0x00100000
      let bitmap := bitmapSetRange bitmap kernelLoadAddress
        ((info.kernelEnd + (wordModulus - kernelLoadAddress)) % wordModulus)
      let bitmap := bitmapSetRange bitmap mbInfoPhysical info.totalSize
      let bitmap := match info.module with
        | some (modStart, modEnd) =>
            bitmapSetRange bitmap modStart ((modEnd + (wordModulus - modStart)) % wordModulus)
        | none => bitmap
      let bitmap := bitmapSetRange bitmap bitmapAddress (bitmapPages * pageSize % wordModulus)
      { totalPages := totalPages
        bitmap := bitmap
        freePages := (List.range totalPages).countP fun page => !bitmap page
        failAllocations := 0 }

/-! ## Allocation -/

/-- `pmm_alloc_page`: the first clear bit below `total_pages`. -/
def pmmAllocPage (p : Pmm) : Nat × Pmm :=
  if p.failAllocations ≠ 0 then (0, { p with failAllocations := p.failAllocations - 1 })
  else
    match (List.range p.totalPages).find? fun page => !p.bitmap page with
    | some page => (page * pageSize % wordModulus,
        { p with
          bitmap := Function.update p.bitmap page true
          freePages := (p.freePages + (wordModulus - 1)) % wordModulus })
    | none => (0, p)

/-- `pmm_free_page`. -/
def pmmFreePage (p : Pmm) (page : Nat) : Pmm :=
  let pageNumber := page / pageSize
  if p.totalPages ≤ pageNumber then p
  else if !p.bitmap pageNumber then p
  else
    { p with
      bitmap := Function.update p.bitmap pageNumber false
      freePages := (p.freePages + 1) % wordModulus }

/-- `pmm_fail_next_allocations`. -/
def pmmFailNextAllocations (p : Pmm) (count : Nat) : Pmm := { p with failAllocations := count }

namespace Pmm

/-- The allocator may hand out this page. -/
def Free (p : Pmm) (page : Nat) : Prop := page < p.totalPages ∧ p.bitmap page = false

variable {p q : Pmm} {phys page : Nat}

/-- The same pages are free. -/
structure SameFree (p q : Pmm) : Prop where
  totalPages : q.totalPages = p.totalPages
  bitmap : q.bitmap = p.bitmap

theorem SameFree.refl (p : Pmm) : SameFree p p := ⟨rfl, rfl⟩

theorem SameFree.free (h : SameFree p q) : q.Free page ↔ p.Free page := by
  unfold Free
  rw [h.totalPages, h.bitmap]

/-- What `pmm_alloc_page` can do. Page 0 would be returned as `NULL`. -/
theorem pmmAllocPage_spec (h : pmmAllocPage p = (phys, q)) :
    (phys = 0 ∧ SameFree p q) ∨
    ∃ page, p.Free page ∧ (∀ lower, lower < page → ¬ p.Free lower) ∧
      phys = page * pageSize % wordModulus ∧ q.totalPages = p.totalPages ∧
      q.bitmap = Function.update p.bitmap page true := by
  unfold pmmAllocPage at h
  split at h
  · cases h
    exact .inl ⟨rfl, rfl, rfl⟩
  · split at h
    · next page hfind =>
      cases h
      obtain ⟨hfree, hlt, hlower⟩ := List.find?_range_eq_some.mp hfind
      refine .inr ⟨page, ⟨List.mem_range.mp hlt, by simpa using hfree⟩, ?_, rfl, rfl, rfl⟩
      intro lower hl hf
      simpa [hf.2] using hlower lower hl
    · cases h
      exact .inl ⟨rfl, rfl, rfl⟩

/-- What `pmm_free_page` can do. -/
theorem pmmFreePage_spec (p : Pmm) (phys : Nat) :
    (pmmFreePage p phys).totalPages = p.totalPages ∧ ∀ page, (pmmFreePage p phys).bitmap page =
      if page = phys / pageSize ∧ page < p.totalPages then false else p.bitmap page := by
  unfold pmmFreePage
  simp only []
  split
  · next h =>
    refine ⟨rfl, fun page => ?_⟩
    rw [if_neg (by omega)]
  · split
    · next h hb =>
      refine ⟨rfl, fun page => ?_⟩
      split
      · next hp => simpa [hp.1] using hb
      · rfl
    · next h hb =>
      refine ⟨rfl, fun page => ?_⟩
      by_cases hp : page = phys / pageSize
      · subst hp
        rw [if_pos ⟨rfl, by omega⟩]
        simp
      · rw [if_neg fun h => hp h.1]
        simp [hp]

end Pmm

end Neox
