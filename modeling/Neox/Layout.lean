/-!
# The address-space layout

The constants of `memory_layout.h`, `memory.h` and `paging.h`. Addresses are `Nat`; arithmetic
that the C code does on `uint32_t` is reduced modulo `2 ^ 32` where it is done.
-/

namespace Neox

/-- `PAGE_SIZE`. -/
@[simp] abbrev pageSize : Nat := 0x1000

/-- The modulus of `uint32_t` and `uintptr_t`. -/
@[simp] abbrev wordModulus : Nat := 0x100000000

/-- `USER_VIRT_END`. -/
@[simp] abbrev userVirtEnd : Nat := 0xBFFFFFFF

/-- `USER_VIRT_NULL_GUARD_END`. -/
@[simp] abbrev userVirtNullGuardEnd : Nat := 0x00000FFF

/-- `KERNEL_VIRT_BASE`. -/
@[simp] abbrev kernelVirtBase : Nat := 0xC0000000

/-- `BOOTSTRAP_MAP_SIZE`: the part of physical memory `kernel.asm` maps. -/
@[simp] abbrev bootstrapMapSize : Nat := 0x01000000

/-- `KERNEL_BOOTSTRAP_END`: the first address after the direct map. -/
@[simp] abbrev kernelBootstrapEnd : Nat := kernelVirtBase + bootstrapMapSize

/-- `KERNEL_LOAD_ADDRESS`. -/
@[simp] abbrev kernelLoadAddress : Nat := 0x00100000

/-- `KERNEL_PHYS_OFFSET`. -/
@[simp] abbrev kernelPhysOffset : Nat := 0xC0000000

/-- `PHYS_TO_VIRT(addr)`, a `uintptr_t` addition. -/
def physToVirt (addr : Nat) : Nat := (addr + kernelPhysOffset) % wordModulus

/-- `VIRT_TO_PHYS(addr)`, a `uintptr_t` subtraction. -/
def virtToPhys (addr : Nat) : Nat := (addr + (wordModulus - kernelPhysOffset)) % wordModulus

/-- `RECURSIVE_PDE_INDEX`. -/
@[simp] abbrev recursivePdeIndex : Nat := 1023

/-- `KERNEL_PDE_START`. -/
@[simp] abbrev kernelPdeStart : Nat := 768

/-- `PAGE_DIRECTORY_ENTRIES`, and `PAGE_ENTRIES` of `paging.h`. -/
@[simp] abbrev pageDirectoryEntries : Nat := 1024

/-- `KERNEL_HEAP_START`. -/
@[simp] abbrev kernelHeapStart : Nat := kernelBootstrapEnd

/-- `KERNEL_HEAP_END`. -/
@[simp] abbrev kernelHeapEnd : Nat := 0xCFFFFFFF

/-- `KERNEL_STACKS_START`. -/
@[simp] abbrev kernelStacksStart : Nat := 0xD0000000

/-- `KERNEL_STACKS_END`. -/
@[simp] abbrev kernelStacksEnd : Nat := 0xDFFFFFFF

/-- `KERNEL_STACK_SIZE`. -/
@[simp] abbrev kernelStackSize : Nat := 0x4000

/-- `KERNEL_STACK_COUNT`. -/
@[simp] abbrev kernelStackCount : Nat := (kernelStacksEnd - kernelStacksStart + 1) / kernelStackSize

/-- `KERNEL_REMAINING_START`. -/
@[simp] abbrev kernelRemainingStart : Nat := 0xE0000000

/-- `KERNEL_REMAINING_END`. -/
@[simp] abbrev kernelRemainingEnd : Nat := 0xFFBFFFFF

/-- `VIRT_TO_PHYS` undoes `PHYS_TO_VIRT` on every 32-bit address. -/
theorem virtToPhys_physToVirt {p : Nat} (h : p < wordModulus) : virtToPhys (physToVirt p) = p := by
  simp only [wordModulus] at h
  simp only [virtToPhys, physToVirt, kernelPhysOffset, wordModulus]
  omega

end Neox
