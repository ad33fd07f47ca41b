import Neox.Mm.Paging
import Mathlib.Logic.Relation

/-!
# Kernel virtual memory, the kernel heap and kernel-stack slots

`mm/vmm.c`, `mm/heap.c` and the stack slots of `mm/vam.c`. The block list is a list of
addresses, sizes and flags; the contents of the blocks are kept by the structures that own them.
-/

namespace Neox

/-! ## `vmm.c` -/

/-- The address of page `i` of a range that starts at `virt`. -/
def rangePage (virt i : Nat) : Nat := (virt + i * pageSize) % wordModulus

/-- The body of `vmm_unmap_pages`' loop. -/
def vmmUnmapPage (virt : Nat) (m : Mm) (i : Nat) : Except Stop Mm := do
  let phys ← pagingTranslate m m.kernelDirectory (rangePage virt i)
  if phys = 0 then return m
  let m ← pagingUnmap m m.kernelDirectory (rangePage virt i)
  return m.freePage (frameMask phys)

/-- `vmm_unmap_pages`. -/
def vmmUnmapPages (m : Mm) (virt count : Nat) : Except Stop Mm :=
  (List.range count).foldlM (vmmUnmapPage virt) m

/-- The second loop of `vmm_map_pages`; `i` pages are mapped and `n` are left. -/
def vmmMapPagesFrom (virt : Nat) (m : Mm) (i : Nat) : Nat → Except Stop (Bool × Mm)
  | 0 => return (true, m)
  | n + 1 =>
      let (phys, m) := m.allocPage
      if phys = 0 then do
        let m ← vmmUnmapPages m virt i
        return (false, m)
      else do
        let m ← pagingMap m m.kernelDirectory (rangePage virt i) phys (pagePresent ||| pageWritable)
        vmmMapPagesFrom virt m (i + 1) n

/-- `vmm_map_pages`. -/
def vmmMapPages (m : Mm) (virt count : Nat) : Except Stop (Bool × Mm) := do
  let unmapped ← (List.range count).allM fun i => do
    let phys ← pagingTranslate m m.kernelDirectory (rangePage virt i)
    return phys == 0
  if unmapped then vmmMapPagesFrom virt m 0 count else return (false, m)

/-- `vmm_alloc_pages`. -/
def vmmAllocPages (m : Mm) (virt count : Nat) : Except Stop (Nat × Mm) :=
  if count = 0 then return (0, m)
  else do
    let (mapped, m) ← vmmMapPages m virt count
    return (if mapped then virt else 0, m)

/-- `vmm_free_pages`. -/
def vmmFreePages (m : Mm) (virt count : Nat) : Except Stop Mm := vmmUnmapPages m virt count

/-! ## `heap.c` -/

/-- `sizeof(struct heap_block)`, which `aligned(8)` rounds up. -/
@[simp] abbrev heapHeader : Nat := 16

/-- `HEAP_ALIGNMENT`. -/
@[simp] abbrev heapAlignment : Nat := 8

/-- `heap_align`. -/
def heapAlign (size : Nat) : Nat :=
  if wordModulus - 1 - (heapAlignment - 1) < size then 0
  else (size + heapAlignment - 1) / heapAlignment * heapAlignment

/-- `block + 1`, the address `kmalloc` returns. -/
def HeapBlock.data (b : HeapBlock) : Nat := b.addr + heapHeader

/-- `heap_merge` from block `b`, which `rest` follows. -/
def heapMergeFrom (b : HeapBlock) : List HeapBlock → List HeapBlock
  | [] => [b]
  | next :: rest =>
      if b.free && next.free then
        heapMergeFrom { b with size := b.size + (heapHeader + next.size) } rest
      else b :: heapMergeFrom next rest

/-- `heap_merge`. -/
def heapMerge : List HeapBlock → List HeapBlock
  | [] => []
  | b :: rest => heapMergeFrom b rest

/-- What `heap_find_free` tests. -/
def HeapBlock.fits (size : Nat) (b : HeapBlock) : Bool := b.free && decide (size ≤ b.size)

/-- `heap_split_block`, then `block->free = false`: the blocks that stand for `block` after. -/
def heapSplitBlock (block : HeapBlock) (size : Nat) : List HeapBlock :=
  if block.size - size ≤ heapHeader then [{ block with free := false }]
  else [{ block with size := size, free := false },
    { addr := block.data + size, size := block.size - size - heapHeader, free := true }]

/-- Take the first block that fits: `heap_find_free`, `heap_split_block` and `block->free = false`.
The address is 0 when no block fits. -/
def heapTake (size : Nat) : List HeapBlock → Option (Nat × List HeapBlock)
  | [] => none
  | b :: rest =>
      if b.fits size then some (b.data, heapSplitBlock b size ++ rest)
      else (heapTake size rest).map fun (addr, rest) => (addr, b :: rest)

/-- `heap_expand`. The new header is written through the mapping `vmm_alloc_pages` made, which is
missing when `paging_map` found no page for the page table. -/
def heapExpand (m : Mm) : Except Stop (Bool × Mm) :=
  if m.heap = [] ∨ m.heapEnd < kernelHeapStart then throw (.assertion .heapHead)
  else do
    let (virt, m) ← vmmAllocPages m m.heapEnd 1
    if virt = 0 then return (false, m)
    if !(← pagingValidateMapping m m.kernelDirectory m.heapEnd) then throw .pageFault
    let block : HeapBlock := { addr := m.heapEnd, size := pageSize - heapHeader, free := true }
    return (true,
      { m with heap := heapMerge (m.heap ++ [block]), heapEnd := (m.heapEnd + pageSize) % wordModulus })

/-- `kmalloc`'s search, growing the heap up to `n` times. -/
def kmallocFrom (size : Nat) (m : Mm) : Nat → Except Stop (Nat × Mm)
  | 0 => return (0, m)
  | n + 1 =>
      match heapTake size m.heap with
      | some (addr, heap) => return (addr, { m with heap := heap })
      | none => do
          let (expanded, m) ← heapExpand m
          if expanded then kmallocFrom size m n else return (0, m)

/-- `kmalloc`. Every growth takes a page, so `total_pages + 1` rounds are enough. -/
def kmalloc (m : Mm) (size : Nat) : Except Stop (Nat × Mm) :=
  if size = 0 then return (0, m)
  else if heapAlign size = 0 then return (0, m)
  else kmallocFrom (heapAlign size) m (m.pmm.totalPages + 1)

/-- Mark the block with data address `ptr` free; `none` when there is none or it is free. -/
def heapRelease (ptr : Nat) : List HeapBlock → Option (List HeapBlock)
  | [] => none
  | b :: rest =>
      if b.data = ptr then if b.free then none else some ({ b with free := true } :: rest)
      else (heapRelease ptr rest).map (b :: ·)

/-- `kfree`. -/
def kfree (m : Mm) (ptr : Nat) : Except Stop Mm :=
  if ptr = 0 then return m
  else
    match heapRelease ptr m.heap with
    | none => throw (.assertion .allocated)
    | some heap => return { m with heap := heapMerge heap }

/-- `heap_init`. -/
def heapInit (m : Mm) : Except Stop Mm := do
  let (virt, m) ← vmmAllocPages m kernelHeapStart 1
  if virt = 0 then return m
  if !(← pagingValidateMapping m m.kernelDirectory kernelHeapStart) then throw .pageFault
  return { m with
    heap := [{ addr := kernelHeapStart, size := pageSize - heapHeader, free := true }]
    heapEnd := kernelHeapStart + pageSize }

/-! ## Kernel-stack slots -/

/-- `vam_alloc_stack`: the first free slot. -/
def vamAllocStack (m : Mm) : Nat × Mm :=
  match (List.range kernelStackCount).find? fun slot => !m.stackSlots slot with
  | some slot => (kernelStacksStart + slot * kernelStackSize,
      { m with stackSlots := Function.update m.stackSlots slot true })
  | none => (0, m)

/-- `vam_free_stack`. -/
def vamFreeStack (m : Mm) (virt : Nat) : Mm :=
  if virt = 0 then m
  else if virt < kernelStacksStart ∨ kernelStacksEnd < virt then m
  else if (virt - kernelStacksStart) % kernelStackSize ≠ 0 then m
  else
    { m with
      stackSlots :=
        Function.update m.stackSlots ((virt - kernelStacksStart) / kernelStackSize) false }

/-! ## Growing by a page -/

section Growth

open Checked

variable {m m' : Mm} {virt : Nat}

/-- `vmm_alloc_pages` of one page, which is not taken for mapped before. -/
theorem vmmAllocPages_one {r : Nat} (h : vmmAllocPages m virt 1 = .ok (r, m')) :
    r = 0 ∧ m' = m ∨ pagingTranslate m m.kernelDirectory (virt % wordModulus) = .ok 0 ∧
      ∃ p m₁, m.allocPage = (p, m₁) ∧ (r = 0 ∧ p = 0 ∧ m' = m₁ ∨ r = virt ∧ p ≠ 0 ∧
        pagingMap m₁ m₁.kernelDirectory (virt % wordModulus) p (pagePresent ||| pageWritable) =
          .ok m') := by
  unfold vmmAllocPages at h
  rw [if_neg (by decide)] at h
  obtain ⟨⟨mapped, m₂⟩, hmap, h⟩ := bind_eq_ok.mp h
  cases pure_eq_ok.mp h
  unfold vmmMapPages at hmap
  obtain ⟨unmapped, htranslate, hmap⟩ := bind_eq_ok.mp hmap
  cases unmapped with
  | false =>
      cases pure_eq_ok.mp hmap
      exact .inl ⟨rfl, rfl⟩
  | true =>
      have hfirst : rangePage virt 0 = virt % wordModulus := by
        unfold rangePage
        rw [Nat.zero_mul, Nat.add_zero]
      have hnone : pagingTranslate m m.kernelDirectory (virt % wordModulus) = .ok 0 := by
        rw [show List.range 1 = [0] from rfl, List.allM, hfirst] at htranslate
        cases hphys : pagingTranslate m m.kernelDirectory (virt % wordModulus) with
        | error e =>
            rw [hphys] at htranslate
            cases htranslate
        | ok phys =>
            rw [hphys, ok_bind] at htranslate
            cases phys with
            | zero => rfl
            | succ n => cases htranslate
      simp only [if_true] at hmap
      unfold vmmMapPagesFrom at hmap
      rcases halloc : m.allocPage with ⟨p, m₁⟩
      rw [halloc] at hmap
      simp only [] at hmap
      refine .inr ⟨hnone, p, m₁, rfl, ?_⟩
      split at hmap
      · next hp =>
        obtain ⟨m₃, hunmap, hmap⟩ := bind_eq_ok.mp hmap
        cases pure_eq_ok.mp hmap
        cases pure_eq_ok.mp hunmap
        exact .inl ⟨rfl, hp, rfl⟩
      · next hp =>
        obtain ⟨m₃, hpage, hmap⟩ := bind_eq_ok.mp hmap
        unfold vmmMapPagesFrom at hmap
        cases pure_eq_ok.mp hmap
        rw [hfirst] at hpage
        exact .inr ⟨rfl, hp, hpage⟩

/-- `heap_expand`, taken apart. -/
theorem heapExpand_spec {b : Bool} (h : heapExpand m = .ok (b, m')) :
    kernelHeapStart ≤ m.heapEnd ∧ ∃ virt m₁, vmmAllocPages m m.heapEnd 1 = .ok (virt, m₁) ∧
      (b = false ∧ virt = 0 ∧ m' = m₁ ∨ b = true ∧ virt ≠ 0 ∧
        pagingValidateMapping m₁ m₁.kernelDirectory m₁.heapEnd = .ok true ∧ m' = { m₁ with
          heap := heapMerge
            (m₁.heap ++ [{ addr := m₁.heapEnd, size := pageSize - heapHeader, free := true }])
          heapEnd := (m₁.heapEnd + pageSize) % wordModulus }) := by
  unfold heapExpand at h
  split at h
  · cases h
  · next hhead =>
    rw [not_or, Nat.not_lt] at hhead
    obtain ⟨⟨virt, m₁⟩, halloc, h⟩ := bind_eq_ok.mp h
    refine ⟨hhead.2, virt, m₁, halloc, ?_⟩
    simp only [] at h
    split at h
    · next hvirt =>
      cases pure_eq_ok.mp h
      exact .inl ⟨rfl, hvirt, rfl⟩
    · next hvirt =>
      obtain ⟨valid, hvalid, h⟩ := bind_eq_ok.mp h
      cases valid with
      | false => cases h
      | true =>
          cases pure_eq_ok.mp h
          exact .inr ⟨rfl, hvirt, hvalid, rfl⟩

/-- `heap_expand` has been called any number of times. -/
def Expansions : Mm → Mm → Prop := Relation.ReflTransGen fun m m' => ∃ b, heapExpand m = .ok (b, m')

theorem kmallocFrom_spec {size n addr : Nat} (h : kmallocFrom size m n = .ok (addr, m')) :
    ∃ m₁, Expansions m m₁ ∧ (addr = 0 ∧ m' = m₁ ∨
      ∃ heap, heapTake size m₁.heap = some (addr, heap) ∧ m' = { m₁ with heap := heap }) := by
  induction n generalizing m with
  | zero =>
      cases pure_eq_ok.mp h
      exact ⟨_, .refl, .inl ⟨rfl, rfl⟩⟩
  | succ n ih =>
      unfold kmallocFrom at h
      split at h
      · next heap htake =>
        cases pure_eq_ok.mp h
        exact ⟨_, .refl, .inr ⟨heap, htake, rfl⟩⟩
      · obtain ⟨⟨expanded, m₁⟩, hexpand, h⟩ := bind_eq_ok.mp h
        cases expanded with
        | true =>
            obtain ⟨m₂, hmore, hcase⟩ := ih h
            exact ⟨m₂, .head ⟨true, hexpand⟩ hmore, hcase⟩
        | false =>
            cases pure_eq_ok.mp h
            exact ⟨_, .single ⟨false, hexpand⟩, .inl ⟨rfl, rfl⟩⟩

/-- `kmalloc`, taken apart: the heap grows, then a block that fits is taken or there is none. -/
theorem kmalloc_spec {size addr : Nat} (h : kmalloc m size = .ok (addr, m')) :
    ∃ m₁, Expansions m m₁ ∧ (addr = 0 ∧ m' = m₁ ∨ ∃ heap,
      heapTake (heapAlign size) m₁.heap = some (addr, heap) ∧ m' = { m₁ with heap := heap }) := by
  unfold kmalloc at h
  split at h
  · cases pure_eq_ok.mp h
    exact ⟨_, .refl, .inl ⟨rfl, rfl⟩⟩
  · split at h
    · cases pure_eq_ok.mp h
      exact ⟨_, .refl, .inl ⟨rfl, rfl⟩⟩
    · exact kmallocFrom_spec h

end Growth

end Neox
