import Neox.Mm.Pmm

/-!
# The allocator's bitmap in memory

`mm/pmm.c` over the bytes it works on. `Mm/Pmm` has one bit a page instead; `bits` reads the bytes
that way, and allocation and release do the same to the bits as their counterparts there.
-/

namespace Neox

/-- The allocator's globals, with the bytes from `bitmap` on. -/
structure PmmMemory where
  totalPages : Nat
  bitmap : Nat → BitVec 8
  freePages : Nat
  failAllocations : Nat

namespace PmmMemory

/-! ## The helpers -/

/-- `bitmap_set`. -/
def bitmapSet (bitmap : Nat → BitVec 8) (page : Nat) : Nat → BitVec 8 :=
  Function.update bitmap (page / 8) (bitmap (page / 8) ||| 1#8 <<< (page % 8))

/-- `bitmap_clear`. -/
def bitmapClear (bitmap : Nat → BitVec 8) (page : Nat) : Nat → BitVec 8 :=
  Function.update bitmap (page / 8) (bitmap (page / 8) &&& ~~~(1#8 <<< (page % 8)))

/-- `bitmap_test`. -/
def bitmapTest (bitmap : Nat → BitVec 8) (page : Nat) : Bool :=
  (bitmap (page / 8) >>> (page % 8)) &&& 1#8 != 0#8

/-- The pages of the loops: the `uint32_t` sums `first_page + i`. -/
def pageRange (firstPage pages : Nat) : List Nat :=
  (List.range pages).map fun i => (firstPage + i) % wordModulus

/-- `bitmap_clear_range`. -/
def bitmapClearRange (bitmap : Nat → BitVec 8) (addr len : Nat) : Nat → BitVec 8 :=
  (pageRange (addr / pageSize % wordModulus) (len / pageSize % wordModulus)).foldl bitmapClear bitmap

/-- `bitmap_set_range`. -/
def bitmapSetRange (bitmap : Nat → BitVec 8) (addr len : Nat) : Nat → BitVec 8 :=
  (pageRange (addr / pageSize % wordModulus)
    ((len + pageSize - 1) % 2 ^ 64 / pageSize % wordModulus)).foldl bitmapSet bitmap

end PmmMemory

/-! ## `pmm_init` -/

namespace BootInfo

/-- `total_pages`. -/
def totalPages (info : BootInfo) : Nat :=
  match info.mmap with
  | none => 0
  | some mmap => (highestAddress mmap + pageSize - 1) % 2 ^ 64 / pageSize % wordModulus

/-- `bitmap_size`. -/
def bitmapSize (info : BootInfo) : Nat := (info.totalPages + 7) % wordModulus / 8

/-- `bitmap_address`. -/
def bitmapAddress (info : BootInfo) : Nat :=
  let mbInfoEnd := (virtToPhys info.mbInfo + info.totalSize) % wordModulus
  let reservedEnd := if info.kernelEnd < mbInfoEnd then mbInfoEnd else info.kernelEnd
  (reservedEnd + pageSize - 1) % wordModulus / pageSize * pageSize

/-- The regions the second pass clears. -/
def available (info : BootInfo) : List (Nat × Nat) :=
  ((info.mmap.getD []).filter (·.type = multibootMemoryAvailable)).map fun entry =>
    (entry.addr, entry.len)

/-- The ranges `pmm_init` sets after that, in its order: the first megabyte, the kernel, the boot
information block, the module and the bitmap. -/
def reserved (info : BootInfo) : List (Nat × Nat) :=
  [(0, 0x00100000),
    (kernelLoadAddress, (info.kernelEnd + (wordModulus - kernelLoadAddress)) % wordModulus),
    (virtToPhys info.mbInfo, info.totalSize)] ++
  (info.module.toList.map fun (modStart, modEnd) =>
    (modStart, (modEnd + (wordModulus - modStart)) % wordModulus)) ++
  [(info.bitmapAddress, (info.bitmapSize + pageSize - 1) / pageSize * pageSize % wordModulus)]

end BootInfo

namespace PmmMemory

/-- `pmm_init`; `memory` is what the storage of the bitmap held before. -/
def pmmInit (info : BootInfo) (memory : Nat → BitVec 8) : PmmMemory :=
  if info.mmap.isNone then
    { totalPages := 0, bitmap := memory, freePages := 0, failAllocations := 0 }
  else
    let bitmap := fun i => if i < info.bitmapSize then 0xFF#8 else memory i
    let bitmap := info.available.foldl (fun bitmap range => bitmapClearRange bitmap range.1 range.2)
      bitmap
    let bitmap := info.reserved.foldl (fun bitmap range => bitmapSetRange bitmap range.1 range.2)
      bitmap
    { totalPages := info.totalPages
      bitmap := bitmap
      freePages := (List.range info.totalPages).countP fun page => !bitmapTest bitmap page
      failAllocations := 0 }

/-! ## Allocation -/

/-- `pmm_alloc_page`. -/
def pmmAllocPage (p : PmmMemory) : Nat × PmmMemory :=
  if p.failAllocations ≠ 0 then (0, { p with failAllocations := p.failAllocations - 1 })
  else
    match (List.range p.totalPages).find? fun page => !bitmapTest p.bitmap page with
    | some page => (page * pageSize % wordModulus,
        { p with
          bitmap := bitmapSet p.bitmap page
          freePages := (p.freePages + (wordModulus - 1)) % wordModulus })
    | none => (0, p)

/-- `pmm_free_page`. -/
def pmmFreePage (p : PmmMemory) (page : Nat) : PmmMemory :=
  let pageNumber := page / pageSize
  if p.totalPages ≤ pageNumber then p
  else if !bitmapTest p.bitmap pageNumber then p
  else
    { p with
      bitmap := bitmapClear p.bitmap pageNumber
      freePages := (p.freePages + 1) % wordModulus }

/-! ## Bits -/

/-- The bytes read as one bit a page. -/
def bits (p : PmmMemory) : Pmm where
  totalPages := p.totalPages
  bitmap := bitmapTest p.bitmap
  freePages := p.freePages
  failAllocations := p.failAllocations

variable {bitmap : Nat → BitVec 8} {page q : Nat}

/-- The shift and mask of `bitmap_test` pick one bit. -/
theorem bitmapTest_eq (bitmap : Nat → BitVec 8) (page : Nat) :
    bitmapTest bitmap page = (bitmap (page / 8)).getLsbD (page % 8) := by
  have hand : ∀ b : BitVec 8, (b &&& 1#8 != 0#8) = b.getLsbD 0 := by decide
  unfold bitmapTest
  rw [hand, BitVec.getLsbD_ushiftRight, Nat.add_zero]

theorem getLsbD_bit (i j : Nat) (hj : j < 8) : (1#8 <<< i).getLsbD j = decide (j = i) := by
  rw [BitVec.getLsbD_shiftLeft, BitVec.getLsbD_one]
  by_cases h : j = i
  · subst h
    simp [hj]
  · simp only [h, decide_false, hj, decide_true, Bool.true_and, Bool.and_eq_false_iff]
    by_cases hlt : j < i
    · exact .inl (by simp [hlt])
    · exact .inr (by simp; omega)

theorem same_bit : q / 8 = page / 8 ∧ q % 8 = page % 8 ↔ q = page := by omega

theorem bitmapTest_set :
    bitmapTest (bitmapSet bitmap page) q = if q = page then true else bitmapTest bitmap q := by
  rw [bitmapTest_eq, bitmapTest_eq]
  unfold bitmapSet
  by_cases hbyte : q / 8 = page / 8
  · rw [hbyte, Function.update_self, BitVec.getLsbD_or, getLsbD_bit _ _ (Nat.mod_lt _ (by decide))]
    by_cases h : q = page
    · simp [h]
    · have hbit : q % 8 ≠ page % 8 := fun hbit => h (same_bit.mp ⟨hbyte, hbit⟩)
      simp [h, hbit]
  · rw [Function.update_of_ne hbyte, if_neg fun h => hbyte (by rw [h])]

theorem bitmapTest_clear :
    bitmapTest (bitmapClear bitmap page) q = if q = page then false else bitmapTest bitmap q := by
  rw [bitmapTest_eq, bitmapTest_eq]
  unfold bitmapClear
  by_cases hbyte : q / 8 = page / 8
  · have hlt : q % 8 < 8 := Nat.mod_lt _ (by decide)
    rw [hbyte, Function.update_self, BitVec.getLsbD_and, BitVec.getLsbD_not, getLsbD_bit _ _ hlt]
    by_cases h : q = page
    · simp [h]
    · have hbit : q % 8 ≠ page % 8 := fun hbit => h (same_bit.mp ⟨hbyte, hbit⟩)
      simp [h, hbit, hlt]
  · rw [Function.update_of_ne hbyte, if_neg fun h => hbyte (by rw [h])]

@[simp] theorem bits_set (page : Nat) :
    bitmapTest (bitmapSet bitmap page) = Function.update (bitmapTest bitmap) page true := by
  funext q
  rw [bitmapTest_set, Function.update_apply]

@[simp] theorem bits_clear (page : Nat) :
    bitmapTest (bitmapClear bitmap page) = Function.update (bitmapTest bitmap) page false := by
  funext q
  rw [bitmapTest_clear, Function.update_apply]

/-- On the bits, allocation from the bytes is `pmm_alloc_page`. -/
theorem pmmAllocPage_bits (p : PmmMemory) :
    Neox.pmmAllocPage p.bits = (p.pmmAllocPage.1, p.pmmAllocPage.2.bits) := by
  unfold pmmAllocPage Neox.pmmAllocPage
  by_cases hfail : p.failAllocations ≠ 0
  · rw [if_pos hfail, if_pos (show p.bits.failAllocations ≠ 0 from hfail)]
    rfl
  · rw [if_neg hfail, if_neg (show ¬ p.bits.failAllocations ≠ 0 from hfail)]
    show (match (List.range p.totalPages).find? fun page => !bitmapTest p.bitmap page with
      | some page => (_, _)
      | none => _) = _
    cases (List.range p.totalPages).find? fun page => !bitmapTest p.bitmap page with
    | none => rfl
    | some page => simp [bits]

theorem pmmFreePage_bits (p : PmmMemory) (phys : Nat) :
    Neox.pmmFreePage p.bits phys = (p.pmmFreePage phys).bits := by
  unfold pmmFreePage Neox.pmmFreePage
  by_cases hout : p.totalPages ≤ phys / pageSize
  · rw [if_pos hout, if_pos (show p.bits.totalPages ≤ phys / pageSize from hout)]
  · rw [if_neg hout, if_neg (show ¬ p.bits.totalPages ≤ phys / pageSize from hout)]
    by_cases hclear : (!bitmapTest p.bitmap (phys / pageSize)) = true
    · rw [if_pos hclear, if_pos (show (!p.bits.bitmap (phys / pageSize)) = true from hclear)]
    · rw [if_neg hclear, if_neg (show ¬ (!p.bits.bitmap (phys / pageSize)) = true from hclear)]
      simp [bits]

/-! ## The pages `pmm_init` leaves free -/

/-- A loop that writes `v` at what each of its indices touches. -/
theorem foldl_put {β ι α : Type} {put : β → ι → β} (get : β → Nat → α) {v : α}
    {touches : ι → Bool} {q : Nat}
    (hput : ∀ b i, get (put b i) q = if touches i then v else get b q) (l : List ι) (b : β) :
    get (l.foldl put b) q = if l.any touches then v else get b q := by
  induction l generalizing b with
  | nil => rfl
  | cons i l ih =>
      rw [List.foldl_cons, ih, hput, List.any_cons]
      by_cases htail : l.any touches = true
      · simp [htail]
      · simp [htail]

theorem any_pageRange {firstPage pages : Nat} (hf : firstPage < wordModulus)
    (hp : pages < wordModulus) (hq : q < wordModulus) :
    ((pageRange firstPage pages).any fun page => decide (q = page)) =
      inPageRange firstPage pages q := by
  unfold pageRange inPageRange
  rw [List.any_map, Bool.eq_iff_iff]
  simp only [List.any_eq_true, List.mem_range, Function.comp_apply, decide_eq_true_eq, wordModulus]
    at *
  constructor
  · rintro ⟨i, hi, rfl⟩
    omega
  · intro h
    exact ⟨_, h, by omega⟩

theorem bitmapTest_clearRange (addr len : Nat) (hq : q < wordModulus) :
    bitmapTest (bitmapClearRange bitmap addr len) q =
      if inPageRange (addr / pageSize % wordModulus) (len / pageSize % wordModulus) q then false
      else bitmapTest bitmap q := by
  have hmod : ∀ n, n % wordModulus < wordModulus := fun n => Nat.mod_lt n (by decide)
  unfold bitmapClearRange
  rw [← any_pageRange (hmod _) (hmod _) hq]
  exact foldl_put bitmapTest (fun b page => by simp [bitmapTest_clear]) _ _

theorem bitmapTest_setRange (addr len : Nat) (hq : q < wordModulus) :
    bitmapTest (bitmapSetRange bitmap addr len) q =
      if inPageRange (addr / pageSize % wordModulus)
        ((len + pageSize - 1) % 2 ^ 64 / pageSize % wordModulus) q then true
      else bitmapTest bitmap q := by
  have hmod : ∀ n, n % wordModulus < wordModulus := fun n => Nat.mod_lt n (by decide)
  unfold bitmapSetRange
  rw [← any_pageRange (hmod _) (hmod _) hq]
  exact foldl_put bitmapTest (fun b page => by simp [bitmapTest_set]) _ _

end PmmMemory

/-- The boot information makes this page free: it lies below `total_pages`, in an available region
and in no reserved range. Where `bitmap_size` has wrapped to less than `total_pages` bits, the old
contents of the memory decide instead of the region. -/
def BootInfo.usable (info : BootInfo) (memory : Nat → BitVec 8) (page : Nat) : Bool :=
  decide (page < info.totalPages) &&
    ((info.available.any fun range =>
        inPageRange (range.1 / pageSize % wordModulus) (range.2 / pageSize % wordModulus) page) ||
      (decide (info.bitmapSize ≤ page / 8) && !PmmMemory.bitmapTest memory page)) &&
    !info.reserved.any fun range => inPageRange (range.1 / pageSize % wordModulus)
      ((range.2 + pageSize - 1) % 2 ^ 64 / pageSize % wordModulus) page

theorem BootInfo.totalPages_lt (info : BootInfo) : info.totalPages < wordModulus := by
  unfold totalPages
  split
  · decide
  · exact Nat.mod_lt _ (by decide)

namespace PmmMemory

variable {info : BootInfo} {memory : Nat → BitVec 8} {page : Nat}

theorem pmmInit_totalPages : (pmmInit info memory).totalPages = info.totalPages := by
  unfold pmmInit
  split
  · next hnone =>
    rw [BootInfo.totalPages, Option.isNone_iff_eq_none.mp hnone]
  · rfl

/-- `pmm_init` leaves clear the bits of the usable pages and no others. -/
theorem pmmInit_free :
    (pmmInit info memory).bits.Free page ↔ info.usable memory page = true := by
  have htotal : (pmmInit info memory).totalPages = info.totalPages := pmmInit_totalPages
  unfold Pmm.Free BootInfo.usable
  show page < (pmmInit info memory).totalPages ∧ bitmapTest (pmmInit info memory).bitmap page = false
    ↔ _
  rw [htotal]
  by_cases hlt : page < info.totalPages
  · have hsome : ¬ info.mmap.isNone = true := by
      intro hnone
      rw [BootInfo.totalPages, Option.isNone_iff_eq_none.mp hnone] at hlt
      exact Nat.not_lt_zero _ hlt
    have hq := Nat.lt_trans hlt info.totalPages_lt
    have hmemset : bitmapTest (fun i => if i < info.bitmapSize then 0xFF#8 else memory i) page =
        if page / 8 < info.bitmapSize then true else bitmapTest memory page := by
      have hones : ∀ i < 8, (0xFF#8).getLsbD i = true := by decide
      rw [bitmapTest_eq, bitmapTest_eq]
      by_cases h : page / 8 < info.bitmapSize
      · rw [if_pos h, if_pos h]
        exact hones _ (Nat.mod_lt _ (by decide))
      · rw [if_neg h, if_neg h]
    simp only [pmmInit, if_neg hsome, hlt, true_and, decide_true, Bool.true_and]
    rw [foldl_put bitmapTest fun b range => bitmapTest_setRange range.1 range.2 hq,
      foldl_put bitmapTest fun b range => bitmapTest_clearRange range.1 range.2 hq, hmemset]
    cases info.reserved.any _ with
    | true => simp
    | false =>
        cases info.available.any _ with
        | true => simp
        | false =>
            by_cases hsize : page / 8 < info.bitmapSize
            · simp [hsize, Nat.not_le_of_lt hsize]
            · simp [hsize, Nat.le_of_not_lt hsize]
  · simp [hlt]

end PmmMemory

end Neox
