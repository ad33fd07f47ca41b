import Neox.Lib.Run
import Neox.Mm.Bitmap
import Neox.Mm.Boot

/-!
# Kernel virtual addresses

`mm/vam.c` without its stack slots, over the bytes of its bitmap. What follows the bitmap in memory
is read and written when a request is larger than the bitmap, and is not described further. Callers
hold the ranges they were given, map and unmap pages of them, and give them back.

* `vam_ranges_iff`: which runs hand out ranges of the region left to allocate only.
-/

namespace Neox

open PmmMemory (bitmapSet bitmapClear bitmapTest pageRange)
open Transition

namespace Vam

/-! ## `vam.c` -/

/-- `bitmap`, and the memory after it. -/
abbrev Bitmap := Nat → BitVec 8

/-- `KERNEL_VIRT_END`. -/
abbrev kernelVirtEnd : Nat := 0xFFBFFFFF

/-- `KERNEL_IMAGE_BASE`. -/
abbrev kernelImageBase : Nat := 0xC0100000

/-- `VAM_TOTAL_PAGES`. -/
abbrev vamTotalPages : Nat := 0x3FC00000 / pageSize

/-- `VAM_BITMAP_BYTES`. -/
abbrev vamBitmapBytes : Nat := (vamTotalPages + 7) / 8

/-- `vam_addr_to_index`. -/
def vamAddrToIndex (virt : Nat) : Nat :=
  (virt + (wordModulus - kernelVirtBase)) % wordModulus / pageSize

/-- `vam_index_to_addr`. -/
def vamIndexToAddr (index : Nat) : Nat := (kernelVirtBase + index * pageSize) % wordModulus

/-- `bitmap_range_set`. -/
def bitmapRangeSet (bitmap : Bitmap) (start count : Nat) : Bitmap :=
  (pageRange start count).foldl bitmapSet bitmap

/-- `bitmap_range_clear`. -/
def bitmapRangeClear (bitmap : Bitmap) (start count : Nat) : Bitmap :=
  (pageRange start count).foldl bitmapClear bitmap

/-- `bitmap_range_free`. -/
def bitmapRangeFree (bitmap : Bitmap) (start count : Nat) : Bool :=
  (pageRange start count).all fun index => !bitmapTest bitmap index

/-- `vam_reserve_region`; both addresses are inclusive. -/
def vamReserveRegion (bitmap : Bitmap) (first last : Nat) : Bitmap :=
  bitmapRangeSet bitmap (vamAddrToIndex first)
    ((last + (wordModulus - first)) % wordModulus / pageSize + 1)

/-- `image_end`. -/
def imageEnd (kernelVirtualEnd : Nat) : Nat :=
  (kernelVirtualEnd + (pageSize - 1)) % wordModulus / pageSize * pageSize

/-- `vam_init`; `memory` is what the storage of the bitmap and the memory after it held before. -/
def vamInit (kernelVirtualEnd : Nat) (memory : Bitmap) : Bitmap :=
  let bitmap : Bitmap := fun i => if i < vamBitmapBytes then 0 else memory i
  let bitmap := vamReserveRegion bitmap kernelImageBase
    ((imageEnd kernelVirtualEnd + (wordModulus - 1)) % wordModulus)
  let bitmap := vamReserveRegion bitmap kernelHeapStart kernelHeapEnd
  vamReserveRegion bitmap kernelStacksStart kernelStacksEnd

/-- `VAM_TOTAL_PAGES - count`, the last index of the search. -/
def lastIndex (count : Nat) : Nat := (vamTotalPages + (wordModulus - count)) % wordModulus

/-- The loop of `vam_alloc_pages` from `index` on, with `n` indices left. -/
def vamFindFrom (bitmap : Bitmap) (count index : Nat) : Nat → Option Nat
  | 0 => none
  | n + 1 =>
      if bitmapRangeFree bitmap index count then some index
      else vamFindFrom bitmap count (index + 1) n

/-- `vam_alloc_pages`. The loop does not end by itself when the last index is the last `uint32_t`. -/
def vamAllocPages (bitmap : Bitmap) (count : Nat) : Except Stop (Nat × Bitmap) :=
  if count = 0 then return (0, bitmap)
  else
    match vamFindFrom bitmap count 0 (lastIndex count + 1) with
    | some index => return (vamIndexToAddr index, bitmapRangeSet bitmap index count)
    | none => if lastIndex count = wordModulus - 1 then throw .hang else return (0, bitmap)

/-- `vam_free_pages`. -/
def vamFreePages (bitmap : Bitmap) (addr count : Nat) : Bitmap :=
  if count = 0 then bitmap else bitmapRangeClear bitmap (vamAddrToIndex addr) count

/-! ## Callers -/

/-- A range of pages: its address and their number. -/
abbrev Range := Nat × Nat

/-- The page of this number is one of the range. -/
def HasPage (r : Range) (page : Nat) : Prop := r.1 / pageSize ≤ page ∧ page < r.1 / pageSize + r.2

/-- The bitmap, the ranges that are held, the pages that have a present mapping in the kernel
directory, and those which the holder of a range has mapped. -/
structure State where
  bitmap : Bitmap
  live : List Range
  mapped : Nat → Bool
  used : Nat → Bool

/-- What can happen: the calls, a page of a held range is mapped or unmapped, and the memory after the
bitmap changes. -/
inductive Op where
  | vamAllocPages (count : Nat)
  | vamFreePages (r : Range)
  | remap (page : Nat) (present : Bool)
  | elsewhere (memory : Bitmap)

/-- After boot. -/
def initial (kernelVirtualEnd : Nat) (memory : Bitmap) (m : Mm) : State where
  bitmap := vamInit kernelVirtualEnd memory
  live := []
  mapped page := (m.walk m.kernelDirectory (page * pageSize)).isSome
  used _ := false

theorem initial_bitmap (kernelVirtualEnd : Nat) (memory : Bitmap) (m : Mm) :
    (initial kernelVirtualEnd memory m).bitmap = vamInit kernelVirtualEnd memory := by
  unfold initial
  dsimp only

def step (s : State) : Op → Option State
  | .vamAllocPages count =>
      match Vam.vamAllocPages s.bitmap count with
      | .error _ => none
      | .ok (addr, bitmap) =>
          some { s with bitmap, live := if addr = 0 then s.live else (addr, count) :: s.live }
  | .vamFreePages r =>
      some { s with bitmap := Vam.vamFreePages s.bitmap r.1 r.2, live := s.live.erase r }
  | .remap page present =>
      some { s with
        mapped := Function.update s.mapped page present
        used := if present then Function.update s.used page true else s.used }
  | .elsewhere memory =>
      some { s with bitmap := fun i => if i < vamBitmapBytes then s.bitmap i else memory i }

/-- A count is a `uint32_t`; a range that is freed is held, and so is one whose page is mapped or
unmapped. -/
def Permitted (s : State) : Op → Prop
  | .vamAllocPages count => count < wordModulus
  | .vamFreePages r => r ∈ s.live
  | .remap page _ => ∃ r ∈ s.live, HasPage r page
  | .elsewhere _ => True

/-! ## Where ranges should be -/

/-- A page of the direct map, of the kernel image, of the heap or of the stacks. -/
def FixedPage (kernelVirtualEnd page : Nat) : Prop :=
  (kernelVirtBase / pageSize ≤ page ∧ page < kernelBootstrapEnd / pageSize) ∨
  (kernelImageBase / pageSize ≤ page ∧ page * pageSize < kernelVirtualEnd) ∨
  (kernelHeapStart / pageSize ≤ page ∧ page ≤ kernelHeapEnd / pageSize) ∨
  (kernelStacksStart / pageSize ≤ page ∧ page ≤ kernelStacksEnd / pageSize)

/-- The range is in the region left to allocate, apart from the other held ranges and the fixed
regions, and only pages that a holder has mapped are mapped. -/
structure WellPlaced (kernelVirtualEnd : Nat) (s : State) (r : Range) : Prop where
  remaining : kernelRemainingStart ≤ r.1 ∧ r.1 + r.2 * pageSize ≤ kernelRemainingEnd + 1
  apart : ∀ r' ∈ s.live, ∀ page, HasPage r page → ¬ HasPage r' page
  fixed : ∀ page, HasPage r page → ¬ FixedPage kernelVirtualEnd page
  unmapped : ∀ page, HasPage r page → s.mapped page = true → s.used page = true

/-- A range that is returned is well placed. -/
def Good (kernelVirtualEnd : Nat) (s : State) : Op → Prop
  | .vamAllocPages count => ∀ addr bitmap, Vam.vamAllocPages s.bitmap count = .ok (addr, bitmap) →
      addr ≠ 0 → WellPlaced kernelVirtualEnd s (addr, count)
  | _ => True

/-- `count` free pages begin at `index`, which the search reaches. -/
def FreeRun (bitmap : Bitmap) (count index : Nat) : Prop :=
  index ≤ lastIndex count ∧ bitmapRangeFree bitmap index count = true

/-- The lowest of them. -/
def FirstRun (bitmap : Bitmap) (count index : Nat) : Prop :=
  FreeRun bitmap count index ∧ ∀ j < index, ¬ FreeRun bitmap count j

/-- The index of `KERNEL_REMAINING_START`. -/
abbrev remainingIndex : Nat := (kernelRemainingStart - kernelVirtBase) / pageSize

/-- The lowest run of `count` free pages, if there is one, is in the region left to allocate. (Past the
bitmap there is one more possibility: that its address is `NULL`.) -/
def Suitable (s : State) : Op → Prop
  | .vamAllocPages count => count ≠ 0 → ∀ index, FirstRun s.bitmap count index →
      (remainingIndex ≤ index ∧ index + count ≤ vamTotalPages) ∨ vamIndexToAddr index = 0
  | _ => True

/-! ## The bitmap -/

section Bitmap

variable {bitmap : Bitmap} {start count index q : Nat}

theorem mem_pageRange (h : start + count ≤ wordModulus) :
    q ∈ pageRange start count ↔ start ≤ q ∧ q < start + count := by
  simp only [wordModulus] at h
  unfold pageRange
  rw [List.mem_map]
  constructor
  · rintro ⟨i, hi, rfl⟩
    have := List.mem_range.mp hi
    simp only [wordModulus]
    omega
  · rintro ⟨h1, h2⟩
    refine ⟨q - start, List.mem_range.mpr (by omega), ?_⟩
    simp only [wordModulus]
    omega

theorem any_pageRange (h : start + count ≤ wordModulus) :
    ((pageRange start count).any fun page => decide (q = page)) =
      decide (start ≤ q ∧ q < start + count) := by
  rw [Bool.eq_iff_iff, List.any_eq_true, decide_eq_true_eq, ← mem_pageRange h]
  constructor
  · rintro ⟨page, hpage, heq⟩
    rw [of_decide_eq_true heq]
    exact hpage
  · intro hq
    exact ⟨q, hq, decide_eq_true rfl⟩

theorem bitmapTest_rangeSet (h : start + count ≤ wordModulus) :
    bitmapTest (bitmapRangeSet bitmap start count) q =
      if start ≤ q ∧ q < start + count then true else bitmapTest bitmap q := by
  have hput : bitmapTest ((pageRange start count).foldl bitmapSet bitmap) q =
      if (pageRange start count).any fun page => decide (q = page) then true
      else bitmapTest bitmap q :=
    PmmMemory.foldl_put bitmapTest (fun b page => by simp [PmmMemory.bitmapTest_set]) _ _
  unfold bitmapRangeSet
  rw [hput, any_pageRange h]
  simp only [decide_eq_true_eq]

theorem bitmapTest_rangeClear (h : start + count ≤ wordModulus) :
    bitmapTest (bitmapRangeClear bitmap start count) q =
      if start ≤ q ∧ q < start + count then false else bitmapTest bitmap q := by
  have hput : bitmapTest ((pageRange start count).foldl bitmapClear bitmap) q =
      if (pageRange start count).any fun page => decide (q = page) then false
      else bitmapTest bitmap q :=
    PmmMemory.foldl_put bitmapTest (fun b page => by simp [PmmMemory.bitmapTest_clear]) _ _
  unfold bitmapRangeClear
  rw [hput, any_pageRange h]
  simp only [decide_eq_true_eq]

theorem bitmapRangeFree_iff (h : start + count ≤ wordModulus) :
    bitmapRangeFree bitmap start count = true ↔
      ∀ q, start ≤ q → q < start + count → bitmapTest bitmap q = false := by
  unfold bitmapRangeFree
  rw [List.all_eq_true]
  constructor
  · intro hall q h1 h2
    simpa using hall q ((mem_pageRange h).mpr ⟨h1, h2⟩)
  · intro hfree q hq
    obtain ⟨h1, h2⟩ := (mem_pageRange h).mp hq
    rw [hfree q h1 h2]
    rfl

/-- The pages `vam_init` takes. -/
def TakenIndex (kernelVirtualEnd q : Nat) : Prop :=
  (kernelImageBase ≤ kernelVirtBase + q * pageSize ∧
    kernelVirtBase + q * pageSize < kernelVirtualEnd) ∨
  (kernelHeapStart ≤ kernelVirtBase + q * pageSize ∧
    kernelVirtBase + q * pageSize ≤ kernelStacksEnd)

theorem reserve_count {first last : Nat} (h : first ≤ last) (hlast : last < wordModulus) :
    (last + (wordModulus - first)) % wordModulus / pageSize = (last - first) / pageSize := by
  have hsub : (last + (wordModulus - first)) % wordModulus = last - first := by
    simp only [wordModulus] at *
    omega
  rw [hsub]

/-- A region of whole pages is reserved from its first page to its last. -/
theorem bitmapTest_reserve {first last : Nat} (hbase : kernelVirtBase ≤ first)
    (hfirst : first % pageSize = 0) (h : first ≤ last) (hlast : last < wordModulus) :
    bitmapTest (vamReserveRegion bitmap first last) q =
      if first ≤ kernelVirtBase + q * pageSize ∧ kernelVirtBase + q * pageSize ≤ last then true
      else bitmapTest bitmap q := by
  have hindex : vamAddrToIndex first = (first - kernelVirtBase) / pageSize := by
    have hsub : (first + (wordModulus - kernelVirtBase)) % wordModulus = first - kernelVirtBase := by
      simp only [wordModulus, kernelVirtBase] at *
      omega
    unfold vamAddrToIndex
    rw [hsub]
  unfold vamReserveRegion
  rw [reserve_count h hlast, hindex, bitmapTest_rangeSet]
  · refine if_congr ?_ rfl rfl
    simp only [kernelVirtBase, pageSize] at hbase hfirst ⊢
    omega
  · simp only [kernelVirtBase, pageSize, wordModulus] at hbase hlast ⊢
    omega

theorem bitmapTest_vamInit {kernelVirtualEnd : Nat} {memory : Bitmap} (hq : q < vamTotalPages)
    (hstart : kernelImageBase < kernelVirtualEnd) (hend : kernelVirtualEnd ≤ kernelVirtEnd + 1) :
    bitmapTest (vamInit kernelVirtualEnd memory) q = true ↔ TakenIndex kernelVirtualEnd q := by
  have hlast : (imageEnd kernelVirtualEnd + (wordModulus - 1)) % wordModulus =
      imageEnd kernelVirtualEnd - 1 := by
    unfold imageEnd
    simp only [wordModulus, pageSize, kernelImageBase, kernelVirtEnd] at *
    omega
  have himage : kernelImageBase ≤ imageEnd kernelVirtualEnd - 1 ∧
      imageEnd kernelVirtualEnd - 1 < wordModulus := by
    unfold imageEnd
    simp only [wordModulus, pageSize, kernelImageBase, kernelVirtEnd] at *
    omega
  have hzero : ∀ m : Bitmap, bitmapTest (fun i => if i < vamBitmapBytes then 0 else m i) q =
      false := by
    intro m
    have hbyte : q / 8 < vamBitmapBytes := by
      simp only [vamBitmapBytes, vamTotalPages, pageSize] at *
      omega
    rw [PmmMemory.bitmapTest_eq, if_pos hbyte]
    exact BitVec.getLsbD_zero
  unfold vamInit
  dsimp only
  rw [hlast, bitmapTest_reserve (by decide) (by decide) (by decide) (by decide),
    bitmapTest_reserve (by decide) (by decide) (by decide) (by decide),
    bitmapTest_reserve (by decide) (by decide) himage.1 himage.2, hzero]
  unfold TakenIndex imageEnd
  simp only [Bool.if_true_left, Bool.or_false, Bool.or_eq_true, decide_eq_true_eq, wordModulus,
    pageSize, kernelImageBase, kernelVirtEnd, kernelVirtBase, kernelHeapStart, kernelBootstrapEnd,
    bootstrapMapSize, kernelHeapEnd, kernelStacksStart, kernelStacksEnd, vamTotalPages] at *
  omega

end Bitmap

/-! ## The search -/

section Search

variable {bitmap : Bitmap} {count index n j : Nat}

theorem vamFindFrom_eq_some : vamFindFrom bitmap count index n = some j ↔
    index ≤ j ∧ j < index + n ∧ bitmapRangeFree bitmap j count = true ∧
      ∀ i, index ≤ i → i < j → bitmapRangeFree bitmap i count = false := by
  induction n generalizing index with
  | zero =>
      constructor
      · intro h
        cases h
      · rintro ⟨h1, h2, -⟩
        omega
  | succ n ih =>
      unfold vamFindFrom
      by_cases hfree : bitmapRangeFree bitmap index count = true
      · rw [if_pos hfree]
        constructor
        · intro h
          cases h
          exact ⟨Nat.le_refl _, by omega, hfree, fun i h1 h2 => by omega⟩
        · rintro ⟨h1, -, -, hfirst⟩
          rcases Nat.lt_or_eq_of_le h1 with h1 | rfl
          · rw [hfirst index (Nat.le_refl _) h1] at hfree
            cases hfree
          · rfl
      · rw [if_neg hfree, ih]
        rw [Bool.not_eq_true] at hfree
        constructor
        · rintro ⟨h1, h2, hj, hfirst⟩
          refine ⟨by omega, by omega, hj, fun i hi hij => ?_⟩
          rcases Nat.lt_or_eq_of_le hi with hi | rfl
          · exact hfirst i hi hij
          · exact hfree
        · rintro ⟨h1, h2, hj, hfirst⟩
          have hne : index ≠ j := by
            rintro rfl
            rw [hfree] at hj
            cases hj
          exact ⟨by omega, by omega, hj, fun i hi hij => hfirst i (by omega) hij⟩

theorem vamFindFrom_eq_firstRun :
    vamFindFrom bitmap count 0 (lastIndex count + 1) = some j ↔ FirstRun bitmap count j := by
  rw [vamFindFrom_eq_some]
  unfold FirstRun FreeRun
  constructor
  · rintro ⟨-, h2, hj, hfirst⟩
    refine ⟨⟨by omega, hj⟩, fun i hi hrun => ?_⟩
    rw [hfirst i (by omega) hi] at hrun
    cases hrun.2
  · rintro ⟨⟨h2, hj⟩, hfirst⟩
    refine ⟨by omega, by omega, hj, fun i _ hi => ?_⟩
    rw [← Bool.not_eq_true]
    exact fun hrun => hfirst i hi ⟨by omega, hrun⟩

/-- What `vam_alloc_pages` can return. -/
theorem vamAllocPages_cases {addr : Nat} {bitmap' : Bitmap}
    (h : vamAllocPages bitmap count = .ok (addr, bitmap')) :
    (addr = 0 ∧ bitmap' = bitmap) ∨ (count ≠ 0 ∧ ∃ index, FirstRun bitmap count index ∧
      addr = vamIndexToAddr index ∧ bitmap' = bitmapRangeSet bitmap index count) := by
  unfold vamAllocPages at h
  by_cases hzero : count = 0
  · rw [if_pos hzero] at h
    cases h
    exact Or.inl ⟨rfl, rfl⟩
  rw [if_neg hzero] at h
  cases hfind : vamFindFrom bitmap count 0 (lastIndex count + 1) with
  | some index =>
      rw [hfind] at h
      cases h
      exact Or.inr ⟨hzero, index, vamFindFrom_eq_firstRun.mp hfind, rfl, rfl⟩
  | none =>
      rw [hfind] at h
      dsimp only at h
      by_cases hlast : lastIndex count = wordModulus - 1
      · rw [if_pos hlast] at h
        cases h
      · rw [if_neg hlast] at h
        cases h
        exact Or.inl ⟨rfl, rfl⟩

/-- The lowest run is the one returned. -/
theorem vamAllocPages_of_firstRun (hzero : count ≠ 0) (h : FirstRun bitmap count index) :
    vamAllocPages bitmap count = .ok (vamIndexToAddr index, bitmapRangeSet bitmap index count) := by
  unfold vamAllocPages
  rw [if_neg hzero, vamFindFrom_eq_firstRun.mpr h]
  rfl

end Search

/-! ## What holds in a run -/

/-- A held range: it is in the region left to allocate, and its bits are set. -/
structure Held (kernelVirtualEnd : Nat) (bitmap : Bitmap) (r : Range) (index : Nat) : Prop where
  addr : r.1 = kernelVirtBase + index * pageSize
  start : remainingIndex ≤ index
  stop : index + r.2 ≤ vamTotalPages
  untaken : ∀ q, index ≤ q → q < index + r.2 → ¬ TakenIndex kernelVirtualEnd q
  set : ∀ q, index ≤ q → q < index + r.2 → bitmapTest bitmap q = true

/-- No page is in both. -/
def Apart (r r' : Range) : Prop := ∀ page, HasPage r page → ¬ HasPage r' page

theorem Apart.symm {r r' : Range} (h : Apart r r') : Apart r' r := fun page h' hr => h page hr h'

/-- A page of the region left to allocate. -/
def RemainingPage (page : Nat) : Prop :=
  kernelRemainingStart / pageSize ≤ page ∧ page ≤ kernelRemainingEnd / pageSize

/-- What the permitted and suitable steps keep. -/
structure Inv (kernelVirtualEnd : Nat) (s : State) : Prop where
  taken : ∀ q < vamTotalPages, TakenIndex kernelVirtualEnd q → bitmapTest s.bitmap q = true
  held : ∀ r ∈ s.live, ∃ index, Held kernelVirtualEnd s.bitmap r index
  apart : s.live.Pairwise Apart
  mapped : ∀ page, RemainingPage page → s.mapped page = true → s.used page = true

section Inv

variable {kernelVirtualEnd : Nat} {s t : State} {bitmap bitmap' : Bitmap} {r r' : Range}
  {index index' count q page : Nat}

theorem hasPage_iff (h : r.1 = kernelVirtBase + index * pageSize) :
    HasPage r page ↔ ∃ q, index ≤ q ∧ q < index + r.2 ∧ page = kernelVirtBase / pageSize + q := by
  unfold HasPage
  rw [h]
  simp only [kernelVirtBase, pageSize]
  constructor
  · rintro ⟨h1, h2⟩
    exact ⟨page - 0xC0000, by omega, by omega, by omega⟩
  · rintro ⟨q, h1, h2, rfl⟩
    omega

/-- The bits of a held range stay set while nobody clears them. -/
theorem Held.mono (h : Held kernelVirtualEnd bitmap r index)
    (hset : ∀ q, index ≤ q → q < index + r.2 → bitmapTest bitmap q = true →
      bitmapTest bitmap' q = true) : Held kernelVirtualEnd bitmap' r index :=
  ⟨h.addr, h.start, h.stop, h.untaken, fun q h1 h2 => hset q h1 h2 (h.set q h1 h2)⟩

/-- A range whose bits are clear is apart from a held one. -/
theorem Held.apart (h : Held kernelVirtualEnd bitmap r' index')
    (hr : r.1 = kernelVirtBase + index * pageSize)
    (hclear : ∀ q, index ≤ q → q < index + r.2 → bitmapTest bitmap q = false) : Apart r r' := by
  intro page hpage hpage'
  obtain ⟨q, h1, h2, rfl⟩ := (hasPage_iff hr).mp hpage
  obtain ⟨q', h3, h4, heq⟩ := (hasPage_iff h.addr).mp hpage'
  obtain rfl : q = q' := by omega
  have hset := h.set q h3 h4
  rw [hclear q h1 h2] at hset
  cases hset

theorem bitmapTest_rangeSet_of_true (start : Nat) (h : bitmapTest bitmap q = true) :
    bitmapTest (bitmapRangeSet bitmap start count) q = true := by
  have hput : bitmapTest ((pageRange start count).foldl bitmapSet bitmap) q =
      if (pageRange start count).any fun page => decide (q = page) then true
      else bitmapTest bitmap q :=
    PmmMemory.foldl_put bitmapTest (fun b page => by simp [PmmMemory.bitmapTest_set]) _ _
  unfold bitmapRangeSet
  rw [hput, h, ite_self]

/-- Where a suitable run begins, and what is there. -/
theorem Inv.firstRun (h : Inv kernelVirtualEnd s) (hrun : FirstRun s.bitmap count index)
    (hstop : index + count ≤ vamTotalPages) :
    vamIndexToAddr index = kernelVirtBase + index * pageSize ∧
    (∀ q, index ≤ q → q < index + count → bitmapTest s.bitmap q = false) ∧
    ∀ q, index ≤ q → q < index + count → ¬ TakenIndex kernelVirtualEnd q := by
  have hmodulus : index + count ≤ wordModulus := by
    simp only [vamTotalPages, pageSize, wordModulus] at *
    omega
  have hclear := (bitmapRangeFree_iff hmodulus).mp hrun.1.2
  refine ⟨?_, hclear, fun q h1 h2 htaken => ?_⟩
  · unfold vamIndexToAddr
    refine Nat.mod_eq_of_lt ?_
    simp only [vamTotalPages, pageSize, wordModulus, kernelVirtBase] at *
    omega
  · have hset := h.taken q (by omega) htaken
    rw [hclear q h1 h2] at hset
    cases hset

/-- A suitable call returns a range that is well placed. -/
theorem Inv.wellPlaced (h : Inv kernelVirtualEnd s) (hrun : FirstRun s.bitmap count index)
    (hstart : remainingIndex ≤ index) (hstop : index + count ≤ vamTotalPages) :
    WellPlaced kernelVirtualEnd s (vamIndexToAddr index, count) := by
  obtain ⟨haddr, hclear, huntaken⟩ := h.firstRun hrun hstop
  have hpage : ∀ page, HasPage (vamIndexToAddr index, count) page ↔ _ := fun page => hasPage_iff haddr
  refine ⟨?_, fun r hr => ?_, fun page hp hfixed => ?_, fun page hp => h.mapped page ?_⟩
  · rw [haddr]
    simp only [remainingIndex, vamTotalPages, kernelRemainingStart, kernelRemainingEnd,
      kernelVirtBase, pageSize] at *
    omega
  · obtain ⟨index', hheld⟩ := h.held r hr
    exact hheld.apart haddr hclear
  · obtain ⟨q, h1, h2, rfl⟩ := (hpage page).mp hp
    have hq := huntaken q h1 h2
    unfold TakenIndex at hq
    unfold FixedPage at hfixed
    simp only [remainingIndex, kernelRemainingStart, kernelVirtBase, kernelImageBase, pageSize,
      kernelBootstrapEnd, bootstrapMapSize, kernelHeapStart, kernelHeapEnd, kernelStacksStart,
      kernelStacksEnd] at *
    omega
  · obtain ⟨q, h1, h2, rfl⟩ := (hpage page).mp hp
    unfold RemainingPage
    simp only [remainingIndex, vamTotalPages, kernelRemainingStart, kernelRemainingEnd,
      kernelVirtBase, pageSize] at *
    omega

theorem Inv.good (h : Inv kernelVirtualEnd s) {op : Op} (hs : Suitable s op) :
    Good kernelVirtualEnd s op := by
  cases op with
  | vamAllocPages count =>
      intro addr bitmap halloc hne
      rcases vamAllocPages_cases halloc with ⟨rfl, -⟩ | ⟨hzero, index, hrun, rfl, -⟩
      · exact absurd rfl hne
      · rcases hs hzero index hrun with ⟨hstart, hstop⟩ | hnull
        · exact h.wellPlaced hrun hstart hstop
        · exact absurd hnull hne
  | vamFreePages r => trivial
  | remap page present => trivial
  | elsewhere memory => trivial

/-- Only a suitable call returns a range that is well placed. -/
theorem suitable_of_good {op : Op} (hp : Permitted s op) (hg : Good kernelVirtualEnd s op) :
    Suitable s op := by
  cases op with
  | vamAllocPages count =>
      intro hzero index hrun
      by_cases hnull : vamIndexToAddr index = 0
      · exact Or.inr hnull
      · obtain ⟨hlow, hhigh⟩ :=
          (hg _ _ (vamAllocPages_of_firstRun hzero hrun) hnull).remaining
        have hcount : count < wordModulus := hp
        have hlast := hrun.1.1
        unfold vamIndexToAddr at hlow hhigh
        unfold lastIndex at hlast
        refine Or.inl ?_
        simp only [remainingIndex, vamTotalPages, kernelRemainingStart, kernelRemainingEnd,
          kernelVirtBase, pageSize, wordModulus] at *
        omega
  | vamFreePages r => trivial
  | remap page present => trivial
  | elsewhere memory => trivial

/-- A call of `vam_alloc_pages` that is suitable keeps what holds. -/
theorem Inv.alloc {addr : Nat} (h : Inv kernelVirtualEnd s)
    (hs : Suitable s (.vamAllocPages count))
    (halloc : vamAllocPages s.bitmap count = .ok (addr, bitmap)) :
    Inv kernelVirtualEnd { s with
      bitmap, live := if addr = 0 then s.live else (addr, count) :: s.live } := by
  rcases vamAllocPages_cases halloc with ⟨rfl, rfl⟩ | ⟨hzero, index, hrun, rfl, rfl⟩
  · exact h
  have hkeep : ∀ r ∈ s.live, ∃ index',
      Held kernelVirtualEnd (bitmapRangeSet s.bitmap index count) r index' := by
    intro r hr
    obtain ⟨index', hheld⟩ := h.held r hr
    exact ⟨index', hheld.mono fun q _ _ hq => bitmapTest_rangeSet_of_true index hq⟩
  have htaken : ∀ q < vamTotalPages, TakenIndex kernelVirtualEnd q →
      bitmapTest (bitmapRangeSet s.bitmap index count) q = true := fun q hq ht =>
    bitmapTest_rangeSet_of_true index (h.taken q hq ht)
  by_cases hnull : vamIndexToAddr index = 0
  · rw [if_pos hnull]
    exact ⟨htaken, hkeep, h.apart, h.mapped⟩
  rw [if_neg hnull]
  obtain ⟨hstart, hstop⟩ := (hs hzero index hrun).resolve_right hnull
  obtain ⟨haddr, hclear, huntaken⟩ := h.firstRun hrun hstop
  refine ⟨htaken, fun r hr => ?_, ?_, h.mapped⟩
  · rcases List.mem_cons.mp hr with rfl | hr
    · refine ⟨index, haddr, hstart, hstop, huntaken, fun q h1 h2 => ?_⟩
      rw [bitmapTest_rangeSet, if_pos ⟨h1, h2⟩]
      simp only [vamTotalPages, pageSize, wordModulus] at *
      omega
    · exact hkeep r hr
  · refine .cons (fun r hr => ?_) h.apart
    obtain ⟨index', hheld⟩ := h.held r hr
    exact hheld.apart haddr hclear

/-- Clearing the bits of a held range leaves the others held. -/
theorem Inv.free (h : Inv kernelVirtualEnd s) (hr : r ∈ s.live) :
    Inv kernelVirtualEnd { s with
      bitmap := vamFreePages s.bitmap r.1 r.2, live := s.live.erase r } := by
  obtain ⟨index, hheld⟩ := h.held r hr
  have hindex : vamAddrToIndex r.1 = index := by
    have hstop := hheld.stop
    unfold vamAddrToIndex
    rw [hheld.addr]
    simp only [vamTotalPages, pageSize, wordModulus, kernelVirtBase] at *
    omega
  have hclear : ∀ q, bitmapTest (vamFreePages s.bitmap r.1 r.2) q =
      if index ≤ q ∧ q < index + r.2 then false else bitmapTest s.bitmap q := by
    intro q
    unfold vamFreePages
    by_cases hzero : r.2 = 0
    · rw [if_pos hzero, if_neg (by omega)]
    · have hstop := hheld.stop
      rw [if_neg hzero, hindex, bitmapTest_rangeClear]
      simp only [vamTotalPages, pageSize, wordModulus] at *
      omega
  have hpairs : (r :: s.live.erase r).Pairwise Apart :=
    ((List.perm_cons_erase hr).pairwise_iff fun h => h.symm).mp h.apart
  obtain ⟨hapart, hrest⟩ := List.pairwise_cons.mp hpairs
  refine ⟨fun q hq ht => ?_, fun r' hr' => ?_, hrest, h.mapped⟩
  · rw [hclear, if_neg fun hin => hheld.untaken q hin.1 hin.2 ht]
    exact h.taken q hq ht
  · obtain ⟨index', hheld'⟩ := h.held r' (List.mem_of_mem_erase hr')
    refine ⟨index', hheld'.mono fun q h1 h2 hq => ?_⟩
    rw [hclear, if_neg fun hin => ?_]
    · exact hq
    · exact hapart r' hr' _ ((hasPage_iff hheld.addr).mpr ⟨q, hin.1, hin.2, rfl⟩)
        ((hasPage_iff hheld'.addr).mpr ⟨q, h1, h2, rfl⟩)

theorem bitmapTest_elsewhere {memory : Bitmap} (hq : q < vamTotalPages) :
    bitmapTest (fun i => if i < vamBitmapBytes then bitmap i else memory i) q =
      bitmapTest bitmap q := by
  have hbyte : q / 8 < vamBitmapBytes := by
    simp only [vamBitmapBytes, vamTotalPages, pageSize] at *
    omega
  rw [PmmMemory.bitmapTest_eq, PmmMemory.bitmapTest_eq, if_pos hbyte]

theorem Inv.step {op : Op} (h : Inv kernelVirtualEnd s) (hp : Permitted s op) (hs : Suitable s op)
    (hstep : step s op = some t) : Inv kernelVirtualEnd t := by
  cases op with
  | vamAllocPages count =>
      unfold Vam.step at hstep
      dsimp only at hstep
      cases halloc : vamAllocPages s.bitmap count with
      | error e =>
          rw [halloc] at hstep
          cases hstep
      | ok result =>
          obtain ⟨addr, bitmap⟩ := result
          rw [halloc] at hstep
          cases hstep
          exact h.alloc hs halloc
  | vamFreePages r =>
      cases hstep
      exact h.free hp
  | remap page present =>
      cases hstep
      refine ⟨h.taken, h.held, h.apart, fun page' hpage hmapped => ?_⟩
      dsimp only at hmapped ⊢
      by_cases heq : page' = page
      · subst heq
        rw [Function.update_self] at hmapped
        rw [if_pos hmapped, Function.update_self]
      · rw [Function.update_of_ne heq] at hmapped
        have hused := h.mapped page' hpage hmapped
        split
        · rw [Function.update_of_ne heq]
          exact hused
        · exact hused
  | elsewhere memory =>
      cases hstep
      refine ⟨fun q hq ht => ?_, fun r hr => ?_, h.apart, h.mapped⟩
      · dsimp only
        rw [bitmapTest_elsewhere hq]
        exact h.taken q hq ht
      · obtain ⟨index, hheld⟩ := h.held r hr
        refine ⟨index, hheld.mono fun q _ h2 hq => ?_⟩
        dsimp only
        rw [bitmapTest_elsewhere (Nat.lt_of_lt_of_le h2 hheld.stop)]
        exact hq

/-- After boot nothing is held and the region left to allocate is not mapped. -/
theorem inv_initial {info : BootInfo} {frames : Nat → Bytes.Block} {directory : Nat} {m : Mm}
    (hboot : boot info frames directory = .ok m) (hstart : kernelImageBase < kernelVirtualEnd)
    (hend : kernelVirtualEnd ≤ kernelVirtEnd + 1) (memory : Bitmap) :
    Inv kernelVirtualEnd (initial kernelVirtualEnd memory m) := by
  have hbits : ∀ q < vamTotalPages, TakenIndex kernelVirtualEnd q →
      bitmapTest (initial kernelVirtualEnd memory m).bitmap q = true := by
    intro q hq ht
    rw [initial_bitmap]
    exact (bitmapTest_vamInit hq hstart hend).mpr ht
  refine ⟨hbits, fun r hr => absurd hr List.not_mem_nil, .nil, fun page hpage hmapped => ?_⟩
  have hindex : RemainingIndex (directoryIndex (page * pageSize)) := by
    unfold RemainingPage at hpage
    unfold RemainingIndex directoryIndex
    simp only [kernelRemainingStart, kernelRemainingEnd, pageSize, recursivePdeIndex] at *
    omega
  have hwalk : m.walk m.kernelDirectory (page * pageSize) = none := by
    unfold Mm.walk
    dsimp only
    rw [boot_remaining hboot _ hindex]
    rfl
  have hmapped : (m.walk m.kernelDirectory (page * pageSize)).isSome = true := hmapped
  rw [hwalk] at hmapped
  cases hmapped

end Inv

/-! ## The runs that stay in the region left to allocate -/

/-- However a run goes on after boot, every range returned is well placed exactly when every call of
`vam_alloc_pages` is suitable. -/
theorem vam_ranges_iff {info : BootInfo} {frames : Nat → Bytes.Block} {directory : Nat} {m : Mm}
    (hboot : boot info frames directory = .ok m) {kernelVirtualEnd : Nat}
    (hstart : kernelImageBase < kernelVirtualEnd) (hend : kernelVirtualEnd ≤ kernelVirtEnd + 1)
    (memory : Bitmap) (ls : List Op) :
    Throughout step Permitted (initial kernelVirtualEnd memory m) ls (Good kernelVirtualEnd) ↔
    Throughout step Permitted (initial kernelVirtualEnd memory m) ls Suitable := by
  constructor
  · intro hgood ms op ns u hls hms hp
    exact suitable_of_good hp (hgood ms op ns u hls hms hp)
  · intro hsuitable ms op ns u hls hms hp
    have hinv : Inv kernelVirtualEnd u := by
      rw [hls] at hsuitable
      refine (hms.restrict hsuitable.of_append).invariant (inv_initial hboot hstart hend memory) ?_
      intro s op t h hok hs
      exact h.step hok.1 hok.2 hs
    exact hinv.good (hsuitable ms op ns u hls hms hp)

/-! ## Right after boot -/

/-- Two megabytes of memory; the kernel ends at 0x110000 and the boot information is behind it. -/
def smallMachine : BootInfo where
  mmap := some [{ addr := 0, len := 0x200000, type := multibootMemoryAvailable }]
  mbInfo := 0xC0110000
  totalSize := 0x1000
  module := none
  kernelEnd := 0x00110000
  stale _ := false

set_option maxRecDepth 4000 in
theorem smallMachine_boots : ∃ m, boot smallMachine (fun _ => Bytes.zero) 0x108 = .ok m := by
  have h : (boot smallMachine (fun _ => Bytes.zero) 0x108).isOk = true := by decide +kernel
  cases hm : boot smallMachine (fun _ => Bytes.zero) 0x108 with
  | error e =>
      rw [hm] at h
      cases h
  | ok m => exact ⟨m, rfl⟩

/-- The pages below the image are free, and the search begins there. -/
theorem firstRun_low (memory : Bitmap) : FirstRun (vamInit 0xC0110000 memory) 1 0 := by
  refine ⟨⟨Nat.zero_le _, (bitmapRangeFree_iff (by decide)).mpr fun q _ hq => ?_⟩,
    fun j hj => absurd hj (by omega)⟩
  obtain rfl : q = 0 := by omega
  rw [← Bool.not_eq_true, bitmapTest_vamInit (by decide) (by decide) (by decide)]
  unfold TakenIndex
  decide

/-- 4096 free pages are not found below the region left to allocate. -/
theorem suitable_large (memory : Bitmap) (m : Mm) :
    Suitable (initial 0xC0110000 memory m) (.vamAllocPages 4096) := by
  intro _ index hrun
  have hlast : index ≤ vamTotalPages - 4096 := hrun.1.1
  have hmodulus : index + 4096 ≤ wordModulus := by
    simp only [vamTotalPages, pageSize, wordModulus] at *
    omega
  have hfree := (bitmapRangeFree_iff hmodulus).mp hrun.1.2
  rw [initial_bitmap] at hfree
  have huntaken : ∀ q, index ≤ q → q < index + 4096 → ¬ TakenIndex 0xC0110000 q := by
    intro q h1 h2 ht
    have hq : q < vamTotalPages := by
      simp only [vamTotalPages, pageSize] at *
      omega
    have htest : bitmapTest (vamInit 0xC0110000 memory) q = true :=
      (bitmapTest_vamInit hq (by decide) (by decide)).mpr ht
    have hclear : bitmapTest (vamInit 0xC0110000 memory) q = false := hfree q h1 h2
    rw [htest] at hclear
    cases hclear
  have hstart : remainingIndex ≤ index := by
    by_contra hlow
    -- the first page of the image, the first of the heap, or the run's own
    have himage := huntaken 256
    have hheap := huntaken 4096
    have hself := huntaken index (Nat.le_refl _) (by omega)
    unfold TakenIndex at himage hheap hself
    simp only [remainingIndex, kernelRemainingStart, kernelVirtBase, kernelImageBase, pageSize,
      kernelHeapStart, kernelBootstrapEnd, bootstrapMapSize, kernelStacksEnd] at *
    omega
  refine Or.inl ⟨hstart, ?_⟩
  simp only [vamTotalPages, pageSize] at *
  omega

/-- The first page that `vam_alloc_pages` returns is the first of the direct map. -/
theorem vam_returns_direct_map :
    ∃ m, boot smallMachine (fun _ => Bytes.zero) 0x108 = .ok m ∧
      ¬ Throughout step Permitted (initial 0xC0110000 (fun _ => 0) m) [.vamAllocPages 1]
        (Good 0xC0110000) := by
  obtain ⟨m, hm⟩ := smallMachine_boots
  refine ⟨m, hm, fun hall => ?_⟩
  have hone : 1 < wordModulus := by decide
  have hgood := hall [] _ [] _ rfl .nil hone
  have hrun : FirstRun (initial 0xC0110000 (fun _ => 0) m).bitmap 1 0 := by
    rw [initial_bitmap]
    exact firstRun_low _
  have hplaced := hgood _ _ (vamAllocPages_of_firstRun (by decide) hrun) (by decide)
  exact absurd hplaced.remaining.1 (by decide)

/-- A request for 4096 pages. -/
theorem vam_ranges_large :
    ∃ m, boot smallMachine (fun _ => Bytes.zero) 0x108 = .ok m ∧
      Throughout step Permitted (initial 0xC0110000 (fun _ => 0) m) [.vamAllocPages 4096]
        (Good 0xC0110000) := by
  obtain ⟨m, hm⟩ := smallMachine_boots
  refine ⟨m, hm, (vam_ranges_iff hm (by decide) (by decide) _ _).mpr ?_⟩
  intro ms op ns u hls hms _
  cases ms with
  | nil =>
      obtain ⟨rfl, -⟩ := List.cons.inj hls
      obtain rfl := hms.nil_eq
      exact suitable_large _ m
  | cons first ms =>
      have hlength := congrArg List.length hls
      rw [List.length_append, List.length_cons, List.length_cons, List.length_cons,
        List.length_nil] at hlength
      omega

end Vam

end Neox
