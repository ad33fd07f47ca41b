import Neox.Mm.Bitmap
import Mathlib

/-!
# Where `pmm_init` puts its bitmap, and what it leaves free

The storage of the bitmap begins at the first page after the kernel image and the boot information
block. It is overwritten before anything is reserved, and the module has no part in the choice. Regions
of the memory map and objects are turned into ranges of pages by rounding the address and the length
one by one.

* `bitmap_storage_iff`: when the storage is where it should be.
* `pmm_marks_usable_iff`: when only usable pages are left free.
-/

namespace Neox

namespace BootInfo

variable {info : BootInfo} {page : Nat}

/-! ## The storage -/

/-- The bytes of the kernel image. -/
def image (info : BootInfo) : Set Nat := Set.Ico kernelLoadAddress info.kernelEnd

/-- The bytes of the boot information block. -/
def block (info : BootInfo) : Set Nat :=
  Set.Ico (virtToPhys info.mbInfo) (virtToPhys info.mbInfo + info.totalSize)

/-- 256 MiB, and a module right behind the boot information block, where GRUB puts it. -/
def moduleBehindBlock : BootInfo where
  mmap := some [{ addr := 0, len := 0x10000000, type := multibootMemoryAvailable }]
  mbInfo := 0xC0110000
  totalSize := 0x1000
  module := some (0x00112000, 0x00116000)
  kernelEnd := 0x00110000
  stale _ := false

/-- A range of bytes: its address and its length. -/
abbrev ByteRange := Nat × Nat

/-- `bitmap_clear_range` clears the bit of this page. -/
def Cleared (range : ByteRange) (page : Nat) : Prop :=
  inPageRange (range.1 / pageSize % wordModulus) (range.2 / pageSize % wordModulus) page = true

/-- `bitmap_set_range` sets the bit of this page. -/
def Marked (range : ByteRange) (page : Nat) : Prop :=
  inPageRange (range.1 / pageSize % wordModulus)
    ((range.2 + pageSize - 1) % 2 ^ 64 / pageSize % wordModulus) page = true

/-- The page lies entirely in the range. -/
def Inside (range : ByteRange) (page : Nat) : Prop :=
  range.1 ≤ page * pageSize ∧ (page + 1) * pageSize ≤ range.1 + range.2

/-- The page and the range have a byte in common. -/
def Meets (range : ByteRange) (page : Nat) : Prop :=
  0 < range.2 ∧ range.1 < (page + 1) * pageSize ∧ page * pageSize < range.1 + range.2

/-- A page that is cleared for a region in which it does not lie. -/
def Misplaced (range : ByteRange) (page : Nat) : Prop := Cleared range page ∧ ¬ Inside range page

/-- A page that an object reaches into and that is not set for it. -/
def Missed (range : ByteRange) (page : Nat) : Prop := Meets range page ∧ ¬ Marked range page

section Ranges

variable {range : ByteRange}

theorem inPageRange_iff {first pages : Nat} (hstop : first + pages ≤ wordModulus)
    (hpage : page < wordModulus) :
    inPageRange first pages page = true ↔ first ≤ page ∧ page < first + pages := by
  unfold inPageRange
  rw [decide_eq_true_iff]
  simp only [wordModulus] at *
  omega

/-- Below 16 TiB that is the page in which a region begins that is not on a page boundary. -/
theorem misplaced_iff (h : range.1 + range.2 < wordModulus * pageSize) (hpage : page < wordModulus) :
    Misplaced range page ↔
      page = range.1 / pageSize ∧ range.1 % pageSize ≠ 0 ∧ pageSize ≤ range.2 := by
  have hfirst : range.1 / pageSize % wordModulus = range.1 / pageSize := by
    simp only [pageSize, wordModulus] at *
    omega
  have hcount : range.2 / pageSize % wordModulus = range.2 / pageSize := by
    simp only [pageSize, wordModulus] at *
    omega
  have hstop : range.1 / pageSize + range.2 / pageSize ≤ wordModulus := by
    simp only [pageSize, wordModulus] at *
    omega
  unfold Misplaced Cleared Inside
  rw [hfirst, hcount, inPageRange_iff hstop hpage]
  simp only [pageSize]
  omega

/-- Below 16 TiB that is the page of the last byte, when the length rounded up does not reach it from the
page of the first. -/
theorem missed_iff (h : range.1 + range.2 + pageSize ≤ wordModulus * pageSize)
    (hpage : page < wordModulus) :
    Missed range page ↔ 0 < range.2 ∧ page = (range.1 + range.2 - 1) / pageSize ∧
      range.1 / pageSize + (range.2 + pageSize - 1) / pageSize ≤ page := by
  have hfirst : range.1 / pageSize % wordModulus = range.1 / pageSize := by
    simp only [pageSize, wordModulus] at *
    omega
  have hcount : (range.2 + pageSize - 1) % 2 ^ 64 / pageSize % wordModulus =
      (range.2 + pageSize - 1) / pageSize := by
    simp only [pageSize, wordModulus] at *
    omega
  have hstop : range.1 / pageSize + (range.2 + pageSize - 1) / pageSize ≤ wordModulus := by
    simp only [pageSize, wordModulus] at *
    omega
  unfold Missed Marked Meets
  rw [hfirst, hcount, inPageRange_iff hstop hpage]
  simp only [pageSize]
  omega

end Ranges

/-! ## What is left free -/

/-- The regions of the memory map that are not available. -/
def unavailable (info : BootInfo) : List ByteRange :=
  ((info.mmap.getD []).filter (·.type ≠ multibootMemoryAvailable)).map fun entry =>
    (entry.addr, entry.len)

/-- The first megabyte, the kernel, the boot information block, the module and the bitmap. -/
def objects (info : BootInfo) : List ByteRange :=
  [(0, 0x00100000), (kernelLoadAddress, info.kernelEnd - kernelLoadAddress),
    (virtToPhys info.mbInfo, info.totalSize)] ++
  (info.module.toList.map fun (modStart, modEnd) => (modStart, modEnd - modStart)) ++
  [(info.bitmapAddress, info.bitmapSize)]

/-- The indices of the bitmap that `pmm_init` writes, after `memset`. -/
def written (info : BootInfo) : List Nat :=
  if info.mmap.isNone then []
  else
    info.available.flatMap (fun range => PmmMemory.pageRange (range.1 / pageSize % wordModulus)
      (range.2 / pageSize % wordModulus)) ++
    info.reserved.flatMap fun range => PmmMemory.pageRange (range.1 / pageSize % wordModulus)
      ((range.2 + pageSize - 1) % 2 ^ 64 / pageSize % wordModulus)

/-- Every page left free is usable memory, and nothing is written outside the bitmap. -/
structure MarksUsable (info : BootInfo) (memory : Nat → BitVec 8) : Prop where
  available : ∀ page, (PmmMemory.pmmInit info memory).bits.Free page →
    ∃ range ∈ info.available, Inside range page
  unavailable : ∀ page, (PmmMemory.pmmInit info memory).bits.Free page →
    ∀ range ∈ info.unavailable, ¬ Meets range page
  objects : ∀ page, (PmmMemory.pmmInit info memory).bits.Free page →
    ∀ range ∈ info.objects, ¬ Meets range page
  inside : ∀ index ∈ info.written, index / 8 < info.bitmapSize

/-- `pages` pages from `first` on are within the bitmap. -/
def Fits (info : BootInfo) (first pages : Nat) : Prop :=
  pages = 0 ∨ first + pages ≤ 8 * info.bitmapSize

/-- An available region covers the page and no reserved range does, as their pages are counted. -/
structure Offered (info : BootInfo) (page : Nat) : Prop where
  below : page < info.totalPages
  cleared : ∃ range ∈ info.available, Cleared range page
  unmarked : ∀ range ∈ info.reserved, ¬ Marked range page

/-- The pages that rounding gets wrong are reserved for something else, or are in another available
region; a page with something unavailable in it is in none or is reserved; and every range ends in the
bitmap. -/
structure Laid (info : BootInfo) : Prop where
  available : ∀ range ∈ info.available, ∀ page, Misplaced range page → info.Offered page →
    ∃ other ∈ info.available, Inside other page
  unavailable : ∀ range ∈ info.unavailable, ∀ page, Meets range page → ¬ info.Offered page
  objects : ∀ range ∈ info.objects, ∀ page, Missed range page → ¬ info.Offered page
  cleared : info.mmap ≠ none → ∀ range ∈ info.available,
    info.Fits (range.1 / pageSize % wordModulus) (range.2 / pageSize % wordModulus)
  marked : info.mmap ≠ none → ∀ range ∈ info.reserved, info.Fits (range.1 / pageSize % wordModulus)
    ((range.2 + pageSize - 1) % 2 ^ 64 / pageSize % wordModulus)

/-- The fields of the boot information have their widths. -/
structure Words (info : BootInfo) : Prop where
  kernelEnd : info.kernelEnd < wordModulus
  module : ∀ range ∈ info.module, range.1 < wordModulus ∧ range.2 < wordModulus

theorem bitmapSize_lt (info : BootInfo) : 8 * info.bitmapSize < wordModulus := by
  unfold bitmapSize
  simp only [wordModulus]
  omega

theorem pageRange_inside {first pages : Nat} (hfirst : first < wordModulus) :
    (∀ index ∈ PmmMemory.pageRange first pages, index / 8 < info.bitmapSize) ↔
      info.Fits first pages := by
  have hsize := info.bitmapSize_lt
  unfold PmmMemory.pageRange Fits
  constructor
  · intro hall
    by_contra hnot
    rw [not_or, Nat.not_le] at hnot
    obtain ⟨hpages, hover⟩ := hnot
    -- The first index behind the bitmap.
    have hindex := hall ((first + (8 * info.bitmapSize - first)) % wordModulus)
      (List.mem_map.mpr ⟨8 * info.bitmapSize - first, List.mem_range.mpr (by omega), rfl⟩)
    simp only [wordModulus] at *
    omega
  · intro hfits index hindex
    obtain ⟨i, hi, rfl⟩ := List.mem_map.mp hindex
    have hlt := List.mem_range.mp hi
    simp only [wordModulus] at *
    omega

theorem mem_reserved {range : ByteRange} (hw : info.Words) (hmem : range ∈ info.objects)
    (hlen : 0 < range.2) : ∃ other ∈ info.reserved, ∀ page, Marked range page → Marked other page := by
  unfold objects at hmem
  unfold reserved
  simp only [List.cons_append, List.nil_append, List.mem_cons, List.mem_append, List.mem_map,
    Option.mem_toList, List.not_mem_nil, or_false] at hmem ⊢
  rcases hmem with rfl | rfl | rfl | ⟨⟨modStart, modEnd⟩, hmodule, rfl⟩ | rfl
  · exact ⟨_, .inl rfl, fun page h => h⟩
  · have hlength : (info.kernelEnd + (wordModulus - kernelLoadAddress)) % wordModulus =
        info.kernelEnd - kernelLoadAddress := by
      have hkernel := hw.kernelEnd
      simp only [wordModulus, kernelLoadAddress] at *
      omega
    refine ⟨_, .inr (.inl rfl), fun page h => ?_⟩
    rw [hlength]
    exact h
  · exact ⟨_, .inr (.inr (.inl rfl)), fun page h => h⟩
  · have hlength : (modEnd + (wordModulus - modStart)) % wordModulus = modEnd - modStart := by
      have hbounds := hw.module _ hmodule
      simp only [wordModulus] at *
      omega
    refine ⟨_, .inr (.inr (.inr (.inl ⟨_, hmodule, rfl⟩))), fun page h => ?_⟩
    dsimp only
    rw [hlength]
    exact h
  · refine ⟨_, .inr (.inr (.inr (.inr rfl))), fun page h => ?_⟩
    have hsize := info.bitmapSize_lt
    unfold Marked at h ⊢
    have hpages : ((info.bitmapSize + pageSize - 1) / pageSize * pageSize % wordModulus +
        pageSize - 1) % 2 ^ 64 / pageSize = (info.bitmapSize + pageSize - 1) % 2 ^ 64 / pageSize := by
      simp only [pageSize, wordModulus] at *
      omega
    dsimp only at h ⊢
    rw [hpages]
    exact h

theorem Offered.usable (h : info.Offered page) (memory : Nat → BitVec 8) :
    info.usable memory page = true := by
  obtain ⟨range, hrange, hcleared⟩ := h.cleared
  have hclear : (info.available.any fun range => inPageRange (range.1 / pageSize % wordModulus)
      (range.2 / pageSize % wordModulus) page) = true :=
    List.any_eq_true.mpr ⟨range, hrange, hcleared⟩
  have hreserved : (info.reserved.any fun range => inPageRange (range.1 / pageSize % wordModulus)
      ((range.2 + pageSize - 1) % 2 ^ 64 / pageSize % wordModulus) page) = false := by
    rw [List.any_eq_false]
    exact h.unmarked
  unfold BootInfo.usable
  rw [hclear, hreserved, decide_eq_true h.below]
  rfl

theorem offered_of_usable {memory : Nat → BitVec 8} (h : info.usable memory page = true)
    (hsize : page < info.totalPages → page / 8 < info.bitmapSize) : info.Offered page := by
  unfold usable at h
  rw [Bool.and_eq_true, Bool.and_eq_true, decide_eq_true_iff, Bool.not_eq_true'] at h
  obtain ⟨⟨hlt, hclear⟩, hreserved⟩ := h
  refine ⟨hlt, ?_, fun range hrange => List.any_eq_false.mp hreserved range hrange⟩
  rw [Bool.or_eq_true, Bool.and_eq_true, decide_eq_true_iff] at hclear
  rcases hclear with hany | ⟨hstale, -⟩
  · obtain ⟨range, hrange, hcleared⟩ := List.any_eq_true.mp hany
    exact ⟨range, hrange, hcleared⟩
  · exact absurd (hsize hlt) (Nat.not_lt.mpr hstale)

/-- The writes are within the bitmap exactly when every range ends in it. -/
theorem written_inside_iff : (∀ index ∈ info.written, index / 8 < info.bitmapSize) ↔
    (info.mmap ≠ none → ∀ range ∈ info.available,
      info.Fits (range.1 / pageSize % wordModulus) (range.2 / pageSize % wordModulus)) ∧
    (info.mmap ≠ none → ∀ range ∈ info.reserved, info.Fits (range.1 / pageSize % wordModulus)
      ((range.2 + pageSize - 1) % 2 ^ 64 / pageSize % wordModulus)) := by
  have hmod : ∀ n, n % wordModulus < wordModulus := fun n => Nat.mod_lt n (by decide)
  unfold written
  cases hmmap : info.mmap with
  | none => simp
  | some mmap =>
      simp only [Option.isNone_some, Bool.false_eq_true, if_false, List.mem_append, ne_eq,
        reduceCtorEq, not_false_eq_true, true_implies]
      constructor
      · intro hall
        refine ⟨fun range hrange => (pageRange_inside (hmod _)).mp fun index hindex => ?_,
          fun range hrange => (pageRange_inside (hmod _)).mp fun index hindex => ?_⟩
        · exact hall index (.inl (List.mem_flatMap.mpr ⟨range, hrange, hindex⟩))
        · exact hall index (.inr (List.mem_flatMap.mpr ⟨range, hrange, hindex⟩))
      · rintro ⟨hcleared, hmarked⟩ index (hindex | hindex)
        · obtain ⟨range, hrange, hindex⟩ := List.mem_flatMap.mp hindex
          exact (pageRange_inside (hmod _)).mpr (hcleared range hrange) index hindex
        · obtain ⟨range, hrange, hindex⟩ := List.mem_flatMap.mp hindex
          exact (pageRange_inside (hmod _)).mpr (hmarked range hrange) index hindex

/-- With every range in the bitmap its size has not wrapped. -/
theorem Laid.bitmapSize (h : info.Laid) (hpage : page < info.totalPages) :
    page / 8 < info.bitmapSize := by
  have hsome : info.mmap ≠ none := by
    intro hnone
    unfold totalPages at hpage
    rw [hnone] at hpage
    exact Nat.not_lt_zero _ hpage
  have hfirst : info.Fits 0 256 := by
    have hmem : ((0, 0x00100000) : ByteRange) ∈ info.reserved := List.mem_cons_self ..
    exact h.marked hsome _ hmem
  have htotal := info.totalPages_lt
  unfold Fits at hfirst
  unfold BootInfo.bitmapSize at hfirst ⊢
  simp only [wordModulus] at *
  omega

/-- Only usable pages are left free exactly when the pages that rounding gets wrong are none of them. -/
theorem pmm_marks_usable_iff (info : BootInfo) (memory : Nat → BitVec 8) (hw : info.Words) :
    info.MarksUsable memory ↔ info.Laid := by
  constructor
  · intro h
    have hwritten := written_inside_iff.mp h.inside
    have hfree : ∀ page, info.Offered page → (PmmMemory.pmmInit info memory).bits.Free page := by
      intro page hoffered
      exact PmmMemory.pmmInit_free.mpr (hoffered.usable memory)
    refine ⟨?_, ?_, ?_, hwritten.1, hwritten.2⟩
    · intro range _ page _ hoffered
      exact h.available page (hfree page hoffered)
    · intro range hrange page hmeets hoffered
      exact h.unavailable page (hfree page hoffered) range hrange hmeets
    · intro range hrange page hmissed hoffered
      exact h.objects page (hfree page hoffered) range hrange hmissed.1
  · intro h
    have hoffered : ∀ page, (PmmMemory.pmmInit info memory).bits.Free page → info.Offered page := by
      intro page hfree
      exact offered_of_usable (PmmMemory.pmmInit_free.mp hfree) h.bitmapSize
    refine ⟨?_, ?_, ?_, written_inside_iff.mpr ⟨h.cleared, h.marked⟩⟩
    · intro page hfree
      obtain ⟨range, hrange, hcleared⟩ := (hoffered page hfree).cleared
      by_cases hinside : Inside range page
      · exact ⟨range, hrange, hinside⟩
      · exact h.available range hrange page ⟨hcleared, hinside⟩ (hoffered page hfree)
    · intro page hfree range hrange hmeets
      exact h.unavailable range hrange page hmeets (hoffered page hfree)
    · intro page hfree range hrange hmeets
      by_cases hmarked : Marked range page
      · obtain ⟨other, hother, himp⟩ := mem_reserved hw hrange hmeets.1
        exact (hoffered page hfree).unmarked other hother (himp page hmarked)
      · exact h.objects range hrange page ⟨hmeets, hmarked⟩ (hoffered page hfree)

/-- On page boundaries no range loses a page, so the module under the bitmap is kept from the allocator
all the same. -/
theorem pmm_marks_usable_behind_block : moduleBehindBlock.MarksUsable fun _ => 0 := by
  have hlaid : moduleBehindBlock.Laid := by
    refine ⟨fun range hrange page hmisplaced hoffered => ?_, fun range hrange => ?_,
      fun range hrange page hmissed hoffered => ?_, fun _ => ?_, fun _ => ?_⟩
    · have haligned : ∀ range ∈ moduleBehindBlock.available,
          range.1 + range.2 < wordModulus * pageSize ∧ range.1 % pageSize = 0 := by decide
      obtain ⟨hlt, hzero⟩ := haligned range hrange
      have hpage := Nat.lt_trans hoffered.below moduleBehindBlock.totalPages_lt
      exact absurd hzero ((misplaced_iff hlt hpage).mp hmisplaced).2.1
    · cases hrange
    · have hreached : ∀ range ∈ moduleBehindBlock.objects,
          range.1 + range.2 + pageSize ≤ wordModulus * pageSize ∧ (range.1 + range.2 - 1) / pageSize <
            range.1 / pageSize + (range.2 + pageSize - 1) / pageSize := by decide
      obtain ⟨hle, hlast⟩ := hreached range hrange
      have hpage := Nat.lt_trans hoffered.below moduleBehindBlock.totalPages_lt
      obtain ⟨-, hpage, hover⟩ := (missed_iff hle hpage).mp hmissed
      omega
    · unfold Fits
      decide
    · unfold Fits
      decide
  exact (pmm_marks_usable_iff moduleBehindBlock (fun _ => 0) ⟨by decide, by simp [moduleBehindBlock]⟩).mpr
    hlaid

/-- A boot information block of 512 bytes that straddles a page boundary. -/
def blockAcrossPages : BootInfo where
  mmap := some [{ addr := 0, len := 0x200000, type := multibootMemoryAvailable }]
  mbInfo := 0xC0110F00
  totalSize := 0x200
  module := none
  kernelEnd := 0x00110000
  stale _ := false

/-- Its length makes one page, so that the page with its second half is left free. -/
theorem pmm_frees_block_tail : ¬ blockAcrossPages.MarksUsable fun _ => 0 := by
  intro h
  have husable : blockAcrossPages.usable (fun _ => 0) 0x111 = true := by decide
  have hmem : ((0x110F00, 0x200) : ByteRange) ∈ blockAcrossPages.objects := by decide
  refine h.objects 0x111 (PmmMemory.pmmInit_free.mpr husable) _ hmem ?_
  unfold Meets
  decide

end BootInfo

end Neox
