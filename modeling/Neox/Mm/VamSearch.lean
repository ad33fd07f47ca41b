import Neox.Lib.Traced
import Neox.Mm.Vam

/-!
# The search for virtual pages

`vam_alloc_pages` over any bitmap, reporting every index of the bitmap that it tests or sets. The bound
of its loop is `VAM_TOTAL_PAGES - count` on `uint32_t`, which is large when `count` is larger than the
region.

* `vam_first_fit_iff`: for which requests the search is first fit.
-/

namespace Neox.Vam

open PmmMemory (bitmapSet bitmapTest pageRange)
open Traced

/-! ## The accesses -/

namespace Access

/-- The loop of `bitmap_range_free` over the indices that are left. -/
def rangeFreeFrom (bitmap : Bitmap) : List Nat → Traced Stop Nat Bool
  | [] => pure true
  | index :: rest => do
      report index
      if bitmapTest bitmap index then return false else rangeFreeFrom bitmap rest

/-- `bitmap_range_free`. -/
def bitmapRangeFree (bitmap : Bitmap) (start count : Nat) : Traced Stop Nat Bool :=
  rangeFreeFrom bitmap (pageRange start count)

/-- The loop of `bitmap_range_set`. -/
def rangeSetFrom (bitmap : Bitmap) : List Nat → Traced Stop Nat Bitmap
  | [] => pure bitmap
  | index :: rest => do
      report index
      rangeSetFrom (bitmapSet bitmap index) rest

/-- `bitmap_range_set`. -/
def bitmapRangeSet (bitmap : Bitmap) (start count : Nat) : Traced Stop Nat Bitmap :=
  rangeSetFrom bitmap (pageRange start count)

/-- The loop of `vam_alloc_pages` from `index` on, with `n` indices left. -/
def vamFindFrom (bitmap : Bitmap) (count index : Nat) : Nat → Traced Stop Nat (Option Nat)
  | 0 => pure none
  | n + 1 => do
      if ← bitmapRangeFree bitmap index count then return some index
      else vamFindFrom bitmap count (index + 1) n

/-- `vam_alloc_pages`. -/
def vamAllocPages (bitmap : Bitmap) (count : Nat) : Traced Stop Nat (Nat × Bitmap) := do
  if count = 0 then return (0, bitmap)
  else
    match ← vamFindFrom bitmap count 0 (lastIndex count + 1) with
    | some index =>
        let bitmap ← bitmapRangeSet bitmap index count
        return (vamIndexToAddr index, bitmap)
    | none => if lastIndex count = wordModulus - 1 then silent (throw .hang) else return (0, bitmap)

end Access

variable {bitmap : Bitmap} {count index start n q : Nat} {R : Nat → Prop}

/-! ## The same search -/

theorem rangeFreeFrom_result (l : List Nat) :
    (Access.rangeFreeFrom bitmap l).result = .ok (l.all fun index => !bitmapTest bitmap index) := by
  induction l with
  | nil => rfl
  | cons index rest ih =>
      unfold Access.rangeFreeFrom
      rw [List.all_cons]
      cases hbit : bitmapTest bitmap index with
      | true => rfl
      | false =>
          show (Access.rangeFreeFrom bitmap rest).result = _
          rw [ih]
          rfl

theorem bitmapRangeFree_result :
    (Access.bitmapRangeFree bitmap start count).result = .ok (bitmapRangeFree bitmap start count) :=
  rangeFreeFrom_result _

theorem rangeSetFrom_result (l : List Nat) :
    (Access.rangeSetFrom bitmap l).result = .ok (l.foldl bitmapSet bitmap) := by
  induction l generalizing bitmap with
  | nil => rfl
  | cons index rest ih => exact ih

theorem vamFindFrom_result :
    (Access.vamFindFrom bitmap count index n).result = .ok (vamFindFrom bitmap count index n) := by
  induction n generalizing index with
  | zero => rfl
  | succ n ih =>
      unfold Access.vamFindFrom vamFindFrom
      rw [result_bind, bitmapRangeFree_result]
      show Traced.result (if bitmapRangeFree bitmap index count = true then _ else _) = _
      split
      · rfl
      · exact ih

/-- Reporting the accesses changes nothing. -/
theorem vamAllocPages_result :
    (Access.vamAllocPages bitmap count).result = vamAllocPages bitmap count := by
  unfold Access.vamAllocPages vamAllocPages
  by_cases hzero : count = 0
  · rw [if_pos hzero, if_pos hzero]
    rfl
  rw [if_neg hzero, if_neg hzero, result_bind, vamFindFrom_result]
  cases vamFindFrom bitmap count 0 (lastIndex count + 1) with
  | some index =>
      show Traced.result (Access.bitmapRangeSet bitmap index count >>= _) = _
      rw [result_bind]
      unfold Access.bitmapRangeSet
      rw [rangeSetFrom_result]
      rfl
  | none =>
      show Traced.result (if lastIndex count = wordModulus - 1 then _ else _) = _
      split
      · rfl
      · rfl

/-! ## What is accessed -/

theorem rangeFreeFrom_reports {l : List Nat} (h : ∀ index ∈ l, R index) :
    Reports R (Access.rangeFreeFrom bitmap l) := by
  induction l with
  | nil => exact reports_pure
  | cons index rest ih =>
      obtain ⟨hindex, hrest⟩ := List.forall_mem_cons.mp h
      unfold Access.rangeFreeFrom
      refine reports_report_bind.mpr ⟨hindex, reports_ite.mpr ⟨fun _ => reports_pure, fun _ => ?_⟩⟩
      exact ih hrest

/-- The first page is tested, and in a free range every page is. -/
theorem tested_of_reports {l : List Nat} (h : Reports R (Access.rangeFreeFrom bitmap l)) :
    (∀ index, l.head? = some index → R index) ∧
      ((l.all fun index => !bitmapTest bitmap index) = true → ∀ index ∈ l, R index) := by
  induction l with
  | nil =>
      constructor
      · intro index hindex
        cases hindex
      · intro _ index hindex
        cases hindex
  | cons first rest ih =>
      unfold Access.rangeFreeFrom at h
      obtain ⟨hfirst, hrest⟩ := reports_report_bind.mp h
      refine ⟨fun index hindex => ?_, fun hall => ?_⟩
      · cases hindex
        exact hfirst
      · rw [List.all_cons, Bool.and_eq_true, Bool.not_eq_true'] at hall
        rw [hall.1] at hrest
        exact List.forall_mem_cons.mpr ⟨hfirst, (ih hrest).2 hall.2⟩

theorem rangeSetFrom_reports {l : List Nat} (h : ∀ index ∈ l, R index) :
    Reports R (Access.rangeSetFrom bitmap l) := by
  induction l generalizing bitmap with
  | nil => exact reports_pure
  | cons index rest ih =>
      obtain ⟨hindex, hrest⟩ := List.forall_mem_cons.mp h
      exact reports_report_bind.mpr ⟨hindex, ih hrest⟩

theorem vamFindFrom_reports
    (h : ∀ k < n, Reports R (Access.bitmapRangeFree bitmap (index + k) count)) :
    Reports R (Access.vamFindFrom bitmap count index n) := by
  induction n generalizing index with
  | zero => exact reports_pure
  | succ n ih =>
      unfold Access.vamFindFrom
      refine reports_bind.mpr ⟨h 0 (Nat.zero_lt_succ n), fun free _ => ?_⟩
      refine reports_ite.mpr ⟨fun _ => reports_pure, fun _ => ih fun k hk => ?_⟩
      rw [Nat.add_right_comm]
      exact h (k + 1) (Nat.succ_lt_succ hk)

/-- The search tests the ranges up to the one it finds, or all of them. -/
theorem searched_of_reports (h : Reports R (Access.vamFindFrom bitmap count index n)) {k : Nat}
    (hk : k < n) (hbefore : ∀ i < k, bitmapRangeFree bitmap (index + i) count = false) :
    Reports R (Access.bitmapRangeFree bitmap (index + k) count) := by
  induction n generalizing index k with
  | zero => exact absurd hk (Nat.not_lt_zero k)
  | succ n ih =>
      unfold Access.vamFindFrom at h
      obtain ⟨hfirst, hrest⟩ := reports_bind.mp h
      cases k with
      | zero => exact hfirst
      | succ k =>
          have hnot := hbefore 0 (Nat.zero_lt_succ k)
          have htail := hrest _ bitmapRangeFree_result
          rw [Nat.add_zero] at hnot
          rw [hnot] at htail
          have hnext := ih htail (Nat.lt_of_succ_lt_succ hk) fun i hi => by
            rw [Nat.add_right_comm]
            exact hbefore (i + 1) (Nat.succ_lt_succ hi)
          rwa [Nat.add_right_comm] at hnext

/-! ## First fit -/

/-- `count` free pages of the bitmap begin at `index`. -/
def Run (bitmap : Bitmap) (count index : Nat) : Prop :=
  1 ≤ count ∧ index + count ≤ vamTotalPages ∧
    ∀ q, index ≤ q → q < index + count → bitmapTest bitmap q = false

/-- The call stays in the bitmap and returns: the lowest run, which is then taken, or `NULL`. -/
structure FirstFit (bitmap : Bitmap) (count : Nat) : Prop where
  inside : Reports (· < vamTotalPages) (Access.vamAllocPages bitmap count)
  found : ∀ index, Run bitmap count index → (∀ j < index, ¬ Run bitmap count j) →
    ∃ bitmap', (Access.vamAllocPages bitmap count).result =
        .ok (kernelVirtBase + index * pageSize, bitmap') ∧
      ∀ q, bitmapTest bitmap' q = if index ≤ q ∧ q < index + count then true else bitmapTest bitmap q
  none : (∀ index, ¬ Run bitmap count index) →
    (Access.vamAllocPages bitmap count).result = .ok (0, bitmap)

theorem lastIndex_eq (hfits : count ≤ vamTotalPages) : lastIndex count = vamTotalPages - count := by
  unfold lastIndex
  simp only [vamTotalPages, pageSize, wordModulus] at *
  omega

theorem run_iff (hpos : 1 ≤ count) (hfits : count ≤ vamTotalPages) :
    Run bitmap count index ↔ FreeRun bitmap count index := by
  unfold Run FreeRun
  rw [lastIndex_eq hfits]
  constructor
  · rintro ⟨-, hstop, hfree⟩
    refine ⟨by omega, (bitmapRangeFree_iff ?_).mpr hfree⟩
    simp only [vamTotalPages, pageSize, wordModulus] at *
    omega
  · rintro ⟨hlast, hfree⟩
    have hstop : index + count ≤ vamTotalPages := by omega
    refine ⟨hpos, hstop, (bitmapRangeFree_iff ?_).mp hfree⟩
    simp only [vamTotalPages, pageSize, wordModulus] at *
    omega

/-- A request that is not larger than the region stays in the bitmap. -/
theorem vamAllocPages_inside (hfits : count ≤ vamTotalPages) :
    Reports (· < vamTotalPages) (Access.vamAllocPages bitmap count) := by
  have hrange : ∀ index ≤ lastIndex count, ∀ q ∈ pageRange index count, q < vamTotalPages := by
    intro index hindex q hq
    rw [lastIndex_eq hfits] at hindex
    have hmodulus : index + count ≤ wordModulus := by
      simp only [vamTotalPages, pageSize, wordModulus] at *
      omega
    obtain ⟨-, hlt⟩ := (mem_pageRange hmodulus).mp hq
    omega
  unfold Access.vamAllocPages
  refine reports_ite.mpr ⟨fun _ => reports_pure, fun _ => reports_bind.mpr ⟨?_, fun found hfound => ?_⟩⟩
  · apply vamFindFrom_reports
    intro k hk
    rw [Nat.zero_add]
    exact rangeFreeFrom_reports (hrange k (by omega))
  · cases found with
    | none => exact reports_ite.mpr ⟨fun _ => reports_silent, fun _ => reports_pure⟩
    | some index =>
        rw [vamFindFrom_result] at hfound
        have hfirst := vamFindFrom_eq_firstRun.mp (Except.ok.inj hfound)
        refine reports_bind.mpr ⟨rangeSetFrom_reports (hrange index hfirst.1.1), fun _ _ => ?_⟩
        exact reports_pure

/-- The request is served first fit. -/
theorem firstFit_of_le (hfits : count ≤ vamTotalPages) : FirstFit bitmap count where
  inside := vamAllocPages_inside hfits
  found index hrun hlowest := by
    have hpos := hrun.1
    have hstop := hrun.2.1
    have hfirst : FirstRun bitmap count index := by
      refine ⟨(run_iff hpos hfits).mp hrun, fun j hj hfree => hlowest j hj ?_⟩
      exact (run_iff hpos hfits).mpr hfree
    have haddr : vamIndexToAddr index = kernelVirtBase + index * pageSize := by
      unfold vamIndexToAddr
      simp only [vamTotalPages, pageSize, wordModulus, kernelVirtBase] at *
      omega
    refine ⟨bitmapRangeSet bitmap index count, ?_, fun q => ?_⟩
    · rw [vamAllocPages_result, vamAllocPages_of_firstRun (by omega) hfirst, haddr]
    · apply bitmapTest_rangeSet
      simp only [vamTotalPages, pageSize, wordModulus] at *
      omega
  none hnone := by
    rw [vamAllocPages_result]
    unfold vamAllocPages
    by_cases hzero : count = 0
    · rw [if_pos hzero]
      rfl
    rw [if_neg hzero]
    cases hfind : vamFindFrom bitmap count 0 (lastIndex count + 1) with
    | some index =>
        have hrun := (vamFindFrom_eq_firstRun.mp hfind).1
        exact absurd ((run_iff (by omega) hfits).mpr hrun) (hnone index)
    | none =>
        have hlast : lastIndex count ≠ wordModulus - 1 := by
          rw [lastIndex_eq hfits]
          simp only [vamTotalPages, pageSize, wordModulus] at *
          omega
        show (if lastIndex count = wordModulus - 1 then throw Stop.hang
          else pure (0, bitmap)) = _
        rw [if_neg hlast]
        rfl

/-- A larger request tests a page that is not in the bitmap. -/
theorem not_inside_of_lt (hlt : vamTotalPages < count) (hcount : count < wordModulus) :
    ¬ Reports (· < vamTotalPages) (Access.vamAllocPages bitmap count) := by
  intro hinside
  have hlast : vamTotalPages < lastIndex count := by
    unfold lastIndex
    simp only [vamTotalPages, pageSize, wordModulus] at *
    omega
  unfold Access.vamAllocPages at hinside
  rw [if_neg (by omega)] at hinside
  have hsearch := (reports_bind.mp hinside).1
  -- The first index at which the search tests page `VAM_TOTAL_PAGES`.
  by_cases hfound : ∃ index, FirstRun bitmap count index ∧ index < vamTotalPages
  · obtain ⟨index, ⟨⟨hle, hfree⟩, hlowest⟩, hindex⟩ := hfound
    have htested : Reports (· < vamTotalPages) (Access.bitmapRangeFree bitmap (0 + index) count) := by
      apply searched_of_reports hsearch (by omega)
      intro i hi
      rw [Nat.zero_add, ← Bool.not_eq_true]
      exact fun hrun => hlowest i hi ⟨by omega, hrun⟩
    rw [Nat.zero_add] at htested
    have hmem : vamTotalPages ∈ pageRange index count := by
      unfold pageRange
      refine List.mem_map.mpr ⟨vamTotalPages - index, List.mem_range.mpr (by omega), ?_⟩
      simp only [vamTotalPages, pageSize, wordModulus] at *
      omega
    exact Nat.lt_irrefl _ ((tested_of_reports htested).2 hfree _ hmem)
  · have hnot : ∀ i < vamTotalPages, bitmapRangeFree bitmap i count = false := by
      intro i
      induction i using Nat.strongRecOn with
      | ind i ih =>
          intro hi
          rw [← Bool.not_eq_true]
          intro hfree
          refine hfound ⟨i, ⟨⟨by omega, hfree⟩, fun j hj hrun => ?_⟩, hi⟩
          have hbusy := hrun.2
          rw [ih j hj (by omega)] at hbusy
          cases hbusy
    have htested : Reports (· < vamTotalPages)
        (Access.bitmapRangeFree bitmap (0 + vamTotalPages) count) := by
      apply searched_of_reports hsearch (by omega)
      intro i hi
      rw [Nat.zero_add]
      exact hnot i hi
    have hhead : (pageRange (0 + vamTotalPages) count).head? = some vamTotalPages := by
      unfold pageRange
      rw [Nat.zero_add, List.head?_map, List.head?_range, if_neg (by omega)]
      rfl
    exact Nat.lt_irrefl _ ((tested_of_reports htested).1 _ hhead)

/-- `vam_alloc_pages` is first fit, and stays in its bitmap, exactly for the requests that are not
larger than the region. -/
theorem vam_first_fit_iff (bitmap : Bitmap) (count : Nat) (hcount : count < wordModulus) :
    FirstFit bitmap count ↔ count ≤ vamTotalPages := by
  constructor
  · intro h
    by_contra hlarge
    exact not_inside_of_lt (Nat.lt_of_not_le hlarge) hcount h.inside
  · exact firstFit_of_le

/-- After `vam_init` a page is found at once. -/
theorem vam_first_fit_one : FirstFit (vamInit 0xC0110000 fun _ => 0) 1 :=
  (vam_first_fit_iff _ 1 (by decide)).mpr (by decide)

/-- One page more than the region has. -/
theorem vam_search_leaves_bitmap :
    ¬ FirstFit (vamInit 0xC0110000 fun _ => 0) (vamTotalPages + 1) := fun h =>
  not_inside_of_lt (Nat.lt_succ_self _) (by decide) h.inside

end Neox.Vam
