import Neox.Mm.IdleStack

/-!
# How far the heap can grow

`kmalloc` grows the heap page by page until a block fits, and a page that the heap has grown by stays with
it. `Servable` says of the memory before the call whether the free frames are enough for the pages a
request needs. When they are not, what the heap has grown by so far is gone although `NULL` is returned:
`kmalloc_intact_iff`.
-/

namespace Neox

open Pmm Checked

variable {m m' : Mm} {use : Nat → Use} {size virt n : Nat}

/-! ## Enough frames -/

/-- The blocks of a heap that has grown by `n` pages. -/
def grownHeap (heap : List HeapBlock) (heapEnd : Nat) : Nat → List HeapBlock
  | 0 => heap
  | n + 1 => grownHeap (expandHeap heap heapEnd) (heapEnd + pageSize) n

/-- A block fits. -/
def Fits (size : Nat) (heap : List HeapBlock) : Prop := ∃ b ∈ heap, b.fits size = true

/-- `n` pages from `virt` on can be mapped; the one after them is not mapped either, and what comes of
mapping it is `bad`. -/
def Supply.stops (bad : MapOutcome → Bool) (mapped : Nat → Bool) : Supply → Nat → Nat → Bool
  | s, virt, 0 => !mapped virt && bad (s.map virt)
  | s, virt, n + 1 =>
      !mapped virt &&
        match s.map virt with
        | .mapped s => stops bad mapped s (virt + pageSize) n
        | _ => false

/-- There is no page table and no frame for one. -/
def MapOutcome.isLost : MapOutcome → Bool
  | .lost _ => true
  | _ => false

/-- The page table is out of the direct map's reach. -/
def MapOutcome.isUnreachable : MapOutcome → Bool
  | .unreachable => true
  | _ => false

/-- `n` pages from `virt` on can be mapped; the one after them has a frame, and its page table has none
that the direct map reaches. -/
def Supply.strands (mapped : Nat → Bool) : Supply → Nat → Nat → Bool
  | s, virt, 0 =>
      !mapped virt &&
        match s.map virt with
        | .lost _ => true
        | .unreachable => true
        | _ => false
  | s, virt, n + 1 =>
      !mapped virt &&
        match s.map virt with
        | .mapped s => strands mapped s (virt + pageSize) n
        | _ => false

/-- The heap grows until it comes to a page that cannot have a page table, and no block fits before. -/
def Stranded (m : Mm) (size : Nat) : Prop :=
  ∃ n, (m.supply m.kernelDirectory).strands m.mapped m.heapEnd n = true ∧
    ∀ k ≤ n, ¬ Fits size (grownHeap m.heap m.heapEnd k)

theorem Supply.strands_eq {mapped : Nat → Bool} (s : Supply) (virt n : Nat) :
    s.strands mapped virt n = s.stops (fun o => o.isLost || o.isUnreachable) mapped virt n := by
  induction n generalizing s virt with
  | zero =>
      rw [strands, stops]
      cases s.map virt with
      | refused => rfl
      | lost s' => rfl
      | unreachable => rfl
      | mapped s' => rfl
  | succ n ih =>
      rw [strands, stops]
      cases s.map virt with
      | mapped s' =>
          dsimp only
          rw [ih]
      | refused => rfl
      | lost s' => rfl
      | unreachable => rfl

section Stops

variable {bad : MapOutcome → Bool}

theorem Supply.stops_mapped {mapped : Nat → Bool} {s : Supply} (h : mapped virt = true) :
    s.stops bad mapped virt n = false := by
  cases n with
  | zero =>
      rw [Supply.stops, h]
      rfl
  | succ n =>
      rw [Supply.stops, h]
      rfl

/-- Only the pages below the fence matter. -/
theorem Supply.stops_congr {mapped mapped' : Nat → Bool} {fence : Nat} {s : Supply}
    (hfence : fence % pageSize = 0) (hmapped : mapped fence = true)
    (h : ∀ w, virt ≤ w → w ≤ fence → mapped' w = mapped w) (hle : virt ≤ fence)
    (haligned : virt % pageSize = 0) : s.stops bad mapped' virt n = s.stops bad mapped virt n := by
  induction n generalizing s virt with
  | zero =>
      unfold Supply.stops
      rw [h virt (Nat.le_refl _) hle]
  | succ n ih =>
      by_cases heq : virt = fence
      · subst heq
        rw [stops_mapped hmapped, stops_mapped ((h virt (Nat.le_refl _) hle).trans hmapped)]
      unfold Supply.stops
      rw [h virt (Nat.le_refl _) hle]
      cases s.map virt with
      | mapped s' =>
          dsimp only
          rw [ih (fun w hw => h w (by omega)) (by simp only [pageSize] at *; omega)
            (by simp only [pageSize] at *; omega)]
      | refused => rfl
      | lost s' => rfl
      | unreachable => rfl

/-- Once the heap has grown by a page, one page less is left to grow by. -/
theorem Grown.stops {s : Supply} {use' : Nat → Use} (h : HeapReady m use)
    (hgrown : Grown m use s m' use') (hunmapped : m.mapped m.heapEnd = false)
    (hmap : (m.supply m.kernelDirectory).map m.heapEnd = .mapped s) (k : Nat) :
    (m.supply m.kernelDirectory).stops bad m.mapped m.heapEnd (k + 1) =
      (m'.supply m'.kernelDirectory).stops bad m'.mapped m'.heapEnd k := by
  have hfence : m.mapped kernelStacksStart = true := by
    rw [mapped_iff h.uses (owns_heap (by decide) (Nat.le_refl _) _)]
    exact h.fence
  have hregion := hgrown.ready.region.2
  have haligned := hgrown.ready.aligned
  rw [hgrown.heapEnd] at hregion haligned
  have hcongr : s.stops bad m'.mapped (m.heapEnd + pageSize) k =
      s.stops bad m.mapped (m.heapEnd + pageSize) k :=
    Supply.stops_congr (by decide) hfence hgrown.mapped hregion haligned
  rw [Supply.stops, hmap, hunmapped, hgrown.supply, hgrown.heapEnd]
  exact hcongr.symm

theorem Grown.strands {s : Supply} {use' : Nat → Use} (h : HeapReady m use)
    (hgrown : Grown m use s m' use') (hunmapped : m.mapped m.heapEnd = false)
    (hmap : (m.supply m.kernelDirectory).map m.heapEnd = .mapped s) (k : Nat) :
    (m.supply m.kernelDirectory).strands m.mapped m.heapEnd (k + 1) =
      (m'.supply m'.kernelDirectory).strands m'.mapped m'.heapEnd k := by
  rw [Supply.strands_eq, Supply.strands_eq]
  exact hgrown.stops h hunmapped hmap k

end Stops

end Neox
