import Neox.Lib.Tiling
import Neox.Mm.Heap
import Mathlib.Data.List.Chain

/-!
# The block list of the heap

What `heap_merge`, `heap_split_block` and the flag changes of `kmalloc` and `kfree` do to the list of
blocks: it goes on to tile the heap in multiples of eight bytes, without two free blocks side by
side, and the blocks in use stay where they are.
-/

namespace Neox

open Tiling

/-- The first address after the block. -/
def HeapBlock.stop (b : HeapBlock) : Nat := b.data + b.size

/-- Two blocks that `heap_merge` would join. -/
def BothFree (b c : HeapBlock) : Prop := b.free = true ∧ c.free = true

/-- Blocks that tile `[a, e)`, with sizes that are multiples of `HEAP_ALIGNMENT`. -/
structure Blocks (a : Nat) (l : List HeapBlock) (e : Nat) : Prop where
  tiles : Tiles HeapBlock.addr HeapBlock.stop a l e
  aligned : ∀ b ∈ l, b.size % heapAlignment = 0

/-- No two free blocks are side by side. -/
abbrev Coalesced (l : List HeapBlock) : Prop := l.IsChain fun b c => ¬ BothFree b c

/-- The blocks in use. -/
def inUse (l : List HeapBlock) : List HeapBlock := l.filter fun b => !b.free

variable {a e size : Nat} {b c : HeapBlock} {l pre post rest : List HeapBlock}

theorem mem_inUse : b ∈ inUse l ↔ b ∈ l ∧ b.free = false := by
  unfold inUse
  rw [List.mem_filter]
  simp

theorem inUse_append : inUse (pre ++ post) = inUse pre ++ inUse post := List.filter_append ..

theorem HeapBlock.addr_le_stop (b : HeapBlock) : b.addr + heapHeader ≤ b.stop := by
  unfold HeapBlock.stop HeapBlock.data
  omega

/-- Blocks with one data address are one block. -/
theorem Blocks.eq_of_data (h : Blocks a l e) (hb : b ∈ l) (hc : c ∈ l) (hdata : b.data = c.data) :
    b = c := by
  have hbstop := b.addr_le_stop
  have hcstop := c.addr_le_stop
  rcases h.tiles.disjoint hb hc with heq | hlt | hgt
  · exact heq
  · simp only [HeapBlock.data, heapHeader] at *
    omega
  · simp only [HeapBlock.data, heapHeader] at *
    omega

/-- Every block begins at a multiple of eight when the first one does. -/
theorem Blocks.addr_aligned (h : Blocks a l e) (ha : a % heapAlignment = 0) :
    (∀ b ∈ l, b.addr % heapAlignment = 0) ∧ e % heapAlignment = 0 := by
  obtain ⟨htiles, haligned⟩ := h
  induction l generalizing a with
  | nil =>
      cases htiles
      exact ⟨by simp, ha⟩
  | cons b l ih =>
      obtain ⟨rfl, -, htiles⟩ := htiles
      have hsize := haligned b (List.mem_cons_self ..)
      have hstop : b.stop % heapAlignment = 0 := by
        simp only [HeapBlock.stop, HeapBlock.data, heapHeader, heapAlignment] at *
        omega
      obtain ⟨hrest, he⟩ := ih hstop htiles fun c hc => haligned c (List.mem_cons_of_mem _ hc)
      exact ⟨List.forall_mem_cons.mpr ⟨ha, hrest⟩, he⟩

theorem blocks_middle : Blocks a (pre ++ b :: post) e ↔
    Blocks a pre b.addr ∧ b.size % heapAlignment = 0 ∧ Blocks b.stop post e := by
  constructor
  · rintro ⟨htiles, haligned⟩
    obtain ⟨hpre, -, hpost⟩ := tiles_middle.mp htiles
    exact ⟨⟨hpre, fun c hc => haligned c (List.mem_append_left _ hc)⟩,
      haligned b (List.mem_append_right _ (List.mem_cons_self ..)),
      ⟨hpost, fun c hc => haligned c (List.mem_append_right _ (List.mem_cons_of_mem _ hc))⟩⟩
  · rintro ⟨hpre, hb, hpost⟩
    have hle : b.addr ≤ b.stop := Nat.le_trans (Nat.le_add_right ..) b.addr_le_stop
    refine ⟨tiles_middle.mpr ⟨hpre.tiles, hle, hpost.tiles⟩, fun c hc => ?_⟩
    rcases List.mem_append.mp hc with hc | hc
    · exact hpre.aligned c hc
    · rcases List.mem_cons.mp hc with rfl | hc
      · exact hb
      · exact hpost.aligned c hc

theorem blocks_cons : Blocks a (b :: post) e ↔
    b.addr = a ∧ b.size % heapAlignment = 0 ∧ Blocks b.stop post e := by
  constructor
  · intro h
    obtain ⟨rfl, -⟩ := h.tiles
    exact ⟨rfl, (blocks_middle.mp (show Blocks b.addr ([] ++ b :: post) e from h)).2⟩
  · rintro ⟨rfl, hb⟩
    exact blocks_middle.mpr (show Blocks b.addr [] b.addr ∧ _ from ⟨⟨rfl, by simp⟩, hb⟩)

theorem Blocks.data_nodup (h : Blocks a l e) : (l.map HeapBlock.data).Nodup := by
  induction l generalizing a with
  | nil => exact List.nodup_nil
  | cons b l ih =>
      obtain ⟨rfl, -, hrest⟩ := blocks_cons.mp h
      rw [List.map_cons, List.nodup_cons]
      refine ⟨fun hmem => ?_, ih hrest⟩
      obtain ⟨c, hc, hdata⟩ := List.mem_map.mp hmem
      have hle := (hrest.tiles.bounds hc).1
      have hstop := b.addr_le_stop
      simp only [HeapBlock.data, heapHeader] at *
      omega

/-! ## `heap_merge` -/

/-- The block at the front keeps its address and its flag. -/
theorem heapMergeFrom_head (b : HeapBlock) (rest : List HeapBlock) :
    ∃ size l, heapMergeFrom b rest = { b with size := size } :: l := by
  induction rest generalizing b with
  | nil => exact ⟨b.size, [], rfl⟩
  | cons next rest ih =>
      unfold heapMergeFrom
      split
      · obtain ⟨size, l, h⟩ := ih { b with size := b.size + (heapHeader + next.size) }
        exact ⟨size, l, h⟩
      · exact ⟨b.size, heapMergeFrom next rest, rfl⟩

theorem Blocks.mergeFrom (h : Blocks a (b :: rest) e) : Blocks a (heapMergeFrom b rest) e := by
  induction rest generalizing a b with
  | nil => exact h
  | cons next rest ih =>
      obtain ⟨rfl, hb, hrest⟩ := blocks_cons.mp h
      obtain ⟨hseam, hnext, hpost⟩ := blocks_cons.mp hrest
      unfold heapMergeFrom
      split
      · apply ih
        have hstop : HeapBlock.stop { b with size := b.size + (heapHeader + next.size) } =
            next.stop := by
          simp only [HeapBlock.stop, HeapBlock.data] at *
          omega
        refine blocks_cons.mpr ⟨rfl, ?_, hstop ▸ hpost⟩
        simp only [heapHeader, heapAlignment] at *
        omega
      · exact blocks_cons.mpr ⟨rfl, hb, ih hrest⟩

theorem coalesced_mergeFrom (b : HeapBlock) (rest : List HeapBlock) :
    Coalesced (heapMergeFrom b rest) := by
  induction rest generalizing b with
  | nil => exact .singleton b
  | cons next rest ih =>
      unfold heapMergeFrom
      split
      · exact ih _
      · next hnot =>
        refine List.isChain_cons.mpr ⟨fun c hc => ?_, ih next⟩
        obtain ⟨size, l, hhead⟩ := heapMergeFrom_head next rest
        rw [hhead, List.head?_cons] at hc
        cases hc
        simpa [BothFree] using hnot

theorem inUse_mergeFrom (b : HeapBlock) (rest : List HeapBlock) :
    inUse (heapMergeFrom b rest) = inUse (b :: rest) := by
  induction rest generalizing b with
  | nil => rfl
  | cons next rest ih =>
      unfold heapMergeFrom
      split
      · next hboth =>
        rw [Bool.and_eq_true] at hboth
        rw [ih]
        unfold inUse
        simp [hboth.1, hboth.2]
      · have htail := ih next
        unfold inUse at htail ⊢
        simp only [List.filter_cons, htail]

theorem Blocks.merge (h : Blocks a l e) : Blocks a (heapMerge l) e := by
  cases l with
  | nil => exact h
  | cons b rest => exact h.mergeFrom

theorem coalesced_merge (l : List HeapBlock) : Coalesced (heapMerge l) := by
  cases l with
  | nil => exact .nil
  | cons b rest => exact coalesced_mergeFrom b rest

theorem inUse_merge (l : List HeapBlock) : inUse (heapMerge l) = inUse l := by
  cases l with
  | nil => rfl
  | cons b rest => exact inUse_mergeFrom b rest

theorem heapMerge_ne_nil (h : l ≠ []) : heapMerge l ≠ [] := by
  cases l with
  | nil => exact absurd rfl h
  | cons b rest =>
      obtain ⟨size, l', hhead⟩ := heapMergeFrom_head b rest
      rw [heapMerge, hhead]
      exact List.cons_ne_nil _ _

/-! ## `kmalloc` and `kfree` -/

/-- `heap_find_free` and what `kmalloc` does with the block it returns. -/
theorem heapTake_eq (size : Nat) (l : List HeapBlock) :
    (l.find? (HeapBlock.fits size) = none ∧ heapTake size l = none) ∨
    ∃ pre b post, l = pre ++ b :: post ∧ l.find? (HeapBlock.fits size) = some b ∧
      heapTake size l = some (b.data, pre ++ (heapSplitBlock b size ++ post)) := by
  induction l with
  | nil => exact .inl ⟨rfl, rfl⟩
  | cons b l ih =>
      unfold heapTake
      by_cases hfits : b.fits size = true
      · rw [if_pos hfits]
        exact .inr ⟨[], b, l, rfl, List.find?_cons_of_pos hfits, rfl⟩
      · rw [if_neg hfits, List.find?_cons_of_neg hfits]
        rcases ih with ⟨hfind, htake⟩ | ⟨pre, c, post, rfl, hfind, htake⟩
        · exact .inl ⟨hfind, by rw [htake]; rfl⟩
        · exact .inr ⟨b :: pre, c, post, rfl, hfind, by rw [htake]; rfl⟩

theorem fits_iff : b.fits size = true ↔ b.free = true ∧ size ≤ b.size := by
  unfold HeapBlock.fits
  rw [Bool.and_eq_true, decide_eq_true_iff]

/-- A free block is cut in two, or is given away whole. -/
theorem Blocks.split (h : Blocks a (pre ++ b :: post) e) (hfits : size ≤ b.size)
    (hsize : size % heapAlignment = 0) : Blocks a (pre ++ (heapSplitBlock b size ++ post)) e := by
  unfold heapSplitBlock
  split
  · obtain ⟨hpre, hb, hpost⟩ := blocks_middle.mp h
    exact blocks_middle.mpr ⟨hpre, hb, hpost⟩
  · next hlarge =>
    obtain ⟨hpre, hb, hpost⟩ := blocks_middle.mp h
    refine blocks_middle.mpr ⟨hpre, hsize, blocks_cons.mpr ⟨rfl, ?_, ?_⟩⟩
    · simp only [heapHeader, heapAlignment] at *
      omega
    · have hstop : HeapBlock.stop ⟨b.data + size, b.size - size - heapHeader, true⟩ = b.stop := by
        simp only [HeapBlock.stop, HeapBlock.data, heapHeader] at *
        omega
      rw [hstop]
      exact hpost

theorem Coalesced.split (size : Nat) (h : Coalesced (pre ++ b :: post)) (hfree : b.free = true) :
    Coalesced (pre ++ (heapSplitBlock b size ++ post)) := by
  obtain ⟨hpre, hpost, -⟩ := List.isChain_append.mp h
  obtain ⟨hnext, hpost⟩ := List.isChain_cons.mp hpost
  unfold heapSplitBlock
  split
  · refine List.isChain_append.mpr ⟨hpre, List.isChain_cons.mpr ⟨?_, hpost⟩, ?_⟩
    · rintro c - ⟨hused, -⟩
      cases hused
    · rintro c - d hd ⟨-, hused⟩
      cases hd
      cases hused
  · refine List.isChain_append.mpr ⟨hpre, List.isChain_cons_cons.mpr ⟨?_,
      List.isChain_cons.mpr ⟨fun c hc => ?_, hpost⟩⟩, ?_⟩
    · rintro ⟨hused, -⟩
      cases hused
    · rintro ⟨-, hcfree⟩
      exact hnext c hc ⟨hfree, hcfree⟩
    · rintro c - d hd ⟨-, hused⟩
      cases hd
      cases hused

/-- The block given away is in use, and nothing else has changed. -/
theorem inUse_split (pre post : List HeapBlock) (size : Nat) (hfree : b.free = true) :
    ∃ size', (size ≤ b.size → size ≤ size') ∧ inUse (pre ++ (heapSplitBlock b size ++ post)) =
      inUse pre ++ ({ b with size := size', free := false } :: inUse post) ∧
      inUse (pre ++ b :: post) = inUse pre ++ inUse post := by
  have hbefore : inUse (pre ++ b :: post) = inUse pre ++ inUse post := by
    unfold inUse
    simp [hfree]
  unfold heapSplitBlock
  split
  · refine ⟨b.size, id, ?_, hbefore⟩
    unfold inUse
    simp
  · refine ⟨size, fun _ => Nat.le_refl size, ?_, hbefore⟩
    unfold inUse
    simp

/-- `kfree` finds the block with this data address. -/
theorem heapRelease_eq (ptr : Nat) (l : List HeapBlock) :
    (l.find? (fun b => b.data == ptr) = none ∧ heapRelease ptr l = none) ∨
    ∃ pre b post, l = pre ++ b :: post ∧ b.data = ptr ∧
      l.find? (fun b => b.data == ptr) = some b ∧
      heapRelease ptr l = if b.free then none else some (pre ++ { b with free := true } :: post) := by
  induction l with
  | nil => exact .inl ⟨rfl, rfl⟩
  | cons b l ih =>
      unfold heapRelease
      by_cases hptr : b.data = ptr
      · rw [if_pos hptr, List.find?_cons_of_pos (by simpa using hptr)]
        exact .inr ⟨[], b, l, rfl, hptr, rfl, rfl⟩
      · rw [if_neg hptr, List.find?_cons_of_neg (by simpa using hptr)]
        rcases ih with ⟨hfind, hrelease⟩ | ⟨pre, c, post, rfl, hc, hfind, hrelease⟩
        · exact .inl ⟨hfind, by rw [hrelease]; rfl⟩
        · refine .inr ⟨b :: pre, c, post, rfl, hc, hfind, ?_⟩
          rw [hrelease]
          split
          · rfl
          · rfl

theorem Blocks.setFree (free : Bool) (h : Blocks a (pre ++ b :: post) e) :
    Blocks a (pre ++ { b with free := free } :: post) e := by
  obtain ⟨hpre, hb, hpost⟩ := blocks_middle.mp h
  exact blocks_middle.mpr ⟨hpre, hb, hpost⟩

/-- `heap_expand` adds a page at the end. -/
theorem Blocks.snoc (h : Blocks a l e) :
    Blocks a (l ++ [{ addr := e, size := pageSize - heapHeader, free := true }]) (e + pageSize) := by
  refine blocks_middle.mpr ⟨h, ?_, ⟨?_, by simp⟩⟩
  · show (pageSize - heapHeader) % heapAlignment = 0
    decide
  · show e + heapHeader + (pageSize - heapHeader) = e + pageSize
    simp only [heapHeader, pageSize]

end Neox
