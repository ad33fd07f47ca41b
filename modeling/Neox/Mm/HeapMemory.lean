import Neox.Lib.Segment
import Neox.Mm.HeapBlocks

/-!
# The heap in memory

`mm/heap.c` on the bytes of the heap: a block's `size`, `free` and `next` are at its address, four
and eight bytes further on, and its data follows the header. The functions walk the list with their
own loops. What the MMU and the allocator do for `heap_expand` is an outcome: the request for a page
fails, or succeeds and the page has some contents.
-/

namespace Neox

open Bytes

/-- Why a function of the heap does not return. -/
inductive HeapStop where
  /-- An `ASSERT` of `heap_validate`. -/
  | validate
  /-- An `ASSERT` of `heap_expand`. -/
  | expand
  /-- An `ASSERT` of `heap_split_block`. -/
  | split
  /-- An `ASSERT` of `kfree`. -/
  | free
  /-- A loop does not end. -/
  | hang
  deriving DecidableEq, Repr

/-- The memory of the heap, `heap_head` and `heap_end`. -/
structure HeapMemory where
  mem : Block
  head : Nat
  heapEnd : Nat

namespace HeapMemory

/-! ## `struct heap_block` -/

def size (mem : Block) (block : Nat) : Nat := read32 mem block
def free (mem : Block) (block : Nat) : Bool := mem (block + 4) != 0
def next (mem : Block) (block : Nat) : Nat := read32 mem (block + 8)

def setSize (mem : Block) (block size : Nat) : Block := write32 mem block size
def setFree (mem : Block) (block : Nat) (free : Bool) : Block :=
  Function.update mem (block + 4) (if free then 1 else 0)
def setNext (mem : Block) (block next : Nat) : Block := write32 mem (block + 8) next

/-! ## Walks -/

/-- `heap_find_block` from `block` on. -/
def heapFindBlock (mem : Block) (ptr block : Nat) : Nat → Except HeapStop Nat
  | 0 => throw .hang
  | n + 1 =>
      if block = 0 then return 0
      else if (block + heapHeader) % wordModulus = ptr then return block
      else heapFindBlock mem ptr (next mem block) n

/-- `heap_find_free` from `block` on. -/
def heapFindFree (mem : Block) (wanted block : Nat) : Nat → Except HeapStop Nat
  | 0 => throw .hang
  | n + 1 =>
      if block = 0 then return 0
      else if free mem block && decide (wanted ≤ size mem block) then return block
      else heapFindFree mem wanted (next mem block) n

/-- The loop of `heap_last_block`. -/
def heapLastBlock (mem : Block) (block : Nat) : Nat → Except HeapStop Nat
  | 0 => throw .hang
  | n + 1 =>
      if next mem block = 0 then return block else heapLastBlock mem (next mem block) n

/-- `heap_merge` from `block` on. -/
def heapMergeFrom (mem : Block) (block : Nat) : Nat → Except HeapStop Block
  | 0 => throw .hang
  | n + 1 =>
      if block = 0 ∨ next mem block = 0 then return mem
      else if free mem block && free mem (next mem block) then
        let mem := setSize mem block
          ((size mem block + (heapHeader + size mem (next mem block))) % wordModulus)
        heapMergeFrom (setNext mem block (next mem (next mem block))) block n
      else heapMergeFrom mem (next mem block) n

/-- `heap_validate` from `block` on. -/
def heapValidateFrom (mem : Block) (heapEnd block : Nat) : Nat → Except HeapStop Unit
  | 0 => throw .hang
  | n + 1 =>
      if block = 0 then return ()
      else
        let stop := (block + heapHeader + size mem block) % wordModulus
        if block < kernelHeapStart ∨ heapEnd ≤ block then throw .validate
        else if block % heapAlignment ≠ 0 ∨ size mem block % heapAlignment ≠ 0 then throw .validate
        else if heapEnd < stop then throw .validate
        else if next mem block ≠ 0 ∧ (next mem block ≠ stop ∨ next mem block ≤ block) then
          throw .validate
        else heapValidateFrom mem heapEnd (next mem block) n

/-- No list of more blocks than there are addresses ends. -/
abbrev walk : Nat := wordModulus

/-- `heap_merge`. -/
def heapMerge (h : HeapMemory) : Except HeapStop HeapMemory := do
  let mem ← heapMergeFrom h.mem h.head walk
  return { h with mem := mem }

/-- `HEAP_VALIDATE`. -/
def heapValidate (h : HeapMemory) : Except HeapStop Unit :=
  heapValidateFrom h.mem h.heapEnd h.head walk

/-! ## Operations -/

/-- The header of a new last block at `heapEnd`, which `last` links to. -/
def linkPage (mem : Block) (last heapEnd : Nat) : Block :=
  let mem := setNext mem last heapEnd
  let block := next mem last
  let mem := setSize mem block (pageSize - heapHeader)
  let mem := setFree mem block true
  setNext mem block 0

/-- `heap_expand`; `page` is what the request for a page yields. -/
def heapExpand (h : HeapMemory) (page : Option Block) : Except HeapStop (Bool × HeapMemory) :=
  if h.head = 0 ∨ h.heapEnd < kernelHeapStart then throw .expand
  else
    match page with
    | none => return (false, h)
    | some contents => do
        let mem := copy h.mem h.heapEnd pageSize contents
        let last ← heapLastBlock mem h.head walk
        let h ← heapMerge { h with
          mem := linkPage mem last h.heapEnd
          heapEnd := (h.heapEnd + pageSize) % wordModulus }
        heapValidate h
        return (true, h)

/-- The part of `heap_split_block` that writes the header of the new block and shortens the old
one. -/
def cutBlock (mem : Block) (block wanted remaining : Nat) : Block :=
  let newBlock := (block + heapHeader + wanted) % wordModulus
  let mem := setSize mem newBlock (remaining - heapHeader)
  let mem := setFree mem newBlock true
  let mem := setNext mem newBlock (next mem block)
  let mem := setSize mem block wanted
  setNext mem block newBlock

/-- `heap_split_block`. -/
def heapSplitBlock (mem : Block) (block wanted : Nat) : Except HeapStop Block :=
  if block = 0 ∨ free mem block = false ∨ size mem block < wanted then throw .split
  else
    let remaining := size mem block - wanted
    if remaining ≤ heapHeader then return mem
    else return cutBlock mem block wanted remaining

/-- The end of `kmalloc`, with the block that has been found. -/
def heapGive (h : HeapMemory) (block wanted : Nat) : Except HeapStop (Nat × HeapMemory) := do
  let mem ← heapSplitBlock h.mem block wanted
  let h := { h with mem := setFree mem block false }
  heapValidate h
  return ((block + heapHeader) % wordModulus, h)

/-- `kmalloc`'s loop; `pages` are the outcomes of the requests to come, and the one after them
fails. -/
def kmallocFrom (wanted : Nat) (h : HeapMemory) : List (Option Block) → Except HeapStop (Nat × HeapMemory)
  | [] => do
      let block ← heapFindFree h.mem wanted h.head walk
      if block ≠ 0 then heapGive h block wanted
      else
        let (_, h) ← heapExpand h none
        return (0, h)
  | page :: pages => do
      let block ← heapFindFree h.mem wanted h.head walk
      if block ≠ 0 then heapGive h block wanted
      else
        let (expanded, h) ← heapExpand h page
        if expanded then kmallocFrom wanted h pages else return (0, h)

/-- `kmalloc`. -/
def kmalloc (h : HeapMemory) (wanted : Nat) (pages : List (Option Block)) :
    Except HeapStop (Nat × HeapMemory) :=
  if wanted = 0 then return (0, h)
  else if heapAlign wanted = 0 then return (0, h)
  else kmallocFrom (heapAlign wanted) h pages

/-- `kfree`. -/
def kfree (h : HeapMemory) (ptr : Nat) : Except HeapStop HeapMemory :=
  if ptr = 0 then return h
  else do
    let block ← heapFindBlock h.mem ptr h.head walk
    if block = 0 then throw .free
    else if free h.mem block then throw .free
    else do
      let h ← heapMerge { h with mem := setFree h.mem block true }
      heapValidate h
      return h

/-- `heap_init`, on a page with these contents. -/
def heapInit (contents : Block) : Except HeapStop HeapMemory := do
  let mem := copy zero kernelHeapStart pageSize contents
  let mem := setSize mem kernelHeapStart (pageSize - heapHeader)
  let mem := setFree mem kernelHeapStart true
  let mem := setNext mem kernelHeapStart 0
  let h : HeapMemory := { mem := mem, head := kernelHeapStart, heapEnd := kernelHeapStart + pageSize }
  heapValidate h
  return h

/-! ## Headers -/

section Header

variable {mem mem' : Block} {p q w : Nat} {flag : Bool}

/-- The header at `p` is the same in both memories. -/
def SameHeader (mem mem' : Block) (p : Nat) : Prop :=
  size mem' p = size mem p ∧ free mem' p = free mem p ∧ next mem' p = next mem p

theorem sameHeader_of_bytes (h : ∀ x, p ≤ x → x < p + heapHeader → mem' x = mem x) :
    SameHeader mem mem' p := by
  simp only [heapHeader] at h
  refine ⟨read32_congr fun k hk => h _ (by omega) (by omega), ?_,
    read32_congr fun k hk => h _ (by omega) (by omega)⟩
  unfold free
  rw [h (p + 4) (by omega) (by omega)]

theorem size_setSize (hw : w < wordModulus) : size (setSize mem p w) p = w := read32_write32 mem p hw

theorem free_setSize : free (setSize mem p w) p = free mem p := by
  unfold free setSize
  rw [write32_of_not_mem (by omega)]

theorem next_setSize : next (setSize mem p w) p = next mem p :=
  read32_write32_of_disjoint (by omega)

theorem size_setFree : size (setFree mem p flag) p = size mem p :=
  read32_congr fun k hk => Function.update_of_ne (by omega) ..

theorem free_setFree : free (setFree mem p flag) p = flag := by
  unfold free setFree
  rw [Function.update_self]
  cases flag <;> rfl

theorem next_setFree : next (setFree mem p flag) p = next mem p :=
  read32_congr fun k hk => Function.update_of_ne (by omega) ..

theorem size_setNext : size (setNext mem p w) p = size mem p :=
  read32_write32_of_disjoint (by omega)

theorem free_setNext : free (setNext mem p w) p = free mem p := by
  unfold free setNext
  rw [write32_of_not_mem (by omega)]

theorem next_setNext (hw : w < wordModulus) : next (setNext mem p w) p = w :=
  read32_write32 mem (p + 8) hw

/-- A field that is written is in its header. -/
theorem setSize_of_not_mem {x : Nat} (h : x < p ∨ p + heapHeader ≤ x) :
    setSize mem p w x = mem x :=
  write32_of_not_mem (by simp only [heapHeader] at h; omega)

theorem setFree_of_not_mem {x : Nat} (h : x < p ∨ p + heapHeader ≤ x) :
    setFree mem p flag x = mem x :=
  Function.update_of_ne (by simp only [heapHeader] at h; omega) ..

theorem setNext_of_not_mem {x : Nat} (h : x < p ∨ p + heapHeader ≤ x) :
    setNext mem p w x = mem x :=
  write32_of_not_mem (by simp only [heapHeader] at h; omega)

end Header

/-! ## The list in memory -/

/-- The header of block `b` is at `p`. -/
def HoldsBlock (mem : Block) (p : Nat) (b : HeapBlock) : Prop :=
  p = b.addr ∧ size mem p = b.size ∧ free mem p = b.free

/-- From `p` the `next` pointers lead through the blocks of `l` to `q`. -/
abbrev Chain (mem : Block) (p : Nat) (l : List HeapBlock) (q : Nat) : Prop :=
  LinkedList.Segment (HoldsBlock mem) (next mem) p l q

section Walks

open LinkedList

variable {mem mem' : Block} {p q wanted n a e : Nat} {b : HeapBlock} {l rest : List HeapBlock}

/-- A list stays where its headers do. -/
theorem chain_congr (h : Chain mem p l q)
    (hsame : ∀ b ∈ l, ∀ x, b.addr ≤ x → x < b.data → mem' x = mem x) : Chain mem' p l q := by
  refine h.congr fun r b hb hr => ?_
  obtain ⟨rfl, hsize, hfree⟩ := hr
  obtain ⟨hsize', hfree', hnext⟩ := sameHeader_of_bytes (p := b.addr) (hsame b hb)
  exact ⟨⟨rfl, hsize'.trans hsize, hfree'.trans hfree⟩, hnext⟩

theorem heapFindFree_eq (h : Chain mem p l 0) (hn : l.length < n) :
    heapFindFree mem wanted p n =
      .ok ((l.find? (HeapBlock.fits wanted)).elim 0 HeapBlock.addr) := by
  induction l generalizing p n with
  | nil =>
      cases n with
      | zero => cases hn
      | succ n =>
          cases h
          rfl
  | cons b l ih =>
      cases n with
      | zero => cases hn
      | succ n =>
          obtain ⟨hp, ⟨rfl, hsize, hfree⟩, h⟩ := h
          unfold heapFindFree
          rw [if_neg hp, hsize, hfree]
          show (if b.fits wanted = true then _ else _) = _
          by_cases hfits : b.fits wanted = true
          · rw [if_pos hfits, List.find?_cons_of_pos hfits]
            rfl
          · rw [if_neg hfits, List.find?_cons_of_neg hfits]
            exact ih h (Nat.lt_of_succ_lt_succ hn)

theorem heapFindBlock_eq (ptr : Nat) (h : Chain mem p l 0) (hn : l.length < n)
    (hdata : ∀ b ∈ l, b.data < wordModulus) :
    heapFindBlock mem ptr p n =
      .ok ((l.find? fun b => b.data == ptr).elim 0 HeapBlock.addr) := by
  induction l generalizing p n with
  | nil =>
      cases n with
      | zero => cases hn
      | succ n =>
          cases h
          rfl
  | cons b l ih =>
      cases n with
      | zero => cases hn
      | succ n =>
          obtain ⟨hp, ⟨rfl, -⟩, h⟩ := h
          have hb : (b.addr + heapHeader) % wordModulus = b.data :=
            Nat.mod_eq_of_lt (hdata b (List.mem_cons_self ..))
          unfold heapFindBlock
          rw [if_neg hp, hb]
          by_cases hptr : b.data = ptr
          · rw [if_pos hptr, List.find?_cons_of_pos (by simpa using hptr)]
            rfl
          · rw [if_neg hptr, List.find?_cons_of_neg (by simpa using hptr)]
            exact ih h (Nat.lt_of_succ_lt_succ hn) fun c hc => hdata c (List.mem_cons_of_mem _ hc)

theorem heapLastBlock_eq (h : Chain mem p (l ++ [b]) 0) (hn : l.length < n) :
    heapLastBlock mem p n = .ok b.addr := by
  induction l generalizing p n with
  | nil =>
      cases n with
      | zero => cases hn
      | succ n =>
          obtain ⟨-, ⟨rfl, -⟩, hnext⟩ := h
          unfold heapLastBlock
          rw [if_pos (show next mem b.addr = 0 from hnext)]
          rfl
  | cons c l ih =>
      cases n with
      | zero => cases hn
      | succ n =>
          obtain ⟨-, -, h⟩ := h
          unfold heapLastBlock
          rw [if_neg fun h0 => (by simpa using h.eq_zero_iff.mp h0)]
          exact ih h (Nat.lt_of_succ_lt_succ hn)

/-- The assertions of `heap_validate` hold of a list that tiles the heap. -/
theorem heapValidateFrom_ok (h : Chain mem p l 0) (hn : l.length < n) (hb : Blocks a l e)
    (ha : a % heapAlignment = 0) (hlow : kernelHeapStart ≤ a) (hhigh : e < wordModulus) :
    heapValidateFrom mem e p n = .ok () := by
  induction l generalizing p n a with
  | nil =>
      cases n with
      | zero => cases hn
      | succ n =>
          cases h
          rfl
  | cons b l ih =>
      cases n with
      | zero => cases hn
      | succ n =>
          obtain ⟨hp, ⟨rfl, hsize, -⟩, h⟩ := h
          obtain ⟨rfl, hbsize, hrest⟩ := blocks_cons.mp hb
          have hstop := hrest.tiles.le
          have hheader := b.addr_le_stop
          have hend : (b.addr + heapHeader + b.size) % wordModulus = b.stop :=
            Nat.mod_eq_of_lt (Nat.lt_of_le_of_lt hstop hhigh)
          have hnext : next mem b.addr = 0 ∨ next mem b.addr = b.stop := by
            cases l with
            | nil => exact .inl h
            | cons c l =>
                obtain ⟨-, ⟨hc, -⟩, -⟩ := h
                exact .inr (hc.trans (blocks_cons.mp hrest).1)
          unfold heapValidateFrom
          simp only [hsize, hend]
          simp only [heapHeader] at hheader
          rw [if_neg hp, if_neg (by omega), if_neg (by omega), if_neg (by omega), if_neg]
          · refine ih h (Nat.lt_of_succ_lt_succ hn) hrest ?_ (by omega)
            simp only [HeapBlock.stop, HeapBlock.data, heapHeader, heapAlignment] at *
            omega
          · rintro ⟨hne, hbad⟩
            rcases hnext with hnext | hnext
            · exact hne hnext
            · rw [hnext] at hbad
              omega

/-- `heap_merge` does to the list what it does to the blocks; it writes to headers of free blocks
only. -/
theorem heapMergeFrom_ok (h : Chain mem p (b :: rest) 0) (hn : rest.length < n)
    (hb : Blocks a (b :: rest) e) (hhigh : e < wordModulus) :
    ∃ mem', heapMergeFrom mem p n = .ok mem' ∧ Chain mem' p (Neox.heapMergeFrom b rest) 0 ∧
      ∀ x, (∀ c ∈ b :: rest, c.free = true → x < c.addr ∨ c.data ≤ x) → mem' x = mem x := by
  induction rest generalizing mem p n a b with
  | nil =>
      cases n with
      | zero => cases hn
      | succ n =>
          have hnext : next mem p = 0 := h.2.2
          refine ⟨mem, ?_, h, fun _ _ => rfl⟩
          unfold heapMergeFrom
          rw [if_pos (.inr hnext)]
          rfl
  | cons c rest ih =>
      cases n with
      | zero => cases hn
      | succ n =>
          have hn' : rest.length < n := Nat.lt_of_succ_lt_succ hn
          obtain ⟨hp, ⟨rfl, hsize, hfree⟩, hp', ⟨hc, hsize', hfree'⟩, hrest⟩ := h
          obtain ⟨rfl, hbsize, hb'⟩ := blocks_cons.mp hb
          obtain ⟨hseam, hcsize, hpost⟩ := blocks_cons.mp hb'
          have hcstop := c.addr_le_stop
          have hbstop := b.addr_le_stop
          have hlast := hpost.tiles.le
          unfold heapMergeFrom
          rw [if_neg (not_or.mpr ⟨hp, hp'⟩), hfree, hfree', hc, hsize, ← hc, hsize', hc]
          unfold Neox.heapMergeFrom
          split
          · next hboth =>
            -- The block takes in the next one.
            have hsum : (b.size + (heapHeader + c.size)) % wordModulus =
                b.size + (heapHeader + c.size) := by
              apply Nat.mod_eq_of_lt
              simp only [HeapBlock.stop, HeapBlock.data] at *
              omega
            rw [hsum]
            have hw : b.size + (heapHeader + c.size) < wordModulus := by
              rw [← hsum]
              exact Nat.mod_lt _ (by decide)
            have hwrites : ∀ x, x < b.addr ∨ b.data ≤ x → setNext (setSize mem b.addr
                (b.size + (heapHeader + c.size))) b.addr (next mem c.addr) x = mem x := fun x hx =>
              (setNext_of_not_mem hx).trans (setSize_of_not_mem hx)
            have hnew : Chain (setNext (setSize mem b.addr (b.size + (heapHeader + c.size))) b.addr
                (next mem c.addr)) b.addr
                ({ b with size := b.size + (heapHeader + c.size) } :: rest) 0 := by
              refine ⟨hp, ⟨rfl, ?_, ?_⟩, ?_⟩
              · rw [size_setNext, size_setSize hw]
              · rw [free_setNext, free_setSize, hfree]
              · rw [next_setNext (show next mem c.addr < wordModulus from read32_lt _ _)]
                rw [hc] at hrest
                refine chain_congr hrest fun d hd x hx hx' => hwrites x (.inr ?_)
                have hbound := (hpost.tiles.bounds hd).1
                simp only [HeapBlock.stop, HeapBlock.data] at *
                omega
            have hblocks : Blocks b.addr ({ b with size := b.size + (heapHeader + c.size) } :: rest)
                e := by
              have hstop : HeapBlock.stop { b with size := b.size + (heapHeader + c.size) } =
                  c.stop := by
                simp only [HeapBlock.stop, HeapBlock.data] at *
                omega
              refine blocks_cons.mpr ⟨rfl, ?_, hstop ▸ hpost⟩
              simp only [heapHeader, heapAlignment] at *
              omega
            obtain ⟨mem', hmerge, hchain, hframe⟩ := ih hnew hn' hblocks
            refine ⟨mem', ?_, hchain, fun x hx => ?_⟩
            · have hother : next (setSize mem b.addr (b.size + (heapHeader + c.size))) c.addr =
                  next mem c.addr := by
                refine (sameHeader_of_bytes fun x hx _ => setSize_of_not_mem (.inr ?_)).2.2
                simp only [HeapBlock.stop, HeapBlock.data] at *
                omega
              simp only [next_setSize, hc, hother]
              exact hmerge
            · rw [Bool.and_eq_true] at hboth
              have hout := hx b (by simp) hboth.1
              refine (hframe x fun d hd hdfree => ?_).trans (hwrites x hout)
              rcases List.mem_cons.mp hd with rfl | hd
              · exact hout
              · exact hx d (by simp [hd]) hdfree
          · -- The merge goes on with the next block; this one is in front of all it writes.
            have hnextChain : Chain mem c.addr (c :: rest) 0 :=
              ⟨hc ▸ hp', ⟨rfl, hc ▸ hsize', hc ▸ hfree'⟩, hc ▸ hrest⟩
            obtain ⟨mem', hmerge, hchain, hframe⟩ := ih hnextChain hn' hb'
            have hfront : ∀ x, x < b.stop → mem' x = mem x := by
              intro x hx
              refine hframe x fun d hd _ => .inl ?_
              have hbound := (hb'.tiles.bounds hd).1
              omega
            have hsame : SameHeader mem mem' b.addr :=
              sameHeader_of_bytes fun x _ hx => hfront x (by omega)
            obtain ⟨hsame1, hsame2, hsame3⟩ := hsame
            refine ⟨mem', hmerge, ⟨hp, ⟨rfl, hsame1.trans hsize, hsame2.trans hfree⟩, ?_⟩,
              fun x hx => hframe x fun d hd => hx d (List.mem_cons_of_mem _ hd)⟩
            rw [hsame3, hc]
            exact hchain

end Walks

end HeapMemory

end Neox
