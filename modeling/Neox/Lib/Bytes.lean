import Mathlib.Algebra.Group.Nat.Defs
import Mathlib.Logic.Function.Basic

/-!
# Little-endian words in a block of bytes

A block is the byte at each offset. Word `i` of a block is made of the bytes `4 * i` to
`4 * i + 3`, least significant first. Writing a word changes no other word and no byte outside its
four.
-/

namespace Bytes

/-- The byte at each offset. -/
abbrev Block := Nat → UInt8

/-- `memset(block, 0, …)`. -/
def zero : Block := fun _ => 0

/-- The 16-bit number stored at `offset`. -/
def read16 (b : Block) (offset : Nat) : Nat := (b offset).toNat + 0x100 * (b (offset + 1)).toNat

/-- The 32-bit number stored at `offset`. -/
def read32 (b : Block) (offset : Nat) : Nat :=
  (b offset).toNat + 0x100 * (b (offset + 1)).toNat + 0x10000 * (b (offset + 2)).toNat +
    0x1000000 * (b (offset + 3)).toNat

/-- Word `i` of a block. -/
def word (b : Block) (i : Nat) : Nat := read32 b (4 * i)

/-- Store `w` as word `i`. -/
def setWord (b : Block) (i w : Nat) : Block := fun k =>
  if k / 4 = i then UInt8.ofNat (w / 0x100 ^ (k % 4)) else b k

/-- Store `w` at `offset`. -/
def write32 (b : Block) (offset w : Nat) : Block := fun k =>
  if offset ≤ k ∧ k < offset + 4 then UInt8.ofNat (w / 0x100 ^ (k - offset)) else b k

/-- `memcpy(block + offset, source, size)`. -/
def copy (b : Block) (offset size : Nat) (source : Block) : Block := fun k =>
  if offset ≤ k ∧ k < offset + size then source (k - offset) else b k

/-- Words `first` and up of `source`, the other words of `b`. -/
def copyWords (b : Block) (first : Nat) (source : Block) : Block := fun k =>
  if first ≤ k / 4 then source k else b k

variable {b c : Block} {i j w : Nat}

theorem word_congr (h : ∀ k, k / 4 = i → b k = c k) : word b i = word c i := by
  unfold word read32
  rw [h (4 * i) (by omega), h (4 * i + 1) (by omega), h (4 * i + 2) (by omega),
    h (4 * i + 3) (by omega)]

theorem read32_lt (b : Block) (offset : Nat) : read32 b offset < 0x100000000 := by
  have h0 := (b offset).toNat_lt
  have h1 := (b (offset + 1)).toNat_lt
  have h2 := (b (offset + 2)).toNat_lt
  have h3 := (b (offset + 3)).toNat_lt
  unfold read32
  omega

theorem word_lt (b : Block) (i : Nat) : word b i < 0x100000000 := read32_lt b (4 * i)

@[simp] theorem word_zero (i : Nat) : word zero i = 0 := by
  simp [word, read32, zero]

theorem word_setWord_self (b : Block) (i : Nat) (h : w < 0x100000000) :
    word (setWord b i w) i = w := by
  have h0 : 4 * i / 4 = i := by omega
  have h1 : (4 * i + 1) / 4 = i := by omega
  have h2 : (4 * i + 2) / 4 = i := by omega
  have h3 : (4 * i + 3) / 4 = i := by omega
  have m0 : 4 * i % 4 = 0 := by omega
  have m1 : (4 * i + 1) % 4 = 1 := by omega
  have m2 : (4 * i + 2) % 4 = 2 := by omega
  have m3 : (4 * i + 3) % 4 = 3 := by omega
  simp only [word, read32, setWord, h0, h1, h2, h3, m0, m1, m2, m3, if_true, UInt8.toNat_ofNat']
  omega

theorem word_setWord_ne (b : Block) (w : Nat) (h : j ≠ i) :
    word (setWord b i w) j = word b j := by
  apply word_congr
  intro k hk
  exact if_neg fun hi => h (hk.symm.trans hi)

theorem word_setWord (b : Block) (i j : Nat) (h : w < 0x100000000) :
    word (setWord b i w) j = if j = i then w else word b j := by
  split
  · next hj => rw [hj, word_setWord_self b i h]
  · next hj => exact word_setWord_ne b w hj

theorem word_copyWords (b source : Block) (first : Nat) :
    word (copyWords b first source) i = if first ≤ i then word source i else word b i := by
  split
  · next h =>
    apply word_congr
    intro k hk
    exact if_pos (hk ▸ h)
  · next h =>
    apply word_congr
    intro k hk
    exact if_neg (hk ▸ h)

theorem copy_of_mem {offset size k : Nat} (source : Block) (h : k < size) :
    copy b offset size source (offset + k) = source k := by
  unfold copy
  rw [if_pos (by omega), Nat.add_sub_cancel_left]

theorem copy_of_not_mem {offset size k : Nat} (source : Block)
    (h : k < offset ∨ offset + size ≤ k) : copy b offset size source k = b k :=
  if_neg (by omega)

/-! ## Words at an offset -/

section Write32

variable {offset o : Nat}

theorem write32_of_not_mem (h : k < offset ∨ offset + 4 ≤ k) : write32 b offset w k = b k := by
  unfold write32
  rw [if_neg (by omega)]

theorem read32_congr (h : ∀ k < 4, b (offset + k) = c (offset + k)) :
    read32 b offset = read32 c offset := by
  unfold read32
  rw [h 1 (by omega), h 2 (by omega), h 3 (by omega)]
  have h0 := h 0 (by omega)
  rw [Nat.add_zero] at h0
  rw [h0]

theorem read32_write32 (b : Block) (offset : Nat) (h : w < 0x100000000) :
    read32 (write32 b offset w) offset = w := by
  unfold read32 write32
  rw [if_pos (by omega), if_pos (by omega), if_pos (by omega), if_pos (by omega)]
  have h0 : offset - offset = 0 := by omega
  have h1 : offset + 1 - offset = 1 := by omega
  have h2 : offset + 2 - offset = 2 := by omega
  have h3 : offset + 3 - offset = 3 := by omega
  simp only [h0, h1, h2, h3, UInt8.toNat_ofNat']
  omega

theorem read32_write32_of_disjoint (h : o + 4 ≤ offset ∨ offset + 4 ≤ o) :
    read32 (write32 b offset w) o = read32 b o :=
  read32_congr fun k hk => write32_of_not_mem (by omega)

end Write32

end Bytes
