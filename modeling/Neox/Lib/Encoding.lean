import Mathlib.Data.List.Forall2
import Neox.Lib.Bytes

/-!
# Lists of bytes in a block

An encoder writes a list of bytes; a decoder reads a block. `Holds b o l` says that the bytes of `l`
are at `o` and up. A block that holds an append holds both parts, so what an encoder has written in a
row is read back part by part.
-/

namespace Bytes

/-- The bytes of `l` are at `o` and up in the block. -/
def Holds (b : Block) (o : Nat) (l : List UInt8) : Prop := ∀ k x, l[k]? = some x → b (o + k) = x

/-- The bytes of `l`, and `rest` after them. -/
def ofList (l : List UInt8) (rest : Block) : Block := fun k => l[k]?.getD (rest k)

/-- The little-endian bytes of a 32-bit number. -/
def le32 (w : Nat) : List UInt8 :=
  [UInt8.ofNat w, UInt8.ofNat (w / 0x100), UInt8.ofNat (w / 0x10000), UInt8.ofNat (w / 0x1000000)]

variable {b : Block} {o w : Nat} {l l' : List UInt8}

@[simp] theorem length_le32 (w : Nat) : (le32 w).length = 4 := rfl

theorem holds_ofList (l : List UInt8) (rest : Block) : Holds (ofList l rest) 0 l := by
  intro k x hk
  unfold ofList
  rw [Nat.zero_add, hk]
  rfl

theorem holds_nil : Holds b o [] := by
  intro k x hk
  cases hk

theorem holds_append : Holds b o (l ++ l') ↔ Holds b o l ∧ Holds b (o + l.length) l' := by
  constructor
  · intro h
    constructor
    · intro k x hk
      refine h k x ?_
      rw [List.getElem?_append_left (List.getElem?_eq_some_iff.mp hk).1]
      exact hk
    · intro k x hk
      rw [Nat.add_assoc]
      refine h (l.length + k) x ?_
      rw [List.getElem?_append_right (Nat.le_add_right ..), Nat.add_sub_cancel_left]
      exact hk
  · rintro ⟨hl, hr⟩ k x hk
    by_cases hlt : k < l.length
    · rw [List.getElem?_append_left hlt] at hk
      exact hl k x hk
    · rw [List.getElem?_append_right (Nat.le_of_not_lt hlt)] at hk
      have hx := hr (k - l.length) x hk
      have hadd : o + l.length + (k - l.length) = o + k := by omega
      rw [hadd] at hx
      exact hx

theorem holds_cons {x : UInt8} : Holds b o (x :: l) ↔ b o = x ∧ Holds b (o + 1) l := by
  have happend : x :: l = [x] ++ l := rfl
  rw [happend, holds_append]
  refine and_congr_left fun _ => ⟨fun h => h 0 x rfl, fun h k y hk => ?_⟩
  cases k with
  | zero =>
      cases hk
      exact h
  | succ k => cases hk

/-- A number that was encoded is read back. -/
theorem read32_of_holds (h : Holds b o (le32 w)) (hw : w < 0x100000000) : read32 b o = w := by
  have h0 : b o = _ := h 0 _ rfl
  have h1 := h 1 _ rfl
  have h2 := h 2 _ rfl
  have h3 := h 3 _ rfl
  unfold read32
  rw [h0, h1, h2, h3]
  simp only [UInt8.toNat_ofNat']
  omega

/-- Records of one size, in a row. -/
theorem holds_flatten {records : List (List UInt8)} {size : Nat}
    (hsize : ∀ record ∈ records, record.length = size) (h : Holds b o records.flatten) {i : Nat}
    {record : List UInt8} (hi : records[i]? = some record) : Holds b (o + i * size) record := by
  induction records generalizing o i with
  | nil => cases hi
  | cons first records ih =>
      rw [List.flatten_cons, holds_append, hsize first (by simp)] at h
      cases i with
      | zero =>
          cases hi
          rw [Nat.zero_mul]
          exact h.1
      | succ i =>
          have hrest := ih (fun r hr => hsize r (by simp [hr])) h.2 hi
          rw [Nat.succ_mul, Nat.add_comm (i * size) size, ← Nat.add_assoc]
          exact hrest

theorem length_flatten_of_length_eq {records : List (List UInt8)} {size : Nat}
    (hsize : ∀ record ∈ records, record.length = size) :
    records.flatten.length = records.length * size := by
  induction records with
  | nil => rw [List.flatten_nil, List.length_nil, List.length_nil, Nat.zero_mul]
  | cons first records ih =>
      rw [List.flatten_cons, List.length_append, hsize first (by simp),
        ih fun r hr => hsize r (by simp [hr]), List.length_cons, Nat.succ_mul, Nat.add_comm]

/-- Related lists have related elements at each index. -/
theorem getElem?_of_forall₂ {α β : Type} {R : α → β → Prop} {xs : List α} {ys : List β}
    (h : List.Forall₂ R xs ys) {i : Nat} {x : α} (hx : xs[i]? = some x) :
    ∃ y, ys[i]? = some y ∧ R x y := by
  induction h generalizing i with
  | nil => cases hx
  | @cons a b _ _ hab _ ih =>
      cases i with
      | zero =>
          cases hx
          exact ⟨b, rfl, hab⟩
      | succ i => exact ih hx

end Bytes
