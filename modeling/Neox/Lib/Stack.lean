import Neox.Lib.Bytes

/-!
# A stack of words in a block

The stack grows downward. `Stacked b sp l` says that the words of `l` are at `sp` and up, the one pushed
last first. Pushing a word keeps those that are there, and what does not write to them does too.
-/

namespace Bytes

/-- The words of `l` are at `sp` and up. -/
def Stacked (b : Block) (sp : Nat) : List (BitVec 32) → Prop
  | [] => True
  | w :: l => read32 b sp = w.toNat ∧ Stacked b (sp + 4) l

variable {b c : Block} {sp : Nat} {l l' : List (BitVec 32)} {w : BitVec 32}

/-- Only the bytes of the words matter. -/
theorem Stacked.congr (h : Stacked b sp l) (hsame : ∀ x, sp ≤ x → x < sp + 4 * l.length → c x = b x) :
    Stacked c sp l := by
  induction l generalizing sp with
  | nil => trivial
  | cons w l ih =>
      obtain ⟨hw, hl⟩ := h
      rw [List.length_cons] at hsame
      constructor
      · rw [← hw]
        exact read32_congr fun k hk => hsame _ (Nat.le_add_right ..) (by omega)
      · exact ih hl fun x hx hlt => hsame x (by omega) (by omega)

theorem stacked_append : Stacked b sp (l ++ l') ↔ Stacked b sp l ∧ Stacked b (sp + 4 * l.length) l' := by
  induction l generalizing sp with
  | nil => exact (iff_of_eq (true_and _)).symm
  | cons w l ih =>
      have hlen : sp + 4 * (w :: l).length = sp + 4 + 4 * l.length := by
        rw [List.length_cons]
        omega
      rw [List.cons_append, Stacked, Stacked, ih, hlen, and_assoc]

/-- The word at a depth. -/
theorem Stacked.at (h : Stacked b sp l) {i : Nat} (hi : l[i]? = some w) :
    read32 b (sp + 4 * i) = w.toNat := by
  induction l generalizing sp i with
  | nil => cases hi
  | cons v l ih =>
      cases i with
      | zero =>
          cases hi
          exact h.1
      | succ i =>
          have hsum : sp + 4 * (i + 1) = sp + 4 + 4 * i := by omega
          rw [hsum]
          exact ih h.2 hi

/-- A word is changed in place. -/
theorem Stacked.set (h : Stacked b sp l) (i : Nat) (w : BitVec 32) (hi : i < l.length) :
    Stacked (write32 b (sp + 4 * i) w.toNat) sp (l.set i w) := by
  induction l generalizing sp i with
  | nil => cases hi
  | cons v l ih =>
      cases i with
      | zero =>
          refine ⟨read32_write32 b sp w.isLt, ?_⟩
          apply h.2.congr
          intro x hx _
          exact write32_of_not_mem (by omega)
      | succ i =>
          have hsum : sp + 4 * (i + 1) = sp + 4 + 4 * i := by omega
          rw [hsum]
          refine ⟨?_, ih h.2 i (Nat.lt_of_succ_lt_succ hi)⟩
          rw [read32_write32_of_disjoint (by omega)]
          exact h.1

/-- Words stored one after the other, each at an index from `sp` on. -/
def stores (b : Block) (sp : Nat) (ws : List (Nat × BitVec 32)) : Block :=
  ws.foldl (fun b w => write32 b (sp + 4 * w.1) w.2.toNat) b

/-- Each byte is stored to, or stays. -/
theorem stores_congr (ws : List (Nat × BitVec 32)) (sp : Nat) {x : Nat} (h : b x = c x) :
    stores b sp ws x = stores c sp ws x := by
  induction ws generalizing b c with
  | nil => exact h
  | cons w ws ih =>
      have hbyte : write32 b (sp + 4 * w.1) w.2.toNat x = write32 c (sp + 4 * w.1) w.2.toNat x := by
        unfold write32
        split
        · rfl
        · exact h
      exact ih hbyte

theorem stores_of_not_mem {ws : List (Nat × BitVec 32)} {n : Nat} (hws : ∀ w ∈ ws, w.1 < n) {x : Nat}
    (hx : x < sp ∨ sp + 4 * n ≤ x) : stores b sp ws x = b x := by
  induction ws generalizing b with
  | nil => rfl
  | cons w ws ih =>
      have hw := hws w List.mem_cons_self
      have hfirst : write32 b (sp + 4 * w.1) w.2.toNat x = b x := write32_of_not_mem (by omega)
      exact (ih fun v hv => hws v (List.mem_cons_of_mem _ hv)).trans hfirst

theorem Stacked.stores {ws : List (Nat × BitVec 32)} (h : Stacked b sp l) (hws : ∀ w ∈ ws, w.1 < l.length) :
    Stacked (stores b sp ws) sp (ws.foldl (fun l w => l.set w.1 w.2) l) := by
  induction ws generalizing b l with
  | nil => exact h
  | cons w ws ih =>
      apply ih (h.set w.1 w.2 (hws w List.mem_cons_self))
      intro v hv
      rw [List.length_set]
      exact hws v (List.mem_cons_of_mem _ hv)

/-- A push. -/
theorem Stacked.push (h : Stacked b sp l) (hroom : 4 ≤ sp) (w : BitVec 32) :
    Stacked (write32 b (sp - 4) w.toNat) (sp - 4) (w :: l) := by
  constructor
  · exact read32_write32 b _ w.isLt
  · rw [Nat.sub_add_cancel hroom]
    apply h.congr
    intro x hx _
    exact write32_of_not_mem (by omega)

end Bytes
