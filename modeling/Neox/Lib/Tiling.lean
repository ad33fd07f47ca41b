/-!
# Intervals laid end to end

A list of intervals tiles `[a, e)` when the first begins at `a`, each of the others where the one
before it ends, and the last ends at `e`. Tiled intervals do not overlap, and a part of a tiling may
be replaced by whatever tiles the same stretch.
-/

namespace Tiling

variable {α : Type} {lo hi : α → Nat} {a e q : Nat} {x y : α} {l pre post : List α}

/-- The intervals from `lo x` to `hi x` cover `[a, e)` in order, without gap or overlap. -/
def Tiles (lo hi : α → Nat) (a : Nat) : List α → Nat → Prop
  | [], e => a = e
  | x :: l, e => lo x = a ∧ lo x ≤ hi x ∧ Tiles lo hi (hi x) l e

theorem Tiles.le (h : Tiles lo hi a l e) : a ≤ e := by
  induction l generalizing a with
  | nil => exact Nat.le_of_eq h
  | cons x l ih =>
      obtain ⟨rfl, hle, h⟩ := h
      exact Nat.le_trans hle (ih h)

theorem tiles_append :
    Tiles lo hi a (pre ++ post) e ↔ ∃ q, Tiles lo hi a pre q ∧ Tiles lo hi q post e := by
  induction pre generalizing a with
  | nil =>
      constructor
      · intro h
        exact ⟨a, rfl, h⟩
      · rintro ⟨q, rfl, h⟩
        exact h
  | cons x pre ih =>
      constructor
      · rintro ⟨hlo, hle, h⟩
        obtain ⟨q, hpre, hpost⟩ := ih.mp h
        exact ⟨q, ⟨hlo, hle, hpre⟩, hpost⟩
      · rintro ⟨q, ⟨hlo, hle, hpre⟩, hpost⟩
        exact ⟨hlo, hle, ih.mpr ⟨q, hpre, hpost⟩⟩

/-- An interval of a tiling, with what tiles the stretches before and after it. -/
theorem tiles_middle :
    Tiles lo hi a (pre ++ x :: post) e ↔
      Tiles lo hi a pre (lo x) ∧ lo x ≤ hi x ∧ Tiles lo hi (hi x) post e := by
  rw [tiles_append]
  constructor
  · rintro ⟨q, hpre, rfl, hle, hpost⟩
    exact ⟨hpre, hle, hpost⟩
  · rintro ⟨hpre, hle, hpost⟩
    exact ⟨lo x, hpre, rfl, hle, hpost⟩

theorem Tiles.bounds (h : Tiles lo hi a l e) (hx : x ∈ l) : a ≤ lo x ∧ lo x ≤ hi x ∧ hi x ≤ e := by
  obtain ⟨pre, post, rfl⟩ := List.append_of_mem hx
  obtain ⟨hpre, hle, hpost⟩ := tiles_middle.mp h
  exact ⟨hpre.le, hle, hpost.le⟩

/-- Two intervals of a tiling are the same or do not overlap. -/
theorem Tiles.disjoint (h : Tiles lo hi a l e) (hx : x ∈ l) (hy : y ∈ l) :
    x = y ∨ hi x ≤ lo y ∨ hi y ≤ lo x := by
  induction l generalizing a with
  | nil => cases hx
  | cons z l ih =>
      obtain ⟨-, -, h⟩ := h
      rcases List.mem_cons.mp hx with rfl | hxl
      · rcases List.mem_cons.mp hy with rfl | hyl
        · exact .inl rfl
        · exact .inr (.inl (h.bounds hyl).1)
      · rcases List.mem_cons.mp hy with rfl | hyl
        · exact .inr (.inr (h.bounds hxl).1)
        · exact ih h hxl hyl

end Tiling
