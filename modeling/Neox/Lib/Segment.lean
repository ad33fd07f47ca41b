/-!
# Linked lists in memory

`Segment node next p l q` says that the pointers `next` lead from `p` through nodes that hold the
elements of `l` to `q`, and that none of the nodes is at address 0. With `q = 0` it is a list that
ends in a null pointer.
-/

namespace LinkedList

variable {α : Type} {node node' : Nat → α → Prop} {next next' : Nat → Nat} {p q : Nat} {x : α}
  {l pre post : List α}

def Segment (node : Nat → α → Prop) (next : Nat → Nat) (p : Nat) : List α → Nat → Prop
  | [], q => p = q
  | x :: l, q => p ≠ 0 ∧ node p x ∧ Segment node next (next p) l q

theorem segment_append :
    Segment node next p (pre ++ post) q ↔
      ∃ r, Segment node next p pre r ∧ Segment node next r post q := by
  induction pre generalizing p with
  | nil =>
      constructor
      · intro h
        exact ⟨p, rfl, h⟩
      · rintro ⟨r, rfl, h⟩
        exact h
  | cons x pre ih =>
      constructor
      · rintro ⟨hp, hx, h⟩
        obtain ⟨r, hpre, hpost⟩ := ih.mp h
        exact ⟨r, ⟨hp, hx, hpre⟩, hpost⟩
      · rintro ⟨r, ⟨hp, hx, hpre⟩, hpost⟩
        exact ⟨hp, hx, ih.mpr ⟨r, hpre, hpost⟩⟩

/-- A segment stays where its nodes and their pointers do. -/
theorem Segment.congr (h : Segment node next p l q)
    (hnode : ∀ p, ∀ x ∈ l, node p x → node' p x ∧ next' p = next p) :
    Segment node' next' p l q := by
  induction l generalizing p with
  | nil => exact h
  | cons x l ih =>
      obtain ⟨hp, hx, h⟩ := h
      obtain ⟨hx', hnext⟩ := hnode p x (List.mem_cons_self ..) hx
      refine ⟨hp, hx', ?_⟩
      rw [hnext]
      exact ih h fun r y hy => hnode r y (List.mem_cons_of_mem _ hy)

/-- The pointer to a list that ends in a null pointer is null only when the list is empty. -/
theorem Segment.eq_zero_iff (h : Segment node next p l 0) : p = 0 ↔ l = [] := by
  cases l with
  | nil => exact ⟨fun _ => rfl, fun _ => h⟩
  | cons x l =>
      obtain ⟨hp, -⟩ := h
      exact ⟨fun h0 => absurd h0 hp, fun hl => by cases hl⟩

end LinkedList
