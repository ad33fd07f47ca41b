import Mathlib.Logic.Function.Basic

/-!
# The layout of a text on rows without end

A text is laid out on rows of a fixed width: a character is put at the cursor, a row that is full is
left for the next one, and every cell is blank at first.
-/

/-- What a character of a text does. -/
inductive Mark (α : Type)
  | newline
  | carriageReturn
  | print (a : α)

/-- The cell at each row and column, and the cursor. -/
structure Layout (α : Type) where
  rows : Nat → Nat → α
  row : Nat
  col : Nat

namespace Layout

variable {α : Type}

/-- The layout of the empty text. -/
def blank (a : α) : Layout α := { rows := fun _ _ => a, row := 0, col := 0 }

/-- The cursor goes to the beginning of the next row. -/
def nextRow (l : Layout α) : Layout α := { l with row := l.row + 1, col := 0 }

/-- The cell under the cursor. -/
def print (l : Layout α) (a : α) : Layout α :=
  { l with rows := Function.update l.rows l.row (Function.update (l.rows l.row) l.col a) }

/-- One character, on rows of `width` columns. -/
def put (width : Nat) (l : Layout α) : Mark α → Layout α
  | .newline => l.nextRow
  | .carriageReturn => { l with col := 0 }
  | .print a => if l.col + 1 < width then { l.print a with col := l.col + 1 } else (l.print a).nextRow

/-- The layout of a text. -/
def ofText (width : Nat) (a : α) (text : List (Mark α)) : Layout α := text.foldl (put width) (blank a)

/-- The first of the last `height` rows, the row of the cursor being the last. -/
def top (height : Nat) (l : Layout α) : Nat := l.row + 1 - height

/-- The last `height` rows. -/
def visible (height : Nat) (l : Layout α) (r c : Nat) : α := l.rows (l.top height + r) c

/-- The rows after the cursor's are blank. -/
def BlankBelow (a : α) (l : Layout α) : Prop := ∀ k, l.row < k → ∀ c, l.rows k c = a

variable {a : α} {l : Layout α}

theorem BlankBelow.nextRow (h : l.BlankBelow a) : l.nextRow.BlankBelow a :=
  fun k hk c => h k (Nat.lt_of_succ_lt hk) c

theorem print_other {b : α} {r c : Nat} (h : r ≠ l.row ∨ c ≠ l.col) :
    (l.print b).rows r c = l.rows r c := by
  by_cases hr : r = l.row
  · subst hr
    show Function.update l.rows l.row _ l.row c = _
    rw [Function.update_self]
    exact Function.update_of_ne (h.resolve_left (fun hne => hne rfl)) _ _
  · show Function.update l.rows l.row _ r c = _
    rw [Function.update_of_ne hr]

theorem print_self {b : α} : (l.print b).rows l.row l.col = b := by
  show Function.update l.rows l.row _ l.row l.col = b
  rw [Function.update_self, Function.update_self]

theorem BlankBelow.print {b : α} (h : l.BlankBelow a) : (l.print b).BlankBelow a := by
  intro k hk c
  have hne : k ≠ l.row := Nat.ne_of_gt hk
  rw [print_other (Or.inl hne)]
  exact h k hk c

theorem BlankBelow.put {width : Nat} {mark : Mark α} (h : l.BlankBelow a) :
    (l.put width mark).BlankBelow a := by
  cases mark with
  | newline => exact h.nextRow
  | carriageReturn => exact h
  | print b =>
      show (if l.col + 1 < width then _ else _ : Layout α).BlankBelow a
      split
      · exact h.print
      · exact h.print.nextRow

end Layout
