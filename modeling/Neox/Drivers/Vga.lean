import Neox.Lib.Layout
import Neox.Lib.Traced
import Neox.Layout

/-!
# The text console

`drivers/vga.c`. The framebuffer is the cell at each index; every access of it is reported, as is
every write to a port.

* `Shows.vgaPutchar`: one character on the screen and in the layout of the text.
* `console_shows_layout`: the screen shows the last rows of the layout.
-/

namespace Neox

open Traced

/-- `VGA_WIDTH`. -/
abbrev vgaWidth : Nat := 80

/-- `VGA_HEIGHT`. -/
abbrev vgaHeight : Nat := 25

/-- The modulus of `uint16_t`. -/
abbrev halfModulus : Nat := 0x10000

/-- An access of the framebuffer, or `outb`. -/
inductive VgaEvent
  | load (index : Nat)
  | store (index cell : Nat)
  | outb (port value : Nat)
  deriving DecidableEq, Repr

/-- Code of the driver. It always returns. -/
abbrev VgaM := Traced Empty VgaEvent

/-- The framebuffer and the statics of `vga.c`. -/
structure Vga where
  framebuffer : Nat → Nat
  cursorRow : Nat
  cursorCol : Nat
  foreground : UInt8
  background : UInt8

namespace Vga

/-- A character with its colours. -/
def cell (c fg bg : UInt8) : Nat :=
  ((bg.toNat <<< 12) ||| (fg.toNat <<< 8)) % halfModulus ||| c.toNat

/-- `FRAMEBUFFER[index] = cell`. -/
def store (v : Vga) (index cell : Nat) : VgaM Vga :=
  fetch (.store index cell) { v with framebuffer := Function.update v.framebuffer index cell }

/-- `vga_write_cell`. -/
def vgaWriteCell (v : Vga) (row col : Nat) (c fg bg : UInt8) : VgaM Vga :=
  v.store ((row * vgaWidth + col) % halfModulus) (cell c fg bg)

/-- `vga_update_cursor`. -/
def vgaUpdateCursor (v : Vga) : VgaM Vga := do
  let position := (v.cursorRow * vgaWidth + v.cursorCol) % halfModulus
  report (.outb 0x3D4 0x0F)
  report (.outb 0x3D5 (position % 0x100))
  report (.outb 0x3D4 0x0E)
  report (.outb 0x3D5 (position / 0x100))
  return v

/-- Blanks in a row from column `col` on, in `n` columns. -/
def clearRow (v : Vga) (row : Nat) (fg bg : UInt8) (col : Nat) : Nat → VgaM Vga
  | 0 => return v
  | n + 1 => do
      let v ← v.vgaWriteCell row col 0x20 fg bg
      clearRow v row fg bg (col + 1) n

/-- Blanks in `n` rows from row `row` on. -/
def clearRows (v : Vga) (fg bg : UInt8) (row : Nat) : Nat → VgaM Vga
  | 0 => return v
  | n + 1 => do
      let v ← v.clearRow row fg bg 0 vgaWidth
      clearRows v fg bg (row + 1) n

/-- `vga_clear`. -/
def vgaClear (v : Vga) (fg bg : UInt8) : VgaM Vga := do
  let v := { v with foreground := fg, background := bg }
  let v ← v.clearRows fg bg 0 vgaHeight
  vgaUpdateCursor { v with cursorRow := 0, cursorCol := 0 }

/-- Row `row` is copied to the row above, from column `col` on, in `n` columns. -/
def moveRow (v : Vga) (row col : Nat) : Nat → VgaM Vga
  | 0 => return v
  | n + 1 => do
      let index := row * vgaWidth + col
      let cell ← fetch (.load index) (v.framebuffer index)
      let v ← v.store ((row - 1) * vgaWidth + col) cell
      moveRow v row (col + 1) n

/-- `n` rows from row `row` on are copied to the row above. -/
def moveRows (v : Vga) (row : Nat) : Nat → VgaM Vga
  | 0 => return v
  | n + 1 => do
      let v ← v.moveRow row 0 vgaWidth
      moveRows v (row + 1) n

/-- `vga_scroll`. -/
def vgaScroll (v : Vga) : VgaM Vga := do
  let v ← v.moveRows 1 (vgaHeight - 1)
  v.clearRow (vgaHeight - 1) v.foreground v.background 0 vgaWidth

/-- The `switch` of `vga_putchar`. -/
def place (v : Vga) (c : UInt8) : VgaM Vga :=
  if c = 0x0A then
    return { v with cursorRow := (v.cursorRow + 1) % halfModulus, cursorCol := 0 }
  else if c = 0x0D then
    return { v with cursorCol := 0 }
  else do
    let v ← v.vgaWriteCell v.cursorRow v.cursorCol c v.foreground v.background
    let v := { v with cursorCol := (v.cursorCol + 1) % halfModulus }
    if vgaWidth ≤ v.cursorCol then
      return { v with cursorCol := 0, cursorRow := (v.cursorRow + 1) % halfModulus }
    else return v

/-- `vga_putchar`. -/
def vgaPutchar (v : Vga) (c : UInt8) : VgaM Vga := do
  let v ← v.place c
  if vgaHeight ≤ v.cursorRow then
    let v ← v.vgaScroll
    vgaUpdateCursor { v with cursorRow := vgaHeight - 1 }
  else vgaUpdateCursor v

/-- `vga_write`. -/
def vgaWrite (v : Vga) : List UInt8 → VgaM Vga
  | [] => return v
  | c :: text => do
      let v ← v.vgaPutchar c
      vgaWrite v text

/-! ## Where the framebuffer is accessed -/

/-- The framebuffer is accessed on the screen only. -/
def OnScreen : VgaEvent → Prop
  | .load index => index < vgaHeight * vgaWidth
  | .store index _ => index < vgaHeight * vgaWidth
  | .outb _ _ => True

section Cells

variable {v : Vga} {row col n : Nat} {c fg bg : UInt8}

/-- A cell of the screen is written. -/
theorem vgaWriteCell_post (hrow : row < vgaHeight) (hcol : col < vgaWidth) :
    Post OnScreen (fun v' => v' = { v with
        framebuffer := Function.update v.framebuffer (row * vgaWidth + col) (cell c fg bg) })
      (v.vgaWriteCell row col c fg bg) := by
  have hindex : row * vgaWidth + col < vgaHeight * vgaWidth := by
    simp only [vgaWidth, vgaHeight] at *
    omega
  have hmod : (row * vgaWidth + col) % halfModulus = row * vgaWidth + col := by
    apply Nat.mod_eq_of_lt
    simp only [vgaWidth, vgaHeight, halfModulus] at *
    omega
  unfold vgaWriteCell store
  rw [hmod]
  constructor
  · intro e he
    obtain rfl := List.mem_singleton.mp he
    exact hindex
  · intro v' hv'
    cases hv'
    rfl

theorem vgaUpdateCursor_post (v : Vga) : Post OnScreen (fun v' => v' = v) v.vgaUpdateCursor := by
  unfold vgaUpdateCursor
  have hreport (port value : Nat) : Post OnScreen (fun _ => True)
      (report (.outb port value) : VgaM Unit) :=
    ⟨reports_report.mpr trivial, fun _ => trivial⟩
  apply (hreport _ _).bind
  intro _ _
  apply (hreport _ _).bind
  intro _ _
  apply (hreport _ _).bind
  intro _ _
  apply (hreport _ _).bind
  intro _ _
  exact Post.pure rfl

/-- `n` cells of a row from column `col` on become `f`. -/
def setRow (v : Vga) (row col n : Nat) (f : Nat → Nat) : Vga :=
  { v with framebuffer := fun i =>
      if row * vgaWidth + col ≤ i ∧ i < row * vgaWidth + col + n then f (i - row * vgaWidth)
      else v.framebuffer i }

theorem setRow_zero (v : Vga) (row col : Nat) (f : Nat → Nat) : v.setRow row col 0 f = v := by
  unfold setRow
  congr 1
  funext i
  exact if_neg (by omega)

/-- The first cell and the others. -/
theorem setRow_succ (v : Vga) (row col n : Nat) (f : Nat → Nat) :
    setRow { v with framebuffer :=
        Function.update v.framebuffer (row * vgaWidth + col) (f col) } row (col + 1) n f =
      v.setRow row col (n + 1) f := by
  unfold setRow
  congr 1
  funext i
  dsimp only
  by_cases hi : i = row * vgaWidth + col
  · subst hi
    rw [if_neg (by omega), if_pos (by omega), Function.update_self]
    congr 1
    omega
  · rw [Function.update_of_ne hi]
    by_cases hin : row * vgaWidth + (col + 1) ≤ i ∧ i < row * vgaWidth + (col + 1) + n
    · rw [if_pos hin, if_pos (by omega)]
    · rw [if_neg hin, if_neg (by omega)]

theorem clearRow_post (hrow : row < vgaHeight) (hcol : col + n ≤ vgaWidth) :
    Post OnScreen (fun v' => v' = v.setRow row col n fun _ => cell 0x20 fg bg)
      (v.clearRow row fg bg col n) := by
  induction n generalizing v col with
  | zero => exact Post.pure (v.setRow_zero row col _).symm
  | succ n ih =>
      apply (vgaWriteCell_post hrow (by omega)).bind
      intro v' hv'
      subst hv'
      apply (ih (by omega)).mono
      intro v' hv'
      exact hv'.trans (v.setRow_succ row col n fun _ => cell 0x20 fg bg)

/-- A row is copied to the row above. -/
theorem moveRow_post (hrow : row + 1 < vgaHeight) (hcol : col + n ≤ vgaWidth) :
    Post OnScreen
      (fun v' => v' = v.setRow row col n fun c => v.framebuffer ((row + 1) * vgaWidth + c))
      (v.moveRow (row + 1) col n) := by
  induction n generalizing v col with
  | zero => exact Post.pure (v.setRow_zero row col _).symm
  | succ n ih =>
      have hload : (row + 1) * vgaWidth + col < vgaHeight * vgaWidth := by
        simp only [vgaWidth, vgaHeight] at *
        omega
      have hstore : row * vgaWidth + col < vgaHeight * vgaWidth := by
        simp only [vgaWidth, vgaHeight] at *
        omega
      have hfetch : Post OnScreen (fun x => x = v.framebuffer ((row + 1) * vgaWidth + col))
          (fetch (.load ((row + 1) * vgaWidth + col))
            (v.framebuffer ((row + 1) * vgaWidth + col)) : VgaM Nat) := by
        refine ⟨fun e he => ?_, fun hx => ?_⟩
        · obtain rfl := List.mem_singleton.mp he
          exact hload
        · cases hx
          rfl
      apply hfetch.bind
      intro x hx
      subst hx
      have hput : Post OnScreen (fun v' => v' = { v with
            framebuffer := Function.update v.framebuffer (row * vgaWidth + col)
              (v.framebuffer ((row + 1) * vgaWidth + col)) })
          (v.store ((row + 1 - 1) * vgaWidth + col) (v.framebuffer ((row + 1) * vgaWidth + col))) := by
        rw [Nat.add_sub_cancel]
        refine ⟨fun e he => ?_, fun hv' => ?_⟩
        · obtain rfl := List.mem_singleton.mp he
          exact hstore
        · cases hv'
          rfl
      apply hput.bind
      intro v' hv'
      subst hv'
      apply (ih (by omega)).mono
      intro v' hv'
      -- The row that is copied is not the one that is written.
      have hsource : (fun c => Function.update v.framebuffer (row * vgaWidth + col)
          (v.framebuffer ((row + 1) * vgaWidth + col)) ((row + 1) * vgaWidth + c)) =
          fun c => v.framebuffer ((row + 1) * vgaWidth + c) := by
        funext c
        apply Function.update_of_ne
        simp only [vgaWidth] at *
        omega
      rw [hsource] at hv'
      exact hv'.trans
        (v.setRow_succ row col n fun c => v.framebuffer ((row + 1) * vgaWidth + c))

/-- `n` rows from `row` on become the rows below them. -/
def shiftRows (v : Vga) (row n : Nat) : Vga :=
  { v with framebuffer := fun i =>
      if row * vgaWidth ≤ i ∧ i < (row + n) * vgaWidth then v.framebuffer (i + vgaWidth)
      else v.framebuffer i }

theorem shiftRows_succ (v : Vga) (row n : Nat) :
    (v.setRow row 0 vgaWidth fun c => v.framebuffer ((row + 1) * vgaWidth + c)).shiftRows (row + 1) n =
      v.shiftRows row (n + 1) := by
  unfold shiftRows setRow
  congr 1
  funext i
  dsimp only
  simp only [vgaWidth]
  by_cases hlater : (row + 1) * 80 ≤ i ∧ i < (row + 1 + n) * 80
  · rw [if_pos hlater, if_neg (by omega), if_pos (by omega)]
  · rw [if_neg hlater]
    by_cases hhere : row * 80 + 0 ≤ i ∧ i < row * 80 + 0 + 80
    · rw [if_pos hhere, if_pos (by omega)]
      congr 1
      omega
    · rw [if_neg hhere, if_neg (by omega)]

theorem moveRows_post (row : Nat) (hrow : row + n < vgaHeight) :
    Post OnScreen (fun v' => v' = v.shiftRows row n) (v.moveRows (row + 1) n) := by
  induction n generalizing v row with
  | zero =>
      apply Post.pure
      have hnone : v.shiftRows row 0 = v := by
        unfold shiftRows
        congr 1
        funext i
        refine if_neg ?_
        simp only [vgaWidth]
        omega
      exact hnone.symm
  | succ n ih =>
      apply (moveRow_post (by omega) (Nat.le_of_eq (Nat.zero_add _))).bind
      intro v' hv'
      subst hv'
      apply (ih (row + 1) (by omega)).mono
      intro v' hv'
      exact hv'.trans (v.shiftRows_succ row n)

/-- The screen has moved up by a row, and its last row is blank. -/
theorem vgaScroll_post : Post OnScreen
    (fun v' => v' = (v.shiftRows 0 (vgaHeight - 1)).setRow (vgaHeight - 1) 0 vgaWidth
      fun _ => cell 0x20 v.foreground v.background) v.vgaScroll := by
  unfold vgaScroll
  apply (moveRows_post 0 (by decide)).bind
  intro v' hv'
  subst hv'
  exact clearRow_post (by decide) (Nat.le_of_eq (Nat.zero_add _))

/-- `n` rows from `row` on are blank. -/
def blankRows (v : Vga) (row n : Nat) (fg bg : UInt8) : Vga :=
  { v with framebuffer := fun i =>
      if row * vgaWidth ≤ i ∧ i < (row + n) * vgaWidth then cell 0x20 fg bg else v.framebuffer i }

theorem clearRows_post (row : Nat) (hrow : row + n ≤ vgaHeight) :
    Post OnScreen (fun v' => v' = v.blankRows row n fg bg) (v.clearRows fg bg row n) := by
  induction n generalizing v row with
  | zero =>
      apply Post.pure
      have hnone : v.blankRows row 0 fg bg = v := by
        unfold blankRows
        congr 1
        funext i
        refine if_neg ?_
        simp only [vgaWidth]
        omega
      exact hnone.symm
  | succ n ih =>
      apply (clearRow_post (by omega) (Nat.le_of_eq (Nat.zero_add _))).bind
      intro v' hv'
      subst hv'
      apply (ih (row + 1) (by omega)).mono
      intro v' hv'
      refine hv'.trans ?_
      unfold blankRows setRow
      congr 1
      funext i
      dsimp only
      simp only [vgaWidth]
      by_cases hlater : (row + 1) * 80 ≤ i ∧ i < (row + 1 + n) * 80
      · rw [if_pos hlater, if_pos (by omega)]
      · rw [if_neg hlater]
        by_cases hhere : row * 80 + 0 ≤ i ∧ i < row * 80 + 0 + 80
        · rw [if_pos hhere, if_pos (by omega)]
        · rw [if_neg hhere, if_neg (by omega)]

end Cells

/-! ## The screen and the layout -/

/-- What a character does, with the cell that it prints. -/
def mark (fg bg c : UInt8) : Mark Nat :=
  if c = 0x0A then .newline else if c = 0x0D then .carriageReturn else .print (cell c fg bg)

/-- The layout of a text on rows of the width of the screen. -/
def layout (fg bg : UInt8) (text : List UInt8) : Layout Nat :=
  Layout.ofText vgaWidth (cell 0x20 fg bg) (text.map (mark fg bg))

/-- The screen shows the rows of the layout from `top` on, with the cursor where it is there. -/
structure ShowsFrom (fg bg : UInt8) (v : Vga) (l : Layout Nat) (top : Nat) : Prop where
  row : top + v.cursorRow = l.row
  col : v.cursorCol = l.col
  width : l.col < vgaWidth
  full : top = 0 ∨ vgaHeight - 1 ≤ v.cursorRow
  cells : ∀ r < vgaHeight, ∀ c < vgaWidth, v.framebuffer (r * vgaWidth + c) = l.rows (top + r) c
  below : l.BlankBelow (cell 0x20 fg bg)
  foreground : v.foreground = fg
  background : v.background = bg

/-- Between calls the cursor is on the screen. -/
def Shows (fg bg : UInt8) (v : Vga) (l : Layout Nat) : Prop :=
  ∃ top, ShowsFrom fg bg v l top ∧ v.cursorRow < vgaHeight

section Putchar

variable {fg bg c : UInt8} {v : Vga} {l : Layout Nat} {top : Nat}

/-- A cell of the screen is that of its row and column only. -/
theorem index_eq {r c r' c' : Nat} (hc : c < vgaWidth) (hc' : c' < vgaWidth) :
    r * vgaWidth + c = r' * vgaWidth + c' ↔ r = r' ∧ c = c' := by
  simp only [vgaWidth] at *
  omega

/-- A character is printed at the cursor, on the screen and in the layout. -/
theorem ShowsFrom.print (h : ShowsFrom fg bg v l top) (x : Nat) :
    ShowsFrom fg bg { v with
        framebuffer := Function.update v.framebuffer (v.cursorRow * vgaWidth + v.cursorCol) x }
      (l.print x) top where
  row := h.row
  col := h.col
  width := h.width
  full := h.full
  cells r hr k hk := by
    have hcol : v.cursorCol < vgaWidth := h.col ▸ h.width
    show Function.update v.framebuffer (v.cursorRow * vgaWidth + v.cursorCol) x (r * vgaWidth + k) = _
    by_cases hat : r = v.cursorRow ∧ k = v.cursorCol
    · obtain ⟨rfl, rfl⟩ := hat
      rw [Function.update_self, h.row, h.col]
      exact Layout.print_self.symm
    · rw [Function.update_of_ne fun heq => hat ((index_eq hk hcol).mp heq), h.cells r hr k hk]
      refine (Layout.print_other ?_).symm
      by_cases hr' : top + r = l.row
      · refine Or.inr fun hk' => hat ⟨?_, hk'.trans h.col.symm⟩
        have hsum := h.row
        omega
      · exact Or.inl hr'
  below := h.below.print
  foreground := h.foreground
  background := h.background

theorem ShowsFrom.setCol {k : Nat} (h : ShowsFrom fg bg v l top) (hk : k < vgaWidth) :
    ShowsFrom fg bg { v with cursorCol := k } { l with col := k } top :=
  { h with col := rfl, width := hk }

/-- The cursor goes to the next row, which may be below the screen. -/
theorem ShowsFrom.nextRow (h : ShowsFrom fg bg v l top) (hrow : v.cursorRow < vgaHeight) :
    ShowsFrom fg bg { v with cursorRow := (v.cursorRow + 1) % halfModulus, cursorCol := 0 }
      l.nextRow top where
  row := by
    have hsum := h.row
    show top + (v.cursorRow + 1) % halfModulus = l.row + 1
    simp only [vgaHeight, halfModulus] at *
    omega
  col := rfl
  width := by
    show 0 < vgaWidth
    decide
  full := by
    have hfull := h.full
    show top = 0 ∨ vgaHeight - 1 ≤ (v.cursorRow + 1) % halfModulus
    simp only [vgaHeight, halfModulus] at *
    omega
  cells := h.cells
  below := h.below.nextRow
  foreground := h.foreground
  background := h.background

/-- What the `switch` leaves: the screen as it was before the cursor left it, where it has, and the row
that the cursor has gone to then is blank. -/
structure Placed (fg bg : UInt8) (v : Vga) (l : Layout Nat) (top : Nat) : Prop where
  shows : ShowsFrom fg bg v l top
  row : v.cursorRow ≤ vgaHeight
  blank : vgaHeight ≤ v.cursorRow → ∀ k, l.rows l.row k = cell 0x20 fg bg

theorem ShowsFrom.placed (h : ShowsFrom fg bg v l top) (hrow : v.cursorRow < vgaHeight) :
    Placed fg bg v l top :=
  ⟨h, Nat.le_of_lt hrow, fun hle => absurd hrow (Nat.not_lt.mpr hle)⟩

theorem ShowsFrom.placed_nextRow (h : ShowsFrom fg bg v l top) (hrow : v.cursorRow < vgaHeight) :
    Placed fg bg { v with cursorRow := (v.cursorRow + 1) % halfModulus, cursorCol := 0 }
      l.nextRow top where
  shows := h.nextRow hrow
  row := by
    show (v.cursorRow + 1) % halfModulus ≤ vgaHeight
    simp only [vgaHeight, halfModulus] at *
    omega
  blank _ k := h.below (l.row + 1) (Nat.lt_succ_self _) k

/-- The `switch` does to the screen what the character does to the layout, but for the scrolling. -/
theorem ShowsFrom.place (h : ShowsFrom fg bg v l top) (hrow : v.cursorRow < vgaHeight) :
    Post OnScreen (fun v' => Placed fg bg v' (l.put vgaWidth (mark fg bg c)) top) (v.place c) := by
  unfold Vga.place mark
  by_cases hnewline : c = 0x0A
  · rw [if_pos hnewline, if_pos hnewline]
    exact Post.pure (h.placed_nextRow hrow)
  rw [if_neg hnewline, if_neg hnewline]
  by_cases hreturn : c = 0x0D
  · rw [if_pos hreturn, if_pos hreturn]
    exact Post.pure ((h.setCol (Nat.zero_lt_of_lt h.width)).placed hrow)
  rw [if_neg hreturn, if_neg hreturn]
  have hcol : v.cursorCol < vgaWidth := h.col ▸ h.width
  apply (vgaWriteCell_post hrow hcol).bind
  intro v' hv'
  subst hv'
  dsimp only
  have hmod : (v.cursorCol + 1) % halfModulus = l.col + 1 := by
    have heq := h.col
    simp only [vgaWidth, halfModulus] at *
    omega
  have hprint := h.print (cell c v.foreground v.background)
  rw [hmod, h.foreground, h.background] at *
  show Post OnScreen _ (if vgaWidth ≤ l.col + 1 then _ else _)
  by_cases hfull : vgaWidth ≤ l.col + 1
  · rw [if_pos hfull]
    apply Post.pure
    show Placed fg bg _ (if l.col + 1 < vgaWidth then _ else _) top
    rw [if_neg (Nat.not_lt.mpr hfull)]
    exact hprint.placed_nextRow hrow
  · rw [if_neg hfull]
    apply Post.pure
    show Placed fg bg _ (if l.col + 1 < vgaWidth then _ else _) top
    rw [if_pos (Nat.lt_of_not_le hfull)]
    exact (hprint.setCol (Nat.lt_of_not_le hfull)).placed hrow

/-- The screen scrolls when the cursor has left it: the first row is lost, and the last one is that of
the cursor. -/
theorem Placed.scroll (h : Placed fg bg v l top) (hrow : vgaHeight ≤ v.cursorRow) :
    Post OnScreen (fun v' => ShowsFrom fg bg { v' with cursorRow := vgaHeight - 1 } l (top + 1))
      v.vgaScroll := by
  have hsum := h.shows.row
  have hle := h.row
  apply vgaScroll_post.mono
  intro v' hv'
  subst hv'
  constructor
  case row =>
    show top + 1 + (vgaHeight - 1) = l.row
    simp only [vgaHeight] at *
    omega
  case col => exact h.shows.col
  case width => exact h.shows.width
  case full => exact Or.inr (Nat.le_refl _)
  case below => exact h.shows.below
  case foreground => exact h.shows.foreground
  case background => exact h.shows.background
  case cells =>
    intro r hr k hk
    simp only [setRow, shiftRows]
    simp only [vgaHeight, vgaWidth] at *
    by_cases hlast : r = 24
    · have hrow' : top + 1 + r = l.row := by omega
      rw [if_pos (by omega), hrow', h.blank hrow k, h.shows.foreground, h.shows.background]
    · have hcell := h.shows.cells (r + 1) (by simp only [vgaHeight]; omega) k hk
      have hindex : r * 80 + k + 80 = (r + 1) * 80 + k := by omega
      have hrow' : top + 1 + r = top + (r + 1) := by omega
      rw [if_neg (by omega), if_pos (by omega), hindex, hrow']
      exact hcell

/-- One character on the screen and in the layout. -/
theorem Shows.vgaPutchar (h : Shows fg bg v l) :
    Post OnScreen (fun v' => Shows fg bg v' (l.put vgaWidth (mark fg bg c))) (v.vgaPutchar c) := by
  obtain ⟨top, hfrom, hrow⟩ := h
  apply (hfrom.place hrow).bind
  intro v' hplaced
  by_cases hscroll : vgaHeight ≤ v'.cursorRow
  · show Post OnScreen _ (if vgaHeight ≤ v'.cursorRow then _ else _)
    rw [if_pos hscroll]
    apply (hplaced.scroll hscroll).bind
    intro v'' hshows
    apply (vgaUpdateCursor_post _).mono
    intro w hw
    subst hw
    refine ⟨top + 1, hshows, ?_⟩
    show vgaHeight - 1 < vgaHeight
    decide
  · show Post OnScreen _ (if vgaHeight ≤ v'.cursorRow then _ else _)
    rw [if_neg hscroll]
    apply (vgaUpdateCursor_post _).mono
    intro w hw
    subst hw
    exact ⟨top, hplaced.shows, Nat.lt_of_not_le hscroll⟩

/-- A text on the screen and in the layout. -/
theorem Shows.vgaWrite {text : List UInt8} (h : Shows fg bg v l) :
    Post OnScreen
      (fun v' => Shows fg bg v' ((text.map (mark fg bg)).foldl (Layout.put vgaWidth) l))
      (v.vgaWrite text) := by
  induction text generalizing v l with
  | nil => exact Post.pure h
  | cons c text ih =>
      apply h.vgaPutchar.bind
      intro v' hv'
      exact ih hv'

/-- A screen that is cleared shows the layout of the empty text. -/
theorem vgaClear_post (v : Vga) (fg bg : UInt8) :
    Post OnScreen (fun v' => Shows fg bg v' (Layout.blank (cell 0x20 fg bg))) (v.vgaClear fg bg) := by
  unfold vgaClear
  apply (clearRows_post 0 (by decide)).bind
  intro v' hv'
  subst hv'
  apply (vgaUpdateCursor_post _).mono
  intro w hw
  subst hw
  refine ⟨0, ?_, ?_⟩
  · constructor
    case row => rfl
    case col => rfl
    case width => exact (by decide : 0 < vgaWidth)
    case full => exact Or.inl rfl
    case below =>
      intro k hk c
      rfl
    case foreground => rfl
    case background => rfl
    case cells =>
      intro r hr k hk
      simp only [blankRows, vgaHeight, vgaWidth] at *
      exact if_pos (by omega)
  · exact (by decide : 0 < vgaHeight)

/-- What the screen shows is the last rows of the layout. -/
theorem Shows.visible (h : Shows fg bg v l) {r k : Nat} (hr : r < vgaHeight) (hk : k < vgaWidth) :
    v.framebuffer (r * vgaWidth + k) = l.visible vgaHeight r k := by
  obtain ⟨top, hfrom, hrow⟩ := h
  have hsum := hfrom.row
  have hfull := hfrom.full
  have htop : l.top vgaHeight = top := by
    unfold Layout.top
    simp only [vgaHeight] at *
    omega
  unfold Layout.visible
  rw [htop]
  exact hfrom.cells r hr k hk

end Putchar

end Vga

/-- Whatever the console was before, after `vga_clear` and a text the cursor is on the screen, every
framebuffer index accessed on the way was on the screen, and the cells are the last 25 rows of the
layout of the text. -/
theorem console_shows_layout (v : Vga) (fg bg : UInt8) (text : List UInt8) :
    let run := v.vgaClear fg bg >>= fun v => v.vgaWrite text
    Reports Vga.OnScreen run ∧ run.value.cursorRow < vgaHeight ∧ run.value.cursorCol < vgaWidth ∧
      ∀ r < vgaHeight, ∀ c < vgaWidth, run.value.framebuffer (r * vgaWidth + c) =
        (Vga.layout fg bg text).visible vgaHeight r c := by
  intro run
  have hpost : Post Vga.OnScreen (fun v' => Vga.Shows fg bg v' (Vga.layout fg bg text)) run :=
    (Vga.vgaClear_post v fg bg).bind fun _ hshows => hshows.vgaWrite
  have hshows : Vga.Shows fg bg run.value (Vga.layout fg bg text) := hpost.of_ok result_eq_value
  refine ⟨hpost.reports, ?_, ?_, fun r hr c hc => hshows.visible hr hc⟩
  · obtain ⟨top, -, hrow⟩ := hshows
    exact hrow
  · obtain ⟨top, hfrom, -⟩ := hshows
    rw [hfrom.col]
    exact hfrom.width

/-- A word is written over after a carriage return; the second row is blank. -/
example : ((Vga.vgaClear ⟨fun _ => 0, 0, 0, 0, 0⟩ 7 0 >>= fun v =>
    v.vgaWrite [0x61, 0x62, 0x0D, 0x63]).value.framebuffer 0,
    (Vga.layout 7 0 [0x61, 0x62, 0x0D, 0x63]).visible vgaHeight 0 1) = (0x763, 0x762) := by
  decide +kernel

end Neox
