import Mathlib.Data.List.Basic
import Mathlib.Logic.Function.Basic

/-!
# Tables of cursors

A cursor is a position in contents that do not change. A table has a cursor at each descriptor in
use; a request opens a cursor at the lowest unused descriptor, reads from one, or closes one.

* `Table.repliesOn_run`: the replies on a descriptor depend on the requests on it alone.
* `Table.given_append_rest`: what the reads of a cursor give is what the cursor has passed.
-/

namespace Cursors

variable {α : Type}

/-- A position in some contents; a cursor that is not readable refuses every read. -/
structure Cursor (α : Type) where
  contents : List α
  position : Nat
  readable : Bool
  inside : position ≤ contents.length

namespace Cursor

/-- A cursor at the beginning. -/
def start (contents : List α) (readable : Bool) : Cursor α where
  contents := contents
  position := 0
  readable := readable
  inside := Nat.zero_le _

/-- What is left to read. -/
def rest (c : Cursor α) : List α := c.contents.drop c.position

/-- What a read of `n` gives. -/
def next (c : Cursor α) (n : Nat) : List α := c.rest.take n

theorem next_length (c : Cursor α) (n : Nat) :
    (c.next n).length = min n (c.contents.length - c.position) := by
  unfold next rest
  rw [List.length_take, List.length_drop]

/-- The cursor after a read of `n`. -/
def advance (c : Cursor α) (n : Nat) : Cursor α where
  contents := c.contents
  position := c.position + (c.next n).length
  readable := c.readable
  inside := by
    have hin := c.inside
    rw [next_length]
    omega

/-- A read takes what it gives off the rest. -/
theorem next_append_rest (c : Cursor α) (n : Nat) : c.next n ++ (c.advance n).rest = c.rest := by
  have hrest : (c.advance n).rest = c.rest.drop n := by
    show c.contents.drop (c.position + (c.next n).length) = (c.contents.drop c.position).drop n
    rw [next_length, List.drop_drop]
    rcases Nat.le_total n (c.contents.length - c.position) with hle | hle
    · rw [Nat.min_eq_left hle]
    · rw [Nat.min_eq_right hle, List.drop_eq_nil_of_le (by omega),
        List.drop_eq_nil_of_le (by omega)]
  rw [hrest]
  exact List.take_append_drop n c.rest

end Cursor

/-- A request; `openOf none` is of something that cannot be opened, and `read fd none` of a read that
has nowhere to put what it is given. -/
inductive Request (α : Type)
  | openOf (found : Option (List α × Bool))
  | read (fd : Int) (count : Option Nat)
  | close (fd : Int)

/-- What a request is answered. -/
inductive Reply (α : Type)
  | opened (fd : Nat)
  | given (items : List α)
  | closed
  | failed

/-- What is read. -/
def Reply.items : Reply α → List α
  | .given items => items
  | _ => []

/-- The request is about this descriptor. -/
def Request.on (fd : Int) : Request α → Bool
  | .openOf _ => false
  | .read fd' _ => fd' = fd
  | .close fd' => fd' = fd

/-- The cursor at each descriptor in use. -/
abbrev Table (α : Type) := Int → Option (Cursor α)

namespace Table

/-- No descriptor is in use. -/
def empty : Table α := fun _ => none

/-- The lowest unused of the descriptors below `slots`. -/
def lowestUnused (slots : Nat) (t : Table α) : Option Nat :=
  (List.range slots).find? fun fd => (t fd).isNone

/-- A cursor is opened at the lowest unused descriptor. -/
def openLowest (slots : Nat) (t : Table α) (found : Option (List α × Bool)) : Reply α × Table α :=
  match found, t.lowestUnused slots with
  | some (contents, readable), some fd =>
      (.opened fd, Function.update t fd (some (.start contents readable)))
  | _, _ => (.failed, t)

/-- A cursor is read and advances. -/
def readAt (t : Table α) (fd : Int) (count : Option Nat) : Reply α × Table α :=
  match t fd, count with
  | some c, some n =>
      if c.readable then (.given (c.next n), Function.update t fd (some (c.advance n)))
      else (.failed, t)
  | _, _ => (.failed, t)

/-- A cursor is closed. -/
def closeAt (t : Table α) (fd : Int) : Reply α × Table α :=
  match t fd with
  | none => (.failed, t)
  | some _ => (.closed, Function.update t fd none)

/-- One request. -/
def step (slots : Nat) (t : Table α) : Request α → Reply α × Table α
  | .openOf found => t.openLowest slots found
  | .read fd count => t.readAt fd count
  | .close fd => t.closeAt fd

/-- The replies to some requests, and the table after them. -/
def run (slots : Nat) (t : Table α) : List (Request α) → List (Reply α) × Table α
  | [] => ([], t)
  | r :: rs =>
      ((t.step slots r).1 :: (run slots (t.step slots r).2 rs).1, (run slots (t.step slots r).2 rs).2)

/-- The replies to the requests about a descriptor. -/
def repliesOn (fd : Int) : List (Request α) → List (Reply α) → List (Reply α)
  | r :: rs, reply :: replies =>
      if r.on fd then reply :: repliesOn fd rs replies else repliesOn fd rs replies
  | _, _ => []

/-- All that some replies give. -/
def given (replies : List (Reply α)) : List α := (replies.map Reply.items).flatten

section Rules

variable {slots : Nat} {t t' : Table α} {fd : Int} {c : Cursor α} {r : Request α}
  {rs : List (Request α)} {n : Nat}

theorem lowestUnused_eq_some :
    t.lowestUnused slots = some n ↔
      n < slots ∧ t n = none ∧ ∀ k < n, t k ≠ none := by
  unfold lowestUnused
  rw [List.find?_range_eq_some]
  simp only [Option.isNone_iff_eq_none, Bool.not_eq_eq_eq_not, Bool.not_true,
    Option.isNone_eq_false_iff, Option.isSome_iff_ne_none, List.mem_range]
  exact and_left_comm

theorem lowestUnused_eq_none : t.lowestUnused slots = none ↔ ∀ n < slots, t n ≠ none := by
  unfold lowestUnused
  rw [List.find?_eq_none]
  simp only [List.mem_range, Option.isNone_iff_eq_none]

/-- Nothing is opened of what is not found, nor when every descriptor is in use. -/
theorem openLowest_failed {found : Option (List α × Bool)}
    (h : found = none ∨ t.lowestUnused slots = none) : t.openLowest slots found = (.failed, t) := by
  unfold openLowest
  rcases h with rfl | h
  · rfl
  · rw [h]
    cases found with
    | none => rfl
    | some file => rfl

theorem openLowest_opened {contents : List α} {readable : Bool} (h : t.lowestUnused slots = some n) :
    t.openLowest slots (some (contents, readable)) =
      (.opened n, Function.update t n (some (.start contents readable))) := by
  unfold openLowest
  rw [h]

theorem readAt_readable (h : t fd = some c) (hread : c.readable = true) :
    t.readAt fd (some n) = (.given (c.next n), Function.update t fd (some (c.advance n))) := by
  unfold readAt
  rw [h]
  exact if_pos hread

theorem readAt_refused (count : Option Nat) (h : t fd = some c)
    (hread : ¬ (c.readable = true ∧ count ≠ none)) : t.readAt fd count = (.failed, t) := by
  unfold readAt
  rw [h]
  cases count with
  | none => rfl
  | some n => exact if_neg fun hc => hread ⟨hc, by simp⟩

/-- Only a read with somewhere to put it is given anything. -/
theorem step_given {items : List α} (h : (t.step slots r).1 = .given items) :
    ∃ fd n, r = .read fd (some n) := by
  cases r with
  | openOf found =>
      have h : (t.openLowest slots found).1 = .given items := h
      unfold openLowest at h
      split at h
      · cases h
      · cases h
  | read fd count =>
      cases count with
      | none =>
          have h : (t.readAt fd none).1 = .given items := h
          unfold readAt at h
          split at h
          · next heq => cases heq
          · cases h
      | some n => exact ⟨fd, n, rfl⟩
  | close fd =>
      have h : (t.closeAt fd).1 = .given items := h
      unfold closeAt at h
      split at h
      · cases h
      · cases h

/-- A descriptor in use is changed only by the requests about it. -/
theorem step_other (h : t fd = some c) (hr : r.on fd = false) : (t.step slots r).2 fd = some c := by
  cases r with
  | openOf found =>
      show (t.openLowest slots found).2 fd = some c
      unfold openLowest
      split
      · next contents readable n hlow =>
        have hfree : t n = none := (lowestUnused_eq_some.mp hlow).2.1
        have hne : fd ≠ n := fun heq => by
          rw [heq, hfree] at h
          cases h
        exact (Function.update_of_ne hne _ _).trans h
      · exact h
  | read fd' count =>
      have hne : fd ≠ fd' := fun heq => by simp [Request.on, heq] at hr
      show (t.readAt fd' count).2 fd = some c
      unfold readAt
      split
      · split
        · exact (Function.update_of_ne hne _ _).trans h
        · exact h
      · exact h
  | close fd' =>
      have hne : fd ≠ fd' := fun heq => by simp [Request.on, heq] at hr
      show (t.closeAt fd').2 fd = some c
      unfold closeAt
      split
      · exact h
      · exact (Function.update_of_ne hne _ _).trans h

/-- A request about a descriptor depends on the cursor there alone. -/
theorem step_on (slots : Nat) (h : t fd = some c) (h' : t' fd = some c) (hr : r.on fd = true)
    (hclose : r ≠ .close fd) :
    (t.step slots r).1 = (t'.step slots r).1 ∧
      ∃ c', (t.step slots r).2 fd = some c' ∧ (t'.step slots r).2 fd = some c' ∧
        (t.step slots r).1.items ++ c'.rest = c.rest := by
  cases r with
  | openOf found => cases hr
  | close fd' =>
      have heq : fd' = fd := by simpa [Request.on] using hr
      exact absurd (heq ▸ rfl) hclose
  | read fd' count =>
      obtain rfl : fd' = fd := by simpa [Request.on] using hr
      show (t.readAt fd' count).1 = (t'.readAt fd' count).1 ∧
        ∃ c', (t.readAt fd' count).2 fd' = some c' ∧ (t'.readAt fd' count).2 fd' = some c' ∧
          (t.readAt fd' count).1.items ++ c'.rest = c.rest
      by_cases hread : c.readable = true ∧ count ≠ none
      · obtain ⟨n, hn⟩ := Option.ne_none_iff_exists'.mp hread.2
        subst hn
        rw [readAt_readable h hread.1, readAt_readable h' hread.1]
        exact ⟨rfl, c.advance n, Function.update_self _ _ _, Function.update_self _ _ _,
          c.next_append_rest n⟩
      · rw [readAt_refused count h hread, readAt_refused count h' hread]
        exact ⟨rfl, c, h, h', rfl⟩

/-- Until it is closed, a descriptor answers as if there were no other. -/
theorem repliesOn_run (h : t fd = some c) (h' : t' fd = some c)
    (hclose : ∀ r ∈ rs, r ≠ .close fd) :
    repliesOn fd rs (t.run slots rs).1 = (t'.run slots (rs.filter (·.on fd))).1 := by
  induction rs generalizing t t' c with
  | nil => rfl
  | cons r rs ih =>
      have hrest : ∀ r ∈ rs, r ≠ .close fd := fun r hr => hclose r (List.mem_cons_of_mem _ hr)
      cases hr : r.on fd with
      | false =>
          rw [List.filter_cons_of_neg (by simp [hr])]
          have hstep : (t.step slots r).2 fd = some c := step_other h hr
          show (if r.on fd then _ else _) = _
          rw [hr]
          exact ih hstep h' hrest
      | true =>
          rw [List.filter_cons_of_pos hr]
          obtain ⟨hreply, c', ht, ht', -⟩ :=
            step_on slots h h' hr (hclose r (List.mem_cons_self ..))
          show (if r.on fd then _ else _) = _
          rw [hr]
          exact congrArg₂ List.cons hreply (ih ht ht' hrest)

/-- Until the descriptor is closed, its replies give what its cursor passes. -/
theorem given_append_rest (slots : Nat) (h : t fd = some c) (hon : ∀ r ∈ rs, r.on fd = true)
    (hclose : ∀ r ∈ rs, r ≠ .close fd) :
    ∃ c', (t.run slots rs).2 fd = some c' ∧ given (t.run slots rs).1 ++ c'.rest = c.rest := by
  induction rs generalizing t c with
  | nil => exact ⟨c, h, rfl⟩
  | cons r rs ih =>
      obtain ⟨-, c₁, ht, -, hitems⟩ := step_on slots h h (hon r (List.mem_cons_self ..))
        (hclose r (List.mem_cons_self ..))
      obtain ⟨c₂, hafter, hgiven⟩ := ih ht (fun r hr => hon r (List.mem_cons_of_mem _ hr))
        (fun r hr => hclose r (List.mem_cons_of_mem _ hr))
      refine ⟨c₂, hafter, ?_⟩
      calc given ((t.step slots r).1 :: (run slots (t.step slots r).2 rs).1) ++ c₂.rest
          = (t.step slots r).1.items ++ (given (run slots (t.step slots r).2 rs).1 ++ c₂.rest) := by
            simp [given]
        _ = (t.step slots r).1.items ++ c₁.rest := by rw [hgiven]
        _ = c.rest := hitems

end Rules

end Table

end Cursors
