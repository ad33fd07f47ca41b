import Mathlib.Data.List.Nodup
import Mathlib.Data.List.Rotate
import Mathlib.Tactic.Ring

/-!
# Turns in a ring

Members take turns in the order of a list that is read as a ring. The cursor is on the member whose turn
it is. A turn passes to the next member, or the member under the cursor leaves and the turn goes back to
the front; newcomers are appended. How long a member waits is bounded by a measure on the members in
front of it and on the cursor.
-/

namespace Ring

variable {α : Type} [DecidableEq α] {l l' xs : List α} {c c' x y : α} {i N : Nat}

/-- Where the turn goes from here, counted from the front. -/
def start (l : List α) (c : α) : Nat := if c ∈ l then l.idxOf c + 1 else 0

/-- One step: the list, the cursor and whose turn it becomes. -/
inductive Turn (l : List α) (c : α) : List α → List α → α → Prop
  | extend (m : List α) : c ∈ l ∨ c ∉ m → Turn l c [] (l ++ m) c
  | advance (x : α) : l[start l c % l.length]? = some x → Turn l c [x] l x
  | leave (m : List α) (x : α) : c ∈ l → c ∉ l.erase c ++ m → (l.erase c ++ m)[0]? = some x →
      Turn l c [x] (l.erase c ++ m) x

/-! ## Positions -/

theorem idxOf_of_getElem? (hl : l.Nodup) (h : l[i]? = some x) : l.idxOf x = i := by
  obtain ⟨hi, rfl⟩ := List.getElem?_eq_some_iff.mp h
  exact hl.idxOf_getElem i hi

theorem idxOf_ne (hx : x ∈ l) (hne : x ≠ y) : l.idxOf x ≠ l.idxOf y := by
  intro h
  exact hne ((List.idxOf_inj hx).mp h)

/-- The members behind the one that is erased move up. -/
theorem idxOf_erase (hc : c ∈ l) (hne : c ≠ y) :
    (l.erase c).idxOf y = if l.idxOf c < l.idxOf y then l.idxOf y - 1 else l.idxOf y := by
  induction l with
  | nil => cases hc
  | cons z l ih =>
      by_cases hz : z = c
      · subst hz
        rw [List.erase_cons_head, List.idxOf_cons_self, List.idxOf_cons_ne l hne,
          if_pos (Nat.succ_pos _), Nat.succ_sub_one]
      · have hcl : c ∈ l := (List.mem_cons.mp hc).resolve_left fun h => hz h.symm
        rw [List.erase_cons_tail (by simpa using hz), List.idxOf_cons_ne l hz]
        by_cases hy : z = y
        · subst hy
          rw [List.idxOf_cons_self, List.idxOf_cons_self, if_neg (Nat.not_lt_zero _)]
        · rw [List.idxOf_cons_ne _ hy, List.idxOf_cons_ne l hy, ih hcl]
          have hpos := idxOf_ne hcl hne
          split
          · rw [if_pos (by omega)]
            omega
          · rw [if_neg (by omega)]

/-! ## Waiting for a turn -/

/-- The turns until it is `y`'s when the turn goes to the front next and `a` members are ahead of `y`:
each may be the last to leave before `y`. -/
def laps : Nat → Nat
  | 0 => 1
  | a + 1 => (a + 1) + laps a

theorem laps_pos (a : Nat) : 0 < laps a := by
  induction a with
  | zero => exact Nat.one_pos
  | succ a ih => exact Nat.add_pos_left (Nat.succ_pos a) _

theorem laps_le (a : Nat) : laps a ≤ a * a + 1 := by
  induction a with
  | zero => exact Nat.le_refl 1
  | succ a ih =>
      unfold laps
      rw [Nat.succ_mul_succ]
      omega

/-- A bound on the turns until it is `y`'s, among at most `N` members. -/
def remaining (N : Nat) (l : List α) (c y : α) : Nat :=
  if c ∉ l then laps (l.idxOf y)
  else if l.idxOf c < l.idxOf y then (l.idxOf y - 1 - l.idxOf c) + laps (l.idxOf y - 1)
  else (N - 1 - l.idxOf c) + laps (l.idxOf y)

theorem remaining_pos (N : Nat) (l : List α) (c y : α) : 0 < remaining N l c y := by
  unfold remaining
  split
  · exact laps_pos _
  · split
    · exact Nat.add_pos_right _ (laps_pos _)
    · exact Nat.add_pos_right _ (laps_pos _)

theorem remaining_le (hy : y ∈ l) (hlen : l.length ≤ N) : remaining N l c y ≤ N * (N + 1) := by
  have hlt := List.idxOf_lt_length_of_mem hy
  obtain ⟨k, rfl⟩ : ∃ k, N = k + 1 := ⟨N - 1, by omega⟩
  have hsquare : l.idxOf y * l.idxOf y ≤ k * k := Nat.mul_le_mul (by omega) (by omega)
  have hlaps := laps_le (l.idxOf y)
  have hbound : (k + 1) * (k + 1 + 1) = k * k + 3 * k + 2 := by ring
  rw [hbound]
  unfold remaining
  split
  · omega
  · split
    · obtain ⟨a, ha⟩ : ∃ a, l.idxOf y = a + 1 := ⟨l.idxOf y - 1, by omega⟩
      have hprev : laps (a + 1) = (a + 1) + laps a := rfl
      rw [ha] at hlaps hsquare ⊢
      rw [Nat.add_sub_cancel]
      omega
    · omega

/-- After the front has had its turn. -/
theorem remaining_front (hl : l.Nodup) (h : l[0]? = some x) (hne : x ≠ y) :
    remaining N l x y + 1 = laps (l.idxOf y) := by
  have hx : x ∈ l := List.mem_of_getElem? h
  have hzero := idxOf_of_getElem? hl h
  have hpos := idxOf_ne hx hne
  obtain ⟨a, ha⟩ : ∃ a, l.idxOf y = a + 1 := ⟨l.idxOf y - 1, by omega⟩
  unfold remaining
  rw [if_neg (not_not.mpr hx), hzero, ha, if_pos (Nat.succ_pos a)]
  show a + 1 - 1 - 0 + laps (a + 1 - 1) + 1 = (a + 1) + laps a
  rw [Nat.add_sub_cancel]
  omega

/-- The turn goes on to the next member, or round to the front. -/
theorem remaining_advance (hl : l.Nodup) (hy : y ∈ l) (hcy : c ≠ y) (hxy : x ≠ y)
    (hlen : l.length ≤ N) (h : l[start l c % l.length]? = some x) :
    remaining N l x y + 1 ≤ remaining N l c y := by
  have hx : x ∈ l := List.mem_of_getElem? h
  have hypos := List.idxOf_lt_length_of_mem hy
  by_cases hc : c ∈ l
  · have hcpos := List.idxOf_lt_length_of_mem hc
    have hcne := idxOf_ne hc hcy
    have hxne := idxOf_ne hx hxy
    unfold start at h
    rw [if_pos hc] at h
    by_cases hlast : l.idxOf c + 1 < l.length
    · rw [Nat.mod_eq_of_lt hlast] at h
      have hnext := idxOf_of_getElem? hl h
      unfold remaining
      rw [if_neg (not_not.mpr hx), if_neg (not_not.mpr hc), hnext]
      split
      · rw [if_pos (by omega)]
        omega
      · rw [if_neg (by omega)]
        omega
    · -- The cursor is at the end, so that `y` is in front of it.
      obtain hend : l.idxOf c + 1 = l.length := by omega
      rw [hend, Nat.mod_self] at h
      have hfront := remaining_front (N := N) hl h hxy
      have hc' : remaining N l c y = (N - 1 - l.idxOf c) + laps (l.idxOf y) := by
        unfold remaining
        rw [if_neg (not_not.mpr hc), if_neg (by omega)]
      rw [hfront, hc']
      exact Nat.le_add_left _ _
  · unfold start at h
    rw [if_neg hc, Nat.zero_mod] at h
    have hfront := remaining_front (N := N) hl h hxy
    have hc' : remaining N l c y = laps (l.idxOf y) := by
      unfold remaining
      rw [if_pos hc]
    rw [hfront, hc']

/-- The member under the cursor leaves, and the front has its turn. -/
theorem remaining_leave {m : List α} (hl : (l.erase c ++ m).Nodup) (hc : c ∈ l) (hy : y ∈ l)
    (hcy : c ≠ y) (hxy : x ≠ y) (h : (l.erase c ++ m)[0]? = some x) :
    remaining N (l.erase c ++ m) x y + 1 ≤ remaining N l c y := by
  have hy' : y ∈ l.erase c := (List.mem_erase_of_ne fun h => hcy h.symm).mpr hy
  have hfront := remaining_front (N := N) hl h hxy
  rw [hfront, List.idxOf_append, if_pos hy', idxOf_erase hc hcy]
  unfold remaining
  rw [if_neg (not_not.mpr hc)]
  split
  · exact Nat.le_add_left _ _
  · exact Nat.le_add_left _ _

/-- A step that is not `y`'s turn brings it nearer by the turns it takes. -/
theorem Turn.remaining (h : Turn l c xs l' c') (hl : l.Nodup) (hl' : l'.Nodup) (hy : y ∈ l)
    (hcy : c ≠ y) (hlen : l.length ≤ N) (hxs : y ∉ xs) :
    c' ≠ y ∧ Ring.remaining N l' c' y + xs.length ≤ Ring.remaining N l c y := by
  cases h with
  | extend m hm =>
      have hpos : (l ++ m).idxOf y = l.idxOf y := by
        rw [List.idxOf_append, if_pos hy]
      refine ⟨hcy, Nat.le_of_eq ?_⟩
      unfold Ring.remaining
      rw [hpos]
      by_cases hc : c ∈ l
      · have hcpos : (l ++ m).idxOf c = l.idxOf c := by
          rw [List.idxOf_append, if_pos hc]
        rw [if_neg (not_not.mpr hc), if_neg (not_not.mpr (List.mem_append_left m hc)), hcpos]
        rfl
      · have hcm := hm.resolve_left hc
        rw [if_pos hc, if_pos (by simp [hc, hcm])]
        rfl
  | advance _ h =>
      have hxy : c' ≠ y := fun e => hxs (by simp [e])
      exact ⟨hxy, remaining_advance hl hy hcy hxy hlen h⟩
  | leave m _ hc hm h =>
      have hxy : c' ≠ y := fun e => hxs (by simp [e])
      exact ⟨hxy, remaining_leave hl' hc hy hcy hxy h⟩

/-! ## Turns in order -/

/-- While nobody comes or goes the turns of the list follow one another from the cursor on. -/
structure Ordered (l : List α) (c : α) (xs : List α) (c' : α) : Prop where
  turns : ∀ k < xs.length, xs[k]? = l[(start l c + k) % l.length]?
  cursor : start l c' % l.length = (start l c + xs.length) % l.length

theorem Ordered.nil : Ordered l c [] c where
  turns k hk := absurd hk (Nat.not_lt_zero k)
  cursor := rfl

theorem Ordered.turn {ys : List α} (h : Ordered l c xs c') (hl : l.Nodup) (ht : Turn l c' ys l' x)
    (hl' : l' = l) : Ordered l c (xs ++ ys) x := by
  cases ht with
  | extend m _ =>
      rw [List.append_nil]
      exact h
  | leave m _ hc hm _ =>
      exact absurd hc (hl' ▸ hm)
  | advance _ hx =>
      have hpos := idxOf_of_getElem? hl hx
      have hmem : x ∈ l := List.mem_of_getElem? hx
      refine ⟨fun k hk => ?_, ?_⟩
      · rw [List.length_append, List.length_singleton] at hk
        by_cases hlast : k < xs.length
        · rw [List.getElem?_append_left hlast]
          exact h.turns k hlast
        · obtain rfl : k = xs.length := by omega
          rw [List.getElem?_concat_length, ← h.cursor, hx]
      · have hx' : start l x = start l c' % l.length + 1 := by
          unfold start
          rw [if_pos hmem]
          exact congrArg (· + 1) hpos
        rw [hx', h.cursor, List.length_append, List.length_singleton, Nat.mod_add_mod, Nat.add_assoc]

/-- One turn for every member. -/
theorem Ordered.rotate (h : Ordered l c xs c') (hlen : xs.length = l.length) :
    xs = l.rotate (start l c) := by
  apply List.ext_getElem?
  intro k
  by_cases hk : k < xs.length
  · rw [h.turns k hk, List.getElem?_rotate (hlen ▸ hk), Nat.add_comm]
  · rw [List.getElem?_eq_none (by omega), List.getElem?_eq_none (by rw [List.length_rotate]; omega)]

end Ring
