import Mathlib.Data.List.Chain
import Mathlib.Logic.Function.Basic

/-!
# Circular doubly linked lists

Every address has a next and a previous one. A list is a ring through its head: the head, the nodes
and the head again follow each other.

* `Links.insert_ring`, `Links.unlink_ring`: what the four stores of an insertion and of a removal do
  to the ring they are made in.
* `Links.Ring.walk_next`, `Links.Ring.walk_prev`: the nodes that are met on a walk round the ring.
-/

variable {α : Type} {R S : α → α → Prop}

/-- A chain is one in any relation that holds of the neighbours. -/
theorem List.IsChain.imp_of_neighbours {c : List α} (h : c.IsChain R)
    (hRS : ∀ x ∈ c.dropLast, ∀ y ∈ c.tail, R x y → S x y) : c.IsChain S := by
  induction c with
  | nil => exact .nil
  | cons a c ih =>
      cases c with
      | nil => exact .singleton a
      | cons b c =>
          obtain ⟨hab, hrest⟩ := List.isChain_cons_cons.mp h
          refine List.isChain_cons_cons.mpr ⟨?_, ih hrest fun x hx y hy => ?_⟩
          · exact hRS a (by simp) b (by simp) hab
          · refine hRS x ?_ y (List.mem_cons_of_mem _ hy)
            rw [List.dropLast_cons_of_ne_nil (List.cons_ne_nil b c)]
            exact List.mem_cons_of_mem _ hx

/-- The neighbours of each address. -/
structure Links (α : Type) where
  next : α → α
  prev : α → α

namespace Links

/-- The head and some nodes end with a last one. -/
theorem exists_last (h : α) (xs : List α) : ∃ A a, h :: xs = A ++ [a] :=
  ⟨_, _, (List.dropLast_append_getLast (List.cons_ne_nil h xs)).symm⟩

theorem exists_first (h : α) (ys : List α) : ∃ b B, ys ++ [h] = b :: B := by
  cases ys with
  | nil => exact ⟨h, [], rfl⟩
  | cons y ys => exact ⟨y, ys ++ [h], rfl⟩

/-- The nodes of a ring into which `n` is put. -/
theorem perm_of_split {h a b n : α} {A B ns ns' : List α} (hsplit : h :: ns ++ [h] = A ++ a :: b :: B)
    (hsplit' : h :: ns' ++ [h] = A ++ a :: n :: b :: B) : ns'.Perm (n :: ns) := by
  have hends (l : List α) : (h :: l ++ [h]).Perm (h :: h :: l) :=
    List.perm_append_singleton h (h :: l)
  have hmiddle : (A ++ a :: n :: b :: B).Perm (n :: (A ++ a :: b :: B)) := by
    have hperm : ((A ++ [a]) ++ n :: (b :: B)).Perm (n :: ((A ++ [a]) ++ b :: B)) :=
      List.perm_middle
    simpa using hperm
  rw [← hsplit, ← hsplit'] at hmiddle
  -- The head is taken off twice.
  have hcons : (n :: (h :: h :: ns)).Perm (h :: h :: n :: ns) :=
    (List.Perm.swap h n (h :: ns)).trans ((List.Perm.swap h n ns).cons h)
  have hall : (h :: h :: ns').Perm (h :: h :: n :: ns) :=
    (hends ns').symm.trans (hmiddle.trans (((hends ns).cons n).trans hcons))
  exact (List.perm_cons h).mp ((List.perm_cons h).mp hall)

section Sequences

variable [DecidableEq α]

/-- `n` is put before `pos`. -/
def insertBefore (pos n : α) : List α → List α
  | [] => []
  | m :: ns => if m = pos then n :: m :: ns else m :: insertBefore pos n ns

/-- `n` is put after `pos`. -/
def insertAfter (pos n : α) : List α → List α
  | [] => []
  | m :: ns => if m = pos then m :: n :: ns else m :: insertAfter pos n ns

variable {pos n a : α} {xs ys ns : List α}

theorem insertBefore_append (h : pos ∉ xs) :
    insertBefore pos n (xs ++ pos :: ys) = xs ++ n :: pos :: ys := by
  induction xs with
  | nil => simp [insertBefore]
  | cons x xs ih =>
      obtain ⟨hne, hrest⟩ := not_or.mp (mt List.mem_cons.mpr h)
      have hne : x ≠ pos := Ne.symm hne
      rw [List.cons_append, insertBefore, if_neg hne, ih hrest, List.cons_append]

theorem insertAfter_append (h : pos ∉ xs) :
    insertAfter pos n (xs ++ pos :: ys) = xs ++ pos :: n :: ys := by
  induction xs with
  | nil => simp [insertAfter]
  | cons x xs ih =>
      obtain ⟨hne, hrest⟩ := not_or.mp (mt List.mem_cons.mpr h)
      have hne : x ≠ pos := Ne.symm hne
      rw [List.cons_append, insertAfter, if_neg hne, ih hrest, List.cons_append]

theorem insertBefore_of_not_mem (h : pos ∉ ns) : insertBefore pos n ns = ns := by
  induction ns with
  | nil => rfl
  | cons m ns ih =>
      obtain ⟨hne, hrest⟩ := not_or.mp (mt List.mem_cons.mpr h)
      rw [insertBefore, if_neg (Ne.symm hne), ih hrest]

theorem insertAfter_of_not_mem (h : pos ∉ ns) : insertAfter pos n ns = ns := by
  induction ns with
  | nil => rfl
  | cons m ns ih =>
      obtain ⟨hne, hrest⟩ := not_or.mp (mt List.mem_cons.mpr h)
      rw [insertAfter, if_neg (Ne.symm hne), ih hrest]

/-- The nodes of the list with head `h` after an insertion before `pos`, a node or the head. -/
def nodesBefore (pos n h : α) (ns : List α) : List α :=
  if h = pos then ns ++ [n] else insertBefore pos n ns

/-- The nodes of the list with head `h` after an insertion after `pos`. -/
def nodesAfter (pos n h : α) (ns : List α) : List α :=
  if h = pos then n :: ns else insertAfter pos n ns

/-- Where in the ring an insertion before `pos` is made. -/
theorem nodesBefore_split {h : α} (n : α) (hnodup : ns.Nodup) (hpos : pos = h ∨ pos ∈ ns)
    (hh : h ∉ ns) : ∃ A a B, h :: ns ++ [h] = A ++ a :: pos :: B ∧
      h :: nodesBefore pos n h ns ++ [h] = A ++ a :: n :: pos :: B := by
  rcases hpos with rfl | hpos
  · obtain ⟨A, a, hA⟩ := exists_last pos ns
    refine ⟨A, a, [], ?_, ?_⟩
    · rw [hA]
      simp
    · unfold nodesBefore
      rw [if_pos rfl, ← List.cons_append, hA]
      simp
  · obtain ⟨xs, ys, rfl⟩ := List.append_of_mem hpos
    have hxs : pos ∉ xs := fun hmem =>
      (List.nodup_append.mp hnodup).2.2 pos hmem pos (List.mem_cons_self ..) rfl
    have hne : h ≠ pos := fun heq => hh (heq ▸ hpos)
    obtain ⟨A, a, hA⟩ := exists_last h xs
    refine ⟨A, a, ys ++ [h], ?_, ?_⟩
    · rw [← List.cons_append, hA]
      simp
    · unfold nodesBefore
      rw [if_neg hne, insertBefore_append hxs, ← List.cons_append, hA]
      simp

/-- Where in the ring an insertion after `pos` is made. -/
theorem nodesAfter_split {h : α} (n : α) (hnodup : ns.Nodup) (hpos : pos = h ∨ pos ∈ ns)
    (hh : h ∉ ns) : ∃ A b B, h :: ns ++ [h] = A ++ pos :: b :: B ∧
      h :: nodesAfter pos n h ns ++ [h] = A ++ pos :: n :: b :: B := by
  rcases hpos with rfl | hpos
  · obtain ⟨b, B, hB⟩ := exists_first pos ns
    refine ⟨[], b, B, ?_, ?_⟩
    · rw [List.cons_append, hB]
      rfl
    · unfold nodesAfter
      rw [if_pos rfl, List.cons_append, List.cons_append, hB]
      rfl
  · obtain ⟨xs, ys, rfl⟩ := List.append_of_mem hpos
    have hxs : pos ∉ xs := fun hmem =>
      (List.nodup_append.mp hnodup).2.2 pos hmem pos (List.mem_cons_self ..) rfl
    have hne : h ≠ pos := fun heq => hh (heq ▸ hpos)
    obtain ⟨b, B, hB⟩ := exists_first h ys
    refine ⟨h :: xs, b, B, ?_, ?_⟩
    · rw [List.cons_append, List.append_assoc, List.cons_append, hB]
      rfl
    · unfold nodesAfter
      rw [if_neg hne, insertAfter_append hxs, List.cons_append, List.append_assoc,
        List.cons_append, List.cons_append, hB]
      rfl

/-- Where in the ring a removal is made. -/
theorem erase_split {h : α} (hnodup : ns.Nodup) (hn : n ∈ ns) :
    ∃ A a b B, h :: ns ++ [h] = A ++ a :: n :: b :: B ∧
      h :: ns.erase n ++ [h] = A ++ a :: b :: B := by
  obtain ⟨xs, ys, rfl⟩ := List.append_of_mem hn
  have hxs : n ∉ xs := fun hmem =>
    (List.nodup_append.mp hnodup).2.2 n hmem n (List.mem_cons_self ..) rfl
  obtain ⟨A, a, hA⟩ := exists_last h xs
  obtain ⟨b, B, hB⟩ := exists_first h ys
  refine ⟨A, a, b, B, ?_, ?_⟩
  · rw [← List.cons_append, hA, List.append_assoc, List.cons_append, hB]
    simp
  · rw [List.erase_append_right _ hxs, List.erase_cons_head, ← List.cons_append, hA,
      List.append_assoc, hB]
    simp

end Sequences

/-! ## Chains of links -/

/-- `b` comes after `a`, and `a` before `b`. -/
def Follows (l : Links α) (a b : α) : Prop := l.next a = b ∧ l.prev b = a

/-- The ring of the list with head `h` and nodes `ns`. -/
def Ring (l : Links α) (h : α) (ns : List α) : Prop := (h :: ns ++ [h]).IsChain l.Follows

variable {l l' : Links α} {h a b n z : α} {A B ns : List α}

/-- A chain does not change with the links of other addresses. -/
theorem chain_congr {c : List α} (hc : c.IsChain l.Follows)
    (hsame : ∀ x ∈ c, l'.next x = l.next x ∧ l'.prev x = l.prev x) : c.IsChain l'.Follows := by
  apply hc.imp_of_neighbours
  intro x hx y hy ⟨hnext, hprev⟩
  exact ⟨(hsame x (List.dropLast_subset c hx)).1.trans hnext,
    (hsame y (List.mem_of_mem_tail hy)).2.trans hprev⟩

/-- Neighbours in a chain. -/
theorem follows_of_chain (hc : (A ++ a :: b :: B).IsChain l.Follows) : l.Follows a b :=
  (List.isChain_append_cons_cons.mp hc).2.1

/-- An address that is met once as the end of a step and once as its beginning. -/
theorem not_mem_of_nodup (hfirst : (A ++ a :: b :: B).dropLast.Nodup)
    (hlast : (A ++ a :: b :: B).tail.Nodup) :
    a ∉ A ∧ a ∉ (b :: B).dropLast ∧ b ∉ (A ++ [a]).tail ∧ b ∉ B := by
  have hdrop : (A ++ a :: b :: B).dropLast = A ++ a :: (b :: B).dropLast := by simp
  have htail : (A ++ a :: b :: B).tail = (A ++ [a]).tail ++ b :: B := by
    cases A with
    | nil => rfl
    | cons x A => simp
  rw [hdrop] at hfirst
  rw [htail] at hlast
  have hA := List.nodup_append.mp hfirst
  have hB := List.nodup_append.mp hlast
  refine ⟨fun hmem => hA.2.2 a hmem a (List.mem_cons_self ..) rfl, (List.nodup_cons.mp hA.2.1).1,
    fun hmem => hB.2.2 b hmem b (List.mem_cons_self ..) rfl, (List.nodup_cons.mp hB.2.1).1⟩

theorem ring_nodup (h : α) (ns : List α) (hnodup : ns.Nodup) (hh : h ∉ ns) :
    (h :: ns ++ [h]).dropLast.Nodup ∧ (h :: ns ++ [h]).tail.Nodup := by
  constructor
  · rw [List.dropLast_concat]
    exact List.nodup_cons.mpr ⟨hh, hnodup⟩
  · rw [List.cons_append, List.tail_cons]
    exact List.nodup_append.mpr ⟨hnodup, by simp, fun x hx y hy heq =>
      hh (List.mem_singleton.mp hy ▸ heq ▸ hx)⟩

/-- A ring settles the links of its addresses. -/
theorem Ring.same (hr : l.Ring h ns) (hr' : l'.Ring h ns) {x : α} (hx : x ∈ h :: ns) :
    l'.next x = l.next x ∧ l'.prev x = l.prev x := by
  unfold Ring at hr hr'
  constructor
  · -- After `x` there is one more address of the ring.
    obtain ⟨A, B, hsplit⟩ := List.append_of_mem hx
    obtain ⟨b, B', hB⟩ := exists_first h B
    have hring : h :: ns ++ [h] = A ++ x :: b :: B' := by
      rw [hsplit, List.append_assoc, List.cons_append, hB]
    rw [hring] at hr hr'
    rw [(follows_of_chain hr).1, (follows_of_chain hr').1]
  · have hx' : x ∈ ns ++ [h] := by
      rcases List.mem_cons.mp hx with rfl | hx
      · simp
      · exact List.mem_append_left _ hx
    obtain ⟨A, B, hsplit⟩ := List.append_of_mem hx'
    obtain ⟨A', a, hA⟩ := exists_last h A
    have hring : h :: ns ++ [h] = A' ++ a :: x :: B := by
      rw [List.cons_append, hsplit, ← List.cons_append, hA]
      simp
    rw [hring] at hr hr'
    rw [(follows_of_chain hr).2, (follows_of_chain hr').2]

section Update

variable [DecidableEq α]

/-- The stores of an insertion of `n` between `a` and `b`. -/
def insert (l : Links α) (a b n : α) : Links α where
  next := Function.update (Function.update l.next n b) a n
  prev := Function.update (Function.update l.prev n a) b n

/-- The stores of a removal of `n`; its own links become `z`. -/
def unlink (l : Links α) (n z : α) : Links α where
  next := Function.update (Function.update l.next (l.prev n) (l.next n)) n z
  prev := Function.update (Function.update l.prev (l.next n) (l.prev n)) n z

/-- The four stores put the node into the chain. -/
theorem insert_ring (hc : (A ++ a :: b :: B).IsChain l.Follows)
    (hfirst : (A ++ a :: b :: B).dropLast.Nodup) (hlast : (A ++ a :: b :: B).tail.Nodup)
    (hn : n ∉ A ++ a :: b :: B) : (A ++ a :: n :: b :: B).IsChain (l.insert a b n).Follows := by
  obtain ⟨haA, haB, hbA, hbB⟩ := not_mem_of_nodup hfirst hlast
  obtain ⟨hbefore, -, hafter⟩ := List.isChain_append_cons_cons.mp hc
  simp only [List.mem_append, List.mem_cons, not_or] at hn
  obtain ⟨hnA, hna, hnb, hnB⟩ := hn
  -- No other step leaves `a` or arrives at `b`.
  have hkeep : ∀ x y, x ≠ a → x ≠ n → y ≠ b → y ≠ n → l.Follows x y →
      (l.insert a b n).Follows x y := by
    intro x y hxa hxn hyb hyn ⟨hnext, hprev⟩
    constructor
    · exact ((Function.update_of_ne hxa _ _).trans (Function.update_of_ne hxn _ _)).trans hnext
    · exact ((Function.update_of_ne hyb _ _).trans (Function.update_of_ne hyn _ _)).trans hprev
  refine List.isChain_append_cons_cons.mpr ⟨?_, ?_, List.isChain_cons_cons.mpr ⟨?_, ?_⟩⟩
  · apply hbefore.imp_of_neighbours
    intro x hx y hy
    rw [List.dropLast_concat] at hx
    have hy' : y ∈ A ++ [a] := List.mem_of_mem_tail hy
    simp only [List.mem_append, List.mem_singleton] at hy'
    exact hkeep x y (fun h => haA (h ▸ hx)) (fun h => hnA (h ▸ hx)) (fun h => hbA (h ▸ hy))
      (fun h => hy'.elim (fun hm => hnA (h ▸ hm)) fun hm => hna (h.symm.trans hm))
  · constructor
    · exact Function.update_self _ _ _
    · exact (Function.update_of_ne hnb _ _).trans (Function.update_self _ _ _)
  · constructor
    · exact (Function.update_of_ne hna _ _).trans (Function.update_self _ _ _)
    · exact Function.update_self _ _ _
  · apply hafter.imp_of_neighbours
    intro x hx y hy
    have hx' : x ∈ b :: B := List.dropLast_subset _ hx
    exact hkeep x y (fun h => haB (h ▸ hx))
      (fun h => (List.mem_cons.mp hx').elim (fun hm => hnb (h.symm.trans hm)) fun hm => hnB (h ▸ hm))
      (fun h => hbB (h ▸ hy)) (fun h => hnB (h ▸ hy))

/-- The four stores take the node out of the chain. -/
theorem unlink_ring (hc : (A ++ a :: n :: b :: B).IsChain l.Follows)
    (hfirst : (A ++ a :: n :: b :: B).dropLast.Nodup)
    (hlast : (A ++ a :: n :: b :: B).tail.Nodup) :
    (A ++ a :: b :: B).IsChain (l.unlink n z).Follows := by
  have hsplit : A ++ a :: n :: b :: B = (A ++ [a]) ++ n :: b :: B := by simp
  obtain ⟨haA, haB, hnA, hnB⟩ := not_mem_of_nodup hfirst hlast
  rw [hsplit] at hfirst hlast
  obtain ⟨hnA', -, hbA, hbB⟩ := not_mem_of_nodup hfirst hlast
  have hbA' : b ∉ (A ++ [a]).tail := fun hmem => hbA <| by
    rw [List.tail_append_of_ne_nil (by simp)]
    exact List.mem_append_left _ hmem
  obtain ⟨hbefore, hprev, hrest⟩ := List.isChain_append_cons_cons.mp hc
  obtain ⟨hnext, hafter⟩ := List.isChain_cons_cons.mp hrest
  have hprev : l.prev n = a := hprev.2
  have hnext : l.next n = b := hnext.1
  have hna : a ≠ n := fun heq => hnA' (heq ▸ by simp)
  have hnb : b ≠ n := fun heq => hnB (heq ▸ List.mem_cons_self ..)
  have hkeep : ∀ x y, x ≠ a → x ≠ n → y ≠ b → y ≠ n → l.Follows x y →
      (l.unlink n z).Follows x y := by
    intro x y hxa hxn hyb hyn ⟨hxy, hyx⟩
    unfold unlink
    rw [hprev, hnext]
    constructor
    · exact ((Function.update_of_ne hxn _ _).trans (Function.update_of_ne hxa _ _)).trans hxy
    · exact ((Function.update_of_ne hyn _ _).trans (Function.update_of_ne hyb _ _)).trans hyx
  refine List.isChain_append_cons_cons.mpr ⟨?_, ?_, ?_⟩
  · apply hbefore.imp_of_neighbours
    intro x hx y hy
    rw [List.dropLast_concat] at hx
    exact hkeep x y (fun h => haA (h ▸ hx)) (fun h => hnA' (h ▸ List.mem_append_left _ hx))
      (fun h => hbA' (h ▸ hy)) (fun h => hnA (h ▸ hy))
  · unfold unlink
    rw [hprev, hnext]
    constructor
    · exact (Function.update_of_ne hna _ _).trans (Function.update_self _ _ _)
    · exact (Function.update_of_ne hnb _ _).trans (Function.update_self _ _ _)
  · apply hafter.imp_of_neighbours
    intro x hx y hy
    refine hkeep x y (fun h => haB ?_) (fun h => hnB (h ▸ List.dropLast_subset _ hx))
      (fun h => hbB (h ▸ hy)) (fun h => hnB (h ▸ List.mem_cons_of_mem _ hy))
    rw [List.dropLast_cons_of_ne_nil (List.cons_ne_nil b B)]
    exact List.mem_cons_of_mem _ (h ▸ hx)

/-- The ring that an insertion is made in. -/
theorem Ring.insert {ns' : List α} (hr : l.Ring h ns) (hnodup : ns.Nodup) (hh : h ∉ ns)
    (hsplit : h :: ns ++ [h] = A ++ a :: b :: B)
    (hsplit' : h :: ns' ++ [h] = A ++ a :: n :: b :: B) (hn : n ≠ h ∧ n ∉ ns) :
    (l.insert a b n).Ring h ns' := by
  obtain ⟨hfirst, hlast⟩ := ring_nodup h ns hnodup hh
  have hnot : n ∉ h :: ns ++ [h] := by simp [hn.1, hn.2]
  unfold Ring at hr ⊢
  rw [hsplit] at hr hfirst hlast hnot
  rw [hsplit']
  exact insert_ring hr hfirst hlast hnot

/-- The ring that a removal is made in. -/
theorem Ring.unlink {ns' : List α} (hr : l.Ring h ns) (hnodup : ns.Nodup) (hh : h ∉ ns)
    (hsplit : h :: ns ++ [h] = A ++ a :: n :: b :: B)
    (hsplit' : h :: ns' ++ [h] = A ++ a :: b :: B) : (l.unlink n z).Ring h ns' := by
  obtain ⟨hfirst, hlast⟩ := ring_nodup h ns hnodup hh
  unfold Ring at hr ⊢
  rw [hsplit] at hr hfirst hlast
  rw [hsplit']
  exact unlink_ring hr hfirst hlast

end Update

/-! ## Walks round a ring -/

section Walk

variable [DecidableEq α]

/-- The addresses from `node` on until `h` is met, at most `fuel` steps. -/
def walk (step : α → α) (h : α) : Nat → α → Option (List α)
  | 0, _ => none
  | fuel + 1, node => if node = h then some [] else (walk step h fuel (step node)).map (node :: ·)

theorem walk_of_chain {step : α → α} {h node : α} {ns : List α}
    (hc : (node :: ns).IsChain fun a b => step a = b) (hlast : (node :: ns).getLast? = some h)
    (hh : h ∉ (node :: ns).dropLast) {fuel : Nat} (hfuel : ns.length < fuel) :
    walk step h fuel node = some (node :: ns).dropLast := by
  induction ns generalizing node fuel with
  | nil =>
      obtain ⟨fuel, rfl⟩ := Nat.exists_eq_succ_of_ne_zero (Nat.ne_of_gt hfuel)
      have heq : node = h := by simpa using hlast
      rw [walk, if_pos heq]
      rfl
  | cons m ns ih =>
      obtain ⟨fuel, rfl⟩ := Nat.exists_eq_succ_of_ne_zero (Nat.ne_of_gt (Nat.zero_lt_of_lt hfuel))
      rw [List.dropLast_cons_of_ne_nil (List.cons_ne_nil m ns)] at hh ⊢
      obtain ⟨hne, hrest⟩ := not_or.mp (mt List.mem_cons.mpr hh)
      obtain ⟨hstep, hchain⟩ := List.isChain_cons_cons.mp hc
      rw [walk, if_neg (Ne.symm hne), hstep]
      rw [ih hchain (by simpa using hlast) hrest (by simpa using hfuel)]
      rfl

/-- Forwards from the head the nodes are met in order. -/
theorem Ring.walk_next (hr : l.Ring h ns) (hh : h ∉ ns) {fuel : Nat} (hfuel : ns.length < fuel) :
    walk l.next h fuel (l.next h) = some ns := by
  have hc : (h :: (ns ++ [h])).IsChain fun a b => l.next a = b := hr.imp fun _ _ hab => hab.1
  cases hn : ns ++ [h] with
  | nil => simp at hn
  | cons n rest =>
      rw [hn] at hc
      obtain ⟨hnext, hchain⟩ := List.isChain_cons_cons.mp hc
      have hdrop : (n :: rest).dropLast = ns := by rw [← hn, List.dropLast_concat]
      have hlen : (n :: rest).length = ns.length + 1 := by rw [← hn]; simp
      rw [hnext, walk_of_chain hchain (by rw [← hn]; simp) (hdrop ▸ hh)
        (by simp at hlen; omega), hdrop]

/-- Backwards from the head they are met in the opposite order. -/
theorem Ring.walk_prev (hr : l.Ring h ns) (hh : h ∉ ns) {fuel : Nat} (hfuel : ns.length < fuel) :
    walk l.prev h fuel (l.prev h) = some ns.reverse := by
  -- The ring of the links turned round is the reversed one.
  have hback : (Links.mk l.prev l.next).Ring h ns.reverse := by
    unfold Ring
    have hrev : h :: ns.reverse ++ [h] = (h :: ns ++ [h]).reverse := by simp
    rw [hrev, List.isChain_reverse]
    exact hr.imp fun _ _ hab => ⟨hab.2, hab.1⟩
  exact hback.walk_next (by simpa using hh) (by simpa using hfuel)

end Walk

end Links
