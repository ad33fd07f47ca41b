import Neox.Lib.Checked
import Neox.Lib.Links

/-!
# Intrusive lists

`lib/list.c`: heads and nodes are addresses of a `struct list_node`, and 0 is `NULL`. A node that is in
no list has two `NULL` links.

* `LinkedAs.step`: each call does to the links what it does to the sequences of nodes.
* `lists_refine_sequences`: so does any run of calls that meet their `ASSERT`s.
-/

namespace Neox

open Checked

/-- Why a call does not return: an `ASSERT` fails, or `NULL` is dereferenced. -/
inductive ListStop
  | assertion
  | null
  deriving DecidableEq, Repr

/-- `prev` and `next` of the `struct list_node` at each address. -/
abbrev ListLinks := Links Nat

/-! ## `list.c` -/

/-- `ASSERT(condition)`. -/
def listAssert (condition : Bool) : Except ListStop Unit :=
  if condition then .ok () else .error .assertion

/-- `node->prev`. -/
def loadPrev (m : ListLinks) (node : Nat) : Except ListStop Nat :=
  if node = 0 then .error .null else .ok (m.prev node)

/-- `node->next`. -/
def loadNext (m : ListLinks) (node : Nat) : Except ListStop Nat :=
  if node = 0 then .error .null else .ok (m.next node)

/-- `node->prev = value`. -/
def storePrev (m : ListLinks) (node value : Nat) : Except ListStop ListLinks :=
  if node = 0 then .error .null else .ok { m with prev := Function.update m.prev node value }

/-- `node->next = value`. -/
def storeNext (m : ListLinks) (node value : Nat) : Except ListStop ListLinks :=
  if node = 0 then .error .null else .ok { m with next := Function.update m.next node value }

/-- `list_node_init`. -/
def listNodeInit (m : ListLinks) (node : Nat) : Except ListStop ListLinks := do
  listAssert (node ≠ 0)
  let m ← storePrev m node 0
  storeNext m node 0

/-- `list_init`; the head is the first member of `struct list`. -/
def listInit (m : ListLinks) (list : Nat) : Except ListStop ListLinks := do
  listAssert (list ≠ 0)
  let m ← storeNext m list list
  storePrev m list list

/-- `list_insert_before`. -/
def listInsertBefore (m : ListLinks) (pos node : Nat) : Except ListStop ListLinks := do
  listAssert (pos ≠ 0)
  listAssert (node ≠ 0)
  listAssert ((← loadPrev m node) = 0)
  listAssert ((← loadNext m node) = 0)
  let m ← storePrev m node (← loadPrev m pos)
  let m ← storeNext m node pos
  let m ← storeNext m (← loadPrev m pos) node
  storePrev m pos node

/-- `list_insert_after`. -/
def listInsertAfter (m : ListLinks) (pos node : Nat) : Except ListStop ListLinks := do
  listAssert (pos ≠ 0)
  listAssert (node ≠ 0)
  listAssert ((← loadPrev m node) = 0)
  listAssert ((← loadNext m node) = 0)
  let m ← storePrev m node pos
  let m ← storeNext m node (← loadNext m pos)
  let m ← storePrev m (← loadNext m pos) node
  storeNext m pos node

/-- `list_push_front`. -/
def listPushFront (m : ListLinks) (list node : Nat) : Except ListStop ListLinks := do
  listAssert (list ≠ 0)
  listAssert (node ≠ 0)
  listInsertAfter m list node

/-- `list_push_back`. -/
def listPushBack (m : ListLinks) (list node : Nat) : Except ListStop ListLinks := do
  listAssert (list ≠ 0)
  listAssert (node ≠ 0)
  listInsertBefore m list node

/-- `list_remove`. -/
def listRemove (m : ListLinks) (node : Nat) : Except ListStop ListLinks := do
  listAssert (node ≠ 0)
  listAssert ((← loadPrev m node) ≠ 0)
  listAssert ((← loadNext m node) ≠ 0)
  let m ← storeNext m (← loadPrev m node) (← loadNext m node)
  let m ← storePrev m (← loadNext m node) (← loadPrev m node)
  let m ← storePrev m node 0
  storeNext m node 0

/-- A call. -/
inductive ListOp
  | listInit (list : Nat)
  | listNodeInit (node : Nat)
  | listPushFront (list node : Nat)
  | listPushBack (list node : Nat)
  | listInsertBefore (pos node : Nat)
  | listInsertAfter (pos node : Nat)
  | listRemove (node : Nat)
  deriving DecidableEq, Repr

/-- One call. -/
def listStep (m : ListLinks) : ListOp → Except ListStop ListLinks
  | .listInit list => listInit m list
  | .listNodeInit node => listNodeInit m node
  | .listPushFront list node => listPushFront m list node
  | .listPushBack list node => listPushBack m list node
  | .listInsertBefore pos node => listInsertBefore m pos node
  | .listInsertAfter pos node => listInsertAfter m pos node
  | .listRemove node => listRemove m node

/-- A run of calls. -/
def listRun (m : ListLinks) (ops : List ListOp) : Except ListStop ListLinks :=
  ops.foldlM listStep m

/-! ## Sequences of nodes -/

/-- The nodes of the list at each head, and which addresses are of initialised nodes. -/
structure Lists where
  heads : Nat → Option (List Nat)
  nodes : Nat → Prop

namespace Lists

/-- The node is in some list. -/
def Linked (s : Lists) (node : Nat) : Prop := ∃ h ns, s.heads h = some ns ∧ node ∈ ns

/-- The node is initialised and in no list. -/
def Unlinked (s : Lists) (node : Nat) : Prop := s.nodes node ∧ ¬ s.Linked node

/-- What may be initialised: an empty head, a node in no list, or memory that is neither. -/
def Free (s : Lists) (address : Nat) : Prop :=
  address ≠ 0 ∧ (∀ ns, s.heads address = some ns → ns = []) ∧ ¬ s.Linked address

/-- A head or a node in a list. -/
def Position (s : Lists) (pos : Nat) : Prop := s.heads pos ≠ none ∨ s.Linked pos

/-- What a call does to the sequences. -/
def apply (s : Lists) : ListOp → Lists
  | .listInit list =>
      { heads := Function.update s.heads list (some [])
        nodes := fun n => n ≠ list ∧ s.nodes n }
  | .listNodeInit node =>
      { heads := Function.update s.heads node none
        nodes := fun n => n = node ∨ s.nodes n }
  | .listPushFront list node =>
      { s with heads := Function.update s.heads list ((s.heads list).map (node :: ·)) }
  | .listPushBack list node =>
      { s with heads := Function.update s.heads list ((s.heads list).map (· ++ [node])) }
  | .listInsertBefore pos node =>
      { s with heads := fun h => (s.heads h).map (Links.nodesBefore pos node h) }
  | .listInsertAfter pos node =>
      { s with heads := fun h => (s.heads h).map (Links.nodesAfter pos node h) }
  | .listRemove node => { s with heads := fun h => (s.heads h).map (·.erase node) }

/-- What a call has to be given. -/
def Permitted (s : Lists) : ListOp → Prop
  | .listInit list => s.Free list
  | .listNodeInit node => s.Free node
  | .listPushFront list node => s.heads list ≠ none ∧ s.Unlinked node
  | .listPushBack list node => s.heads list ≠ none ∧ s.Unlinked node
  | .listInsertBefore pos node => s.Position pos ∧ s.Unlinked node
  | .listInsertAfter pos node => s.Position pos ∧ s.Unlinked node
  | .listRemove node => s.Linked node

/-- Each call of the run is given what it has to be. -/
def PermittedRun (s : Lists) : List ListOp → Prop
  | [] => True
  | op :: ops => s.Permitted op ∧ PermittedRun (s.apply op) ops

end Lists

/-- The links are those of the sequences: each list is a ring through its head, a node is in one list
at most, and a node in none has `NULL` links. -/
structure LinkedAs (m : ListLinks) (s : Lists) : Prop where
  ring : ∀ {h ns}, s.heads h = some ns → m.Ring h ns
  nodup : ∀ {h ns}, s.heads h = some ns → ns.Nodup
  member : ∀ {h ns n}, s.heads h = some ns → n ∈ ns → s.nodes n
  head : ∀ {h ns}, s.heads h = some ns → h ≠ 0 ∧ ¬ s.nodes h
  node : ∀ {n}, s.nodes n → n ≠ 0
  apart : ∀ {h h' ns ns' n}, s.heads h = some ns → s.heads h' = some ns' → n ∈ ns → n ∈ ns' →
    h = h'
  unlinked : ∀ {n}, s.Unlinked n → m.next n = 0 ∧ m.prev n = 0

namespace LinkedAs

variable {m : ListLinks} {s s' : Lists} {h h' a b n pos : Nat} {ns ns' A B : List Nat}

/-! ## Rings and addresses -/

theorem head_not_mem (hm : LinkedAs m s) (hh : s.heads h = some ns) : h ∉ ns :=
  fun hmem => (hm.head hh).2 (hm.member hh hmem)

/-- A head is in no list. -/
theorem head_not_linked (hm : LinkedAs m s) (hh : s.heads h = some ns) : ¬ s.Linked h :=
  fun ⟨_, _, hh', hmem⟩ => (hm.head hh).2 (hm.member hh' hmem)

/-- Two rings have no address in common. -/
theorem ring_apart (hm : LinkedAs m s) (hh : s.heads h = some ns) (hh' : s.heads h' = some ns')
    (ha : a ∈ h :: ns) (ha' : a ∈ h' :: ns') : h = h' := by
  rcases List.mem_cons.mp ha with rfl | ha
  · rcases List.mem_cons.mp ha' with rfl | ha'
    · rfl
    · exact absurd (hm.member hh' ha') (hm.head hh).2
  · rcases List.mem_cons.mp ha' with rfl | ha'
    · exact absurd (hm.member hh ha) (hm.head hh').2
    · exact hm.apart hh hh' ha ha'

/-- A node in no list is in no ring. -/
theorem unlinked_not_mem (hm : LinkedAs m s) (hh : s.heads h = some ns) (hn : s.Unlinked n) :
    n ≠ h ∧ n ∉ ns :=
  ⟨fun heq => (hm.head hh).2 (heq ▸ hn.1), fun hmem => hn.2 ⟨h, ns, hh, hmem⟩⟩

theorem ne_of_unlinked {x : Nat} (hm : LinkedAs m s) (hh : s.heads h = some ns)
    (hx : x ∈ h :: ns) (hn : s.Unlinked n) : x ≠ n := by
  intro heq
  obtain ⟨hhead, hnodes⟩ := hm.unlinked_not_mem hh hn
  exact (List.mem_cons.mp (heq ▸ hx)).elim hhead hnodes

theorem ne_zero_of_mem (hm : LinkedAs m s) (hh : s.heads h = some ns) (ha : a ∈ h :: ns) :
    a ≠ 0 := by
  rcases List.mem_cons.mp ha with rfl | ha
  · exact (hm.head hh).1
  · exact hm.node (hm.member hh ha)

/-- Where the addresses of a split ring are. -/
theorem mem_of_split (hsplit : h :: ns ++ [h] = A ++ a :: b :: B) : a ∈ h :: ns ∧ b ∈ h :: ns := by
  have hmem (x : Nat) (hx : x ∈ h :: ns ++ [h]) : x ∈ h :: ns := by
    simp only [List.mem_append, List.mem_singleton] at hx
    rcases hx with hx | rfl
    · exact hx
    · exact List.mem_cons_self ..
  exact ⟨hmem a (by rw [hsplit]; simp), hmem b (by rw [hsplit]; simp)⟩

/-- A ring without the addresses whose links change is kept. -/
theorem ring_frame {m' : ListLinks} (hm : LinkedAs m s) (hh : s.heads h = some ns)
    (hsame : ∀ x ∈ h :: ns, m'.next x = m.next x ∧ m'.prev x = m.prev x) : m'.Ring h ns := by
  refine Links.chain_congr (hm.ring hh) fun x hx => hsame x ?_
  simp only [List.mem_append, List.mem_singleton] at hx
  rcases hx with hx | rfl
  · exact hx
  · exact List.mem_cons_self ..

theorem insert_same {x : Nat} (ha : x ≠ a) (hb : x ≠ b) (hn : x ≠ n) :
    (m.insert a b n).next x = m.next x ∧ (m.insert a b n).prev x = m.prev x :=
  ⟨(Function.update_of_ne ha _ _).trans (Function.update_of_ne hn _ _),
    (Function.update_of_ne hb _ _).trans (Function.update_of_ne hn _ _)⟩

theorem unlink_same {x : Nat} (ha : x ≠ m.prev n) (hb : x ≠ m.next n) (hn : x ≠ n) :
    (m.unlink n 0).next x = m.next x ∧ (m.unlink n 0).prev x = m.prev x :=
  ⟨(Function.update_of_ne hn _ _).trans (Function.update_of_ne ha _ _),
    (Function.update_of_ne hn _ _).trans (Function.update_of_ne hb _ _)⟩

/-! ## Insertions and removals -/

/-- One list is edited: what comes in was in no list, what goes out gets `NULL` links, and no other
links change. -/
theorem edit {m' : ListLinks} (hm : LinkedAs m s) (hh : s.heads h = some ns)
    (hheads : ∀ h', s'.heads h' = if h' = h then some ns' else s.heads h')
    (hnodes : s'.nodes = s.nodes) (hring : m'.Ring h ns') (hnodup : ns'.Nodup)
    (hin : ∀ x ∈ ns', x ∈ ns ∨ s.Unlinked x)
    (hout : ∀ x ∈ ns, x ∉ ns' → m'.next x = 0 ∧ m'.prev x = 0)
    (hframe : ∀ x, x ∉ h :: ns → x ∉ ns' → m'.next x = m.next x ∧ m'.prev x = m.prev x) :
    LinkedAs m' s' := by
  have hself : s'.heads h = some ns' := (hheads h).trans (if_pos rfl)
  have hother {h'} (hne : h' ≠ h) : s'.heads h' = s.heads h' := (hheads h').trans (if_neg hne)
  -- No node of another list has come in.
  have hcross {h' ns'' x} (hne : h' ≠ h) (hh' : s.heads h' = some ns'') (hx : x ∈ ns')
      (hx' : x ∈ h' :: ns'') : False := by
    rcases hin x hx with hx | hx
    · exact hne (hm.ring_apart hh' hh hx' (List.mem_cons_of_mem _ hx))
    · obtain ⟨hhead, hmem⟩ := hm.unlinked_not_mem hh' hx
      exact (List.mem_cons.mp hx').elim hhead hmem
  constructor
  case ring =>
    intro h' ns'' hh'
    by_cases hne : h' = h
    · subst hne
      obtain rfl : ns' = ns'' := Option.some.inj (hself.symm.trans hh')
      exact hring
    · rw [hother hne] at hh'
      refine hm.ring_frame hh' fun x hx => hframe x (fun hmem => ?_) fun hmem => ?_
      · exact hne (hm.ring_apart hh' hh hx hmem)
      · exact hcross hne hh' hmem hx
  case nodup =>
    intro h' ns'' hh'
    by_cases hne : h' = h
    · subst hne
      obtain rfl : ns' = ns'' := Option.some.inj (hself.symm.trans hh')
      exact hnodup
    · exact hm.nodup ((hother hne).symm.trans hh')
  case member =>
    intro h' ns'' x hh' hx
    rw [hnodes]
    by_cases hne : h' = h
    · subst hne
      obtain rfl : ns' = ns'' := Option.some.inj (hself.symm.trans hh')
      rcases hin x hx with hx | hx
      · exact hm.member hh hx
      · exact hx.1
    · exact hm.member ((hother hne).symm.trans hh') hx
  case head =>
    intro h' ns'' hh'
    rw [hnodes]
    by_cases hne : h' = h
    · subst hne
      exact hm.head hh
    · exact hm.head ((hother hne).symm.trans hh')
  case node =>
    intro x hx
    rw [hnodes] at hx
    exact hm.node hx
  case apart =>
    intro h₁ h₂ ns₁ ns₂ x hh₁ hh₂ hx₁ hx₂
    by_cases hne₁ : h₁ = h
    · by_cases hne₂ : h₂ = h
      · exact hne₁.trans hne₂.symm
      · subst hne₁
        obtain rfl : ns' = ns₁ := Option.some.inj (hself.symm.trans hh₁)
        rw [hother hne₂] at hh₂
        exact (hcross hne₂ hh₂ hx₁ (List.mem_cons_of_mem _ hx₂)).elim
    · rw [hother hne₁] at hh₁
      by_cases hne₂ : h₂ = h
      · subst hne₂
        obtain rfl : ns' = ns₂ := Option.some.inj (hself.symm.trans hh₂)
        exact (hcross hne₁ hh₁ hx₂ (List.mem_cons_of_mem _ hx₁)).elim
      · exact hm.apart hh₁ ((hother hne₂).symm.trans hh₂) hx₁ hx₂
  case unlinked =>
    intro x ⟨hx, hnot⟩
    rw [hnodes] at hx
    have hx' : x ∉ ns' := fun hmem => hnot ⟨h, ns', hself, hmem⟩
    by_cases hmem : x ∈ ns
    · exact hout x hmem hx'
    · have hfree : s.Unlinked x := by
        refine ⟨hx, fun ⟨h', ns'', hh', hmem'⟩ => ?_⟩
        by_cases hne : h' = h
        · subst hne
          obtain rfl : ns = ns'' := Option.some.inj (hh.symm.trans hh')
          exact hmem hmem'
        · exact hnot ⟨h', ns'', (hother hne).trans hh', hmem'⟩
      have hhead : x ∉ h :: ns := fun hmem => hm.ne_of_unlinked hh hmem hfree rfl
      obtain ⟨hnext, hprev⟩ := hframe x hhead hx'
      rw [hnext, hprev]
      exact hm.unlinked hfree

/-- The stores of an insertion put the node into one list. -/
theorem insert (hm : LinkedAs m s) (hh : s.heads h = some ns) (hn : s.Unlinked n)
    (hsplit : h :: ns ++ [h] = A ++ a :: b :: B)
    (hsplit' : h :: ns' ++ [h] = A ++ a :: n :: b :: B)
    (hheads : ∀ h', s'.heads h' = if h' = h then some ns' else s.heads h')
    (hnodes : s'.nodes = s.nodes) : LinkedAs (m.insert a b n) s' := by
  have hnot := hm.unlinked_not_mem hh hn
  have hperm : ns'.Perm (n :: ns) := Links.perm_of_split hsplit hsplit'
  obtain ⟨ha, hb⟩ := mem_of_split hsplit
  apply hm.edit hh hheads hnodes
  · exact (hm.ring hh).insert (hm.nodup hh) (hm.head_not_mem hh) hsplit hsplit' hnot
  · exact hperm.nodup_iff.mpr (List.nodup_cons.mpr ⟨hnot.2, hm.nodup hh⟩)
  · intro x hx
    rcases List.mem_cons.mp (hperm.mem_iff.mp hx) with rfl | hx
    · exact Or.inr hn
    · exact Or.inl hx
  · intro x hx hx'
    exact absurd (hperm.mem_iff.mpr (List.mem_cons_of_mem _ hx)) hx'
  · intro x hx hx'
    exact insert_same (fun heq => hx (heq ▸ ha)) (fun heq => hx (heq ▸ hb))
      fun heq => hx' (hperm.mem_iff.mpr (heq ▸ List.mem_cons_self ..))

/-- The stores of a removal take the node out of its list. -/
theorem unlink (hm : LinkedAs m s) (hh : s.heads h = some ns)
    (hsplit : h :: ns ++ [h] = A ++ a :: n :: b :: B)
    (hsplit' : h :: ns' ++ [h] = A ++ a :: b :: B)
    (hheads : ∀ h', s'.heads h' = if h' = h then some ns' else s.heads h')
    (hnodes : s'.nodes = s.nodes) : LinkedAs (m.unlink n 0) s' := by
  have hperm : ns.Perm (n :: ns') := Links.perm_of_split hsplit' hsplit
  have hchain : (A ++ a :: n :: b :: B).IsChain m.Follows := hsplit ▸ hm.ring hh
  have hsplit₂ : h :: ns ++ [h] = (A ++ [a]) ++ n :: b :: B := by
    rw [hsplit]
    simp
  have hchain₂ : ((A ++ [a]) ++ n :: b :: B).IsChain m.Follows := by
    rw [← hsplit₂]
    exact hm.ring hh
  have hprev : m.prev n = a := (Links.follows_of_chain hchain).2
  have hnext : m.next n = b := (Links.follows_of_chain hchain₂).1
  obtain ⟨ha, hn⟩ := mem_of_split hsplit
  have hb := (mem_of_split hsplit₂).2
  apply hm.edit hh hheads hnodes
  · exact (hm.ring hh).unlink (hm.nodup hh) (hm.head_not_mem hh) hsplit hsplit'
  · exact (List.nodup_cons.mp (hperm.nodup_iff.mp (hm.nodup hh))).2
  · intro x hx
    exact Or.inl (hperm.mem_iff.mpr (List.mem_cons_of_mem _ hx))
  · intro x hx hx'
    obtain rfl : x = n := (List.mem_cons.mp (hperm.mem_iff.mp hx)).resolve_right hx'
    exact ⟨Function.update_self _ _ _, Function.update_self _ _ _⟩
  · intro x hx _
    exact unlink_same (fun heq => hx (heq ▸ hprev ▸ ha)) (fun heq => hx (heq ▸ hnext ▸ hb))
      fun heq => hx (heq ▸ hn)

/-! ## The calls -/

theorem listInsertBefore_eq (hpos : pos ≠ 0) (hn : n ≠ 0) (hne : pos ≠ n)
    (hnull : m.next n = 0 ∧ m.prev n = 0) (hprev : m.prev pos ≠ 0) :
    listInsertBefore m pos n = .ok (m.insert (m.prev pos) pos n) := by
  have hkeep : Function.update m.prev n (m.prev pos) pos = m.prev pos :=
    Function.update_of_ne hne _ _
  simp only [listInsertBefore, listAssert, loadPrev, loadNext, storePrev, storeNext, hpos, hn,
    hnull.1, hnull.2, hprev, hkeep, ne_eq, not_false_eq_true, decide_true, if_true, if_false, ok_bind]
  rfl

theorem listInsertAfter_eq (hpos : pos ≠ 0) (hn : n ≠ 0) (hne : pos ≠ n)
    (hnull : m.next n = 0 ∧ m.prev n = 0) (hnext : m.next pos ≠ 0) :
    listInsertAfter m pos n = .ok (m.insert pos (m.next pos) n) := by
  have hkeep : Function.update m.next n (m.next pos) pos = m.next pos :=
    Function.update_of_ne hne _ _
  simp only [listInsertAfter, listAssert, loadPrev, loadNext, storePrev, storeNext, hpos, hn,
    hnull.1, hnull.2, hnext, hkeep, ne_eq, not_false_eq_true, decide_true, if_true, if_false, ok_bind]
  rfl

theorem listRemove_eq (hn : n ≠ 0) (hprev : m.prev n ≠ 0) (hnext : m.next n ≠ 0)
    (hne : n ≠ m.prev n) : listRemove m n = .ok (m.unlink n 0) := by
  have hkeep : Function.update m.next (m.prev n) (m.next n) n = m.next n :=
    Function.update_of_ne hne _ _
  simp only [listRemove, listAssert, loadPrev, loadNext, storePrev, storeNext, hn, hprev, hnext,
    hkeep, ne_eq, not_false_eq_true, decide_true, if_true, if_false, ok_bind]
  rfl

/-- An edit of the list at one head, said of all heads. -/
theorem heads_map {f : Nat → List Nat → List Nat} (hh : s.heads h = some ns) (hf : f h ns = ns')
    (hother : ∀ h' ns'', h' ≠ h → s.heads h' = some ns'' → f h' ns'' = ns'') (h' : Nat) :
    (s.heads h').map (f h') = if h' = h then some ns' else s.heads h' := by
  by_cases hne : h' = h
  · subst hne
    rw [if_pos rfl, hh]
    exact congrArg some hf
  · rw [if_neg hne]
    cases hh' : s.heads h' with
    | none => rfl
    | some ns'' => exact congrArg some (hother h' ns'' hne hh')

/-- A position is in the ring of one list. -/
theorem position (hm : LinkedAs m s) (hpos : s.Position pos) :
    ∃ h ns, s.heads h = some ns ∧ (pos = h ∨ pos ∈ ns) ∧
      ∀ h' ns', h' ≠ h → s.heads h' = some ns' → h' ≠ pos ∧ pos ∉ ns' := by
  have hfound : ∃ h ns, s.heads h = some ns ∧ (pos = h ∨ pos ∈ ns) := by
    rcases hpos with hpos | ⟨h, ns, hh, hmem⟩
    · obtain ⟨ns, hh⟩ := Option.ne_none_iff_exists'.mp hpos
      exact ⟨pos, ns, hh, Or.inl rfl⟩
    · exact ⟨h, ns, hh, Or.inr hmem⟩
  obtain ⟨h, ns, hh, hin⟩ := hfound
  refine ⟨h, ns, hh, hin, fun h' ns' hne hh' => ⟨fun heq => hne ?_, fun hmem => hne ?_⟩⟩
  · exact hm.ring_apart hh' hh (heq ▸ List.mem_cons_self ..) (List.mem_cons.mpr hin)
  · exact hm.ring_apart hh' hh (List.mem_cons_of_mem _ hmem) (List.mem_cons.mpr hin)

/-- `list_insert_before` puts the node before the position. -/
theorem listInsertBefore (hm : LinkedAs m s) (hpos : s.Position pos) (hn : s.Unlinked n) :
    ∃ m', Neox.listInsertBefore m pos n = .ok m' ∧
      LinkedAs m' (s.apply (.listInsertBefore pos n)) := by
  obtain ⟨h, ns, hh, hin, hapart⟩ := hm.position hpos
  obtain ⟨A, a, B, hsplit, hsplit'⟩ :=
    Links.nodesBefore_split n (hm.nodup hh) hin (hm.head_not_mem hh)
  obtain ⟨ha, -⟩ := mem_of_split hsplit
  have hchain : (A ++ a :: pos :: B).IsChain m.Follows := hsplit ▸ hm.ring hh
  have hprev : m.prev pos = a := (Links.follows_of_chain hchain).2
  have hring : pos ∈ h :: ns := List.mem_cons.mpr hin
  refine ⟨m.insert a pos n, ?_, hm.insert hh hn hsplit hsplit' (heads_map hh rfl ?_) rfl⟩
  · rw [← hprev]
    apply listInsertBefore_eq
    · exact hm.ne_zero_of_mem hh hring
    · exact hm.node hn.1
    · exact hm.ne_of_unlinked hh hring hn
    · exact hm.unlinked hn
    · exact hprev ▸ hm.ne_zero_of_mem hh ha
  · intro h' ns' hne hh'
    obtain ⟨hhead, hmem⟩ := hapart h' ns' hne hh'
    exact (if_neg hhead).trans (Links.insertBefore_of_not_mem hmem)

/-- `list_insert_after` puts the node after the position. -/
theorem listInsertAfter (hm : LinkedAs m s) (hpos : s.Position pos) (hn : s.Unlinked n) :
    ∃ m', Neox.listInsertAfter m pos n = .ok m' ∧
      LinkedAs m' (s.apply (.listInsertAfter pos n)) := by
  obtain ⟨h, ns, hh, hin, hapart⟩ := hm.position hpos
  obtain ⟨A, b, B, hsplit, hsplit'⟩ :=
    Links.nodesAfter_split n (hm.nodup hh) hin (hm.head_not_mem hh)
  obtain ⟨-, hb⟩ := mem_of_split hsplit
  have hchain : (A ++ pos :: b :: B).IsChain m.Follows := hsplit ▸ hm.ring hh
  have hnext : m.next pos = b := (Links.follows_of_chain hchain).1
  have hring : pos ∈ h :: ns := List.mem_cons.mpr hin
  refine ⟨m.insert pos b n, ?_, hm.insert hh hn hsplit hsplit' (heads_map hh rfl ?_) rfl⟩
  · rw [← hnext]
    apply listInsertAfter_eq
    · exact hm.ne_zero_of_mem hh hring
    · exact hm.node hn.1
    · exact hm.ne_of_unlinked hh hring hn
    · exact hm.unlinked hn
    · exact hnext ▸ hm.ne_zero_of_mem hh hb
  · intro h' ns' hne hh'
    obtain ⟨hhead, hmem⟩ := hapart h' ns' hne hh'
    exact (if_neg hhead).trans (Links.insertAfter_of_not_mem hmem)

/-- At a head, the other lists are not looked at. -/
theorem apply_at_head {f : Nat → List Nat → List Nat} (hm : LinkedAs m s)
    (hh : s.heads h = some ns) (hf : ∀ h' ns', h' ≠ h → h ∉ ns' → f h' ns' = ns') :
    (fun h' => (s.heads h').map (f h')) =
      Function.update s.heads h ((s.heads h).map (f h)) := by
  funext h'
  by_cases hne : h' = h
  · subst hne
    rw [Function.update_self]
  · rw [Function.update_of_ne hne]
    cases hh' : s.heads h' with
    | none => rfl
    | some ns' =>
        have hnot : h ∉ ns' := fun hmem => hm.head_not_linked hh ⟨h', ns', hh', hmem⟩
        exact congrArg some (hf h' ns' hne hnot)

/-- `list_push_front` is an insertion after the head. -/
theorem listPushFront (hm : LinkedAs m s) (hlist : s.heads h ≠ none) (hn : s.Unlinked n) :
    ∃ m', Neox.listPushFront m h n = .ok m' ∧ LinkedAs m' (s.apply (.listPushFront h n)) := by
  obtain ⟨ns, hh⟩ := Option.ne_none_iff_exists'.mp hlist
  obtain ⟨m', hcall, hlinked⟩ := hm.listInsertAfter (Or.inl hlist) hn
  have hsame : s.apply (.listInsertAfter h n) = s.apply (.listPushFront h n) := by
    have hheads := hm.apply_at_head (f := Links.nodesAfter h n) hh fun h' ns' hne hmem =>
      (if_neg hne).trans (Links.insertAfter_of_not_mem hmem)
    have hself : Links.nodesAfter h n h = (n :: ·) := funext fun _ => if_pos rfl
    rw [hself] at hheads
    exact congrArg (fun heads => Lists.mk heads s.nodes) hheads
  refine ⟨m', ?_, hsame ▸ hlinked⟩
  unfold Neox.listPushFront listAssert
  rw [if_pos (by simpa using (hm.head hh).1), if_pos (by simpa using hm.node hn.1)]
  exact hcall

/-- `list_push_back` is an insertion before the head. -/
theorem listPushBack (hm : LinkedAs m s) (hlist : s.heads h ≠ none) (hn : s.Unlinked n) :
    ∃ m', Neox.listPushBack m h n = .ok m' ∧ LinkedAs m' (s.apply (.listPushBack h n)) := by
  obtain ⟨ns, hh⟩ := Option.ne_none_iff_exists'.mp hlist
  obtain ⟨m', hcall, hlinked⟩ := hm.listInsertBefore (Or.inl hlist) hn
  have hsame : s.apply (.listInsertBefore h n) = s.apply (.listPushBack h n) := by
    have hheads := hm.apply_at_head (f := Links.nodesBefore h n) hh fun h' ns' hne hmem =>
      (if_neg hne).trans (Links.insertBefore_of_not_mem hmem)
    have hself : Links.nodesBefore h n h = (· ++ [n]) := funext fun _ => if_pos rfl
    rw [hself] at hheads
    exact congrArg (fun heads => Lists.mk heads s.nodes) hheads
  refine ⟨m', ?_, hsame ▸ hlinked⟩
  unfold Neox.listPushBack listAssert
  rw [if_pos (by simpa using (hm.head hh).1), if_pos (by simpa using hm.node hn.1)]
  exact hcall

/-- `list_remove` takes the node out of its list. -/
theorem listRemove (hm : LinkedAs m s) (hn : s.Linked n) :
    ∃ m', Neox.listRemove m n = .ok m' ∧ LinkedAs m' (s.apply (.listRemove n)) := by
  obtain ⟨h, ns, hh, hmem⟩ := hn
  obtain ⟨A, a, b, B, hsplit, hsplit'⟩ := Links.erase_split (hm.nodup hh) hmem (h := h)
  have hsplit₂ : h :: ns ++ [h] = (A ++ [a]) ++ n :: b :: B := by
    rw [hsplit]
    simp
  have hchain : (A ++ a :: n :: b :: B).IsChain m.Follows := hsplit ▸ hm.ring hh
  have hchain₂ : ((A ++ [a]) ++ n :: b :: B).IsChain m.Follows := by
    rw [← hsplit₂]
    exact hm.ring hh
  have hprev : m.prev n = a := (Links.follows_of_chain hchain).2
  have hnext : m.next n = b := (Links.follows_of_chain hchain₂).1
  refine ⟨m.unlink n 0, ?_, hm.unlink hh hsplit hsplit' (heads_map hh rfl ?_) rfl⟩
  · apply listRemove_eq
    · exact hm.node (hm.member hh hmem)
    · exact hprev ▸ hm.ne_zero_of_mem hh (mem_of_split hsplit).1
    · exact hnext ▸ hm.ne_zero_of_mem hh (mem_of_split hsplit₂).2
    · -- A node occurs once in its ring, so its predecessor is another address.
      rw [hprev]
      intro heq
      have hnodup : (h :: ns).Nodup := List.nodup_cons.mpr ⟨hm.head_not_mem hh, hm.nodup hh⟩
      have hdrop : h :: ns = A ++ a :: n :: (b :: B).dropLast := by
        have hlast := congrArg List.dropLast hsplit
        rw [List.dropLast_concat] at hlast
        rw [hlast]
        simp
      rw [hdrop, ← heq] at hnodup
      exact (List.nodup_cons.mp (List.nodup_append.mp hnodup).2.1).1 (List.mem_cons_self ..)
  · intro h' ns' hne hh'
    exact List.erase_of_not_mem fun hmem' => hne (hm.apart hh' hh hmem' hmem)

/-! ## Initialisation -/

/-- What may be initialised is in the ring of no other head. -/
theorem free_not_mem (hfree : s.Free a) (hh : s.heads h = some ns) (hne : h ≠ a) : a ∉ h :: ns :=
  fun hmem => (List.mem_cons.mp hmem).elim (fun heq => hne heq.symm) fun hmem =>
    hfree.2.2 ⟨h, ns, hh, hmem⟩

/-- An empty list, or none, at a free address changes no membership. -/
theorem linked_of_update {v : Option (List Nat)} {nodes : Nat → Prop} {x : Nat} (hfree : s.Free a)
    (hx : s.Linked x) : Lists.Linked ⟨Function.update s.heads a v, nodes⟩ x := by
  obtain ⟨h, ns, hh, hmem⟩ := hx
  have hne : h ≠ a := by
    intro heq
    rw [hfree.2.1 ns (heq ▸ hh)] at hmem
    cases hmem
  exact ⟨h, ns, (Function.update_of_ne hne _ _).trans hh, hmem⟩

/-- A free address becomes an empty head, or a node in no list. -/
theorem initialise {m' : ListLinks} {v : Option (List Nat)} {nodes : Nat → Prop}
    (hm : LinkedAs m s) (hfree : s.Free a) (hv : ∀ ns, v = some ns → ns = [] ∧ m'.Ring a [])
    (hframe : ∀ x, x ≠ a → m'.next x = m.next x ∧ m'.prev x = m.prev x)
    (hnodes : ∀ x, x ≠ a → (nodes x ↔ s.nodes x))
    (ha : nodes a → v = none ∧ m'.next a = 0 ∧ m'.prev a = 0) :
    LinkedAs m' ⟨Function.update s.heads a v, nodes⟩ := by
  have hcases {h ns} (hh : Function.update s.heads a v h = some ns) :
      (h = a ∧ v = some ns ∧ ns = []) ∨ (h ≠ a ∧ s.heads h = some ns) := by
    by_cases hne : h = a
    · subst hne
      rw [Function.update_self] at hh
      exact Or.inl ⟨rfl, hh, (hv ns hh).1⟩
    · rw [Function.update_of_ne hne] at hh
      exact Or.inr ⟨hne, hh⟩
  constructor
  case ring =>
    intro h ns hh
    rcases hcases hh with ⟨rfl, hv', rfl⟩ | ⟨hne, hh⟩
    · exact (hv _ hv').2
    · exact hm.ring_frame hh fun x hx =>
        hframe x fun heq => free_not_mem hfree hh hne (heq ▸ hx)
  case nodup =>
    intro h ns hh
    rcases hcases hh with ⟨-, -, rfl⟩ | ⟨-, hh⟩
    · exact List.nodup_nil
    · exact hm.nodup hh
  case member =>
    intro h ns x hh hx
    rcases hcases hh with ⟨-, -, rfl⟩ | ⟨hne, hh⟩
    · cases hx
    · have hxa : x ≠ a := fun heq =>
        free_not_mem hfree hh hne (heq ▸ List.mem_cons_of_mem _ hx)
      exact (hnodes x hxa).mpr (hm.member hh hx)
  case head =>
    intro h ns hh
    rcases hcases hh with ⟨rfl, hv', -⟩ | ⟨hne, hh⟩
    · refine ⟨hfree.1, fun hnode => ?_⟩
      rw [(ha hnode).1] at hv'
      cases hv'
    · exact ⟨(hm.head hh).1, fun hnode => (hm.head hh).2 ((hnodes h hne).mp hnode)⟩
  case node =>
    intro x hx
    by_cases hxa : x = a
    · exact hxa ▸ hfree.1
    · exact hm.node ((hnodes x hxa).mp hx)
  case apart =>
    intro h₁ h₂ ns₁ ns₂ x hh₁ hh₂ hx₁ hx₂
    rcases hcases hh₁ with ⟨-, -, rfl⟩ | ⟨-, hh₁⟩
    · cases hx₁
    rcases hcases hh₂ with ⟨-, -, rfl⟩ | ⟨-, hh₂⟩
    · cases hx₂
    exact hm.apart hh₁ hh₂ hx₁ hx₂
  case unlinked =>
    intro x ⟨hx, hnot⟩
    by_cases hxa : x = a
    · subst hxa
      exact (ha hx).2
    · obtain ⟨hnext, hprev⟩ := hframe x hxa
      rw [hnext, hprev]
      exact hm.unlinked ⟨(hnodes x hxa).mp hx, fun hlinked => hnot (linked_of_update hfree hlinked)⟩

/-- `list_init` makes an empty list. -/
theorem listInit (hm : LinkedAs m s) (hfree : s.Free a) :
    ∃ m', Neox.listInit m a = .ok m' ∧ LinkedAs m' (s.apply (.listInit a)) := by
  have ha : a ≠ 0 := hfree.1
  refine ⟨⟨Function.update m.next a a, Function.update m.prev a a⟩, ?_, ?_⟩
  · simp [Neox.listInit, listAssert, storeNext, storePrev, ha]
  · apply hm.initialise hfree
    · intro ns hns
      refine ⟨(Option.some.inj hns).symm, List.isChain_pair.mpr ⟨?_, ?_⟩⟩
      · exact Function.update_self _ _ _
      · exact Function.update_self _ _ _
    · intro x hx
      exact ⟨Function.update_of_ne hx _ _, Function.update_of_ne hx _ _⟩
    · intro x hx
      exact and_iff_right hx
    · intro hnode
      exact absurd rfl hnode.1

/-- `list_node_init` makes a node in no list. -/
theorem listNodeInit (hm : LinkedAs m s) (hfree : s.Free a) :
    ∃ m', Neox.listNodeInit m a = .ok m' ∧ LinkedAs m' (s.apply (.listNodeInit a)) := by
  have ha : a ≠ 0 := hfree.1
  refine ⟨⟨Function.update m.next a 0, Function.update m.prev a 0⟩, ?_, ?_⟩
  · simp [Neox.listNodeInit, listAssert, storeNext, storePrev, ha]
  · apply hm.initialise hfree
    · intro ns hns
      cases hns
    · intro x hx
      exact ⟨Function.update_of_ne hx _ _, Function.update_of_ne hx _ _⟩
    · intro x hx
      exact or_iff_right hx
    · intro _
      exact ⟨rfl, Function.update_self _ _ _, Function.update_self _ _ _⟩

/-! ## Runs -/

/-- Each call does to the links what it does to the sequences. -/
theorem step {op : ListOp} (hm : LinkedAs m s) (hop : s.Permitted op) :
    ∃ m', listStep m op = .ok m' ∧ LinkedAs m' (s.apply op) := by
  cases op with
  | listInit list => exact hm.listInit hop
  | listNodeInit node => exact hm.listNodeInit hop
  | listPushFront list node => exact hm.listPushFront hop.1 hop.2
  | listPushBack list node => exact hm.listPushBack hop.1 hop.2
  | listInsertBefore pos node => exact hm.listInsertBefore hop.1 hop.2
  | listInsertAfter pos node => exact hm.listInsertAfter hop.1 hop.2
  | listRemove node => exact hm.listRemove hop

theorem run {ops : List ListOp} (hm : LinkedAs m s) (hops : s.PermittedRun ops) :
    ∃ m', listRun m ops = .ok m' ∧ LinkedAs m' (ops.foldl Lists.apply s) := by
  induction ops generalizing m s with
  | nil => exact ⟨m, rfl, hm⟩
  | cons op ops ih =>
      obtain ⟨m₁, hstep, hm₁⟩ := hm.step hops.1
      obtain ⟨m₂, hrest, hm₂⟩ := ih hm₁ hops.2
      refine ⟨m₂, ?_, hm₂⟩
      unfold listRun at hrest ⊢
      rw [List.foldlM_cons, hstep]
      exact hrest

/-- A node of a list has no `NULL` link. -/
theorem next_ne_zero (hm : LinkedAs m s) (hn : s.Linked n) : m.next n ≠ 0 := by
  obtain ⟨h, ns, hh, hmem⟩ := hn
  obtain ⟨A, b, B, hsplit, -⟩ :=
    Links.nodesAfter_split n (hm.nodup hh) (Or.inr hmem) (hm.head_not_mem hh)
  have hchain : (A ++ n :: b :: B).IsChain m.Follows := hsplit ▸ hm.ring hh
  rw [(Links.follows_of_chain hchain).1]
  exact hm.ne_zero_of_mem hh (mem_of_split hsplit).2

/-- The nodes in no list are those with `NULL` links. -/
theorem unlinked_iff (hm : LinkedAs m s) (hn : s.nodes n) :
    s.Unlinked n ↔ m.next n = 0 ∧ m.prev n = 0 := by
  constructor
  · exact hm.unlinked
  · intro ⟨hnext, _⟩
    exact ⟨hn, fun hlinked => hm.next_ne_zero hlinked hnext⟩

end LinkedAs

/-! ## Lists that are not involved -/

/-- The address that says which list a call is about. -/
def ListOp.target : ListOp → Nat
  | .listInit list => list
  | .listNodeInit node => node
  | .listPushFront list _ => list
  | .listPushBack list _ => list
  | .listInsertBefore pos _ => pos
  | .listInsertAfter pos _ => pos
  | .listRemove node => node

theorem Lists.apply_other {s : Lists} {op : ListOp} {h : Nat} {ns : List Nat}
    (hh : s.heads h = some ns) (hop : op.target ∉ h :: ns) : (s.apply op).heads h = some ns := by
  obtain ⟨hhead, hmem⟩ := not_or.mp (mt List.mem_cons.mpr hop)
  have hhead : h ≠ op.target := Ne.symm hhead
  cases op with
  | listInit list => exact (Function.update_of_ne hhead _ _).trans hh
  | listNodeInit node => exact (Function.update_of_ne hhead _ _).trans hh
  | listPushFront list node => exact (Function.update_of_ne hhead _ _).trans hh
  | listPushBack list node => exact (Function.update_of_ne hhead _ _).trans hh
  | listInsertBefore pos node =>
      show (s.heads h).map _ = some ns
      rw [hh]
      exact congrArg some ((if_neg hhead).trans (Links.insertBefore_of_not_mem hmem))
  | listInsertAfter pos node =>
      show (s.heads h).map _ = some ns
      rw [hh]
      exact congrArg some ((if_neg hhead).trans (Links.insertAfter_of_not_mem hmem))
  | listRemove node =>
      show (s.heads h).map _ = some ns
      rw [hh]
      exact congrArg some (List.erase_of_not_mem hmem)

theorem Lists.run_other {s : Lists} {ops : List ListOp} {h : Nat} {ns : List Nat}
    (hh : s.heads h = some ns) (hops : ∀ op ∈ ops, op.target ∉ h :: ns) :
    (ops.foldl Lists.apply s).heads h = some ns := by
  induction ops generalizing s with
  | nil => exact hh
  | cons op ops ih =>
      exact ih (Lists.apply_other hh (hops op (List.mem_cons_self ..)))
        fun op hop => hops op (List.mem_cons_of_mem _ hop)

/-- From links that are those of some sequences, every run of calls that are given what they have to
be meets the `ASSERT`s, and leaves the links of the sequences that the calls stand for: forwards from
a head the nodes are met in order and backwards in the opposite order, a node is in one list at most
and in none exactly when its links are `NULL`, and a list that no call is about keeps its links. -/
theorem lists_refine_sequences (m : ListLinks) (s : Lists) (hm : LinkedAs m s) (ops : List ListOp)
    (hops : s.PermittedRun ops) :
    ∃ m', listRun m ops = .ok m' ∧ LinkedAs m' (ops.foldl Lists.apply s) ∧
      (∀ h ns, (ops.foldl Lists.apply s).heads h = some ns → ∀ fuel, ns.length < fuel →
        Links.walk m'.next h fuel (m'.next h) = some ns ∧
          Links.walk m'.prev h fuel (m'.prev h) = some ns.reverse) ∧
      (∀ n, (ops.foldl Lists.apply s).nodes n →
        ((ops.foldl Lists.apply s).Unlinked n ↔ m'.next n = 0 ∧ m'.prev n = 0)) ∧
      (∀ h ns, s.heads h = some ns → (∀ op ∈ ops, op.target ∉ h :: ns) →
        (ops.foldl Lists.apply s).heads h = some ns ∧
          ∀ a ∈ h :: ns, m'.next a = m.next a ∧ m'.prev a = m.prev a) := by
  obtain ⟨m', hrun, hm'⟩ := hm.run hops
  refine ⟨m', hrun, hm', ?_, ?_, ?_⟩
  · intro h ns hh fuel hfuel
    have hring := hm'.ring hh
    have hnot := hm'.head_not_mem hh
    exact ⟨hring.walk_next hnot hfuel, hring.walk_prev hnot hfuel⟩
  · intro n hn
    exact hm'.unlinked_iff hn
  · intro h ns hh hother
    have hh' := Lists.run_other hh hother
    exact ⟨hh', fun a ha => (hm.ring hh).same (hm'.ring hh') ha⟩

/-! ## A list of one node -/

/-- Nothing is initialised. -/
def noLists : Lists := { heads := fun _ => none, nodes := fun _ => False }

theorem linkedAs_noLists (m : ListLinks) : LinkedAs m noLists where
  ring hh := by cases hh
  nodup hh := by cases hh
  member hh := by cases hh
  head hh := by cases hh
  node hn := hn.elim
  apart hh := by cases hh
  unlinked hn := hn.1.elim

/-- A list is made, a node is put in front and another behind it. -/
def twoNodes : List ListOp :=
  [.listInit 8, .listNodeInit 16, .listNodeInit 24, .listPushFront 8 16, .listInsertAfter 16 24]

theorem twoNodes_permitted : noLists.PermittedRun twoNodes := by
  simp only [twoNodes, Lists.PermittedRun, Lists.Permitted, Lists.Free, Lists.Position,
    Lists.Unlinked, Lists.Linked, Lists.apply, noLists, Function.update_apply]
  simp
  refine ⟨⟨8, [16], rfl, by simp⟩, fun h ns hh => ?_⟩
  split at hh
  · cases hh
    simp
  repeat' split at hh
  all_goals cases hh

theorem lists_refine_sequences_two :
    ∃ m', listRun ⟨id, id⟩ twoNodes = .ok m' ∧
      Links.walk m'.next 8 3 (m'.next 8) = some [16, 24] ∧
      Links.walk m'.prev 8 3 (m'.prev 8) = some [24, 16] := by
  obtain ⟨m', hrun, -, hwalk, -⟩ := lists_refine_sequences ⟨id, id⟩ noLists (linkedAs_noLists _)
    twoNodes twoNodes_permitted
  exact ⟨m', hrun, hwalk 8 [16, 24] rfl 3 (by decide)⟩

end Neox
