import Mathlib.Data.List.Forall2

/-!
# Computations that may stop

A computation in `Except ε` either stops with a reason or returns. The rules here take a returned
computation apart: a bind into its two halves, a loop into its iterations.
-/

namespace Checked

variable {ε α β σ : Type}

/-- A bind returns when both halves do. -/
theorem bind_eq_ok {x : Except ε α} {f : α → Except ε β} {b : β} :
    x >>= f = .ok b ↔ ∃ a, x = .ok a ∧ f a = .ok b := by
  constructor
  · intro h
    cases x with
    | error e => cases h
    | ok a => exact ⟨a, rfl, h⟩
  · intro h
    obtain ⟨a, rfl, hf⟩ := h
    exact hf

@[simp] theorem ok_bind {a : α} {f : α → Except ε β} : (Except.ok a >>= f) = f a := rfl

@[simp] theorem error_bind {e : ε} {f : α → Except ε β} :
    (Except.error e >>= f) = Except.error e := rfl

/-- A loop over a list returns what each iteration does. -/
theorem forall₂_of_mapM {f : α → Except ε β} {l : List α} {l' : List β} (h : l.mapM f = .ok l') :
    List.Forall₂ (fun a b => f a = .ok b) l l' := by
  induction l generalizing l' with
  | nil =>
      cases h
      exact .nil
  | cons a l ih =>
      rw [List.mapM_cons] at h
      obtain ⟨b, hb, h⟩ := bind_eq_ok.mp h
      obtain ⟨rest, hrest, h⟩ := bind_eq_ok.mp h
      cases h
      exact .cons hb (ih hrest)

theorem pure_eq_ok {a b : α} : (pure a : Except ε α) = .ok b ↔ a = b := by
  constructor
  · intro h
    cases h
    rfl
  · intro h
    rw [h]
    rfl

theorem toOption_eq_some {x : Except ε α} {a : α} : x.toOption = some a ↔ x = .ok a := by
  constructor
  · intro h
    cases x with
    | error e => cases h
    | ok b =>
        cases h
        rfl
  · intro h
    rw [h]
    rfl

theorem pure_ne_error {a : α} {e : ε} : (pure a : Except ε α) ≠ .error e := by
  intro h
  cases h

theorem allM_map (g : α → β) (f : β → Except ε Bool) (l : List α) :
    (l.map g).allM f = l.allM fun a => f (g a) := by
  induction l with
  | nil => rfl
  | cons a l ih => rw [List.map_cons, List.allM, List.allM, ih]

/-- A test of all elements returns when the test of each does. -/
theorem allM_returns {f : α → Except ε Bool} {l : List α} (h : ∀ a ∈ l, ∃ b, f a = .ok b) :
    ∃ b, l.allM f = .ok b ∧ (b = true ↔ ∀ a ∈ l, f a = .ok true) := by
  induction l with
  | nil => exact ⟨true, rfl, iff_of_true rfl fun a ha => by cases ha⟩
  | cons a l ih =>
      obtain ⟨ha, hl⟩ := List.forall_mem_cons.mp h
      obtain ⟨b, hb⟩ := ha
      rw [List.allM, hb, ok_bind]
      cases b with
      | false =>
          refine ⟨false, rfl, iff_of_false (by decide) fun hall => ?_⟩
          have hfalse := hb.symm.trans (hall a (List.mem_cons_self ..))
          cases hfalse
      | true =>
          obtain ⟨b, hrest, hiff⟩ := ih hl
          refine ⟨b, hrest, hiff.trans ?_⟩
          rw [List.forall_mem_cons]
          exact (and_iff_right hb).symm

/-! ## Pre- and postconditions -/

/-- `x` returns a value that satisfies `P`, or stops for a reason that satisfies `E`. -/
structure Post (E : ε → Prop) (P : α → Prop) (x : Except ε α) : Prop where
  of_ok : ∀ {a}, x = .ok a → P a
  of_error : ∀ {e}, x = .error e → E e

section Rules

variable {E E' : ε → Prop} {P P' : α → Prop} {Q : β → Prop} {x : Except ε α} {f : α → Except ε β}

theorem Post.pure {a : α} (h : P a) : Post E P (Pure.pure a) where
  of_ok ha := by
    cases ha
    exact h
  of_error he := by cases he

theorem Post.throw {e : ε} (h : E e) : Post E P (MonadExcept.throw e) where
  of_ok ha := by cases ha
  of_error he := by
    cases he
    exact h

/-- Sequencing: the second half may rely on what the first half establishes. -/
theorem Post.bind (hx : Post E P x) (hf : ∀ a, P a → Post E Q (f a)) : Post E Q (x >>= f) := by
  cases x with
  | error e => exact .throw (hx.of_error rfl)
  | ok a => exact hf a (hx.of_ok rfl)

/-- The rule of consequence. -/
theorem Post.mono (hx : Post E P x) (hE : ∀ e, E e → E' e) (hP : ∀ a, P a → P' a) :
    Post E' P' x where
  of_ok h := hP _ (hx.of_ok h)
  of_error h := hE _ (hx.of_error h)

/-- Two postconditions hold together. -/
theorem Post.and (hx : Post E P x) (hx' : Post E' P' x) :
    Post (fun e => E e ∧ E' e) (fun a => P a ∧ P' a) x where
  of_ok h := ⟨hx.of_ok h, hx'.of_ok h⟩
  of_error h := ⟨hx.of_error h, hx'.of_error h⟩

/-- What has no reason to stop returns. -/
theorem Post.returns (hx : Post (fun _ => False) P x) : ∃ a, x = .ok a ∧ P a := by
  cases h : x with
  | error e => exact absurd (hx.of_error h) id
  | ok a => exact ⟨a, rfl, hx.of_ok h⟩

/-- The loop rule: `I` holds of the elements still to come and the state. -/
theorem Post.foldlM {I : List α → σ → Prop} {f : σ → α → Except ε σ} {l : List α} {s : σ}
    (h0 : I l s) (hstep : ∀ a l s, I (a :: l) s → Post E (I l) (f s a)) :
    Post E (I []) (l.foldlM f s) := by
  induction l generalizing s with
  | nil => exact .pure h0
  | cons a l ih =>
      rw [List.foldlM_cons]
      exact (hstep a l s h0).bind fun t ht => ih ht

/-- A loop that counts up. -/
theorem Post.foldlM_range {I : Nat → σ → Prop} {f : σ → Nat → Except ε σ} {n : Nat} {s : σ}
    (h0 : I 0 s) (hstep : ∀ i < n, ∀ s, I i s → Post E (I (i + 1)) (f s i)) :
    Post E (I n) ((List.range n).foldlM f s) := by
  induction n with
  | zero => exact .pure h0
  | succ n ih =>
      rw [List.range_succ, List.foldlM_append]
      refine (ih fun i hi => hstep i (by omega)).bind fun t ht => ?_
      rw [List.foldlM_cons]
      exact (hstep n (by omega) t ht).bind fun u hu => .pure hu

/-- A loop without a state: every element passes the test, or one does not. -/
theorem Post.allM {f : α → Except ε Bool} {l : List α} (hstep : ∀ a ∈ l, Post E (fun _ => True) (f a)) :
    Post E (fun b => b = true → ∀ a ∈ l, f a = .ok true) (l.allM f) := by
  induction l with
  | nil => exact .pure fun _ a ha => by cases ha
  | cons a l ih =>
      have ha := hstep a (by simp)
      rw [List.allM]
      cases hfa : f a with
      | error e => exact .throw (ha.of_error hfa)
      | ok b =>
          cases b with
          | false => exact .pure fun h => by cases h
          | true =>
              refine (ih fun b hb => hstep b (by simp [hb])).mono (fun _ h => h) ?_
              intro b h hb c hc
              rcases List.mem_cons.mp hc with rfl | hc
              · exact hfa
              · exact h hb c hc

end Rules

end Checked
