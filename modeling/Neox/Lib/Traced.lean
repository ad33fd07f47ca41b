/-!
# Computations that report what they do

A computation reports events and then stops with a reason or returns; the events reported before it
stops are kept. The rules here say which events a computation can report, bind by bind.
-/

structure Traced (ε ω α : Type) where
  events : List ω
  result : Except ε α

namespace Traced

variable {ε ω α β : Type}

instance : Monad (Traced ε ω) where
  pure a := ⟨[], .ok a⟩
  bind x f :=
    match x.result with
    | .ok a => ⟨x.events ++ (f a).events, (f a).result⟩
    | .error e => ⟨x.events, .error e⟩

/-- Report one event. -/
def report (e : ω) : Traced ε ω Unit := ⟨[e], .ok ()⟩

/-- A computation that reports nothing. -/
def silent (x : Except ε α) : Traced ε ω α := ⟨[], x⟩

/-- Report one event and return a value. -/
def fetch (e : ω) (value : α) : Traced ε ω α := ⟨[e], .ok value⟩

/-- A value that is passed on at once. -/
theorem bind_pure_bind {γ : Type} (x : Traced ε ω α) (g : α → β) (f : β → Traced ε ω γ) :
    ((x >>= fun a => pure (g a)) >>= f) = x >>= fun a => f (g a) := by
  obtain ⟨events, result⟩ := x
  cases result with
  | error e => rfl
  | ok a =>
      show (⟨(events ++ []) ++ (f (g a)).events, (f (g a)).result⟩ : Traced ε ω γ) =
        ⟨events ++ (f (g a)).events, (f (g a)).result⟩
      rw [List.append_nil]

section Events

variable {R : ω → Prop} {x : Traced ε ω α} {f : α → Traced ε ω β}

/-- Every event satisfies `R`. -/
def Reports (R : ω → Prop) (x : Traced ε ω α) : Prop := ∀ e ∈ x.events, R e

@[simp] theorem reports_pure {a : α} : Reports R (pure a : Traced ε ω α) := by
  intro e he
  cases he

@[simp] theorem reports_silent {y : Except ε α} : Reports R (silent y) := by
  intro e he
  cases he

@[simp] theorem reports_report {e : ω} : Reports R (report e : Traced ε ω Unit) ↔ R e := by
  unfold Reports report
  simp

@[simp] theorem silent_ok_bind {a : α} : (silent (.ok a) >>= f : Traced ε ω β) = f a := rfl

@[simp] theorem silent_error_bind {e : ε} :
    (silent (.error e) >>= f : Traced ε ω β) = silent (.error e) := rfl

@[simp] theorem reports_report_bind {e : ω} {g : Unit → Traced ε ω β} :
    Reports R (report e >>= g) ↔ R e ∧ Reports R (g ()) := by
  unfold Reports
  show (∀ e' ∈ e :: (g ()).events, R e') ↔ _
  exact List.forall_mem_cons

theorem reports_fetch_bind {e : ω} {value : α} :
    Reports R (fetch e value >>= f) ↔ R e ∧ Reports R (f value) := by
  unfold Reports
  show (∀ e' ∈ e :: (f value).events, R e') ↔ _
  exact List.forall_mem_cons

theorem reports_ite {c : Prop} [Decidable c] {y : Traced ε ω α} :
    Reports R (if c then x else y) ↔ (c → Reports R x) ∧ (¬ c → Reports R y) := by
  split
  · next h => simp [h]
  · next h => simp [h]

/-- The events of a bind are those of the first half and, when it returns, of the second. -/
theorem reports_bind :
    Reports R (x >>= f) ↔ Reports R x ∧ ∀ a, x.result = .ok a → Reports R (f a) := by
  obtain ⟨events, result⟩ := x
  cases result with
  | error e =>
      constructor
      · intro h
        exact ⟨h, fun a ha => by cases ha⟩
      · rintro ⟨h, -⟩
        exact h
  | ok a =>
      constructor
      · intro h
        refine ⟨fun e he => h e (List.mem_append_left _ he), fun b hb => ?_⟩
        cases hb
        exact fun e he => h e (List.mem_append_right _ he)
      · rintro ⟨h, hf⟩ e he
        rcases List.mem_append.mp he with he | he
        · exact h e he
        · exact hf a rfl e he

end Events

section Results

variable {x : Traced ε ω α} {f : α → Traced ε ω β}

@[simp] theorem result_pure {a : α} : (pure a : Traced ε ω α).result = .ok a := rfl

@[simp] theorem result_silent {y : Except ε α} : (silent y : Traced ε ω α).result = y := rfl

@[simp] theorem result_report {e : ω} : (report e : Traced ε ω Unit).result = .ok () := rfl

theorem result_fetch_bind {e : ω} {value : α} :
    (fetch e value >>= f).result = (f value).result := rfl

/-- Without its events a computation is one that may stop. -/
@[simp] theorem result_bind : (x >>= f).result = x.result >>= fun a => (f a).result := by
  obtain ⟨events, result⟩ := x
  cases result with
  | error e => rfl
  | ok a => rfl

end Results

/-! ## Computations that always return -/

section Value

variable {R : ω → Prop} {x : Traced Empty ω α} {f : α → Traced Empty ω β}

/-- What a computation without a reason to stop returns. -/
def value (x : Traced Empty ω α) : α :=
  match x.result with
  | .ok a => a

@[simp] theorem value_pure {a : α} : (pure a : Traced Empty ω α).value = a := rfl

@[simp] theorem value_fetch_bind {e : ω} {a : α} {g : α → Traced Empty ω β} :
    (fetch e a >>= g).value = (g a).value := rfl

@[simp] theorem value_report_bind {e : ω} {g : Unit → Traced Empty ω β} :
    (report e >>= g).value = (g ()).value := rfl

theorem result_eq_value : x.result = .ok x.value := by
  obtain ⟨events, result⟩ := x
  cases result with
  | error e => cases e
  | ok a => rfl

@[simp] theorem value_bind : (x >>= f).value = (f x.value).value := by
  obtain ⟨events, result⟩ := x
  cases result with
  | error e => cases e
  | ok a => rfl

/-- Both halves of a bind run. -/
theorem reports_bind_value : Reports R (x >>= f) ↔ Reports R x ∧ Reports R (f x.value) := by
  rw [reports_bind]
  constructor
  · rintro ⟨hx, hf⟩
    exact ⟨hx, hf _ result_eq_value⟩
  · rintro ⟨hx, hf⟩
    refine ⟨hx, fun a ha => ?_⟩
    rw [result_eq_value] at ha
    cases ha
    exact hf

end Value

/-! ## Pre- and postconditions -/

/-- Every event of `x` satisfies `R`, and what `x` returns satisfies `P`. -/
structure Post (R : ω → Prop) (P : α → Prop) (x : Traced ε ω α) : Prop where
  reports : Reports R x
  of_ok : ∀ {a}, x.result = .ok a → P a

section Rules

variable {R R' : ω → Prop} {P P' : α → Prop} {Q : β → Prop} {x : Traced ε ω α}
  {f : α → Traced ε ω β}

theorem Post.pure {a : α} (h : P a) : Post R P (Pure.pure a : Traced ε ω α) where
  reports := reports_pure
  of_ok ha := by
    cases ha
    exact h

theorem Post.silent {y : Except ε α} (h : ∀ a, y = .ok a → P a) :
    Post R P (Traced.silent y : Traced ε ω α) where
  reports := reports_silent
  of_ok ha := h _ ha

/-- Sequencing: the second half may rely on what the first half establishes. -/
theorem Post.bind (hx : Post R P x) (hf : ∀ a, P a → Post R Q (f a)) : Post R Q (x >>= f) := by
  constructor
  · exact reports_bind.mpr ⟨hx.reports, fun a ha => (hf a (hx.of_ok ha)).reports⟩
  · intro b hb
    rw [result_bind] at hb
    cases ha : x.result with
    | error e =>
        rw [ha] at hb
        cases hb
    | ok a =>
        rw [ha] at hb
        exact (hf a (hx.of_ok ha)).of_ok hb

/-- The rule of consequence. -/
theorem Post.mono (hx : Post R P x) (hP : ∀ a, P a → P' a) : Post R P' x :=
  ⟨hx.reports, fun h => hP _ (hx.of_ok h)⟩

theorem Post.mono_reports (hx : Post R P x) (hR : ∀ e, R e → R' e) : Post R' P x :=
  ⟨fun e he => hR e (hx.reports e he), hx.of_ok⟩

end Rules

end Traced
