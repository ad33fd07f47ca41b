/-!
# Runs of a labelled transition system

A system is a partial step function: `step s l = some t` when label `l` can fire in `s`,
`none` when it cannot (a guard fails, or the modelled program stops). A *run* is a finite
sequence of firings, each of them also permitted by a side condition `ok`, which is how a
statement about "every run whose steps all meet a condition" is phrased.

The module names no particular system.
-/

namespace Transition

variable {σ ℓ : Type} {step : σ → ℓ → Option σ} {ok ok' : σ → ℓ → Prop}

/-- `Run step ok s ls t`: from `s` the labels `ls` fire in order, each permitted by `ok` in the
state it fires in, and lead to `t`. -/
inductive Run (step : σ → ℓ → Option σ) (ok : σ → ℓ → Prop) (s : σ) : List ℓ → σ → Prop
  | nil : Run step ok s [] s
  | snoc {ls : List ℓ} {t u : σ} {l : ℓ} :
      Run step ok s ls t → ok t l → step t l = some u → Run step ok s (ls ++ [l]) u

/-- The invariant rule: what holds at the start and is kept by every permitted step holds at
the end of every run. -/
theorem Run.invariant {I : σ → Prop} {s t : σ} {ls : List ℓ}
    (hrun : Run step ok s ls t) (h0 : I s)
    (hstep : ∀ {t l u}, I t → ok t l → step t l = some u → I u) : I t := by
  induction hrun with
  | nil => exact h0
  | snoc _ hok hs ih => exact hstep ih hok hs

/-- Relaxing the side condition keeps the run. -/
theorem Run.mono {s t : σ} {ls : List ℓ} (hrun : Run step ok s ls t)
    (h : ∀ t l, ok t l → ok' t l) : Run step ok' s ls t := by
  induction hrun with
  | nil => exact .nil
  | snoc _ hok hs ih => exact .snoc ih (h _ _ hok) hs

/-- A run of no steps. -/
theorem Run.nil_eq {s t : σ} (hrun : Run step ok s [] t) : t = s := by
  generalize hls : ([] : List ℓ) = ls at hrun
  cases hrun with
  | nil => rfl
  | snoc hrun hok hs => simp at hls

/-- Every step of the run that fires the labels `ls` satisfies `P` in the state it fires in. -/
def Throughout (step : σ → ℓ → Option σ) (ok : σ → ℓ → Prop) (s : σ) (ls : List ℓ)
    (P : σ → ℓ → Prop) : Prop :=
  ∀ ms l ns u, ls = ms ++ l :: ns → Run step ok s ms u → ok u l → P u l

theorem Throughout.of_append {s : σ} {ls ns : List ℓ} {P : σ → ℓ → Prop}
    (h : Throughout step ok s (ls ++ ns) P) : Throughout step ok s ls P := by
  intro ms l rest u hls
  refine h ms l (rest ++ ns) u ?_
  rw [hls, List.append_assoc]
  rfl

/-- A run whose every step meets a further condition is a run under both. -/
theorem Run.restrict {s t : σ} {ls : List ℓ} {P : σ → ℓ → Prop} (hrun : Run step ok s ls t)
    (h : Throughout step ok s ls P) : Run step (fun s l => ok s l ∧ P s l) s ls t := by
  induction hrun with
  | nil => exact .nil
  | @snoc ls t u l hrun hok hs ih =>
      exact .snoc (ih h.of_append) ⟨hok, h ls l [] t rfl hrun hok⟩ hs

/-- Two runs end to end. -/
theorem Run.append {s t u : σ} {ls ms : List ℓ} (h₁ : Run step ok s ls t)
    (h₂ : Run step ok t ms u) : Run step ok s (ls ++ ms) u := by
  induction h₂ with
  | nil => simpa using h₁
  | snoc _ hok hs ih =>
      rw [← List.append_assoc]
      exact .snoc ih hok hs

/-- Fire a list of labels, checking a decidable side condition at each. -/
def exec (step : σ → ℓ → Option σ) (ok : σ → ℓ → Prop) [∀ s l, Decidable (ok s l)] :
    σ → List ℓ → Option σ
  | s, [] => some s
  | s, l :: ls => if ok s l then (step s l).bind (exec step ok · ls) else none

/-- What `exec` computes is a run. -/
theorem run_of_exec [∀ s l, Decidable (ok s l)] {s t : σ} {ls : List ℓ}
    (h : exec step ok s ls = some t) : Run step ok s ls t := by
  induction ls generalizing s with
  | nil =>
      simp only [exec, Option.some.injEq] at h
      exact h ▸ .nil
  | cons l ls ih =>
      simp only [exec] at h
      split at h
      · rename_i hok
        obtain ⟨u, hu, h⟩ := Option.bind_eq_some_iff.mp h
        exact Run.append (.snoc .nil hok hu) (ih h)
      · cases h

/-! ## Histories -/

section History

variable {ε : Type} {obs : σ → ℓ → List ε}

/-- A run together with its history: what an observer notes, `obs s l` for the label `l` that fires
in `s`. -/
inductive Observed (step : σ → ℓ → Option σ) (ok : σ → ℓ → Prop) (obs : σ → ℓ → List ε) (s : σ) :
    List ε → σ → Prop
  | nil : Observed step ok obs s [] s
  | snoc {es : List ε} {t u : σ} {l : ℓ} :
      Observed step ok obs s es t → ok t l → step t l = some u →
      Observed step ok obs s (es ++ obs t l) u

/-- The invariant rule for a state and its history. -/
theorem Observed.invariant {I : List ε → σ → Prop} {s t : σ} {es : List ε}
    (hrun : Observed step ok obs s es t) (h0 : I [] s)
    (hstep : ∀ {es t l u}, I es t → ok t l → step t l = some u → I (es ++ obs t l) u) : I es t := by
  induction hrun with
  | nil => exact h0
  | snoc _ hok hs ih => exact hstep ih hok hs

/-- Every run has a history. -/
theorem Run.observed {s t : σ} {ls : List ℓ} (hrun : Run step ok s ls t) :
    ∃ es, Observed step ok obs s es t := by
  induction hrun with
  | nil => exact ⟨[], .nil⟩
  | snoc _ hok hs ih =>
      obtain ⟨es, hes⟩ := ih
      exact ⟨_, .snoc hes hok hs⟩

theorem Observed.append {s t u : σ} {es fs : List ε} (h₁ : Observed step ok obs s es t)
    (h₂ : Observed step ok obs t fs u) : Observed step ok obs s (es ++ fs) u := by
  induction h₂ with
  | nil => simpa using h₁
  | snoc _ hok hs ih =>
      rw [← List.append_assoc]
      exact .snoc ih hok hs

/-- Fire a list of labels as `exec` does and note the history. -/
def watch (step : σ → ℓ → Option σ) (ok : σ → ℓ → Prop) [∀ s l, Decidable (ok s l)]
    (obs : σ → ℓ → List ε) : σ → List ℓ → Option (List ε × σ)
  | s, [] => some ([], s)
  | s, l :: ls =>
      if ok s l then
        (step s l).bind fun t => (watch step ok obs t ls).map fun (es, u) => (obs s l ++ es, u)
      else none

theorem observed_of_watch [∀ s l, Decidable (ok s l)] {s t : σ} {ls : List ℓ} {es : List ε}
    (h : watch step ok obs s ls = some (es, t)) : Observed step ok obs s es t := by
  induction ls generalizing s es with
  | nil =>
      cases h
      exact .nil
  | cons l ls ih =>
      simp only [watch] at h
      split at h
      · rename_i hok
        obtain ⟨u, hu, h⟩ := Option.bind_eq_some_iff.mp h
        obtain ⟨⟨fs, v⟩, hfs, h⟩ := Option.map_eq_some_iff.mp h
        cases h
        have hone : Observed step ok obs s ([] ++ obs s l) u := .snoc .nil hok hu
        exact hone.append (ih hfs)
      · cases h

end History

end Transition
