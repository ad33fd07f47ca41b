import Mathlib.Data.List.Count

/-!
# Things that are about to happen

A system of threads, each with a list of instructions it still has to execute. `f i = some k` says
that instruction `i` does a certain thing to the object `k`; `occurs f k code` counts how often
that is about to happen in `code`. `AtMostOnce` says that all threads together are about to do it
at most once to each object.

The module names no particular system.
-/

namespace Pending

variable {τ ι κ : Type} [DecidableEq κ] {f : ι → Option κ} {k : κ} {i : ι} {l l' : List ι}
  {code code' : τ → List ι} {c : τ}

def occurs (f : ι → Option κ) (k : κ) (l : List ι) : Nat :=
  l.countP fun i => f i = some k

@[simp] theorem occurs_nil : occurs f k [] = 0 := rfl

@[simp] theorem occurs_cons :
    occurs f k (i :: l) = occurs f k l + if f i = some k then 1 else 0 := by
  simp [occurs, List.countP_cons]

@[simp] theorem occurs_append : occurs f k (l ++ l') = occurs f k l + occurs f k l' := by
  simp [occurs]

theorem occurs_eq_zero (h : ∀ i ∈ l, f i = none) : occurs f k l = 0 := by
  unfold occurs
  rw [List.countP_eq_zero]
  intro i hi
  simp [h i hi]

theorem occurs_pos (hi : i ∈ l) (hf : f i = some k) : 0 < occurs f k l := by
  unfold occurs
  rw [List.countP_pos_iff]
  exact ⟨i, hi, by simpa using hf⟩

structure AtMostOnce (f : ι → Option κ) (code : τ → List ι) : Prop where
  once : ∀ k u, occurs f k (code u) ≤ 1
  one : ∀ k u v, 0 < occurs f k (code u) → 0 < occurs f k (code v) → u = v

/-- Executing instructions takes occurrences away. -/
theorem AtMostOnce.mono (h : AtMostOnce f code)
    (hle : ∀ k u, occurs f k (code' u) ≤ occurs f k (code u)) : AtMostOnce f code' where
  once k u := Nat.le_trans (hle k u) (h.once k u)
  one k u v hu hv := h.one k u v (Nat.lt_of_lt_of_le hu (hle k u)) (Nat.lt_of_lt_of_le hv (hle k v))

/-- Thread `c` may be about to do it to `k` when nobody else is. -/
theorem AtMostOnce.add (h : AtMostOnce f code) (hnone : ∀ u, occurs f k (code u) = 0)
    (hother : ∀ u, u ≠ c → code' u = code u)
    (hself : ∀ k', occurs f k' (code' c) ≤ occurs f k' (code c) + if k' = k then 1 else 0) :
    AtMostOnce f code' := by
  refine ⟨fun k' u => ?_, fun k' u v hu hv => ?_⟩
  · by_cases huc : u = c
    · subst huc
      have hle := hself k'
      by_cases hk : k' = k
      · subst hk
        simpa [hnone u] using hle
      · simp only [hk, if_false, Nat.add_zero] at hle
        exact Nat.le_trans hle (h.once k' u)
    · rw [hother u huc]
      exact h.once k' u
  · by_cases hk : k' = k
    · -- For `k` itself only `c` is left.
      subst hk
      have honly : ∀ w, 0 < occurs f k' (code' w) → w = c := fun w hw => by
        by_contra hwc
        rw [hother w hwc, hnone w] at hw
        exact Nat.lt_irrefl 0 hw
      rw [honly u hu, honly v hv]
    · have hold : ∀ w, 0 < occurs f k' (code' w) → 0 < occurs f k' (code w) := fun w hw => by
        by_cases hwc : w = c
        · subst hwc
          have hle := hself k'
          simp only [hk, if_false, Nat.add_zero] at hle
          exact Nat.lt_of_lt_of_le hw hle
        · rwa [← hother w hwc]
      exact h.one k' u v (hold u hu) (hold v hv)

/-- Once `c` has done it to `k`, nobody is about to. -/
theorem AtMostOnce.done (h : AtMostOnce f code) (hother : ∀ u, u ≠ c → code' u = code u)
    (hself : occurs f k (code' c) + 1 ≤ occurs f k (code c)) (u : τ) :
    occurs f k (code' u) = 0 := by
  by_cases hu : u = c
  · subst hu
    have := h.once k u
    omega
  · rw [hother u hu]
    by_contra hpos
    exact hu (h.one k u c (Nat.pos_of_ne_zero hpos) (by omega))

end Pending
