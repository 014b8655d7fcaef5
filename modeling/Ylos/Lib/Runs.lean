import Mathlib.Logic.Basic

/-! # Runs of a labelled transition system -/

namespace Ylos

variable {σ α : Type} {step : σ → α → σ → Prop} {ok ok' : σ → α → Prop} {s s' s'' : σ}

/-- `s'` is reached from `s` by steps that are all `ok` in the state they are taken in. -/
inductive Run (step : σ → α → σ → Prop) (ok : σ → α → Prop) (s : σ) : σ → Prop where
  | refl : Run step ok s s
  | tail {s' s'' : σ} {a : α} : Run step ok s s' → ok s' a → step s' a s'' → Run step ok s s''

namespace Run

/-- What every step keeps, a run keeps. -/
theorem invariant {P : σ → Prop}
    (hstep : ∀ s a s', P s → ok s a → step s a s' → P s') (hrun : Run step ok s s')
    (h : P s) : P s' := by
  induction hrun with
  | refl => exact h
  | tail _ hok hs ih => exact hstep _ _ _ ih hok hs

theorem weaken (h : ∀ s a, ok s a → ok' s a) (hrun : Run step ok s s') : Run step ok' s s' := by
  induction hrun with
  | refl => exact .refl
  | tail _ hok hs ih => exact ih.tail (h _ _ hok) hs

theorem trans (h : Run step ok s s') (h' : Run step ok s' s'') : Run step ok s s'' := by
  induction h' with
  | refl => exact h
  | tail _ hok hs ih => exact ih.tail hok hs

theorem head {a : α} (hok : ok s a) (hs : step s a s') (h : Run step ok s' s'') :
    Run step ok s s'' :=
  (refl.tail hok hs).trans h

end Run

end Ylos
