import Ylos.Lib.Exec

/-! # Code with ghost results

Code that says more than another, and checks more, but otherwise does the same. -/

namespace Ylos.Exec

variable {σ ε α β γ : Type} {f : α → β} {x : Exec σ ε α} {y : Exec σ ε β}

/-- Whenever `x` returns, `y` returns the same up to `f`, with the same events. -/
def Erases (f : α → β) (x : Exec σ ε α) (y : Exec σ ε β) : Prop :=
  ∀ s a s' l, x.run s = .ok (a, s', l) → y.run s = .ok (f a, s', l)

theorem erases_self : Erases id x x := fun _ _ _ _ h => h

theorem erases_pure (a : α) : Erases f (pure a : Exec σ ε α) (pure (f a)) := by
  rintro s _ _ _ ⟨⟩
  rfl

/-- The part that both have in common may come first. -/
theorem erases_bind {z : Exec σ ε γ} {g : γ → Exec σ ε α} {h : γ → Exec σ ε β}
    (hrest : ∀ c, Erases f (g c) (h c)) : Erases f (z >>= g) (z >>= h) := by
  intro s a s' l hrun
  obtain ⟨c, s₁, l₁, l₂, hz, hg, rfl⟩ := bind_eq_ok.mp hrun
  exact bind_eq_ok.mpr ⟨c, s₁, l₁, l₂, hz, hrest c _ _ _ _ hg, rfl⟩

/-- The ghost result is added at the end. -/
theorem erases_return {z : Exec σ ε γ} {e : γ → β} {g : γ → α} (h : Erases e z y)
    (hg : ∀ c, f (g c) = e c) : Erases f (z >>= fun c => pure (g c)) y := by
  intro s a s' l hrun
  obtain ⟨c, s₁, l₁, l₂, hz, hret, rfl⟩ := bind_eq_ok.mp hrun
  cases hret
  rw [List.append_nil, hg]
  exact h _ _ _ _ hz

theorem erases_check {p : Prop} [Decidable p] (h : Erases f x y) :
    Erases f (check p >>= fun _ => x) y := by
  intro s a s' l hrun
  obtain ⟨_, s₁, l₁, l₂, hcheck, hx, rfl⟩ := bind_eq_ok.mp hrun
  by_cases hp : p
  · rw [run_check_pos hp] at hcheck
    cases hcheck
    exact h _ _ _ _ hx
  · rw [run_check_neg hp] at hcheck
    cases hcheck

theorem erases_ite {p : Prop} [Decidable p] {x' : Exec σ ε α} {y' : Exec σ ε β}
    (h : Erases f x y) (h' : Erases f x' y') :
    Erases f (if p then x else x') (if p then y else y') := by
  split
  · exact h
  · exact h'

end Ylos.Exec
