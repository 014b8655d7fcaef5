import Mathlib.Algebra.Order.Ring.Nat
import Mathlib.Logic.Function.Basic

/-! # Words on a stack

A stack in word memory grows downwards in steps of four. -/

namespace Ylos.Words

variable {α : Type} {m m' : ℕ → α} {p i n : ℕ} {w : α} {ws ws' : List α}

/-- The words from `p` on are `ws`. -/
def Holds (m : ℕ → α) : (p : ℕ) → (ws : List α) → Prop
  | _, [] => True
  | p, w :: ws => m p = w ∧ Holds m (p + 4) ws

@[simp] theorem holds_nil : Holds m p [] := trivial

@[simp] theorem holds_cons : Holds m p (w :: ws) ↔ m p = w ∧ Holds m (p + 4) ws := Iff.rfl

theorem Holds.congr (h : Holds m p ws)
    (heq : ∀ a, p ≤ a → a < p + 4 * ws.length → m' a = m a) : Holds m' p ws := by
  induction ws generalizing p with
  | nil => trivial
  | cons w ws ih =>
      rw [List.length_cons] at heq
      refine ⟨?_, ?_⟩
      · rw [heq p (Nat.le_refl p) (by omega)]
        exact h.1
      · exact ih h.2 fun a ha hlt => heq a (by omega) (by omega)

/-- The words in a copy. -/
theorem Holds.copy (h : Holds m p ws) {q : ℕ}
    (heq : ∀ i, i < 4 * ws.length → m' (q + i) = m (p + i)) : Holds m' q ws := by
  induction ws generalizing p q with
  | nil => trivial
  | cons w ws ih =>
      rw [List.length_cons] at heq
      refine ⟨(heq 0 (by omega)).trans h.1, ih h.2 fun i hi => ?_⟩
      have hnext := heq (4 + i) (by omega)
      rw [← Nat.add_assoc, ← Nat.add_assoc] at hnext
      exact hnext

theorem holds_append :
    Holds m p (ws ++ ws') ↔ Holds m p ws ∧ Holds m (p + 4 * ws.length) ws' := by
  induction ws generalizing p with
  | nil => simp
  | cons w ws ih =>
      have hnext : p + 4 + 4 * ws.length = p + 4 * (ws.length + 1) := by omega
      simp only [List.cons_append, holds_cons, ih, List.length_cons, hnext, and_assoc]

theorem Holds.set (h : Holds m p ws) (v : α) (i : ℕ) :
    Holds (Function.update m (p + 4 * i) v) p (ws.set i v) := by
  induction ws generalizing p i with
  | nil => trivial
  | cons w ws ih =>
      cases i with
      | zero =>
          refine ⟨Function.update_self _ _ _, h.2.congr fun a ha _ => ?_⟩
          exact Function.update_of_ne (by omega) _ _
      | succ i =>
          have hnext : p + 4 * (i + 1) = p + 4 + 4 * i := by omega
          rw [hnext]
          refine ⟨?_, ih h.2 i⟩
          rw [Function.update_of_ne (by omega)]
          exact h.1

/-- Push `ws` one after the other below `p`. -/
def pushed (m : ℕ → α) : (p : ℕ) → (ws : List α) → ℕ → α
  | _, [] => m
  | p, w :: ws => pushed (Function.update m (p - 4) w) (p - 4) ws

theorem pushed_apply_of_le (hp : 4 * ws.length ≤ p) (h : p ≤ i) : pushed m p ws i = m i := by
  induction ws generalizing m p with
  | nil => rfl
  | cons w ws ih =>
      rw [List.length_cons] at hp
      unfold pushed
      rw [ih (by omega) (by omega), Function.update_of_ne (by omega)]

theorem pushed_apply_of_lt (h : i < p - 4 * ws.length) : pushed m p ws i = m i := by
  induction ws generalizing m p with
  | nil => rfl
  | cons w ws ih =>
      rw [List.length_cons] at h
      unfold pushed
      rw [ih (by omega), Function.update_of_ne (by omega)]

theorem pushed_append :
    pushed m p (ws ++ ws') = pushed (pushed m p ws) (p - 4 * ws.length) ws' := by
  induction ws generalizing m p with
  | nil => rfl
  | cons w ws ih =>
      have hnext : p - 4 - 4 * ws.length = p - 4 * (ws.length + 1) := by omega
      rw [List.cons_append, pushed, ih, hnext, pushed, List.length_cons]

/-- The last word that was pushed is on top. -/
theorem holds_pushed (m : ℕ → α) (p : ℕ) (ws : List α) (hp : 4 * ws.length ≤ p) :
    Holds (pushed m p ws) (p - 4 * ws.length) ws.reverse := by
  induction ws generalizing m p with
  | nil => trivial
  | cons w ws ih =>
      rw [List.length_cons] at hp
      have htop : p - 4 * (ws.length + 1) = p - 4 - 4 * ws.length := by omega
      have hend : p - 4 - 4 * ws.length + 4 * ws.reverse.length = p - 4 := by
        rw [List.length_reverse]
        omega
      rw [List.length_cons, List.reverse_cons, htop, holds_append, hend]
      unfold pushed
      refine ⟨ih _ _ (by omega), ?_, trivial⟩
      rw [pushed_apply_of_le (by omega) (Nat.le_refl _), Function.update_self]

/-- Store `ws` from `p` on. -/
def stored (m : ℕ → α) : (p : ℕ) → (ws : List α) → ℕ → α
  | _, [] => m
  | p, w :: ws => stored (Function.update m p w) (p + 4) ws

theorem stored_apply_of_lt (h : i < p ∨ p + 4 * ws.length ≤ i) : stored m p ws i = m i := by
  induction ws generalizing m p with
  | nil => rfl
  | cons w ws ih =>
      rw [List.length_cons] at h
      unfold stored
      rw [ih (by omega), Function.update_of_ne (by omega)]

theorem holds_stored : Holds (stored m p ws) p ws := by
  induction ws generalizing m p with
  | nil => trivial
  | cons w ws ih =>
      refine ⟨?_, ih⟩
      unfold stored
      rw [stored_apply_of_lt (by omega), Function.update_self]

end Ylos.Words
