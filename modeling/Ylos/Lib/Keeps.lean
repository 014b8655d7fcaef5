import Ylos.Lib.Exec
import Mathlib.Order.Defs.Unbundled

/-! # Code that keeps a relation

If a relation between the state before and the state after is a preorder, code keeps it as
soon as its parts do. -/

namespace Ylos.Exec

variable {σ ε α β : Type} {R R' : σ → σ → Prop} {good : ε → Prop} {s : σ}

/-- Wherever `x` runs, its end is related to its beginning. -/
def Keeps (R : σ → σ → Prop) (x : Exec σ ε α) : Prop :=
  ∀ s, wp (fun _ => True) x (fun _ s' => R s s') s

/-- Less is known when less is assumed of the events. -/
theorem wp_weaken {Q : α → σ → Prop} {x : Exec σ ε α} (h : wp (fun _ => True) x Q s) :
    wp good x Q s :=
  fun a s' l hrun _ => h a s' l hrun fun _ _ => trivial

/-- What the rest of the code reaches from everywhere does not depend on the first part. -/
theorem wp_rest {Q : β → σ → Prop} {x : Exec σ ε α} {f : α → Exec σ ε β}
    (hf : ∀ a s, wp good (f a) Q s) : wp good (x >>= f) Q s :=
  (wp_bind x f).mpr fun a s' _ _ _ => hf a s'

theorem Keeps.wp {Q : α → σ → Prop} {x : Exec σ ε α} (hx : Keeps R x)
    (hQ : ∀ a s', R s s' → Q a s') : wp good x Q s :=
  wp_weaken (wp_mono (hx s) hQ)

/-- Of the events nothing is known. -/
theorem after_of_wp {Q : α → σ → Prop} {x : Exec σ ε α} (h : wp (fun _ => True) x Q s) :
    after x (fun a s' _ => Q a s') s :=
  fun a s' l hrun => h a s' l hrun fun _ _ => trivial

theorem Keeps.after {Q : α → σ → List ε → Prop} {x : Exec σ ε α} (hx : Keeps R x)
    (hQ : ∀ a s' l, R s s' → Q a s' l) : after x Q s :=
  after_mono (after_of_wp (hx s)) hQ

theorem Keeps.mono {x : Exec σ ε α} (hx : Keeps R x) (himp : ∀ s s', R s s' → R' s s') :
    Keeps R' x :=
  fun s => wp_mono (hx s) fun _ s' h => himp s s' h

theorem keeps_modify {f : σ → σ} (h : ∀ s, R s (f s)) : Keeps R (modify f : Exec σ ε Unit) :=
  fun s => (wp_modify f).mpr (h s)

theorem keeps_fault (e : Fault) : Keeps R (fault e : Exec σ ε α) := fun _ => wp_fault e

theorem Keeps.ite {p : Prop} [Decidable p] {x y : Exec σ ε α} (hx : Keeps R x) (hy : Keeps R y) :
    Keeps R (if p then x else y) := by
  split
  · exact hx
  · exact hy

section Preorder

variable [IsPreorder σ R]

theorem keeps_pure (a : α) : Keeps R (pure a : Exec σ ε α) := fun s => (wp_pure a).mpr (refl s)

theorem Keeps.bind {x : Exec σ ε α} {f : α → Exec σ ε β} (hx : Keeps R x)
    (hf : ∀ a, Keeps R (f a)) : Keeps R (x >>= f) := by
  intro s
  rw [wp_bind]
  exact hx.wp fun a s₁ h₁ => (hf a).wp fun _ s₂ h₂ => IsTrans.trans _ _ _ h₁ h₂

theorem keeps_get : Keeps R (get : Exec σ ε σ) := fun s => wp_get.mpr (refl s)

theorem keeps_gets (f : σ → α) : Keeps R (gets f : Exec σ ε α) := fun s => (wp_gets f).mpr (refl s)

theorem keeps_note (e : ε) : Keeps R (note e : Exec σ ε Unit) :=
  fun s => (wp_note e).mpr fun _ => refl s

theorem keeps_check (p : Prop) [Decidable p] : Keeps R (check p : Exec σ ε Unit) :=
  fun s => (wp_check p).mpr fun _ => refl s

theorem keeps_lift (r : Except Fault α) : Keeps R (lift r : Exec σ ε α) :=
  fun s => (wp_lift r).mpr fun _ _ => refl s

theorem keeps_deref (o : Option α) : Keeps R (deref o : Exec σ ε α) :=
  fun s => (wp_deref o).mpr fun _ _ => refl s

end Preorder

/-! ## Code without events -/

/-- No run of `x` has events. -/
def Silent (x : Exec σ ε α) : Prop := ∀ s a s' l, x.run s = .ok (a, s', l) → l = []

section Silence

variable {x : Exec σ ε α} {f : α → Exec σ ε β}

/-- Of silent code only the state is known. -/
theorem Silent.after_bind {Q : β → σ → List ε → Prop} {R : α → σ → Prop} (hx : Silent x)
    (hwp : wp (fun _ => True) x R s) (hf : ∀ a s', R a s' → after (f a) Q s') :
    after (x >>= f) Q s := by
  intro b s'' l hrun
  obtain ⟨a, s', l₁, l₂, h₁, h₂, rfl⟩ := bind_eq_ok.mp hrun
  rw [hx s a s' l₁ h₁, List.nil_append]
  exact hf a s' (hwp a s' l₁ h₁ fun _ _ => trivial) b s'' l₂ h₂

theorem Silent.bind (hx : Silent x) (hf : ∀ a, Silent (f a)) : Silent (x >>= f) := by
  intro s b s'' l hrun
  obtain ⟨a, s', l₁, l₂, h₁, h₂, rfl⟩ := bind_eq_ok.mp hrun
  rw [hx s a s' l₁ h₁, hf a s' b s'' l₂ h₂, List.nil_append]

theorem Silent.ite {p : Prop} [Decidable p] {y : Exec σ ε α} (hx : Silent x) (hy : Silent y) :
    Silent (if p then x else y) := by
  split
  · exact hx
  · exact hy

theorem silent_pure (a : α) : Silent (pure a : Exec σ ε α) := by
  rintro s _ _ _ ⟨⟩
  rfl

theorem silent_get : Silent (get : Exec σ ε σ) := by
  rintro s _ _ _ ⟨⟩
  rfl

theorem silent_modify (g : σ → σ) : Silent (modify g : Exec σ ε Unit) := by
  rintro s _ _ _ ⟨⟩
  rfl

theorem silent_fault (e : Fault) : Silent (fault e : Exec σ ε α) := by
  rintro s _ _ _ ⟨⟩

theorem silent_gets (g : σ → α) : Silent (gets g : Exec σ ε α) := by
  rintro s _ _ _ ⟨⟩
  rfl

theorem silent_check (p : Prop) [Decidable p] : Silent (check p : Exec σ ε Unit) :=
  Silent.ite (silent_pure ()) (silent_fault _)

theorem silent_lift (r : Except Fault α) : Silent (lift r : Exec σ ε α) := by
  cases r with
  | error e =>
      rintro s _ _ _ ⟨⟩
  | ok a =>
      rintro s _ _ _ ⟨⟩
      rfl

theorem silent_deref (o : Option α) : Silent (deref o : Exec σ ε α) := by
  cases o with
  | none => exact silent_fault _
  | some a => exact silent_pure a

end Silence

/-! ## Silent code that keeps a relation -/

/-- No run of `x` has events, and its end is related to its beginning. -/
structure Tacit (R : σ → σ → Prop) (x : Exec σ ε α) : Prop where
  keeps : Keeps R x
  silent : Silent x

section Tacit

variable {x : Exec σ ε α} {f : α → Exec σ ε β}

theorem Tacit.wp {Q : α → σ → Prop} (hx : Tacit R x) (hQ : ∀ a s', R s s' → Q a s') :
    wp good x Q s :=
  hx.keeps.wp hQ

/-- Tacit code is passed over. -/
theorem Tacit.after_bind {Q : β → σ → List ε → Prop} (hx : Tacit R x)
    (hf : ∀ a s', R s s' → after (f a) Q s') : after (x >>= f) Q s :=
  hx.silent.after_bind (hx.keeps s) hf

theorem tacit_modify {g : σ → σ} (h : ∀ s, R s (g s)) : Tacit R (modify g : Exec σ ε Unit) :=
  ⟨keeps_modify h, silent_modify g⟩

theorem tacit_fault (e : Fault) : Tacit R (fault e : Exec σ ε α) := ⟨keeps_fault e, silent_fault e⟩

theorem Tacit.ite {p : Prop} [Decidable p] {y : Exec σ ε α} (hx : Tacit R x) (hy : Tacit R y) :
    Tacit R (if p then x else y) :=
  ⟨hx.keeps.ite hy.keeps, hx.silent.ite hy.silent⟩

variable [IsPreorder σ R]

theorem Tacit.bind (hx : Tacit R x) (hf : ∀ a, Tacit R (f a)) : Tacit R (x >>= f) :=
  ⟨hx.keeps.bind fun a => (hf a).keeps, hx.silent.bind fun a => (hf a).silent⟩

theorem tacit_pure (a : α) : Tacit R (pure a : Exec σ ε α) := ⟨keeps_pure a, silent_pure a⟩

theorem tacit_gets (g : σ → α) : Tacit R (gets g : Exec σ ε α) := ⟨keeps_gets g, silent_gets g⟩

theorem tacit_check (p : Prop) [Decidable p] : Tacit R (check p : Exec σ ε Unit) :=
  ⟨keeps_check p, silent_check p⟩

theorem tacit_lift (r : Except Fault α) : Tacit R (lift r : Exec σ ε α) :=
  ⟨keeps_lift r, silent_lift r⟩

theorem tacit_deref (o : Option α) : Tacit R (deref o : Exec σ ε α) :=
  ⟨keeps_deref o, silent_deref o⟩

end Tacit

end Ylos.Exec
