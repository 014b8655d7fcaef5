import Mathlib.Logic.Basic

/-! # Stateful code that may stop

`Exec σ ε α` is code over a state `σ` that returns an `α`, stops at a fault, and
reports events `ε` on its way. Events are a history: no code can read them. -/

namespace Ylos

/-- The ways in which code stops short of returning. -/
inductive Fault where
  /-- An assertion failed, or the code panicked. -/
  | assertion
  /-- An access left the object it was meant for. -/
  | wild
  deriving DecidableEq, Repr

def Exec (σ ε α : Type) : Type := σ → Except Fault (α × σ × List ε)

namespace Exec

variable {σ ε α β : Type}

protected def pure (a : α) : Exec σ ε α := fun s => .ok (a, s, [])

protected def bind (x : Exec σ ε α) (f : α → Exec σ ε β) : Exec σ ε β := fun s =>
  match x s with
  | .error e => .error e
  | .ok (a, s', l) =>
    match f a s' with
    | .error e => .error e
    | .ok (b, s'', l') => .ok (b, s'', l ++ l')

instance : Monad (Exec σ ε) where
  pure := Exec.pure
  bind := Exec.bind

def run (x : Exec σ ε α) (s : σ) : Except Fault (α × σ × List ε) := x s

def get : Exec σ ε σ := fun s => .ok (s, s, [])

def gets (f : σ → α) : Exec σ ε α := fun s => .ok (f s, s, [])

def modify (f : σ → σ) : Exec σ ε Unit := fun s => .ok ((), f s, [])

def fault (e : Fault) : Exec σ ε α := fun _ => .error e

def note (e : ε) : Exec σ ε Unit := fun s => .ok ((), s, [e])

def check (p : Prop) [Decidable p] : Exec σ ε Unit :=
  if p then pure () else fault .assertion

/-- Code that does not touch the state. -/
def lift (x : Except Fault α) : Exec σ ε α := fun s =>
  match x with
  | .error e => .error e
  | .ok a => .ok (a, s, [])

/-- The value behind a pointer; following a null pointer leaves the object. -/
def deref : Option α → Exec σ ε α
  | some a => pure a
  | none => fault .wild

/-! ## Runs as equations -/

section Equations

variable {s s' : σ} {a : α} {x : Exec σ ε α}

@[simp] theorem run_pure (a : α) (s : σ) : (pure a : Exec σ ε α).run s = .ok (a, s, []) := rfl

@[simp] theorem run_get (s : σ) : (get : Exec σ ε σ).run s = .ok (s, s, []) := rfl

@[simp] theorem run_gets (f : σ → α) (s : σ) :
    (gets f : Exec σ ε α).run s = .ok (f s, s, []) := rfl

@[simp] theorem run_modify (f : σ → σ) (s : σ) :
    (modify f : Exec σ ε Unit).run s = .ok ((), f s, []) := rfl

@[simp] theorem run_fault (e : Fault) (s : σ) : (fault e : Exec σ ε α).run s = .error e := rfl

@[simp] theorem run_note (e : ε) (s : σ) : (note e).run s = .ok ((), s, [e]) := rfl

@[simp] theorem run_lift_ok (a : α) (s : σ) :
    (lift (.ok a) : Exec σ ε α).run s = .ok (a, s, []) := rfl

@[simp] theorem run_lift_error (e : Fault) (s : σ) :
    (lift (.error e) : Exec σ ε α).run s = .error e := rfl

theorem run_check (p : Prop) [Decidable p] (s : σ) :
    (check p : Exec σ ε Unit).run s = if p then .ok ((), s, []) else .error .assertion := by
  unfold check
  split <;> rfl

theorem run_check_pos {p : Prop} [Decidable p] (h : p) (s : σ) :
    (check p : Exec σ ε Unit).run s = .ok ((), s, []) := by
  rw [run_check, if_pos h]

theorem run_check_neg {p : Prop} [Decidable p] (h : ¬p) (s : σ) :
    (check p : Exec σ ε Unit).run s = .error .assertion := by
  rw [run_check, if_neg h]

theorem run_bind_ok {l : List ε} (f : α → Exec σ ε β) (h : x.run s = .ok (a, s', l)) :
    (x >>= f).run s =
      match (f a).run s' with
      | .error e => .error e
      | .ok (b, s'', l') => .ok (b, s'', l ++ l') := by
  change Exec.bind x f s = _
  change x s = _ at h
  simp only [Exec.bind, h]
  rfl

theorem run_bind_error {e : Fault} (f : α → Exec σ ε β) (h : x.run s = .error e) :
    (x >>= f).run s = .error e := by
  change Exec.bind x f s = _
  change x s = _ at h
  simp only [Exec.bind, h]

/-- A silent first part leaves the run of the second as it is. -/
theorem run_bind (f : α → Exec σ ε β) (h : x.run s = .ok (a, s', [])) :
    (x >>= f).run s = (f a).run s' := by
  rw [run_bind_ok f h]
  cases (f a).run s' <;> rfl

theorem bind_eq_ok {f : α → Exec σ ε β} {b : β} {s'' : σ} {l : List ε} :
    (x >>= f).run s = .ok (b, s'', l) ↔
      ∃ a s' l₁ l₂, x.run s = .ok (a, s', l₁) ∧ (f a).run s' = .ok (b, s'', l₂) ∧
        l = l₁ ++ l₂ := by
  constructor
  · intro h
    cases hx : x.run s with
    | error e =>
        rw [run_bind_error f hx] at h
        cases h
    | ok first =>
        obtain ⟨a, s', l₁⟩ := first
        rw [run_bind_ok f hx] at h
        cases hf : (f a).run s' with
        | error e => simp [hf] at h
        | ok second =>
            obtain ⟨b', t, l₂⟩ := second
            simp only [hf] at h
            cases h
            exact ⟨a, s', l₁, l₂, rfl, hf, rfl⟩
  · rintro ⟨a, s', l₁, l₂, hx, hf, rfl⟩
    rw [run_bind_ok f hx, hf]

end Equations

/-! ## Weakest preconditions -/

/-- Whenever `x` returns from `s` with events that are all `good`, `Q` holds. -/
def wp (good : ε → Prop) (x : Exec σ ε α) (Q : α → σ → Prop) (s : σ) : Prop :=
  ∀ a s' l, x.run s = .ok (a, s', l) → (∀ e ∈ l, good e) → Q a s'

section Rules

variable {good : ε → Prop} {Q : α → σ → Prop} {s : σ}

@[simp] theorem wp_pure (a : α) : wp good (pure a) Q s ↔ Q a s := by
  constructor
  · intro h
    exact h a s [] rfl (by simp)
  · rintro h _ _ _ ⟨⟩ _
    exact h

@[simp] theorem wp_bind {Q : β → σ → Prop} (x : Exec σ ε α) (f : α → Exec σ ε β) :
    wp good (x >>= f) Q s ↔ wp good x (fun a s' => wp good (f a) Q s') s := by
  constructor
  · intro h a s' l₁ hx hl₁ b s'' l₂ hf hl₂
    refine h b s'' (l₁ ++ l₂) (bind_eq_ok.mpr ⟨a, s', l₁, l₂, hx, hf, rfl⟩) ?_
    intro e he
    exact (List.mem_append.mp he).elim (hl₁ e) (hl₂ e)
  · intro h b s'' l hb hl
    obtain ⟨a, s', l₁, l₂, hx, hf, rfl⟩ := bind_eq_ok.mp hb
    exact h a s' l₁ hx (fun e he => hl e (by simp [he])) b s'' l₂ hf
      (fun e he => hl e (by simp [he]))

@[simp] theorem wp_get {Q : σ → σ → Prop} : wp good get Q s ↔ Q s s := by
  constructor
  · intro h
    exact h s s [] rfl (by simp)
  · rintro h _ _ _ ⟨⟩ _
    exact h

@[simp] theorem wp_gets (f : σ → α) : wp good (gets f) Q s ↔ Q (f s) s := by
  constructor
  · intro h
    exact h (f s) s [] rfl (by simp)
  · rintro h _ _ _ ⟨⟩ _
    exact h

@[simp] theorem wp_modify {Q : Unit → σ → Prop} (f : σ → σ) :
    wp good (modify f) Q s ↔ Q () (f s) := by
  constructor
  · intro h
    exact h () (f s) [] rfl (by simp)
  · rintro h _ _ _ ⟨⟩ _
    exact h

@[simp] theorem wp_fault (e : Fault) : wp good (fault e : Exec σ ε α) Q s := by
  rintro _ _ _ ⟨⟩

@[simp] theorem wp_note {Q : Unit → σ → Prop} (e : ε) :
    wp good (note e) Q s ↔ (good e → Q () s) := by
  constructor
  · intro h he
    exact h () s [e] rfl (by simpa using he)
  · rintro h _ _ _ ⟨⟩ hl
    exact h (hl e (by simp))

@[simp] theorem wp_check {Q : Unit → σ → Prop} (p : Prop) [Decidable p] :
    wp good (check p) Q s ↔ (p → Q () s) := by
  unfold check
  split
  · rename_i hp
    simp [hp]
  · rename_i hp
    simp [hp]

@[simp] theorem wp_lift (x : Except Fault α) :
    wp good (lift x) Q s ↔ ∀ a, x = .ok a → Q a s := by
  cases x with
  | error e =>
      simp only [reduceCtorEq, false_implies, implies_true, iff_true]
      rintro _ _ _ ⟨⟩
  | ok a =>
      constructor
      · rintro h _ ⟨⟩
        exact h a s [] rfl (by simp)
      · rintro h _ _ _ ⟨⟩ _
        exact h a rfl

@[simp] theorem wp_deref (o : Option α) :
    wp good (deref o) Q s ↔ ∀ a, o = some a → Q a s := by
  cases o with
  | none => simp [deref]
  | some a => simp [deref]

theorem wp_ite (p : Prop) [Decidable p] (x y : Exec σ ε α) :
    wp good (if p then x else y) Q s ↔ (p → wp good x Q s) ∧ (¬p → wp good y Q s) := by
  split
  · rename_i hp
    simp [hp]
  · rename_i hp
    simp [hp]

theorem wp_mono {R : α → σ → Prop} {x : Exec σ ε α} (h : wp good x R s)
    (himp : ∀ a s', R a s' → Q a s') : wp good x Q s :=
  fun a s' l hx hl => himp a s' (h a s' l hx hl)

theorem wp_of_run {x : Exec σ ε α} {a : α} {s' : σ} {l : List ε} (h : x.run s = .ok (a, s', l))
    (hQ : Q a s') : wp good x Q s := by
  rintro b s'' l' h' -
  rw [h] at h'
  cases h'
  exact hQ

/-- Code whose run is known is passed over. -/
theorem wp_bind_run {Q : β → σ → Prop} {x : Exec σ ε α} {f : α → Exec σ ε β} {a : α} {s' : σ}
    {l : List ε} (h : x.run s = .ok (a, s', l)) (hf : wp good (f a) Q s') :
    wp good (x >>= f) Q s :=
  (wp_bind x f).mpr (wp_of_run h hf)

theorem wp_and {R : α → σ → Prop} {x : Exec σ ε α} (hQ : wp good x Q s)
    (hR : wp good x R s) : wp good x (fun a s' => Q a s' ∧ R a s') s :=
  fun a s' l hx hl => ⟨hQ a s' l hx hl, hR a s' l hx hl⟩

end Rules

/-! ## Weakest preconditions with events -/

/-- Whenever `x` returns from `s`, `Q` holds, also of the events. -/
def after (x : Exec σ ε α) (Q : α → σ → List ε → Prop) (s : σ) : Prop :=
  ∀ a s' l, x.run s = .ok (a, s', l) → Q a s' l

section AfterRules

variable {Q : α → σ → List ε → Prop} {s : σ}

theorem after_pure (a : α) : after (pure a) Q s ↔ Q a s [] := by
  constructor
  · exact fun h => h a s [] rfl
  · rintro h _ _ _ ⟨⟩
    exact h

theorem after_bind {Q : β → σ → List ε → Prop} (x : Exec σ ε α) (f : α → Exec σ ε β) :
    after (x >>= f) Q s ↔
      after x (fun a s' l => after (f a) (fun b s'' l' => Q b s'' (l ++ l')) s') s := by
  constructor
  · intro h a s' l₁ hx b s'' l₂ hf
    exact h b s'' (l₁ ++ l₂) (bind_eq_ok.mpr ⟨a, s', l₁, l₂, hx, hf, rfl⟩)
  · intro h b s'' l hb
    obtain ⟨a, s', l₁, l₂, hx, hf, rfl⟩ := bind_eq_ok.mp hb
    exact h a s' l₁ hx b s'' l₂ hf

/-- Code whose run is known is passed over. -/
theorem after_bind_run {Q : β → σ → List ε → Prop} {x : Exec σ ε α} {f : α → Exec σ ε β} {a : α}
    {s' : σ} (h : x.run s = .ok (a, s', [])) (hf : after (f a) Q s') : after (x >>= f) Q s := by
  intro b s'' l hrun
  rw [run_bind f h] at hrun
  exact hf b s'' l hrun

theorem after_get {Q : σ → σ → List ε → Prop} : after get Q s ↔ Q s s [] := by
  constructor
  · exact fun h => h s s [] rfl
  · rintro h _ _ _ ⟨⟩
    exact h

theorem after_gets (f : σ → α) : after (gets f) Q s ↔ Q (f s) s [] := by
  constructor
  · exact fun h => h (f s) s [] rfl
  · rintro h _ _ _ ⟨⟩
    exact h

theorem after_modify {Q : Unit → σ → List ε → Prop} (f : σ → σ) :
    after (modify f) Q s ↔ Q () (f s) [] := by
  constructor
  · exact fun h => h () (f s) [] rfl
  · rintro h _ _ _ ⟨⟩
    exact h

theorem after_fault (e : Fault) : after (fault e : Exec σ ε α) Q s := by
  rintro _ _ _ ⟨⟩

theorem after_note {Q : Unit → σ → List ε → Prop} (e : ε) :
    after (note e) Q s ↔ Q () s [e] := by
  constructor
  · exact fun h => h () s [e] rfl
  · rintro h _ _ _ ⟨⟩
    exact h

theorem after_check {Q : Unit → σ → List ε → Prop} (p : Prop) [Decidable p] :
    after (check p) Q s ↔ (p → Q () s []) := by
  unfold check
  split
  · rename_i hp
    simp [hp, after_pure]
  · rename_i hp
    simp [hp, after_fault]

theorem after_deref (o : Option α) : after (deref o) Q s ↔ ∀ a, o = some a → Q a s [] := by
  cases o with
  | none => simp [deref, after_fault]
  | some a => simp [deref, after_pure]

theorem after_ite (p : Prop) [Decidable p] (x y : Exec σ ε α) :
    after (if p then x else y) Q s ↔ (p → after x Q s) ∧ (¬p → after y Q s) := by
  split
  · rename_i hp
    simp [hp]
  · rename_i hp
    simp [hp]

theorem after_mono {R : α → σ → List ε → Prop} {x : Exec σ ε α} (h : after x R s)
    (himp : ∀ a s' l, R a s' l → Q a s' l) : after x Q s :=
  fun a s' l hx => himp a s' l (h a s' l hx)

end AfterRules

/-! ## Code that returns -/

/-- `x` returns from `s`, and then `Q` holds. -/
def Returns (x : Exec σ ε α) (Q : α → σ → Prop) (s : σ) : Prop :=
  ∃ a s' l, x.run s = .ok (a, s', l) ∧ Q a s'

section ReturnRules

variable {Q : α → σ → Prop} {s : σ}

theorem returns_pure {a : α} (h : Q a s) : Returns (pure a : Exec σ ε α) Q s :=
  ⟨a, s, [], rfl, h⟩

theorem returns_bind {Q : β → σ → Prop} {x : Exec σ ε α} {f : α → Exec σ ε β}
    (h : Returns x (fun a => Returns (f a) Q) s) : Returns (x >>= f) Q s := by
  obtain ⟨a, s', l, hx, b, s'', l', hf, hQ⟩ := h
  exact ⟨b, s'', l ++ l', bind_eq_ok.mpr ⟨a, s', l, l', hx, hf, rfl⟩, hQ⟩

/-- Code whose run is known is passed over. -/
theorem returns_bind_run {Q : β → σ → Prop} {x : Exec σ ε α} {f : α → Exec σ ε β} {a : α} {s' : σ}
    {l : List ε} (h : x.run s = .ok (a, s', l)) (hf : Returns (f a) Q s') :
    Returns (x >>= f) Q s := returns_bind ⟨a, s', l, h, hf⟩

theorem returns_get {Q : σ → σ → Prop} (h : Q s s) : Returns (get : Exec σ ε σ) Q s :=
  ⟨s, s, [], rfl, h⟩

theorem returns_gets {f : σ → α} (h : Q (f s) s) : Returns (gets f : Exec σ ε α) Q s :=
  ⟨f s, s, [], rfl, h⟩

theorem returns_modify {Q : Unit → σ → Prop} {f : σ → σ} (h : Q () (f s)) :
    Returns (modify f : Exec σ ε Unit) Q s :=
  ⟨(), f s, [], rfl, h⟩

theorem returns_note {Q : Unit → σ → Prop} {e : ε} (h : Q () s) : Returns (note e) Q s :=
  ⟨(), s, [e], rfl, h⟩

theorem returns_check {Q : Unit → σ → Prop} {p : Prop} [Decidable p] (hp : p) (h : Q () s) :
    Returns (check p : Exec σ ε Unit) Q s :=
  ⟨(), s, [], run_check_pos hp s, h⟩

theorem returns_lift {x : Except Fault α} {a : α} (hx : x = .ok a) (h : Q a s) :
    Returns (lift x : Exec σ ε α) Q s :=
  ⟨a, s, [], by rw [hx, run_lift_ok], h⟩

theorem returns_ite {p : Prop} [Decidable p] {x y : Exec σ ε α} (hx : p → Returns x Q s)
    (hy : ¬p → Returns y Q s) : Returns (if p then x else y) Q s := by
  split
  · exact hx ‹_›
  · exact hy ‹_›

theorem returns_mono {R : α → σ → Prop} {x : Exec σ ε α} (h : Returns x R s)
    (himp : ∀ a s', R a s' → Q a s') : Returns x Q s := by
  obtain ⟨a, s', l, hx, hR⟩ := h
  exact ⟨a, s', l, hx, himp a s' hR⟩

/-- What holds whenever `x` returns holds when it does. -/
theorem Returns.with_wp {P R : α → σ → Prop} {x : Exec σ ε α} (h : Returns x P s)
    (hwp : wp (fun _ => True) x R s) : Returns x R s := by
  obtain ⟨a, s', l, hx, -⟩ := h
  exact ⟨a, s', l, hx, hwp a s' l hx fun _ _ => trivial⟩

/-- Runs `x` and looks whether it returns with `q`. -/
def returnsBool (x : Exec σ ε α) (q : α → σ → Bool) (s : σ) : Bool :=
  match x.run s with
  | .ok (a, s', _) => q a s'
  | .error _ => false

theorem returns_of_bool {x : Exec σ ε α} {q : α → σ → Bool} (h : returnsBool x q s = true) :
    Returns x (fun a s' => q a s' = true) s := by
  unfold returnsBool at h
  split at h
  · rename_i a s' l hx
    exact ⟨a, s', l, hx, h⟩
  · cases h

end ReturnRules

/-- `x` returns from `s` with `Q`; it may stop only if `e` fails. -/
def Meets (e : Prop) (x : Exec σ ε α) (Q : α → σ → Prop) (s : σ) : Prop :=
  match x.run s with
  | .ok (a, s', _) => Q a s'
  | .error _ => ¬e

section MeetRules

variable {e : Prop} {Q : α → σ → Prop} {s : σ}

theorem meets_of_run {x : Exec σ ε α} {a : α} {s' : σ} {l : List ε} (h : x.run s = .ok (a, s', l))
    (hQ : Q a s') : Meets e x Q s := by
  unfold Meets
  rw [h]
  exact hQ

theorem meets_of_error {x : Exec σ ε α} {c : Fault} (h : x.run s = .error c) (he : ¬e) :
    Meets e x Q s := by
  unfold Meets
  rw [h]
  exact he

theorem meets_pure {a : α} (h : Q a s) : Meets e (pure a : Exec σ ε α) Q s := h

theorem meets_bind {Q : β → σ → Prop} {x : Exec σ ε α} {f : α → Exec σ ε β}
    (h : Meets e x (fun a => Meets e (f a) Q) s) : Meets e (x >>= f) Q s := by
  unfold Meets at h ⊢
  cases hx : x.run s with
  | error c =>
      rw [hx] at h
      rw [run_bind_error f hx]
      exact h
  | ok r =>
      obtain ⟨a, s', l⟩ := r
      rw [hx] at h
      rw [run_bind_ok f hx]
      change Meets e (f a) Q s' at h
      unfold Meets at h
      cases hf : (f a).run s' with
      | error c =>
          rw [hf] at h
          exact h
      | ok r' =>
          rw [hf] at h
          exact h

theorem meets_gets {f : σ → α} (h : Q (f s) s) : Meets e (gets f : Exec σ ε α) Q s := h

theorem meets_modify {Q : Unit → σ → Prop} {f : σ → σ} (h : Q () (f s)) :
    Meets e (modify f : Exec σ ε Unit) Q s := h

theorem meets_check {Q : Unit → σ → Prop} {p : Prop} [Decidable p] (hp : p) (h : Q () s) :
    Meets e (check p : Exec σ ε Unit) Q s := meets_of_run (run_check_pos hp s) h

theorem meets_fault {c : Fault} (h : ¬e) : Meets e (fault c : Exec σ ε α) Q s := h

theorem meets_ite {p : Prop} [Decidable p] {x y : Exec σ ε α} (hx : p → Meets e x Q s)
    (hy : ¬p → Meets e y Q s) : Meets e (if p then x else y) Q s := by
  split
  · exact hx ‹_›
  · exact hy ‹_›

theorem meets_mono {R : α → σ → Prop} {x : Exec σ ε α} (h : Meets e x R s)
    (himp : ∀ a s', R a s' → Q a s') : Meets e x Q s := by
  unfold Meets at h ⊢
  cases hx : x.run s with
  | error c =>
      rw [hx] at h
      exact h
  | ok r =>
      rw [hx] at h
      exact himp _ _ h

theorem Meets.wp {good : ε → Prop} {x : Exec σ ε α} (h : Meets e x Q s) : wp good x Q s := by
  intro a s' l hx _
  unfold Meets at h
  rwa [hx] at h

theorem Meets.post {x : Exec σ ε α} {a : α} {s' : σ} {l : List ε} (h : Meets e x Q s)
    (hrun : x.run s = .ok (a, s', l)) : Q a s' := by
  unfold Meets at h
  rwa [hrun] at h

theorem Meets.returns {x : Exec σ ε α} (h : Meets e x Q s) (he : e) : Returns x Q s := by
  unfold Meets at h
  cases hx : x.run s with
  | error c =>
      rw [hx] at h
      exact absurd he h
  | ok r =>
      obtain ⟨a, s', l⟩ := r
      rw [hx] at h
      exact ⟨a, s', l, hx, h⟩

end MeetRules

/-- `x` returns from `s`, and then `Q` holds, also of the events. -/
def Ends (x : Exec σ ε α) (Q : α → σ → List ε → Prop) (s : σ) : Prop :=
  ∃ a s' l, x.run s = .ok (a, s', l) ∧ Q a s' l

section EndRules

variable {Q : α → σ → List ε → Prop} {s : σ}

theorem Ends.after {x : Exec σ ε α} (h : Ends x Q s) : after x Q s := by
  obtain ⟨a, s', l, hx, hQ⟩ := h
  intro b s'' l' hx'
  rw [hx] at hx'
  cases hx'
  exact hQ

theorem ends_pure {a : α} (h : Q a s []) : Ends (pure a : Exec σ ε α) Q s := ⟨a, s, [], rfl, h⟩

theorem ends_bind {Q : β → σ → List ε → Prop} {x : Exec σ ε α} {f : α → Exec σ ε β}
    (h : Ends x (fun a s' l => Ends (f a) (fun b s'' l' => Q b s'' (l ++ l')) s') s) :
    Ends (x >>= f) Q s := by
  obtain ⟨a, s', l, hx, b, s'', l', hf, hQ⟩ := h
  exact ⟨b, s'', l ++ l', bind_eq_ok.mpr ⟨a, s', l, l', hx, hf, rfl⟩, hQ⟩

theorem ends_get {Q : σ → σ → List ε → Prop} (h : Q s s []) : Ends get Q s :=
  ⟨s, s, [], rfl, h⟩

theorem ends_gets {f : σ → α} (h : Q (f s) s []) : Ends (gets f : Exec σ ε α) Q s :=
  ⟨f s, s, [], rfl, h⟩

theorem ends_modify {Q : Unit → σ → List ε → Prop} {f : σ → σ} (h : Q () (f s) []) :
    Ends (modify f : Exec σ ε Unit) Q s := ⟨(), f s, [], rfl, h⟩

theorem ends_note {Q : Unit → σ → List ε → Prop} {e : ε} (h : Q () s [e]) : Ends (note e) Q s :=
  ⟨(), s, [e], rfl, h⟩

theorem ends_check {Q : Unit → σ → List ε → Prop} {p : Prop} [Decidable p] (hp : p)
    (h : Q () s []) : Ends (check p : Exec σ ε Unit) Q s := ⟨(), s, [], run_check_pos hp s, h⟩

theorem ends_mono {R : α → σ → List ε → Prop} {x : Exec σ ε α} (h : Ends x R s)
    (himp : ∀ a s' l, R a s' l → Q a s' l) : Ends x Q s := by
  obtain ⟨a, s', l, hx, hR⟩ := h
  exact ⟨a, s', l, hx, himp a s' l hR⟩

end EndRules

/-- From `s`, `x` reports `l` and goes on as `y` from `s'`. -/
def Leads (x : Exec σ ε α) (s : σ) (l : List ε) (y : Exec σ ε α) (s' : σ) : Prop :=
  x.run s = match y.run s' with
    | .error e => .error e
    | .ok (a, s'', l') => .ok (a, s'', l ++ l')

section LeadRules

variable {x y z : Exec σ ε α} {s s' s'' : σ} {l l' : List ε} {Q : α → σ → List ε → Prop}

theorem leads_bind {x : Exec σ ε β} {f : β → Exec σ ε α} {b : β} (h : x.run s = .ok (b, s', l)) :
    Leads (x >>= f) s l (f b) s' := run_bind_ok f h

theorem Leads.run {a : α} (h : Leads x s l y s') (hy : y.run s' = .ok (a, s'', l')) :
    x.run s = .ok (a, s'', l ++ l') := by
  unfold Leads at h
  rw [h, hy]

theorem Leads.trans (h : Leads x s l y s') (h' : Leads y s' l' z s'') :
    Leads x s (l ++ l') z s'' := by
  unfold Leads at *
  rw [h, h']
  cases z.run s'' with
  | error e => rfl
  | ok r => simp

theorem Leads.ends (h : Leads x s l y s') (hy : Ends y (fun a t l' => Q a t (l ++ l')) s') :
    Ends x Q s := by
  obtain ⟨a, t, l', hrun, hQ⟩ := hy
  exact ⟨a, t, l ++ l', h.run hrun, hQ⟩

theorem Leads.after (h : Leads x s l y s') (hy : after y (fun a t l' => Q a t (l ++ l')) s') :
    after x Q s := by
  intro a t l₁ hrun
  unfold Leads at h
  rw [h] at hrun
  cases hy' : y.run s' with
  | error e => simp [hy'] at hrun
  | ok r =>
      obtain ⟨b, t', l'⟩ := r
      simp only [hy'] at hrun
      cases hrun
      exact hy _ _ _ hy'

end LeadRules

end Exec

end Ylos
