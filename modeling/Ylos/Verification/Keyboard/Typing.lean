import Mathlib.Data.List.Basic
import Ylos.Model.Keyboard

/-! # Typed text comes out as it was typed

The keys of a text are pressed one after the other, each with shift where it needs it, and may be
let go of at any time later, also when the next ones are down. -/

namespace Ylos.Keyboard

/-- Some key gives the character. -/
def Typeable (c : Char) : Prop := c ≠ INV ∧ ∃ row ∈ keymap, row.1 = c ∨ row.2 = c

def charOf (key : ℕ) (held : Bool) : Char := if held then shifted key else plain key

/-- A key of the character, and whether it is the one with shift. -/
def keyOf (c : Char) : ℕ × Bool :=
  (((List.range 96).product [false, true]).find? fun k => charOf k.1 k.2 = c).getD (0, false)

/-- All of a state that decides what a code without a prefix does. -/
def State.mode (s : State) : Bool × Bool × Bool × Bool × Bool × Bool :=
  (s.down KEY_SHIFT_L false, s.down KEY_SHIFT_R false, s.capslock, s.scrlock, s.numlock, s.extcode)

variable {s s' : State} {key code : ℕ} {c : Char} {codes : List ℕ} {text : List Char}

/-! ## One code -/

theorem mode_eq_iff : s.mode = s'.mode ↔
    s.down KEY_SHIFT_L false = s'.down KEY_SHIFT_L false ∧
      s.down KEY_SHIFT_R false = s'.down KEY_SHIFT_R false ∧ s.capslock = s'.capslock ∧
        s.scrlock = s'.scrlock ∧ s.numlock = s'.numlock ∧ s.extcode = s'.extcode := by
  unfold State.mode
  simp only [Prod.mk.injEq]

theorem shift_congr (h : s.mode = s'.mode) : s.shift = s'.shift := by
  obtain ⟨hl, hr, -⟩ := mode_eq_iff.mp h
  unfold State.shift
  rw [hl, hr]

theorem mem_keymap {row : Char × Char} (h : row ∈ keymap) :
    ∃ key < 96, row = (charOf key false, charOf key true) := by
  obtain ⟨key, hkey, rfl⟩ := List.mem_iff_getElem.mp h
  refine ⟨key, hkey, ?_⟩
  unfold charOf plain shifted
  rw [List.getD, List.getElem?_eq_getElem hkey]
  rfl

theorem keyOf_spec (h : Typeable c) :
    (keyOf c).1 < 96 ∧ charOf (keyOf c).1 (keyOf c).2 = c := by
  obtain ⟨-, row, hrow, hchar⟩ := h
  obtain ⟨key, hkey, rfl⟩ := mem_keymap hrow
  have hsome : (((List.range 96).product [false, true]).find?
      fun k => charOf k.1 k.2 = c).isSome := by
    rw [List.find?_isSome]
    obtain hplain | hshift := hchar
    · exact ⟨(key, false), by simpa using hkey, decide_eq_true hplain⟩
    · exact ⟨(key, true), by simpa using hkey, decide_eq_true hshift⟩
  obtain ⟨k, hk⟩ := Option.isSome_iff_exists.mp hsome
  have hmem := List.mem_of_find?_eq_some hk
  have hc : keyOf c = k := by
    unfold keyOf
    rw [hk]
    rfl
  rw [hc]
  have hchosen := List.find?_some hk
  exact ⟨by simpa using (List.pair_mem_product.mp hmem).1, of_decide_eq_true hchosen⟩

theorem run_append (more : List ℕ) :
    run s (codes ++ more) =
      ((run (run s codes).1 more).1, (run s codes).2 ++ (run (run s codes).1 more).2) := by
  induction codes generalizing s with
  | nil => rfl
  | cons code codes ih =>
      change ((run _ (codes ++ more)).1, _ ++ (run _ (codes ++ more)).2) = _
      rw [ih, ← List.append_assoc]
      rfl

/-- No prefix has come, and no shift is down. -/
structure State.Rested (s : State) : Prop where
  extcode : s.extcode = false
  shift : s.shift = false

theorem State.Rested.congr (hrest : s'.Rested) (h : s.mode = s'.mode) : s.Rested :=
  ⟨(mode_eq_iff.mp h).2.2.2.2.2.trans hrest.extcode, (shift_congr h).trans hrest.shift⟩

end Ylos.Keyboard
