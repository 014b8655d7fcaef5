import Ylos.Verification.Keyboard.Reading
import Ylos.Verification.Shell.Parse
import Ylos.Verification.Shell.Readline

/-! # From the keys to the words of a command

The shell reads its line from the keyboard, one character a call. -/

namespace Ylos.Keyboard

open Exec
open Bytes (Str)

/-- The line of the shell after these characters. -/
def lineOf (text : List Char) : List UInt8 := (text.map Char.toUInt8).foldl Shell.edit []

variable {c : Char} {text : List Char} {input : ℕ → Option UInt8} {ram : Bytes} {n : ℕ}

/-! ## The characters as bytes -/

theorem charOf_toUInt8 : ∀ key < 96, ∀ held, charOf key held ≠ INV →
    (charOf key held).toUInt8 ≠ 0 ∧ (charOf key held).toUInt8 ≠ Shell.CR ∧
      ((charOf key held).toUInt8 = Shell.LF → charOf key held = LF) := by
  decide

theorem Typeable.not_newline (h : Typeable c) (hne : c ≠ LF) :
    c.toUInt8 ≠ 0 ∧ ¬Shell.IsNewline c.toUInt8 := by
  obtain ⟨hkey, hchar⟩ := keyOf_spec h
  obtain ⟨hzero, hcr, hlf⟩ := charOf_toUInt8 _ hkey (keyOf c).2 (hchar.symm ▸ h.1)
  rw [hchar] at hzero hcr hlf
  exact ⟨hzero, fun hnew => hnew.elim (fun h => hne (hlf h)) hcr⟩

/-- The calls of `read` return the text, and a newline behind it. -/
structure Feeds (input : ℕ → Option UInt8) (text : List Char) : Prop where
  char : ∀ (i : ℕ) c, text[i]? = some c → input i = some c.toUInt8
  newline : input text.length = some Shell.LF

theorem Feeds.typed (h : Feeds input text) (hn : n ≤ text.length) :
    Shell.typed input n = lineOf (text.take n) := by
  induction n with
  | zero => rfl
  | succ n ih =>
      have hget := List.getElem?_eq_getElem hn
      rw [Shell.typed_succ (h.char n _ hget), ih (Nat.le_of_succ_le hn), List.take_add_one, hget]
      unfold lineOf
      rw [Option.toList_some, List.map_append, List.foldl_append]
      rfl

theorem Feeds.typing (h : Feeds input text) (htext : ∀ c ∈ text, Typeable c ∧ c ≠ LF)
    (hn : n ≤ text.length) : Shell.Typing input n := by
  intro i hi
  have hlt : i < text.length := Nat.lt_of_lt_of_le hi hn
  obtain ⟨htype, hne⟩ := htext _ (List.getElem_mem hlt)
  exact ⟨_, h.char i _ (List.getElem?_eq_getElem hlt), (htype.not_newline hne).2⟩

/-- The line does not go on behind the newline. -/
theorem Feeds.le (h : Feeds input text) (htyping : Shell.Typing input n) : n ≤ text.length := by
  by_contra hlong
  obtain ⟨ch, hch, hnot⟩ := htyping text.length (by omega)
  exact hnot (.inl (Option.some.inj (hch.symm.trans h.newline)))

theorem Feeds.stops (h : Feeds input text) (htext : ∀ c ∈ text, Typeable c ∧ c ≠ LF)
    (htyping : Shell.Typing input n) (hstops : Shell.Stops input n) : n = text.length := by
  by_contra hne
  have hlt : n < text.length := Nat.lt_of_le_of_ne (h.le htyping) hne
  obtain ⟨ch, hch, hnot⟩ := h.typing htext le_rfl n hlt
  exact hnot (hstops ch hch)

theorem Feeds.ends_readline (h : Feeds input text) (htext : ∀ c ∈ text, Typeable c ∧ c ≠ LF)
    (hfits : ∀ n ≤ text.length, (lineOf (text.take n)).length < Shell.MAX_CMD_LEN) :
    Ends (Shell.readline Shell.MAX_CMD_LEN (text.length + 1))
      (fun r s' _ => r ≠ none ∧ Shell.Holds s'.ram (lineOf text)) (Shell.start ram input) := by
  have hline : ∀ n, Shell.Typing input n → Shell.Stops input n →
      Shell.typed input n = lineOf text := by
    intro n htyping hstops
    rw [h.stops htext htyping hstops, h.typed le_rfl, List.take_length]
  have hcount : Shell.MAX_CMD_LEN < 2 ^ 32 := by decide
  refine ends_mono (Shell.ends_readline hcount ram input _) fun r s' l hout => ?_
  unfold Shell.Outcome at hout
  match r with
  | none => exact absurd (h.le hout.2.1) (by omega)
  | some .full =>
      obtain ⟨⟨n, htyping, hlength⟩, -⟩ := hout
      have hle := h.le htyping
      rw [h.typed hle] at hlength
      exact absurd hlength (hfits n hle).ne
  | some .newline =>
      obtain ⟨-, n, -, htyping, hstops, hholds⟩ := hout
      exact ⟨Option.some_ne_none _, hline n htyping hstops ▸ hholds⟩
  | some .eof =>
      obtain ⟨-, n, -, htyping, hstops, hholds⟩ := hout
      exact ⟨Option.some_ne_none _, hline n htyping hstops ▸ hholds⟩

variable {d d₀ : Device}

end Ylos.Keyboard
