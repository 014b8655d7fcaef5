import Ylos.Model.Shell
import Mathlib.Data.List.Basic

/-! # The words of a command line -/

namespace Ylos.Shell

variable {line rest u v w : List UInt8} {ch : UInt8}

/-! ## The words -/

/-- Where a line is read: between words, in a word, or in quotes, with what has been read of the
word. -/
inductive Mode where
  | blank
  | word (w : List UInt8)
  | quoted (w : List UInt8)

/-- The words of a line. A quote at the start of a word stands for the text up to the next one, if
there is one. -/
def scan : Mode → List UInt8 → List (List UInt8)
  | .blank, [] => []
  | .blank, ch :: rest =>
    if ch = SPACE then scan .blank rest
    else if ch = QUOTE ∧ QUOTE ∈ rest then scan (.quoted []) rest
    else scan (.word [ch]) rest
  | .word w, [] => [w]
  | .word w, ch :: rest =>
    if ch = SPACE then w :: scan .blank rest else scan (.word (w ++ [ch])) rest
  | .quoted w, [] => [w]
  | .quoted w, ch :: rest =>
    if ch = QUOTE then w :: scan .blank rest else scan (.quoted (w ++ [ch])) rest

def words (line : List UInt8) : List (List UInt8) := scan .blank line

/-- Every quote at the start of a word has a partner. -/
def closed : Mode → List UInt8 → Bool
  | .blank, [] => true
  | .blank, ch :: rest =>
    if ch = SPACE then closed .blank rest
    else if ch = QUOTE then QUOTE ∈ rest && closed (.quoted []) rest
    else closed (.word []) rest
  | .word _, [] => true
  | .word _, ch :: rest => if ch = SPACE then closed .blank rest else closed (.word []) rest
  | .quoted _, [] => true
  | .quoted _, ch :: rest => if ch = QUOTE then closed .blank rest else closed (.quoted []) rest

/-! ### One character -/

section Character

variable (w rest)

theorem scan_space : scan .blank (SPACE :: rest) = scan .blank rest := rfl

theorem scan_first (hch : ch ≠ SPACE) (hquote : ch ≠ QUOTE) :
    scan .blank (ch :: rest) = scan (.word [ch]) rest :=
  (if_neg hch).trans (if_neg fun h => hquote h.1)

theorem scan_open (hmem : QUOTE ∈ rest) :
    scan .blank (QUOTE :: rest) = scan (.quoted []) rest :=
  (if_neg (by decide)).trans (if_pos ⟨rfl, hmem⟩)

theorem scan_word_space : scan (.word w) (SPACE :: rest) = w :: scan .blank rest := rfl

theorem scan_word_cons (hch : ch ≠ SPACE) :
    scan (.word w) (ch :: rest) = scan (.word (w ++ [ch])) rest := if_neg hch

theorem scan_quoted_quote : scan (.quoted w) (QUOTE :: rest) = w :: scan .blank rest := rfl

theorem scan_quoted_cons (hch : ch ≠ QUOTE) :
    scan (.quoted w) (ch :: rest) = scan (.quoted (w ++ [ch])) rest := if_neg hch

theorem closed_space : closed .blank (SPACE :: rest) = closed .blank rest := rfl

theorem closed_first (hch : ch ≠ SPACE) (hquote : ch ≠ QUOTE) :
    closed .blank (ch :: rest) = closed (.word []) rest := (if_neg hch).trans (if_neg hquote)

theorem closed_open : closed .blank (QUOTE :: rest) =
    (decide (QUOTE ∈ rest) && closed (.quoted []) rest) := rfl

theorem closed_word_space : closed (.word w) (SPACE :: rest) = closed .blank rest := rfl

theorem closed_word_cons (hch : ch ≠ SPACE) :
    closed (.word w) (ch :: rest) = closed (.word []) rest := if_neg hch

theorem closed_quoted_quote : closed (.quoted w) (QUOTE :: rest) = closed .blank rest := rfl

theorem closed_quoted_cons (hch : ch ≠ QUOTE) :
    closed (.quoted w) (ch :: rest) = closed (.quoted []) rest := if_neg hch

end Character

/-! ### A run of characters -/

/-- Blanks between words. -/
theorem scan_blanks (hu : ∀ c ∈ u, c = SPACE) (rest : List UInt8) :
    scan .blank (u ++ rest) = scan .blank rest := by
  induction u with
  | nil => rfl
  | cons c u ih =>
      obtain ⟨hc, hu⟩ := List.forall_mem_cons.mp hu
      rw [List.cons_append, hc, scan_space]
      exact ih hu

theorem closed_blanks (hu : ∀ c ∈ u, c = SPACE) (rest : List UInt8) :
    closed .blank (u ++ rest) = closed .blank rest := by
  induction u with
  | nil => rfl
  | cons c u ih =>
      obtain ⟨hc, hu⟩ := List.forall_mem_cons.mp hu
      rw [List.cons_append, hc, closed_space]
      exact ih hu

/-- The rest of a word, and the blank behind it. -/
theorem scan_word (hv : SPACE ∉ v) (w rest : List UInt8) :
    scan (.word w) (v ++ SPACE :: rest) = (w ++ v) :: scan .blank rest := by
  induction v generalizing w with
  | nil => rw [List.nil_append, List.append_nil, scan_word_space]
  | cons c v ih =>
      obtain ⟨hc, hv⟩ := List.ne_and_not_mem_of_not_mem_cons hv
      rw [List.cons_append, scan_word_cons _ _ hc.symm, ih hv]
      simp

theorem scan_word_end (hv : SPACE ∉ v) (w : List UInt8) : scan (.word w) v = [w ++ v] := by
  induction v generalizing w with
  | nil => exact congrArg (fun v => [v]) (List.append_nil w).symm
  | cons c v ih =>
      obtain ⟨hc, hv⟩ := List.ne_and_not_mem_of_not_mem_cons hv
      rw [scan_word_cons _ _ hc.symm, ih hv]
      simp

theorem closed_word (hv : SPACE ∉ v) (w rest : List UInt8) :
    closed (.word w) (v ++ SPACE :: rest) = closed .blank rest := by
  induction v generalizing w with
  | nil => rw [List.nil_append, closed_word_space]
  | cons c v ih =>
      obtain ⟨hc, hv⟩ := List.ne_and_not_mem_of_not_mem_cons hv
      rw [List.cons_append, closed_word_cons _ _ hc.symm]
      exact ih hv []

theorem closed_word_end (hv : SPACE ∉ v) (w : List UInt8) : closed (.word w) v = true := by
  induction v generalizing w with
  | nil => rfl
  | cons c v ih =>
      obtain ⟨hc, hv⟩ := List.ne_and_not_mem_of_not_mem_cons hv
      rw [closed_word_cons _ _ hc.symm]
      exact ih hv []

/-- The rest of a quoted word, and the quote behind it. -/
theorem scan_quoted (hv : QUOTE ∉ v) (w rest : List UInt8) :
    scan (.quoted w) (v ++ QUOTE :: rest) = (w ++ v) :: scan .blank rest := by
  induction v generalizing w with
  | nil => rw [List.nil_append, List.append_nil, scan_quoted_quote]
  | cons c v ih =>
      obtain ⟨hc, hv⟩ := List.ne_and_not_mem_of_not_mem_cons hv
      rw [List.cons_append, scan_quoted_cons _ _ hc.symm, ih hv]
      simp

theorem closed_quoted (hv : QUOTE ∉ v) (w rest : List UInt8) :
    closed (.quoted w) (v ++ QUOTE :: rest) = closed .blank rest := by
  induction v generalizing w with
  | nil => rw [List.nil_append, closed_quoted_quote]
  | cons c v ih =>
      obtain ⟨hc, hv⟩ := List.ne_and_not_mem_of_not_mem_cons hv
      rw [List.cons_append, closed_quoted_cons _ _ hc.symm]
      exact ih hv []

theorem exists_blanks (line : List UInt8) : ∃ u rest, line = u ++ rest ∧ (∀ c ∈ u, c = SPACE) ∧
    ∀ ch v, rest = ch :: v → ch ≠ SPACE := by
  induction line with
  | nil => exact ⟨[], [], rfl, by simp, by simp⟩
  | cons c line ih =>
      by_cases hc : c = SPACE
      · obtain ⟨u, rest, heq, hu, hrest⟩ := ih
        exact ⟨c :: u, rest, by simp [heq], by simpa [hc] using hu, hrest⟩
      · refine ⟨[], c :: line, rfl, by simp, fun ch v h => ?_⟩
        cases h
        exact hc

/-- A line word by word. -/
theorem line_induction {P : List UInt8 → Prop} (blank : ∀ u, (∀ c ∈ u, c = SPACE) → P u)
    (word : ∀ u ch v rest, (∀ c ∈ u, c = SPACE) → ch ≠ SPACE → ch ≠ QUOTE → SPACE ∉ v → P rest →
      P (u ++ ch :: (v ++ SPACE :: rest)))
    (last : ∀ u ch v, (∀ c ∈ u, c = SPACE) → ch ≠ SPACE → ch ≠ QUOTE → SPACE ∉ v → P (u ++ ch :: v))
    (quoted : ∀ u v rest, (∀ c ∈ u, c = SPACE) → QUOTE ∉ v → P rest →
      P (u ++ QUOTE :: (v ++ QUOTE :: rest)))
    (unclosed : ∀ u v, (∀ c ∈ u, c = SPACE) → QUOTE ∉ v → P (u ++ QUOTE :: v)) (line) :
    P line := by
  induction hn : line.length using Nat.strong_induction_on generalizing line with
  | _ n ih =>
  obtain ⟨u, rest, rfl, hu, hrest⟩ := exists_blanks line
  match rest with
  | [] => simpa using blank u hu
  | ch :: rest =>
      have hch := hrest ch rest rfl
      by_cases hquote : ch = QUOTE
      · subst hquote
        by_cases hmem : QUOTE ∈ rest
        · obtain ⟨v, rest, rfl, hv⟩ := List.eq_append_cons_of_mem hmem
          exact quoted u v rest hu hv (ih rest.length (by simp at hn; omega) rest rfl)
        · exact unclosed u rest hu hmem
      · by_cases hmem : SPACE ∈ rest
        · obtain ⟨v, rest, rfl, hv⟩ := List.eq_append_cons_of_mem hmem
          exact word u ch v rest hu hch hquote hv (ih rest.length (by simp at hn; omega) rest rfl)
        · exact last u ch rest hu hch hquote hmem

/-! ### The words of a line, word by word -/

section Words

variable (hu : ∀ c ∈ u, c = SPACE)

include hu

theorem words_blank : words u = [] ∧ closed .blank u = true := by
  have hscan := scan_blanks hu []
  have hclosed := closed_blanks hu []
  rw [List.append_nil] at hscan hclosed
  exact ⟨hscan, hclosed⟩

theorem words_word (hch : ch ≠ SPACE) (hquote : ch ≠ QUOTE) (hv : SPACE ∉ v) (rest : List UInt8) :
    words (u ++ ch :: (v ++ SPACE :: rest)) = (ch :: v) :: words rest ∧
      closed .blank (u ++ ch :: (v ++ SPACE :: rest)) = closed .blank rest := by
  unfold words
  rw [scan_blanks hu, closed_blanks hu, scan_first _ hch hquote, closed_first _ hch hquote]
  exact ⟨scan_word hv _ _, closed_word hv _ _⟩

theorem words_last (hch : ch ≠ SPACE) (hquote : ch ≠ QUOTE) (hv : SPACE ∉ v) :
    words (u ++ ch :: v) = [ch :: v] ∧ closed .blank (u ++ ch :: v) = true := by
  unfold words
  rw [scan_blanks hu, closed_blanks hu, scan_first _ hch hquote, closed_first _ hch hquote]
  exact ⟨scan_word_end hv _, closed_word_end hv _⟩

theorem words_quoted (hv : QUOTE ∉ v) (rest : List UInt8) :
    words (u ++ QUOTE :: (v ++ QUOTE :: rest)) = v :: words rest ∧
      closed .blank (u ++ QUOTE :: (v ++ QUOTE :: rest)) = closed .blank rest := by
  have hmem : QUOTE ∈ v ++ QUOTE :: rest := by simp
  unfold words
  rw [scan_blanks hu, closed_blanks hu, scan_open _ hmem, closed_open, decide_eq_true hmem,
    Bool.true_and]
  exact ⟨scan_quoted hv _ _, closed_quoted hv _ _⟩

example : words [101, 32, 34, 97, 32, 98, 34] = [[101], [97, 32, 98]] := by decide

/-- A quote without a partner is a character like others. -/
theorem closed_unclosed (hv : QUOTE ∉ v) : closed .blank (u ++ QUOTE :: v) = false := by
  rw [closed_blanks hu, closed_open, decide_eq_false hv, Bool.false_and]

theorem words_quote : words (u ++ [QUOTE]) = [[QUOTE]] := by
  unfold words
  rw [scan_blanks hu]
  decide

end Words

end Ylos.Shell
