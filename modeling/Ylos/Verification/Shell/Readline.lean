import Ylos.Model.Shell
import Mathlib.Order.Defs.LinearOrder

/-! # The line editor -/

namespace Ylos.Shell

open Exec Ram

variable {s s' : State} {input : ℕ → Option UInt8} {count n n' fuel idx i : ℕ}
  {line : List UInt8} {ch : UInt8} {l l' : List Event} {r : Option Ending} {ram : Bytes}

/-! ## The line that is typed -/

/-- What a byte does to the line. -/
def edit (line : List UInt8) (ch : UInt8) : List UInt8 :=
  if ch = BS then line.dropLast else if ch = TAB then line else line ++ [ch]

/-- The line after `n` bytes. -/
def typed (input : ℕ → Option UInt8) : (n : ℕ) → List UInt8
  | 0 => []
  | n + 1 =>
    match input n with
    | none => typed input n
    | some ch => edit (typed input n) ch

def IsNewline (ch : UInt8) : Prop := ch = LF ∨ ch = CR

instance : DecidablePred IsNewline := fun _ => inferInstanceAs (Decidable (_ ∨ _))

/-- The first `n` bytes are there, and none of them ends the line. -/
def Typing (input : ℕ → Option UInt8) (n : ℕ) : Prop :=
  ∀ i < n, ∃ ch, input i = some ch ∧ ¬IsNewline ch

/-- The line ends after `n` bytes. -/
def Stops (input : ℕ → Option UInt8) (n : ℕ) : Prop := ∀ ch, input n = some ch → IsNewline ch

/-- The line is in the buffer, with a zero behind it. -/
def Holds (ram : Bytes) (text : List UInt8) : Prop :=
  (∀ i < text.length, text[i]? = some (ram i)) ∧ ram text.length = 0

theorem typed_succ (h : input n = some ch) : typed input (n + 1) = edit (typed input n) ch := by
  simp [typed, h]

theorem ne_bs_of_mem_typed (h : ch ∈ typed input n) : ch ≠ BS := by
  induction n generalizing ch with
  | zero => simp [typed] at h
  | succ n ih =>
      unfold typed at h
      split at h
      · exact ih h
      · rename_i c _
        unfold edit at h
        split at h
        · exact ih ((List.dropLast_sublist _).subset h)
        · rename_i hbs
          split at h
          · exact ih h
          · rcases List.mem_append.mp h with h | h
            · exact ih h
            · rwa [List.mem_singleton.mp h]

theorem length_edit_le (line : List UInt8) (ch : UInt8) :
    (edit line ch).length ≤ line.length + 1 := by
  unfold edit
  split
  · simp
    omega
  · split <;> simp

theorem Typing.succ (h : Typing input n) (hch : input n = some ch) (hnot : ¬IsNewline ch) :
    Typing input (n + 1) := by
  intro i hi
  rcases Nat.lt_succ_iff_lt_or_eq.mp hi with hi | rfl
  · exact h i hi
  · exact ⟨ch, hch, hnot⟩

/-! ## What the loop does -/

/-- The stores are in the buffer, and the index only goes down from above 0. -/
structure Safe (count : ℕ) (l : List Event) : Prop where
  stores : ∀ p, .mem (.store p) ∈ l → p < count
  back : ∀ i, .back i ∈ l → 0 < i

theorem Safe.append (h : Safe count l) (h' : Safe count l') : Safe count (l ++ l') where
  stores p hp := (List.mem_append.mp hp).elim (h.stores p) (h'.stores p)
  back i hi := (List.mem_append.mp hi).elim (h.back i) (h'.back i)

/-- What `fuel` calls of `read` lead to, after `n` of them. -/
def Outcome (count : ℕ) (input : ℕ → Option UInt8) (n fuel : ℕ) (r : Option Ending) (s' : State)
    (l : List Event) : Prop :=
  match r with
  | none => Safe count l ∧ Typing input (n + fuel) ∧ (typed input (n + fuel)).length < count
  | some .full =>
    (∃ n', Typing input n' ∧ (typed input n').length = count) ∧ .mem (.store count) ∈ l
  | some _ =>
    Safe count l ∧ ∃ n' < n + fuel, Typing input n' ∧ Stops input n' ∧ Holds s'.ram (typed input n')

theorem Outcome.append (h : Outcome count input (n + 1) fuel r s' l') (hl : Safe count l) :
    Outcome count input n (fuel + 1) r s' (l ++ l') := by
  have hn : n + (fuel + 1) = n + 1 + fuel := by omega
  unfold Outcome at *
  rw [hn]
  match r with
  | none => exact ⟨hl.append h.1, h.2⟩
  | some .full => exact ⟨h.1, List.mem_append_right _ h.2⟩
  | some .newline => exact ⟨hl.append h.1, h.2⟩
  | some .eof => exact ⟨hl.append h.1, h.2⟩

/-- The loop after `n` bytes: the line is at the start of the buffer. -/
structure At (input : ℕ → Option UInt8) (n : ℕ) (s : State) : Prop where
  source : s.input = input
  taken : s.taken = n
  typing : Typing input n
  line : ∀ i < (typed input n).length, (typed input n)[i]? = some (s.ram i)

/-- A byte at the end of the line leaves the line. -/
theorem At.update (h : At input n s) (b : UInt8) :
    ∀ i < (typed input n).length, (typed input n)[i]? =
      some (Function.update s.ram (typed input n).length b i) := by
  intro i hi
  rw [Function.update_of_ne (by omega)]
  exact h.line i hi

theorem At.holds (h : At input n s) : Holds (Function.update s.ram (typed input n).length 0)
    (typed input n) := ⟨h.update 0, Function.update_self _ _ _⟩

/-- A byte is read to the end of the line. -/
theorem At.run_readByte (h : At input n s) (hch : input n = some ch) :
    (readByte idx).run s = .ok (true,
      { s with ram := Function.update s.ram idx ch, taken := n + 1 }, [.mem (.store idx)]) := by
  unfold readByte
  rw [run_bind _ (run_get s), run_bind _ (run_modify _ s)]
  simp only [h.source, h.taken, hch]
  rw [run_bind_ok _ (run_tag (run_store _ _ _))]
  rfl

theorem At.run_readByte_none (h : At input n s) (hend : input n = none) :
    (readByte idx).run s = .ok (false, { s with taken := n + 1 }, []) := by
  unfold readByte
  rw [run_bind _ (run_get s), run_bind _ (run_modify _ s)]
  simp only [h.source, h.taken, hend]
  rfl

/-- Accesses to one cell of the buffer, and echoes. -/
theorem safe_cell (hidx : idx < count)
    (hl : ∀ e ∈ l, e = .mem (.store idx) ∨ (∃ p, e = .mem (.load p)) ∨ ∃ ch, e = .echo ch) :
    Safe count l where
  stores p hp := by
    rcases hl _ hp with h | ⟨q, h⟩ | ⟨ch, h⟩
    · cases h
      exact hidx
    · cases h
    · cases h
  back i hi := by
    rcases hl _ hi with h | ⟨q, h⟩ | ⟨ch, h⟩ <;> cases h

/-- The byte that was read is looked at. -/
theorem run_load_update (s : State) (idx : ℕ) (ch : UInt8) (taken : ℕ) :
    (tag .mem (load idx) : M UInt8).run
      { s with ram := Function.update s.ram idx ch, taken := taken } =
      .ok (ch, { s with ram := Function.update s.ram idx ch, taken := taken },
        [.mem (.load idx)]) := by
  rw [run_tag (run_load _ _)]
  simp [ram]

/-- The loop goes on with the line that the byte makes. -/
theorem At.next (h : At input n s) (hch : input n = some ch) (hnot : ¬IsNewline ch) :
    At input (n + 1) { s with
      ram := Function.update s.ram (typed input n).length ch, taken := n + 1 } ∧
      (typed input (n + 1)).length ≤ (typed input n).length + 1 := by
  refine ⟨⟨h.source, rfl, h.typing.succ hch hnot, fun i hi => ?_⟩, ?_⟩
  · rw [typed_succ hch, edit] at hi ⊢
    split at hi
    · rename_i hbs
      rw [if_pos hbs]
      rw [List.length_dropLast] at hi
      rw [List.getElem?_dropLast, if_pos hi]
      exact h.update ch i (by omega)
    · rename_i hbs
      rw [if_neg hbs]
      split at hi
      · rename_i htab
        rw [if_pos htab]
        exact h.update ch i hi
      · rename_i htab
        rw [if_neg htab]
        rw [List.length_append, List.length_singleton] at hi
        rcases Nat.lt_succ_iff_lt_or_eq.mp hi with hi | rfl
        · rw [List.getElem?_append_left hi]
          exact h.update ch i hi
        · simp
  · rw [typed_succ hch]
    exact length_edit_le _ _

theorem ends_readLoop (hcount : count < 2 ^ 32) (h : At input n s)
    (hle : (typed input n).length ≤ count) :
    Ends (readLoop count fuel (typed input n).length) (Outcome count input n fuel) s := by
  induction fuel generalizing n s with
  | zero =>
      unfold readLoop
      by_cases hfull : count ≤ (typed input n).length
      · rw [if_pos hfull]
        have heq := hle.antisymm hfull
        refine ends_bind ⟨(), _, _, run_tag (run_store _ _ s), ends_pure ⟨⟨n, h.typing, heq⟩, ?_⟩⟩
        simp [heq]
      · rw [if_neg hfull]
        exact ends_pure ⟨⟨by simp, by simp⟩, h.typing, not_le.mp hfull⟩
  | succ fuel ih =>
      unfold readLoop
      by_cases hfull : count ≤ (typed input n).length
      · rw [if_pos hfull]
        have heq := hle.antisymm hfull
        refine ends_bind ⟨(), _, _, run_tag (run_store _ _ s), ends_pure ⟨⟨n, h.typing, heq⟩, ?_⟩⟩
        simp [heq]
      · have hlt := not_le.mp hfull
        rw [if_neg hfull]
        cases hch : input n with
        | none =>
            refine ends_bind ⟨false, _, _, h.run_readByte_none hch, ends_bind ⟨(), _, _,
              run_tag (run_store _ _ _), ends_pure ⟨?_, n, by omega, h.typing, ?_, h.holds⟩⟩⟩
            · exact safe_cell hlt (by simp)
            · intro ch hch'
              rw [hch] at hch'
              cases hch'
        | some ch =>
            have hload := run_load_update s (typed input n).length ch (n + 1)
            refine ends_bind ⟨true, _, _, h.run_readByte hch,
              ends_bind ⟨ch, _, _, hload, ?_⟩⟩
            dsimp only
            by_cases hnewline : ch = LF ∨ ch = CR
            · rw [if_pos hnewline]
              refine ends_bind ⟨(), _, _, run_tag (run_store _ _ _), ends_bind (ends_note
                (ends_pure ⟨safe_cell hlt (by simp), n, by omega, h.typing, ?_, ?_⟩))⟩
              · intro c hc
                rw [hch] at hc
                cases hc
                exact hnewline
              · have hholds := h.holds
                rwa [← Function.update_idem ch 0] at hholds
            · rw [if_neg hnewline]
              have htyping := h.typing.succ hch hnewline
              have hnext := h.next hch hnewline
              have hlen := hnext.2
              by_cases hbs : ch = BS
              · rw [if_pos hbs]
                subst hbs
                have hback : typed input (n + 1) = (typed input n).dropLast := by
                  rw [typed_succ hch, edit, if_pos rfl]
                refine ends_bind ⟨_, _, _, run_tag (run_load 0 _), ?_⟩
                dsimp only [Ram.ram]
                by_cases hempty : (typed input n).length = 0
                · -- nothing to delete: the byte itself is the first one of the buffer
                  have hfirst : Function.update s.ram (typed input n).length BS 0 = BS := by
                    rw [hempty, Function.update_self]
                  have hsame : typed input (n + 1) = typed input n := by
                    rw [hback, List.length_eq_zero_iff.mp hempty, List.dropLast_nil]
                  have hrest := ih hnext.1 (hsame ▸ hle)
                  rw [hsame] at hrest
                  rw [if_neg (not_not.mpr hfirst)]
                  refine ends_mono hrest fun r s' l hout => ?_
                  rw [← List.append_assoc, ← List.append_assoc]
                  exact hout.append (safe_cell hlt (by simp))
                · have hpos := Nat.pos_of_ne_zero hempty
                  have hfirst : Function.update s.ram (typed input n).length BS 0 ≠ BS := by
                    rw [Function.update_of_ne (by omega)]
                    exact ne_bs_of_mem_typed (List.mem_of_getElem? (h.line 0 hpos))
                  have hidx : u32 ((typed input n).length + (2 ^ 32 - 1)) =
                      (typed input (n + 1)).length := by
                    rw [hback, List.length_dropLast]
                    unfold u32
                    omega
                  have hrest := ih hnext.1 (by rw [hback, List.length_dropLast]; omega)
                  rw [if_pos hfirst, hidx]
                  refine ends_bind (ends_note (ends_bind (ends_note
                    (ends_mono hrest fun r s' l hout => ?_))))
                  rw [← List.append_assoc, ← List.append_assoc, ← List.append_assoc,
                    ← List.append_assoc]
                  refine hout.append ⟨fun p hp => ?_, fun i hi => ?_⟩
                  · simp at hp
                    omega
                  · simp at hi
                    omega
              · rw [if_neg hbs]
                by_cases htab : ch = TAB
                · rw [if_pos htab]
                  have hsame : typed input (n + 1) = typed input n := by
                    rw [typed_succ hch, edit, if_neg hbs, if_pos htab]
                  have hrest := ih hnext.1 (hsame ▸ hle)
                  rw [hsame] at hrest
                  refine ends_mono hrest fun r s' l hout => ?_
                  rw [← List.append_assoc]
                  exact hout.append (safe_cell hlt (by simp))
                · rw [if_neg htab]
                  have hmore : typed input (n + 1) = typed input n ++ [ch] := by
                    rw [typed_succ hch, edit, if_neg hbs, if_neg htab]
                  have hrest := ih hnext.1 (by simp [hmore]; omega)
                  have hidx : u32 ((typed input n).length + 1) = (typed input (n + 1)).length := by
                    rw [hmore, List.length_append, List.length_singleton]
                    exact Nat.mod_eq_of_lt (by omega)
                  rw [hidx]
                  refine ends_bind (ends_note (ends_mono hrest fun r s' l hout => ?_))
                  rw [← List.append_assoc, ← List.append_assoc]
                  exact hout.append (safe_cell hlt (by simp))

/-! ## The whole call -/

/-- The state before `readline`. -/
def start (ram : Bytes) (input : ℕ → Option UInt8) : State := ⟨ram, fun _ => none, input, 0⟩

/-- However long it runs, it stays in the buffer; and when the line has ended, the buffer holds
it. -/
def StaysInBuffer (count : ℕ) (ram : Bytes) (input : ℕ → Option UInt8) : Prop :=
  ∀ fuel, Ends (readline count fuel) (fun r s' l => Safe count l ∧
    (r = some .newline ∨ r = some .eof →
      ∃ n, Typing input n ∧ Stops input n ∧ Holds s'.ram (typed input n))) (start ram input)

/-- The line never has `count` characters before it ends. -/
def Fits (count : ℕ) (input : ℕ → Option UInt8) : Prop :=
  ∀ n, Typing input n → (typed input n).length < count

theorem ends_readline (hcount : count < 2 ^ 32) (ram : Bytes)
    (input : ℕ → Option UInt8) (fuel : ℕ) :
    Ends (readline count fuel) (Outcome count input 0 fuel) (start ram input) := by
  have hat : At input 0 (start ram input) :=
    ⟨rfl, rfl, fun i hi => absurd hi (Nat.not_lt_zero i), fun i hi => absurd hi (Nat.not_lt_zero i)⟩
  exact ends_readLoop hcount hat (Nat.zero_le _)

/-- A line that does not fit gets a zero behind the buffer. -/
theorem StaysInBuffer.fits (hcount : count < 2 ^ 32) (h : StaysInBuffer count ram input) :
    Fits count input := by
  intro n htyping
  by_contra hlong
  obtain ⟨r, s', l, hrun, hout⟩ := ends_readline hcount ram input n
  obtain ⟨r', s'', l', hrun', hsafe, -⟩ := h n
  cases hrun.symm.trans hrun'
  unfold Outcome at hout
  rw [Nat.zero_add] at hout
  match r with
  | none => exact hlong hout.2.2
  | some .full => exact absurd (hsafe.stores count hout.2) (lt_irrefl count)
  | some .newline =>
      obtain ⟨-, n', hlt, -, hstops, -⟩ := hout
      obtain ⟨ch, hch, hnot⟩ := htyping n' hlt
      exact hnot (hstops ch hch)
  | some .eof =>
      obtain ⟨-, n', hlt, -, hstops, -⟩ := hout
      obtain ⟨ch, hch, hnot⟩ := htyping n' hlt
      exact hnot (hstops ch hch)

theorem Fits.staysInBuffer (hcount : count < 2 ^ 32) (h : Fits count input) :
    StaysInBuffer count ram input := by
  intro fuel
  obtain ⟨r, s', l, hrun, hout⟩ := ends_readline hcount ram input fuel
  refine ⟨r, s', l, hrun, ?_⟩
  unfold Outcome at hout
  match r with
  | none => exact ⟨hout.1, by simp⟩
  | some .full =>
      obtain ⟨⟨n, htyping, hlength⟩, -⟩ := hout
      exact absurd (h n htyping) (not_lt.mpr hlength.ge)
  | some .newline =>
      obtain ⟨hsafe, n, -, hline⟩ := hout
      exact ⟨hsafe, fun _ => ⟨n, hline⟩⟩
  | some .eof =>
      obtain ⟨hsafe, n, -, hline⟩ := hout
      exact ⟨hsafe, fun _ => ⟨n, hline⟩⟩

/-- `readline` is safe exactly for the lines that fit. -/
theorem staysInBuffer_iff (hcount : count < 2 ^ 32) (ram : Bytes) (input : ℕ → Option UInt8) :
    StaysInBuffer count ram input ↔ Fits count input :=
  ⟨fun h => h.fits hcount, fun h => h.staysInBuffer hcount⟩

theorem staysInBuffer_iff_empty : StaysInBuffer 256 (fun _ => 0) (fun _ => none) ↔
    Fits 256 fun _ => none :=
  staysInBuffer_iff (by decide) _ _

/-- A letter for ever. -/
def letters : ℕ → Option UInt8 := fun _ => some 97

theorem length_typed_letters (n : ℕ) : (typed letters n).length = n := by
  induction n with
  | zero => rfl
  | succ n ih =>
      have hch : letters n = some 97 := rfl
      rw [typed_succ hch, edit, if_neg (by decide), if_neg (by decide), List.length_append, ih]
      rfl

/-- The buffer of `main` with 256 letters. -/
theorem exists_overflow : ¬∀ count ram input, 1 ≤ count → count < 2 ^ 32 →
    StaysInBuffer count ram input := by
  intro h
  have hfits := (h 256 (fun _ => 0) letters (by decide) (by decide)).fits (by decide)
  have htyping : Typing letters 256 := fun i _ => ⟨97, rfl, by decide⟩
  have hlength := hfits 256 htyping
  rw [length_typed_letters] at hlength
  exact lt_irrefl _ hlength

end Ylos.Shell
