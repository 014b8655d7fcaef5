import Ylos.Lib.Text
import Ylos.Verification.Shell.Readline
import Ylos.Verification.Shell.Words

/-! # The splitting of a command line -/

namespace Ylos.Shell

open Exec Ram
open Bytes (Str)

variable {s s' : State} {line rest u v w : List UInt8} {ch : UInt8} {l l' : List Event}
  {n next stop argc r k p : ℕ} {quot : Bool} {ws : List (List UInt8)} {test : UInt8 → Prop}
  [DecidablePred test]

/-! ## Accesses -/

/-- The accesses are up to `stop`, and the slots are in `argv`. -/
structure Tame (stop : ℕ) (l : List Event) : Prop where
  loads : ∀ p, .mem (.load p) ∈ l → p ≤ stop
  stores : ∀ p, .mem (.store p) ∈ l → p ≤ stop
  slots : ∀ i, .slot i ∈ l → i < MAX_ARG_NR

theorem Tame.append (h : Tame stop l) (h' : Tame stop l') : Tame stop (l ++ l') where
  loads p hp := (List.mem_append.mp hp).elim (h.loads p) (h'.loads p)
  stores p hp := (List.mem_append.mp hp).elim (h.stores p) (h'.stores p)
  slots i hi := (List.mem_append.mp hi).elim (h.slots i) (h'.slots i)

theorem tame_load (h : p ≤ stop) : Tame stop [.mem (.load p)] :=
  ⟨by simp [h], by simp, by simp⟩

theorem tame_store (h : p ≤ stop) : Tame stop [.mem (.store p)] :=
  ⟨by simp, by simp [h], by simp⟩

theorem tame_slot (h : argc < MAX_ARG_NR) : Tame stop [.slot argc] :=
  ⟨by simp, by simp, by simp [h]⟩

theorem run_peek (h : p < MAX_CMD_LEN) (s : State) :
    (peek p).run s = .ok (s.ram p, s, [.mem (.load p)]) := by
  unfold peek
  rw [if_pos h]
  exact run_tag (run_load p s)

theorem run_poke (h : p < MAX_CMD_LEN) (ch : UInt8) (s : State) : (poke p ch).run s =
    .ok ((), { s with ram := Function.update s.ram p ch }, [.mem (.store p)]) := by
  unfold poke
  rw [if_pos h]
  exact run_tag (run_store p ch s)

/-- The state with one more pointer. -/
def withArg (s : State) (i p : ℕ) : State :=
  { s with argv := fun j => if j = i then some p else s.argv j }

theorem run_setArg (i p : ℕ) (s : State) :
    (setArg i (some p)).run s = .ok ((), withArg s i p, [.slot i]) := rfl

/-! ## The inner loops -/

/-- Over `k` bytes to the first one that fails the test. -/
theorem run_passLoop (hgo : ∀ j < k, test (s.ram (next + j))) (hstop : ¬test (s.ram (next + k)))
    (hk : k < n) (hlt : next + k < MAX_CMD_LEN) (hle : next + k ≤ stop) :
    ∃ l, Tame stop l ∧ (passLoop test n next).run s = .ok (next + k, s, l) := by
  induction k generalizing n next with
  | zero =>
      obtain ⟨n, rfl⟩ := Nat.exists_eq_add_of_lt hk
      have hfirst : ¬test (s.ram next) := hstop
      refine ⟨[.mem (.load next)], tame_load hle, ?_⟩
      unfold passLoop
      rw [run_bind_ok _ (run_peek (by omega) s), if_neg hfirst]
      rfl
  | succ k ih =>
      obtain ⟨n, rfl⟩ := Nat.exists_eq_add_of_lt hk
      have hshift : ∀ j, next + 1 + j = next + (j + 1) := fun j => by omega
      have hfirst : test (s.ram next) := hgo 0 (by omega)
      have hgo' : ∀ j < k, test (s.ram (next + 1 + j)) := by
        intro j hj
        rw [hshift]
        exact hgo (j + 1) (by omega)
      obtain ⟨l, hl, hrun⟩ := ih (n := k + 1 + n) hgo' (by rw [hshift]; exact hstop) (by omega)
        (by omega) (by omega)
      refine ⟨[.mem (.load next)] ++ l, (tame_load (by omega)).append hl, ?_⟩
      unfold passLoop
      rw [run_bind_ok _ (run_peek (by omega) s), if_pos hfirst, hrun, hshift]

/-- A loop that all `k` bytes let pass looks at the next one too. -/
theorem after_passLoop (hgo : ∀ j < k, test (s.ram (next + j))) :
    after (passLoop test n next) (fun _ _ l => .mem (.load (next + k)) ∈ l) s := by
  induction n generalizing next k with
  | zero => exact after_fault _
  | succ n ih =>
      unfold passLoop
      by_cases hlt : next < MAX_CMD_LEN
      · refine (leads_bind (run_peek hlt s)).after ?_
        cases k with
        | zero => exact fun _ _ l _ => by simp
        | succ k =>
            have hshift : ∀ j, next + 1 + j = next + (j + 1) := fun j => by omega
            have hfirst : test (s.ram next) := hgo 0 (by omega)
            rw [if_pos hfirst]
            have hgo' : ∀ j < k, test (s.ram (next + 1 + j)) := by
              intro j hj
              rw [hshift]
              exact hgo (j + 1) (by omega)
            refine after_mono (ih hgo') fun _ _ l hl => ?_
            rw [hshift] at hl
            exact List.mem_append_right _ hl
      · intro _ _ _ hrun
        unfold peek at hrun
        rw [if_neg hlt, run_bind_error _ (run_fault _ s)] at hrun
        cases hrun

/-! ## The rest of the line -/

/-- The rest of the line is at `next`, and its zero at `stop`. -/
structure Ahead (s : State) (next stop : ℕ) (rest : List UInt8) : Prop where
  str : Str s.ram next rest
  live : 0 ∉ rest
  ends : next + rest.length = stop
  lt : stop < MAX_CMD_LEN

theorem Ahead.append (h : Ahead s next stop (v ++ rest)) :
    Ahead s (next + v.length) stop rest where
  str := h.str.append.2
  live hmem := h.live (List.mem_append_right _ hmem)
  ends := by rw [← h.ends, List.length_append, add_assoc]
  lt := h.lt

theorem Ahead.tail (h : Ahead s next stop (ch :: rest)) : Ahead s (next + 1) stop rest :=
  Ahead.append (v := [ch]) h

theorem Ahead.head (h : Ahead s next stop (ch :: rest)) :
    s.ram next = ch ∧ ch ≠ 0 ∧ next < stop := by
  refine ⟨h.str.head, fun hzero => h.live (by simp [hzero]), ?_⟩
  rw [← h.ends, List.length_cons]
  omega

theorem Ahead.nil (h : Ahead s next stop []) : s.ram next = 0 ∧ next = stop :=
  ⟨h.str.2, h.ends⟩

theorem Ahead.mem (h : Ahead s next stop (v ++ rest)) (hk : k < v.length) :
    s.ram (next + k) ∈ v := h.str.append.1.mem hk

theorem Ahead.ne_zero (h : Ahead s next stop rest) (hne : rest ≠ []) : s.ram next ≠ 0 := by
  match rest with
  | [] => exact absurd rfl hne
  | ch :: rest =>
      rw [h.head.1]
      exact h.head.2.1

theorem Ahead.le (h : Ahead s next stop rest) : next ≤ stop := by
  rw [← h.ends]
  omega

theorem Ahead.congr (h : Ahead s next stop rest) (heq : ∀ a, next ≤ a → s'.ram a = s.ram a) :
    Ahead s' next stop rest :=
  ⟨h.str.congr fun a ha _ => heq a ha, h.live, h.ends, h.lt⟩

/-- The blanks before a word. -/
theorem Ahead.run_skipLoop (h : Ahead s next stop (u ++ rest)) (hu : ∀ c ∈ u, c = SPACE)
    (hne : s.ram (next + u.length) ≠ SPACE) : ∃ l, Tame stop l ∧
      (skipLoop false (MAX_CMD_LEN + 1) next).run s = .ok (next + u.length, s, l) := by
  have hle := h.append.le
  have hlt := h.lt
  exact run_passLoop (fun j hj => .inl (hu _ (h.mem hj))) (by simp [hne]) (by omega) (by omega) hle

/-- The text between quotes. -/
theorem Ahead.run_skipLoop_quoted (h : Ahead s next stop (v ++ QUOTE :: rest)) (hv : QUOTE ∉ v) :
    ∃ l, Tame stop l ∧
      (skipLoop true (MAX_CMD_LEN + 1) next).run s = .ok (next + v.length, s, l) := by
  have hle := h.append.le
  have hlt := h.lt
  have hquote : s.ram (next + v.length) = QUOTE := h.append.head.1
  refine run_passLoop (fun j hj => .inr ⟨rfl, fun heq => hv (heq ▸ h.mem hj)⟩) ?_ (by omega)
    (by omega) hle
  rw [hquote]
  decide

/-- A word. -/
theorem Ahead.run_wordLoop (h : Ahead s next stop (v ++ rest)) (hv : SPACE ∉ v)
    (hend : s.ram (next + v.length) = 0 ∨ s.ram (next + v.length) = SPACE) : ∃ l, Tame stop l ∧
      (wordLoop (MAX_CMD_LEN + 1) next).run s = .ok (next + v.length, s, l) := by
  have hle := h.append.le
  have hlt := h.lt
  refine run_passLoop (fun j hj => ⟨fun hzero => ?_, fun heq => hv (heq ▸ h.mem hj)⟩) ?_ (by omega)
    (by omega) hle
  · exact h.live (List.mem_append_left _ (hzero ▸ h.mem hj))
  · rintro ⟨hzero, hspace⟩
    exact hend.elim hzero hspace

/-! ## The rounds -/

/-- The end of the line, or the end of the table. -/
theorem run_parseLoop_stop (h : s.ram next = 0 ∨ MAX_ARG_NR ≤ argc) (hlt : next < MAX_CMD_LEN) :
    (parseLoop (n + 1) next argc quot).run s = .ok (argc, s, [.mem (.load next)]) := by
  unfold parseLoop
  rw [run_bind_ok _ (run_peek hlt s), if_pos h]
  rfl

/-- Blanks at the end of the line. -/
theorem Ahead.run_blank (h : Ahead s next stop u) (hu : ∀ c ∈ u, c = SPACE) (n argc : ℕ) :
    ∃ l, Tame stop l ∧ (parseLoop (n + 1) next argc false).run s = .ok (argc, s, l) := by
  have hlt := h.lt
  have hle := h.le
  by_cases hdone : s.ram next = 0 ∨ MAX_ARG_NR ≤ argc
  · exact ⟨_, tame_load hle, run_parseLoop_stop hdone (by omega)⟩
  · have happend : Ahead s next stop (u ++ []) := by rwa [List.append_nil]
    obtain ⟨hzero, hstop⟩ := happend.append.nil
    obtain ⟨l, hl, hskip⟩ := happend.run_skipLoop hu (by rw [hzero]; decide)
    refine ⟨[.mem (.load next)] ++ (l ++ ([.mem (.load (next + u.length))] ++ [])),
      (tame_load hle).append (hl.append ((tame_load hstop.le).append ⟨by simp, by simp, by simp⟩)),
      ?_⟩
    unfold parseLoop
    refine (leads_bind (run_peek (by omega) s)).run ?_
    rw [if_neg hdone]
    refine (leads_bind hskip).run ((leads_bind (run_peek (by omega) s)).run ?_)
    rw [if_pos hzero]
    rfl

theorem Ahead.withArg (h : Ahead s next stop rest) (i p : ℕ) :
    Ahead (withArg s i p) next stop rest := h.congr fun _ _ => rfl

/-- A word is passed over. -/
theorem Ahead.leads_word (h : Ahead s next stop (u ++ (ch :: v ++ rest)))
    (hu : ∀ c ∈ u, c = SPACE) (hch : ch ≠ SPACE) (hquote : ch ≠ QUOTE) (hv : SPACE ∉ v)
    (hend : s.ram (next + u.length + (v.length + 1)) = 0 ∨
      s.ram (next + u.length + (v.length + 1)) = SPACE) (hargc : argc < MAX_ARG_NR) (n : ℕ) :
    ∃ l, Tame stop l ∧ Leads (parseLoop (n + 1) next argc false) s l
      (do
        let ch ← peek (next + u.length + (v.length + 1))
        if ch = 0 then parseLoop n (next + u.length + (v.length + 1)) (argc + 1) false
        else
          poke (next + u.length + (v.length + 1)) 0
          parseLoop n (next + u.length + (v.length + 1) + 1) (argc + 1) false)
      (Shell.withArg s argc (next + u.length)) := by
  have hlt := h.lt
  have hle := h.le
  have hword := h.append
  have hwordle := hword.le
  have hcons : Ahead s (next + u.length) stop (ch :: (v ++ rest)) := hword
  obtain ⟨hfirst, hzero, -⟩ := hcons.head
  have hlive : ¬(s.ram next = 0 ∨ MAX_ARG_NR ≤ argc) := by
    simp only [h.ne_zero (by simp), false_or, not_le]
    exact hargc
  have hnone : SPACE ∉ ch :: v := by simp [hv, Ne.symm hch]
  obtain ⟨l, hl, hskip⟩ := h.run_skipLoop hu (by rw [hfirst]; exact hch)
  obtain ⟨l', hl', hpass⟩ := (hword.withArg argc (next + u.length)).run_wordLoop hnone hend
  refine ⟨_, (tame_load hle).append (hl.append ((tame_load hwordle).append
    ((tame_slot hargc).append hl'))), ?_⟩
  conv => enter [1]; unfold parseLoop
  refine (leads_bind (run_peek (by omega) s)).trans ?_
  rw [if_neg hlive]
  refine (leads_bind hskip).trans ((leads_bind (run_peek (by omega) s)).trans ?_)
  rw [if_neg (by rw [hfirst]; exact hzero), if_neg (by rw [hfirst]; exact hquote)]
  exact (leads_bind (run_setArg argc _ s)).trans (leads_bind hpass)

/-- A word with a blank behind it. -/
theorem Ahead.leads_word_blank (h : Ahead s next stop (u ++ ch :: (v ++ SPACE :: rest)))
    (hu : ∀ c ∈ u, c = SPACE) (hch : ch ≠ SPACE) (hquote : ch ≠ QUOTE) (hv : SPACE ∉ v)
    (hargc : argc < MAX_ARG_NR) (n : ℕ) :
    ∃ l, Tame stop l ∧ Leads (parseLoop (n + 1) next argc false) s l
      (parseLoop n (next + u.length + (v.length + 1) + 1) (argc + 1) false)
      { Shell.withArg s argc (next + u.length) with
        ram := Function.update s.ram (next + u.length + (v.length + 1)) 0 } := by
  have hlt := h.lt
  have hrest : Ahead s (next + u.length + (v.length + 1)) stop (SPACE :: rest) :=
    Ahead.append (v := ch :: v) h.append
  obtain ⟨hblank, hzero, hbefore⟩ := hrest.head
  have hsplit : Ahead s next stop (u ++ (ch :: v ++ SPACE :: rest)) := h
  obtain ⟨l, hl, hleads⟩ := hsplit.leads_word hu hch hquote hv (.inr hblank) hargc n
  refine ⟨_, hl.append ((tame_load hbefore.le).append (tame_store hbefore.le)), hleads.trans ?_⟩
  refine (leads_bind (run_peek (by omega) _)).trans ?_
  have hnonzero : ¬(Shell.withArg s argc (next + u.length)).ram
      (next + u.length + (v.length + 1)) = 0 := fun h => hzero (hblank.symm.trans h)
  rw [if_neg hnonzero]
  exact leads_bind (run_poke (by omega) 0 _)

/-- A word at the end of the line. -/
theorem Ahead.leads_word_end (h : Ahead s next stop (u ++ ch :: v))
    (hu : ∀ c ∈ u, c = SPACE) (hch : ch ≠ SPACE) (hquote : ch ≠ QUOTE) (hv : SPACE ∉ v)
    (hargc : argc < MAX_ARG_NR) (n : ℕ) :
    ∃ l, Tame stop l ∧ Leads (parseLoop (n + 1) next argc false) s l
      (parseLoop n stop (argc + 1) false) (Shell.withArg s argc (next + u.length)) := by
  have hlt := h.lt
  have hnil : Ahead s next stop (u ++ (ch :: v ++ [])) := by rwa [List.append_nil]
  obtain ⟨hzero, hstop⟩ := (Ahead.append (v := ch :: v) hnil.append).nil
  have hat : next + u.length + (v.length + 1) = stop := hstop
  obtain ⟨l, hl, hleads⟩ := hnil.leads_word hu hch hquote hv (.inl hzero) hargc n
  have hend : (Shell.withArg s argc (next + u.length)).ram
      (next + u.length + (v.length + 1)) = 0 := hzero
  refine ⟨_, hl.append (tame_load hat.le), hleads.trans ?_⟩
  unfold Leads
  rw [run_bind_ok _ (run_peek (by omega) _), if_pos hend, hat]

/-- A quote before a word. -/
theorem Ahead.leads_open (h : Ahead s next stop (u ++ QUOTE :: rest)) (hu : ∀ c ∈ u, c = SPACE)
    (hargc : argc < MAX_ARG_NR) (n : ℕ) :
    ∃ l, Tame stop l ∧ Leads (parseLoop (n + 1) next argc false) s l
      (parseLoop n (next + u.length + 1) (argc + 1) true)
      (Shell.withArg s argc (next + u.length + 1)) := by
  have hlt := h.lt
  obtain ⟨hquote, hzero, hbefore⟩ := h.append.head
  have hlive : ¬(s.ram next = 0 ∨ MAX_ARG_NR ≤ argc) := by
    simp only [h.ne_zero (by simp), false_or, not_le]
    exact hargc
  obtain ⟨l, hl, hskip⟩ := h.run_skipLoop hu (by rw [hquote]; decide)
  refine ⟨_, (tame_load h.le).append (hl.append ((tame_load hbefore.le).append
    (tame_slot hargc))), ?_⟩
  conv => enter [1]; unfold parseLoop
  refine (leads_bind (run_peek (by omega) s)).trans ?_
  rw [if_neg hlive]
  refine (leads_bind hskip).trans ((leads_bind (run_peek (by omega) s)).trans ?_)
  rw [if_neg (by rw [hquote]; exact hzero), if_pos hquote]
  exact leads_bind (run_setArg argc _ s)

/-- The text between quotes, and the quote behind it. -/
theorem Ahead.leads_close (h : Ahead s next stop (v ++ QUOTE :: rest)) (hv : QUOTE ∉ v)
    (hargc : argc < MAX_ARG_NR) (n : ℕ) :
    ∃ l, Tame stop l ∧ Leads (parseLoop (n + 1) next argc true) s l
      (parseLoop n (next + v.length + 1) argc false)
      { s with ram := Function.update s.ram (next + v.length) 0 } := by
  have hlt := h.lt
  obtain ⟨hquote, hzero, hbefore⟩ := h.append.head
  have hlive : ¬(s.ram next = 0 ∨ MAX_ARG_NR ≤ argc) := by
    simp only [h.ne_zero (by simp), false_or, not_le]
    exact hargc
  obtain ⟨l, hl, hskip⟩ := h.run_skipLoop_quoted hv
  refine ⟨_, (tame_load h.le).append (hl.append ((tame_load hbefore.le).append
    (tame_store hbefore.le))), ?_⟩
  conv => enter [1]; unfold parseLoop
  refine (leads_bind (run_peek (by omega) s)).trans ?_
  rw [if_neg hlive]
  refine (leads_bind hskip).trans ((leads_bind (run_peek (by omega) s)).trans ?_)
  rw [if_neg (by rw [hquote]; exact hzero), if_pos hquote]
  exact leads_bind (run_poke (by omega) 0 s)

/-! ## Lines whose quotes have partners -/

/-- The words are in the slots from `argc` on, and nothing else has changed. -/
structure Parsed (s : State) (next stop argc : ℕ) (ws : List (List UInt8)) (r : ℕ) (s' : State)
    (l : List Event) : Prop where
  count : r = argc + ws.length
  tame : Tame stop l
  ram : ∀ a, a < next ∨ a = stop → s'.ram a = s.ram a
  argv : ∀ i < argc, s'.argv i = s.argv i
  word : ∀ k w, ws[k]? = some w → ∃ p, s'.argv (argc + k) = some p ∧ Str s'.ram p w

/-- One more word before the others. -/
theorem Parsed.cons {s₁ : State} {next' : ℕ} (h : Parsed s₁ next' stop (argc + 1) ws r s' l')
    (hl : Tame stop l) (hnext : next ≤ next') (hram : ∀ a, a < next ∨ a = stop → s₁.ram a = s.ram a)
    (hargv : ∀ i < argc, s₁.argv i = s.argv i) (hp : s₁.argv argc = some p) (hstr : Str s₁.ram p w)
    (hend : p + w.length < next' ∨ p + w.length = stop ∧ next' = stop) :
    Parsed s next stop argc (w :: ws) r s' (l ++ l') := by
  refine ⟨by rw [h.count, List.length_cons]; omega, hl.append h.tame, fun a ha => ?_,
    fun i hi => ?_, fun k w' hk => ?_⟩
  · rw [h.ram a (by omega), hram a ha]
  · rw [h.argv i (by omega), hargv i hi]
  · cases k with
    | zero =>
        rw [List.getElem?_cons_zero] at hk
        cases hk
        refine ⟨p, by rw [Nat.add_zero, h.argv argc (by omega), hp], hstr.congr fun a _ ha => ?_⟩
        exact h.ram a (by omega)
    | succ k =>
        rw [List.getElem?_cons_succ] at hk
        obtain ⟨p', hp', hstr'⟩ := h.word k w' hk
        exact ⟨p', by rw [← hp']; congr 1; omega, hstr'⟩

theorem ends_parseLoop (h : Ahead s next stop line) (hclosed : closed .blank line = true)
    (hargc : argc + (words line).length < MAX_ARG_NR) (hn : line.length < n) :
    Ends (parseLoop n next argc false) (Parsed s next stop argc (words line)) s := by
  induction line using line_induction generalizing s next argc n with
  | blank u hu =>
      obtain ⟨n, rfl⟩ := Nat.exists_eq_add_of_lt hn
      obtain ⟨l, hl, hrun⟩ := h.run_blank hu (u.length + n) argc
      rw [(words_blank hu).1]
      exact ⟨argc, s, l, hrun, rfl, hl, fun _ _ => rfl, fun _ _ => rfl, by simp⟩
  | word u ch v rest hu hch hquote hv ih =>
      obtain ⟨n, rfl⟩ := Nat.exists_eq_add_of_lt hn
      rw [(words_word hu hch hquote hv rest).2] at hclosed
      rw [(words_word hu hch hquote hv rest).1] at hargc ⊢
      rw [List.length_cons] at hargc
      have hword : Ahead s (next + u.length) stop (ch :: v ++ SPACE :: rest) := h.append
      have hnext : Ahead s (next + u.length + (v.length + 1) + 1) stop rest := hword.append.tail
      have hle := hnext.le
      have hroom : argc < MAX_ARG_NR := by omega
      obtain ⟨l, hl, hleads⟩ := h.leads_word_blank hu hch hquote hv hroom
        (List.length (u ++ ch :: (v ++ SPACE :: rest)) + n)
      refine hleads.ends (ends_mono (ih (hnext.congr fun a ha => ?_) hclosed (by omega) ?_)
        fun r s' l' hparsed => hparsed.cons (p := next + u.length) hl (by omega) (fun a ha => ?_)
          (fun i hi => ?_) ?_ hword.str.cut (.inl ?_))
      · exact Function.update_of_ne (by omega) _ _
      · simp
        omega
      · exact Function.update_of_ne (by omega) _ _
      · exact if_neg (by omega)
      · exact if_pos rfl
      · simp
  | last u ch v hu hch hquote hv =>
      obtain ⟨n, rfl⟩ := Nat.exists_eq_add_of_lt hn
      rw [(words_last hu hch hquote hv).1] at hargc ⊢
      rw [List.length_singleton] at hargc
      have hword : Ahead s (next + u.length) stop (ch :: v) := h.append
      have hlt := h.lt
      have hroom : argc < MAX_ARG_NR := by omega
      obtain ⟨l, hl, hleads⟩ := h.leads_word_end hu hch hquote hv hroom
        (List.length (u ++ ch :: v) + n)
      have hend : Ahead (withArg s argc (next + u.length)) stop stop [] :=
        ⟨⟨Bytes.shows_nil _ _, hword.ends ▸ hword.str.2⟩, by simp, rfl, hlt⟩
      obtain ⟨l', hl', hrun⟩ := hend.run_blank (by simp) (u.length + v.length + n) (argc + 1)
      have hfuel : (u ++ ch :: v).length + n = u.length + v.length + n + 1 := by
        simp
        omega
      have hparsed : Parsed (withArg s argc (next + u.length)) stop stop (argc + 1) [] (argc + 1)
          (withArg s argc (next + u.length)) l' :=
        ⟨rfl, hl', fun _ _ => rfl, fun _ _ => rfl, by simp⟩
      refine hleads.ends ⟨argc + 1, _, l', by rw [hfuel]; exact hrun, hparsed.cons
        (p := next + u.length) hl h.le (fun _ _ => rfl) (fun i hi => ?_) ?_ hword.str
        (.inr ⟨hword.ends, rfl⟩)⟩
      · exact if_neg (by omega)
      · exact if_pos rfl
  | quoted u v rest hu hv ih =>
      rw [(words_quoted hu hv rest).2] at hclosed
      rw [(words_quoted hu hv rest).1] at hargc ⊢
      rw [List.length_cons] at hargc
      have hfuel : ∃ m, n = m + 1 + 1 ∧ rest.length < m := by
        refine ⟨n - 2, ?_, ?_⟩
        · simp at hn
          omega
        · simp at hn
          omega
      obtain ⟨n, rfl, hm⟩ := hfuel
      have hquote : Ahead s (next + u.length + 1) stop (v ++ QUOTE :: rest) := h.append.tail
      have hnext : Ahead s (next + u.length + 1 + v.length + 1) stop rest := hquote.append.tail
      have hle := hnext.le
      have hroom : argc + 1 < MAX_ARG_NR := by omega
      obtain ⟨l, hl, hopen⟩ := h.leads_open hu (Nat.lt_of_succ_lt hroom) (n + 1)
      obtain ⟨l', hl', hclose⟩ := (hquote.withArg argc (next + u.length + 1)).leads_close hv
        hroom n
      refine (hopen.trans hclose).ends (ends_mono (ih (hnext.congr fun a ha => ?_) hclosed
        (by omega) hm) fun r s' l₁ hparsed => hparsed.cons (p := next + u.length + 1)
          (hl.append hl') (by omega) (fun a ha => ?_) (fun i hi => ?_) ?_ hquote.str.cut (.inl ?_))
      · exact Function.update_of_ne (by omega) _ _
      · exact Function.update_of_ne (by omega) _ _
      · exact if_neg (by omega)
      · exact if_pos rfl
      · omega
  | unclosed u v hu hv =>
      rw [closed_unclosed hu hv] at hclosed
      cases hclosed

/-! ## Lines with an open quote -/

/-- Where an open quote leads: behind the end of the line, to a full table, or to an empty word. -/
def Astray (stop argc : ℕ) (ws : List (List UInt8)) (r : ℕ) (s' : State) (l : List Event) : Prop :=
  .mem (.load (stop + 1)) ∈ l ∨ MAX_ARG_NR ≤ r ∨
    (r = argc + ws.length ∧ ws.getLast? = some [QUOTE] ∧
      ∃ p, s'.argv (r - 1) = some p ∧ s'.ram p = 0)

theorem Astray.cons (h : Astray stop (argc + 1) ws r s' l') (w : List UInt8) (l : List Event) :
    Astray stop argc (w :: ws) r s' (l ++ l') := by
  rcases h with h | h | ⟨hr, hlast, hzero⟩
  · exact .inl (List.mem_append_right _ h)
  · exact .inr (.inl h)
  · refine .inr (.inr ⟨?_, ?_, hzero⟩)
    · rw [hr, List.length_cons]
      omega
    · rw [List.getLast?_cons, hlast]
      rfl

/-- A run that returns makes a round, unless the table is full. -/
theorem Ahead.after_round {Q : ℕ → State → List Event → Prop} (h : Ahead s next stop rest)
    (hfull : ∀ r s' l, MAX_ARG_NR ≤ r → Q r s' l)
    (hround : ∀ m, argc < MAX_ARG_NR → after (parseLoop (m + 1) next argc quot) Q s) :
    after (parseLoop n next argc quot) Q s := by
  have hlt := h.lt
  have hle := h.le
  cases n with
  | zero => exact after_fault _
  | succ n =>
      by_cases hargc : argc < MAX_ARG_NR
      · exact hround n hargc
      · intro r s' l hrun
        rw [run_parseLoop_stop (.inr (not_lt.mp hargc)) (by omega)] at hrun
        cases hrun
        exact hfull _ _ _ (not_lt.mp hargc)

/-- In quotes up to the end of the line. -/
theorem Ahead.after_quoted (h : Ahead s next stop v) (hv : QUOTE ∉ v)
    (hp : s.argv argc = some next) :
    after (parseLoop n next (argc + 1) true) (fun r s' l => .mem (.load (stop + 1)) ∈ l ∨
      MAX_ARG_NR ≤ r ∨
        (r = argc + 1 ∧ v = [] ∧ ∃ p, s'.argv (r - 1) = some p ∧ s'.ram p = 0)) s := by
  refine h.after_round (fun _ _ _ hr => .inr (.inl hr)) fun m hargc => ?_
  have hlt := h.lt
  have hle := h.le
  by_cases hnil : v = []
  · subst hnil
    have hzero : s.ram next = 0 := h.nil.1
    intro r s' l hrun
    rw [run_parseLoop_stop (.inl hzero) (by omega)] at hrun
    cases hrun
    exact .inr (.inr ⟨rfl, rfl, next, hp, hzero⟩)
  · have hlive : ¬(s.ram next = 0 ∨ MAX_ARG_NR ≤ argc + 1) := by
      simp only [h.ne_zero hnil, false_or, not_le]
      exact hargc
    -- no byte up to the zero is a quote, so the loop passes the zero as well
    have hgo : ∀ j < v.length + 1, s.ram (next + j) = SPACE ∨
        (true = true ∧ s.ram (next + j) ≠ QUOTE) := by
      intro j hj
      refine .inr ⟨rfl, fun heq => ?_⟩
      rcases Nat.lt_succ_iff_lt_or_eq.mp hj with hj | rfl
      · exact hv (heq ▸ h.str.1.mem hj)
      · rw [h.str.2] at heq
        revert heq
        decide
    have hends := h.ends
    unfold parseLoop
    refine (leads_bind (run_peek (by omega) s)).after ?_
    rw [if_neg hlive]
    refine (after_bind _ _).mpr (after_mono (after_passLoop hgo) fun _ _ _ hmem => ?_)
    rw [← add_assoc, hends] at hmem
    intro _ _ _ _
    exact .inl (by simp [hmem])

theorem after_parseLoop (h : Ahead s next stop line) (hopen : closed .blank line = false) :
    after (parseLoop n next argc false) (Astray stop argc (words line)) s := by
  induction line using line_induction generalizing s next argc n with
  | blank u hu =>
      rw [(words_blank hu).2] at hopen
      cases hopen
  | word u ch v rest hu hch hquote hv ih =>
      rw [(words_word hu hch hquote hv rest).2] at hopen
      rw [(words_word hu hch hquote hv rest).1]
      refine h.after_round (fun _ _ _ hr => .inr (.inl hr)) fun m hargc => ?_
      have hword : Ahead s (next + u.length) stop (ch :: v ++ SPACE :: rest) := h.append
      have hnext : Ahead s (next + u.length + (v.length + 1) + 1) stop rest := hword.append.tail
      obtain ⟨l, -, hleads⟩ := h.leads_word_blank hu hch hquote hv hargc m
      refine hleads.after (after_mono (ih (hnext.congr fun a ha => ?_) hopen)
        fun r s' l' hastray => hastray.cons _ l)
      exact Function.update_of_ne (by omega) _ _
  | last u ch v hu hch hquote hv =>
      rw [(words_last hu hch hquote hv).2] at hopen
      cases hopen
  | quoted u v rest hu hv ih =>
      rw [(words_quoted hu hv rest).2] at hopen
      rw [(words_quoted hu hv rest).1]
      refine h.after_round (fun _ _ _ hr => .inr (.inl hr)) fun m hargc => ?_
      have hquote : Ahead s (next + u.length + 1) stop (v ++ QUOTE :: rest) := h.append.tail
      have hnext : Ahead s (next + u.length + 1 + v.length + 1) stop rest := hquote.append.tail
      have hinside := hquote.withArg argc (next + u.length + 1)
      obtain ⟨l, -, hleads⟩ := h.leads_open hu hargc m
      refine hleads.after (hinside.after_round (fun _ _ _ hr => .inr (.inl hr)) fun m hargc => ?_)
      obtain ⟨l', -, hclose⟩ := hinside.leads_close hv hargc m
      refine hclose.after (after_mono (ih (hnext.congr fun a ha => ?_) hopen)
        fun r s' l₁ hastray => ?_)
      · exact Function.update_of_ne (by omega) _ _
      · rw [← List.append_assoc]
        exact hastray.cons _ _
  | unclosed u v hu hv =>
      refine h.after_round (fun _ _ _ hr => .inr (.inl hr)) fun m hargc => ?_
      have hquote : Ahead s (next + u.length + 1) stop v := h.append.tail
      obtain ⟨l, -, hleads⟩ := h.leads_open hu hargc m
      refine hleads.after (after_mono ((hquote.withArg argc _).after_quoted hv (if_pos rfl))
        fun r s' l' hout => ?_)
      rcases hout with hload | hr | ⟨hr, rfl, hempty⟩
      · exact .inl (List.mem_append_right _ hload)
      · exact .inr (.inl hr)
      · rw [words_quote hu]
        exact .inr (.inr ⟨hr, rfl, hempty⟩)

/-! ## The whole call -/

/-- `cmd_parse` returns, stays in the line and in the table, and leaves the words of the line. -/
def Splits (s : State) (line : List UInt8) : Prop :=
  Ends cmdParse (fun argc s' l => Tame line.length l ∧ argc = (words line).length ∧
    (∀ k w, (words line)[k]? = some w → ∃ p, s'.argv k = some p ∧ Str s'.ram p w) ∧
    s'.argv argc = none) s

theorem ahead_start (hline : line.length < MAX_CMD_LEN) (hzero : 0 ∉ line)
    (hstr : Str s.ram 0 line) : Ahead s 0 line.length line := ⟨hstr, hzero, Nat.zero_add _, hline⟩

theorem Ahead.splits (h : Ahead s 0 line.length line) (hclosed : closed .blank line = true)
    (hcount : (words line).length < MAX_ARG_NR) : Splits s line := by
  have hlt := h.lt
  have hargc : 0 + (words line).length < MAX_ARG_NR := by omega
  have hloop := ends_parseLoop (n := MAX_CMD_LEN + 2) h hclosed hargc (by omega)
  refine ends_bind (ends_mono hloop fun argc s' l hparsed => ?_)
  have hargc : argc = (words line).length := by rw [hparsed.count, Nat.zero_add]
  refine ends_bind ⟨(), _, _, rfl, ends_pure ⟨hparsed.tame.append ?_, hargc, fun k w hk => ?_, ?_⟩⟩
  · simpa using tame_slot (by omega)
  · obtain ⟨p, hp, hstr⟩ := hparsed.word k w hk
    rw [Nat.zero_add] at hp
    have hlen := (List.getElem?_eq_some_iff.mp hk).1
    exact ⟨p, (if_neg (by omega)).trans hp, hstr⟩
  · exact if_pos rfl

theorem Splits.of_ahead (h : Splits s line) (hahead : Ahead s 0 line.length line) :
    closed .blank line = true ∧ (words line).length < MAX_ARG_NR := by
  obtain ⟨argc, s', l, hrun, htame, hargc, hword, -⟩ := h
  obtain ⟨r, s₁, l₁, l₂, hloop, hrest, rfl⟩ := bind_eq_ok.mp hrun
  cases hrest
  have hslot : argc < MAX_ARG_NR := htame.slots argc (by simp)
  refine ⟨?_, hargc ▸ hslot⟩
  by_contra hopen
  rcases after_parseLoop hahead (by simpa using hopen) _ _ _ hloop with hload | hr | hlast
  · exact absurd (htame.loads _ (List.mem_append_left _ hload)) (by omega)
  · omega
  · obtain ⟨-, hlast, p, hp, hzero⟩ := hlast
    rw [List.getLast?_eq_getElem?, ← hargc] at hlast
    obtain ⟨hlen, -⟩ := List.getElem?_eq_some_iff.mp hlast
    obtain ⟨p', hp', hstr⟩ := hword _ _ hlast
    have hsame : p = p' := Option.some.inj (hp.symm.trans ((if_neg (by omega)).symm.trans hp'))
    subst hsame
    have hquote : s₁.ram p = QUOTE := hstr.head
    rw [hzero] at hquote
    revert hquote
    decide

/-- A line is split as it should be exactly if its quotes have partners and its words leave a slot
for the null pointer. -/
theorem splits_iff (hline : line.length < MAX_CMD_LEN) (hzero : 0 ∉ line)
    (hstr : Str s.ram 0 line) :
    Splits s line ↔ closed .blank line = true ∧ (words line).length < MAX_ARG_NR := by
  have hahead := ahead_start hline hzero hstr
  constructor
  · exact fun h => h.of_ahead hahead
  · rintro ⟨hclosed, hcount⟩
    exact hahead.splits hclosed hcount

/-- The buffer with a line at its start. -/
def inBuffer (line : List UInt8) : State := start (fun i => line.getD i 0) fun _ => none

theorem str_inBuffer (line : List UInt8) : Str (inBuffer line).ram 0 line := by
  constructor
  · intro j hj
    simp [inBuffer, start, hj]
  · simp [inBuffer, start]

/-- `e "a b"`. -/
def sample : List UInt8 := [101, 32, 34, 97, 32, 98, 34]

theorem splits_iff_sample : Splits (inBuffer sample) sample ↔
    closed .blank sample = true ∧ (words sample).length < MAX_ARG_NR :=
  splits_iff (by decide) (by decide) (str_inBuffer _)

/-- The line `"a` is read past its end. -/
theorem exists_astray : ¬∀ s line, line.length < MAX_CMD_LEN → 0 ∉ line → Str s.ram 0 line →
    Splits s line := by
  intro h
  have hstr := str_inBuffer [QUOTE, 97]
  have hlen : List.length [QUOTE, 97] < MAX_CMD_LEN := by decide
  have hsplits := h (inBuffer [QUOTE, 97]) [QUOTE, 97] hlen (by decide) hstr
  have hclosed := (hsplits.of_ahead (ahead_start hlen (by decide) hstr)).1
  revert hclosed
  decide

end Ylos.Shell
