import Ylos.Verification.Console.Simulation

/-! # What the calls of `console_write` display -/

namespace Ylos.Console

open Exec Ram

variable {s s' : State} {t t' : Terminal Cell} {l : List Event} {ch : UInt8}
  {buf : List UInt8} {bufs : List (List UInt8)} {i nr : ℕ}

/-! ## The calls -/

/-- What a byte stands for. -/
def commandsOf (ch : UInt8) : List (Command UInt8) :=
  if ch ∈ [ASCII_NUL, ASCII_ENQ, ASCII_ESC, ASCII_BEL, ASCII_HT, ASCII_VT] then []
  else if ch = ASCII_BS then [.bs]
  else if ch = ASCII_LF then [.lf, .cr]
  else if ch = ASCII_FF then [.lf]
  else if ch = ASCII_CR then [.cr]
  else if ch = ASCII_DEL then [.del]
  else [.print ch]

theorem does_writeChar (h : Shows s t) (ch : UInt8) :
    Does (writeChar ch) () s t (t.run codeStyle (commandsOf ch)) := by
  unfold writeChar commandsOf
  split
  · exact does_pure h
  split
  · exact does_commandBs h
  split
  · exact (does_commandLf h).bind fun s' h' => does_commandCr h'
  split
  · exact does_commandLf h
  split
  · exact does_commandCr h
  split
  · exact does_commandDel h
  · refine (does_wrapLine h).bind fun s' h' => does_putChar h' ?_ ch
    have hwidth : 0 < codeStyle.width := by decide
    rw [h'.x_eq]
    exact Terminal.wrap_x_lt hwidth t

theorem does_writeLoop (h : Shows s t) (buf : List UInt8) (nr : ℕ) :
    Does (writeLoop buf nr) (u32 (nr + buf.length + 1)) s t
      (t.run codeStyle (buf.flatMap commandsOf)) := by
  induction buf generalizing nr s t with
  | nil => exact does_pure h
  | cons ch buf ih =>
      rw [List.flatMap_cons, Terminal.run_append, List.length_cons]
      refine (does_writeChar h ch).bind fun s' h' => ?_
      have hnr : nr + (buf.length + 1) = nr + 1 + buf.length := by omega
      rw [hnr]
      exact ih h' (nr + 1)

theorem does_consoleWrite (h : Shows s t) (buf : List UInt8) :
    Does (consoleWrite buf) (u32 (buf.length + 1)) s t
      (t.run codeStyle (buf.flatMap commandsOf)) := by
  have hloop := does_writeLoop h buf 0
  rw [Nat.zero_add] at hloop
  exact hloop.bind fun s' h' => (does_setCursor h').bind fun s'' h'' => does_pure h''

theorem does_writeAll (h : Shows s t) (bufs : List (List UInt8)) :
    Does (writeAll bufs) (bufs.map fun buf => u32 (buf.length + 1)) s t
      (t.run codeStyle (bufs.flatten.flatMap commandsOf)) := by
  induction bufs generalizing s t with
  | nil => exact does_pure h
  | cons buf bufs ih =>
      rw [List.flatten_cons, List.flatMap_append, Terminal.run_append, List.map_cons]
      exact (does_consoleWrite h buf).bind fun s' h' =>
        (ih h').bind fun s'' h'' => does_pure h''

/-- The cursor at the start of the memory. -/
def State.home (s : State) : State := { s with screen := MEM_BASE, pos := MEM_BASE, x := 0, y := 0 }

theorem cursor_home (s : State) : Cursor s.home where
  x_le := Nat.zero_le _
  y_lt := (by decide : 0 < HEIGHT)
  pos := rfl
  aligned := (by decide : (MEM_BASE - MEM_BASE) % ROW_SIZE = 0)
  base_le := le_rfl
  lt_end := (by decide : MEM_BASE + SCR_SIZE < MEM_END)

theorem cellAt_cleared {m : Bytes} (hi : i < WIDTH * HEIGHT) :
    cellAt (m.copy MEM_BASE (2 * (MEM_SIZE / 2)) fun k => UInt8.ofNat (erase / 256 ^ (k % 2)))
      (MEM_BASE + 2 * i) = blank := by
  have hlow : MEM_BASE + 2 * i - MEM_BASE = 2 * i := by omega
  have hhigh : MEM_BASE + 2 * i + 1 - MEM_BASE = 2 * i + 1 := by omega
  have hsize : 2 * i + 1 < 2 * (MEM_SIZE / 2) := by
    unfold WIDTH HEIGHT at hi
    unfold MEM_SIZE
    omega
  have h0 : 2 * i % 2 = 0 := by omega
  have h1 : (2 * i + 1) % 2 = 1 := by omega
  unfold cellAt Bytes.copy
  rw [if_pos (by omega), if_pos (by omega), hlow, hhigh]
  simp only [h0, h1]
  decide

/-- `console_clear` shows a clear terminal, whatever was there before. -/
theorem ends_consoleClear (s : State) :
    Ends consoleClear (fun _ s' l => Shows s' (Terminal.clear codeStyle) ∧ Writes 0 0 l) s := by
  have hcursor : Cursor (s.home.setPair CRT_CURSOR_H CRT_CURSOR_L MEM_BASE) :=
    { cursor_home s with }
  have hwindow := window_setPair hcursor
  have hframe : Cursor ((s.home.setPair CRT_CURSOR_H CRT_CURSOR_L MEM_BASE).setPair
      CRT_START_ADDR_H CRT_START_ADDR_L MEM_BASE) := { cursor_home s with }
  refine ⟨(), _, _, bind_eq_ok.mpr ⟨(), s.home, [], _, run_modify _ s, bind_eq_ok.mpr ⟨(), _, [], _,
    run_setCursor _, bind_eq_ok.mpr ⟨(), _, [], _, run_setScreen _, run_tag (run_fill _ _ _ _ _),
      rfl⟩, rfl⟩, rfl⟩, ?_, ?_⟩
  · exact { hframe with
      x_eq := rfl
      y_eq := rfl
      cells := fun i hi => cellAt_cleared hi
      window := hwindow
      row := fun _ => rfl }
  · refine Writes.of_inside _ fun p hp => ?_
    have hmem : Access.store p ∈ stores MEM_BASE (2 * (MEM_SIZE / 2)) := by
      simpa [Stored] using hp
    obtain ⟨q, hlo, hhi, heq⟩ := mem_stores.mp hmem
    cases heq
    unfold MEM_SIZE at hhi
    unfold Inside MEM_END MEM_SIZE
    omega

theorem ends_session (s : State) (bufs : List (List UInt8)) :
    Ends (session bufs) (fun answers s' l => answers = bufs.map (fun buf => u32 (buf.length + 1)) ∧
      Shows s' ((Terminal.clear codeStyle).run codeStyle (bufs.flatten.flatMap commandsOf)) ∧
      Writes 0 ((Terminal.clear codeStyle).run codeStyle
        (bufs.flatten.flatMap commandsOf)).scrolled l) s := by
  obtain ⟨_, s', l, hclear, hshows, hwrites⟩ := ends_consoleClear s
  obtain ⟨answers, s'', l', hrun, hanswers, hshows', hwrites'⟩ := does_writeAll hshows bufs
  exact ⟨answers, s'', l ++ l', bind_eq_ok.mpr ⟨_, _, _, _, hclear, hrun, rfl⟩, hanswers, hshows',
    hwrites.append hwrites'⟩

/-- After every session the cursor and the window are in place, and the bytes of single characters
went inside the memory. -/
theorem cursor_session (s : State) (bufs : List (List UInt8)) :
    Ends (session bufs) (fun _ s' l =>
      (s'.x ≤ 80 ∧ s'.y < 25 ∧ s'.pos = s'.screen + 2 * (80 * s'.y + s'.x) ∧
        (s'.screen - MEM_BASE) % 160 = 0 ∧ MEM_BASE ≤ s'.screen ∧ s'.screen + SCR_SIZE < MEM_END) ∧
      ∀ p, .char (.store p) ∈ l → MEM_BASE ≤ p ∧ p < MEM_END) s := by
  obtain ⟨answers, s', l, hrun, -, hshows, hwrites⟩ := ends_session s bufs
  exact ⟨answers, s', l, hrun, ⟨hshows.x_le, hshows.y_lt, hshows.pos, hshows.aligned,
    hshows.base_le, hshows.lt_end⟩, hwrites.char⟩

/-! ## The reference terminal -/

/-- A terminal whose new lines are blank. -/
def refStyle : Style UInt8 Cell where
  width := WIDTH
  height := HEIGHT
  print ch := (ch, attr)
  erased := blank
  line _ := blank

/-- A terminal that marks the odd columns of new lines until something is put there. -/
def staleStyle : Style UInt8 Bool where
  width := WIDTH
  height := HEIGHT
  print _ := false
  erased := false
  line c := c % 2 = 1

/-- Cells with their marks. -/
def markedStyle : Style UInt8 (Cell × Bool) where
  width := WIDTH
  height := HEIGHT
  print ch := ((ch, attr), false)
  erased := (blank, false)
  line c := (blank, c % 2 = 1)

/-- What the console has in a cell. -/
def shown (c : Cell × Bool) : Cell := if c.2 then (0, 0) else c.1

theorem map_shown : markedStyle.map shown = codeStyle := by
  unfold Style.map markedStyle codeStyle
  congr 1
  funext c
  rcases Nat.mod_two_eq_zero_or_one c with h | h <;> simp [shown, h]

theorem map_fst : markedStyle.map Prod.fst = refStyle := rfl

theorem map_snd : markedStyle.map Prod.snd = staleStyle := rfl

/-- The terminal after a session. -/
def afterSession {α : Type} (st : Style UInt8 α) (bufs : List (List UInt8)) : Terminal α :=
  (Terminal.clear st).run st (bufs.flatten.flatMap commandsOf)

theorem map_afterSession {α β : Type} (f : α → β) (st : Style UInt8 α) (bufs : List (List UInt8)) :
    (afterSession st bufs).map f = afterSession (st.map f) bufs := by
  unfold afterSession
  rw [Terminal.map_run, Terminal.map_clear]

/-- A marked cell is blank to the reference terminal. -/
theorem marked_blank (bufs : List (List UInt8)) (i : ℕ) :
    ((afterSession markedStyle bufs).cell i).2 = true →
      ((afterSession markedStyle bufs).cell i).1 = blank := by
  have hst : markedStyle.All fun c => c.2 = true → c.1 = blank :=
    ⟨fun _ h => absurd h (by simp [markedStyle]), fun _ => rfl, fun _ _ => rfl⟩
  exact Terminal.all_run hst (fun _ _ => rfl) _ i

/-- The console differs from the reference terminal in the marked cells. -/
theorem cell_eq_iff (bufs : List (List UInt8)) (i : ℕ) :
    (afterSession codeStyle bufs).cell i = (afterSession refStyle bufs).cell i ↔
      (afterSession staleStyle bufs).cell i = false := by
  rw [← map_shown, ← map_fst, ← map_snd, ← map_afterSession, ← map_afterSession, ← map_afterSession]
  change shown ((afterSession markedStyle bufs).cell i) =
    ((afterSession markedStyle bufs).cell i).1 ↔
    ((afterSession markedStyle bufs).cell i).2 = false
  have hblank := marked_blank bufs i
  unfold shown
  cases hmark : ((afterSession markedStyle bufs).cell i).2 with
  | false => simp
  | true =>
      rw [hblank hmark]
      decide

theorem scrolled_eq (bufs : List (List UInt8)) :
    (afterSession codeStyle bufs).scrolled = (afterSession refStyle bufs).scrolled := by
  rw [← map_shown, ← map_fst, ← map_afterSession, ← map_afterSession]
  rfl

/-! ## The console against the reference terminal -/

/-- The cells displayed are those of `t`. -/
def Displays (s : State) (t : Terminal Cell) : Prop :=
  ∀ i < WIDTH * HEIGHT, cellAt s.ram (window s + 2 * i) = t.cell i

/-- What a console should do. -/
structure Faithful (bufs : List (List UInt8)) (answers : List ℕ) (s' : State) (l : List Event) :
    Prop where
  displays : Displays s' (afterSession refStyle bufs)
  inside : ∀ p, Stored l p → MEM_BASE ≤ p ∧ p < MEM_END
  answers : answers = bufs.map List.length

theorem answers_iff (bufs : List (List UInt8)) :
    bufs.map (fun buf => u32 (buf.length + 1)) = bufs.map List.length ↔ bufs = [] := by
  cases bufs with
  | nil => simp
  | cons buf bufs =>
      simp only [List.map_cons, List.cons.injEq, reduceCtorEq, iff_false, not_and]
      intro h
      unfold u32 at h
      omega

/-- The console is faithful if it is not called: its cells are right exactly if no odd column of a
new line is still as it was scrolled in, its stores exactly up to the 76th line, and the counts
never. -/
theorem faithful_iff (s : State) (bufs : List (List UInt8)) :
    Ends (session bufs) (fun answers s' l =>
      (Faithful bufs answers s' l ↔ bufs = []) ∧
      (Displays s' (afterSession refStyle bufs) ↔
        ∀ i < WIDTH * HEIGHT, (afterSession staleStyle bufs).cell i = false) ∧
      ((∀ p, Stored l p → MEM_BASE ≤ p ∧ p < MEM_END) ↔
        (afterSession refStyle bufs).scrolled ≤ 76) ∧
      (answers = bufs.map List.length ↔ bufs = [])) s := by
  obtain ⟨answers, s', l, hrun, rfl, hshows, hwrites⟩ := ends_session s bufs
  have hdisplays : Displays s' (afterSession refStyle bufs) ↔
      ∀ i < WIDTH * HEIGHT, (afterSession staleStyle bufs).cell i = false := by
    unfold Displays
    rw [hshows.window]
    refine forall₂_congr fun i hi => ?_
    rw [hshows.cells i hi, ← cell_eq_iff]
    rfl
  have hinside : (∀ p, Stored l p → MEM_BASE ≤ p ∧ p < MEM_END) ↔
      (afterSession refStyle bufs).scrolled ≤ 76 := by
    rw [← scrolled_eq]
    constructor
    · intro h
      by_contra hmany
      obtain ⟨p, hp, hout⟩ := hwrites.outside (Nat.zero_le _) (not_le.mp hmany)
      exact hout (h p hp)
    · exact fun h => hwrites.inside h
  refine ⟨_, s', l, hrun, ⟨fun h => (answers_iff bufs).mp h.answers, ?_⟩, hdisplays, hinside,
    answers_iff bufs⟩
  rintro rfl
  exact ⟨hdisplays.mpr fun _ _ => rfl, hinside.mpr (Nat.zero_le _), rfl⟩

/-- All zero. -/
def zeroState : State := ⟨fun _ => 0, 0, 0, 0, 0, 0, fun _ => 0⟩

/-- Twenty-five line feeds in one call: a new line is scrolled in, and the call returns 26. -/
theorem exists_unfaithful : ¬∀ s bufs,
    Ends (session bufs) (fun answers s' l => Faithful bufs answers s' l) s := by
  intro h
  obtain ⟨answers, s', l, hrun, hfaithful⟩ := h zeroState [List.replicate 25 ASCII_LF]
  obtain ⟨_, _, _, hrun', rfl, -⟩ := ends_session zeroState [List.replicate 25 ASCII_LF]
  cases hrun.symm.trans hrun'
  have hanswers := (answers_iff _).mp hfaithful.answers
  cases hanswers

end Ylos.Console
