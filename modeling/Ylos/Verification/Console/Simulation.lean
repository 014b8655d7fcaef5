import Ylos.Model.Console
import Ylos.Verification.Ram.Copy

/-! # The console shows a terminal -/

namespace Ylos.Console

open Exec Ram

variable {α β : Type} {s s' : State} {n n' n'' i a : ℕ} {l l' : List Event} {ch : UInt8}

/-- A character and its attribute. -/
abbrev Cell := UInt8 × UInt8

variable {t t' t'' : Terminal Cell} {c : Cell}

/-- The cell at an address. -/
def cellAt (m : Bytes) (p : ℕ) : Cell := (m p, m (p + 1))

/-- The cell that `erase` stores. -/
def blank : Cell := (0x20, 0x07)

/-- The cells of the console: in a new line every other cell is not a space. -/
def codeStyle : Style UInt8 Cell where
  width := WIDTH
  height := HEIGHT
  print ch := (ch, attr)
  erased := blank
  line c := if c % 2 = 0 then blank else (0, 0)

/-- The first address that is displayed. -/
def window (s : State) : ℕ :=
  MEM_BASE + 2 * (2 ^ 8 * s.crt CRT_START_ADDR_H + s.crt CRT_START_ADDR_L)

/-- The cursor is in the window or right behind a line, and the window inside the memory. -/
structure Cursor (s : State) : Prop where
  x_le : s.x ≤ WIDTH
  y_lt : s.y < HEIGHT
  pos : s.pos = s.screen + 2 * (WIDTH * s.y + s.x)
  aligned : (s.screen - MEM_BASE) % ROW_SIZE = 0
  base_le : MEM_BASE ≤ s.screen
  lt_end : s.screen + SCR_SIZE < MEM_END

/-- The memory from `screen` on is the window of `t`. -/
structure Frame (s : State) (t : Terminal Cell) : Prop extends Cursor s where
  x_eq : s.x = t.x
  y_eq : s.y = t.y
  cells : ∀ i < WIDTH * HEIGHT, cellAt s.ram (s.screen + 2 * i) = t.cell i

/-- What is displayed is `t`. The window moves through the memory once before it comes back. -/
structure Shows (s : State) (t : Terminal Cell) : Prop extends Frame s t where
  window : window s = s.screen
  row : t.scrolled ≤ 77 → s.screen = MEM_BASE + ROW_SIZE * t.scrolled

/-! ## Where the stores go -/

def Inside (p : ℕ) : Prop := MEM_BASE ≤ p ∧ p < MEM_END

/-- The address is stored to. -/
def Stored (l : List Event) (p : ℕ) : Prop := .char (.store p) ∈ l ∨ .bulk (.store p) ∈ l

/-- The stores of code that takes the number of lines scrolled from `n` to `n'`: those of characters
are inside the memory, and the others are until the 77th line. -/
structure Writes (n n' : ℕ) (l : List Event) : Prop where
  le : n ≤ n'
  char : ∀ p, .char (.store p) ∈ l → Inside p
  inside : n' ≤ 76 → ∀ p, Stored l p → Inside p
  outside : n ≤ 76 → 76 < n' → ∃ p, Stored l p ∧ ¬Inside p

theorem stored_append {p : ℕ} : Stored (l ++ l') p ↔ Stored l p ∨ Stored l' p := by
  unfold Stored
  simp only [List.mem_append]
  exact or_or_or_comm

theorem Writes.append (h : Writes n n' l) (h' : Writes n' n'' l') : Writes n n'' (l ++ l') where
  le := h.le.trans h'.le
  char p hp := (List.mem_append.mp hp).elim (h.char p) (h'.char p)
  inside hle p hp := by
    rcases stored_append.mp hp with hp | hp
    · exact h.inside (h'.le.trans hle) p hp
    · exact h'.inside hle p hp
  outside hn hn'' := by
    by_cases hn' : n' ≤ 76
    · obtain ⟨p, hp, hout⟩ := h'.outside hn' hn''
      exact ⟨p, stored_append.mpr (.inr hp), hout⟩
    · obtain ⟨p, hp, hout⟩ := h.outside hn (not_le.mp hn')
      exact ⟨p, stored_append.mpr (.inl hp), hout⟩

/-- Stores inside the memory only. -/
theorem Writes.of_inside (n : ℕ) (h : ∀ p, Stored l p → Inside p) : Writes n n l where
  le := le_rfl
  char p hp := h p (.inl hp)
  inside _ := h
  outside hn hn' := absurd hn (not_le.mpr hn')

theorem Writes.nil (n : ℕ) : Writes n n [] :=
  .of_inside n fun p hp => by simp [Stored] at hp

/-! ## Code that does what a terminal does -/

/-- The code returns `a`, and takes what is displayed from `t` to `t'`. -/
def Does (x : M α) (a : α) (s : State) (t t' : Terminal Cell) : Prop :=
  Ends x (fun b s' l => b = a ∧ Shows s' t' ∧ Writes t.scrolled t'.scrolled l) s

theorem Does.bind {x : M α} {a : α} {f : α → M β} {b : β} (h : Does x a s t t')
    (hf : ∀ s', Shows s' t' → Does (f a) b s' t' t'') : Does (x >>= f) b s t t'' := by
  obtain ⟨_, s', l, hx, rfl, hshows, hwrites⟩ := h
  obtain ⟨_, s'', l', hrun, rfl, hshows', hwrites'⟩ := hf s' hshows
  exact ⟨_, s'', l ++ l', bind_eq_ok.mpr ⟨_, _, _, _, hx, hrun, rfl⟩, rfl, hshows',
    hwrites.append hwrites'⟩

theorem does_pure {a : α} (h : Shows s t) : Does (pure a) a s t t :=
  ⟨a, s, [], rfl, rfl, h, .nil _⟩

/-- Code that looks at the state first. -/
theorem Does.get {f : State → M β} {b : β} (h : Does (f s) b s t t') : Does (get >>= f) b s t t' :=
  ends_bind (ends_get h)

/-- Code that changes neither the memory nor the window. -/
theorem does_modify {f : State → State} (h : Shows (f s) t') (hn : t'.scrolled = t.scrolled) :
    Does (modify f) () s t t' :=
  ⟨(), f s, [], rfl, rfl, h, hn ▸ .nil _⟩

/-! ## The registers -/

/-- The state with a cell's number in two registers. -/
def State.setPair (s : State) (high low p : ℕ) : State :=
  { s with
    crtIndex := low
    crt := fun i =>
      if i = low then sub32 p MEM_BASE / 2 % 2 ^ 8
      else if i = high then sub32 p MEM_BASE / 2 ^ 9 % 2 ^ 8
      else s.crt i }

theorem run_setScreen (s : State) : setScreen.run s =
    .ok ((), s.setPair CRT_START_ADDR_H CRT_START_ADDR_L s.screen, []) := rfl

theorem run_setCursor (s : State) : setCursor.run s =
    .ok ((), s.setPair CRT_CURSOR_H CRT_CURSOR_L s.pos, []) := rfl

theorem sub32_of_le {p q : ℕ} (h : q ≤ p) (hp : p < 2 ^ 32) : sub32 p q = p - q := by
  unfold sub32 u32
  omega

theorem u32_of_lt {p : ℕ} (h : p < 2 ^ 32) : u32 p = p := Nat.mod_eq_of_lt h

/-- Where the window may be. -/
theorem Cursor.bounds (h : Cursor s) : ∃ k, s.screen = MEM_BASE + ROW_SIZE * k ∧ k ≤ 77 := by
  have haligned := h.aligned
  have hbase := h.base_le
  have hend := h.lt_end
  simp only [MEM_END, MEM_BASE, MEM_SIZE, SCR_SIZE, ROW_SIZE, WIDTH, HEIGHT] at *
  exact ⟨(s.screen - 753664) / 160, by omega, by omega⟩

/-- The registers have what the window needs. -/
theorem window_setPair (h : Cursor s) :
    window (s.setPair CRT_START_ADDR_H CRT_START_ADDR_L s.screen) = s.screen := by
  obtain ⟨k, hk, hle⟩ := h.bounds
  have hsub : sub32 s.screen MEM_BASE = 160 * k := by
    rw [hk]
    simp only [sub32, u32, MEM_BASE, ROW_SIZE, WIDTH]
    omega
  unfold window State.setPair
  simp only [hsub, CRT_START_ADDR_H, CRT_START_ADDR_L, if_true]
  have hhalves : 160 * k / 2 ^ 9 = 160 * k / 2 / 2 ^ 8 :=
    (Nat.div_div_eq_div_mul (160 * k) 2 (2 ^ 8)).symm
  rw [if_neg (by decide), hk, hhalves]
  simp only [MEM_BASE, ROW_SIZE, WIDTH]
  omega

/-- Code that leaves the memory and the positions as they are. -/
theorem Frame.setPair (h : Frame s t) (high low p : ℕ) : Frame (s.setPair high low p) t :=
  { h with }

theorem does_setCursor (h : Shows s t) : Does setCursor () s t t :=
  ⟨(), _, [], run_setCursor s, rfl, { h.toFrame.setPair _ _ _ with
    window := h.window
    row := h.row }, .nil _⟩

/-! ## Moving the cursor -/

/-- The cursor is far from both ends of the addresses. -/
theorem Cursor.pos_bounds (h : Cursor s) :
    s.pos = s.screen + 160 * s.y + 2 * s.x ∧ s.x ≤ 80 ∧ s.y < 25 ∧ 753664 ≤ s.screen ∧
      s.screen < 766048 := by
  have hx := h.x_le
  have hy := h.y_lt
  have hpos := h.pos
  have hbase := h.base_le
  have hend := h.lt_end
  simp only [MEM_END, MEM_BASE, MEM_SIZE, SCR_SIZE, ROW_SIZE, WIDTH, HEIGHT] at *
  omega

theorem does_commandCr (h : Shows s t) : Does commandCr () s t t.cr := by
  refine does_modify ?_ rfl
  have hpos := h.pos_bounds
  have hcr : sub32 s.pos (s.x * 2) = s.screen + 2 * (WIDTH * s.y + 0) := by
    rw [sub32_of_le (by omega) (by omega)]
    unfold WIDTH
    omega
  exact { h with
    x_le := Nat.zero_le _
    pos := hcr
    x_eq := rfl
    y_eq := h.y_eq }

/-! ## Scrolling -/

/-- The memory with the new lines behind the window. -/
def newLines (m : Bytes) (p : ℕ) : Bytes :=
  m.copy p (4 * WIDTH) fun k => UInt8.ofNat (erase / 256 ^ (k % 4))

theorem cellAt_newLines {m : Bytes} {p q : ℕ} (hq : q + 2 ≤ p) :
    cellAt (newLines m p) q = cellAt m q := by
  unfold cellAt newLines
  rw [Bytes.copy_apply_of_lt (by omega), Bytes.copy_apply_of_lt (by omega)]

/-- Every other cell of a new line is not a space. -/
theorem cellAt_newLines_add {m : Bytes} {p c : ℕ} (hc : c < WIDTH) :
    cellAt (newLines m p) (p + 2 * c) = codeStyle.line c := by
  unfold cellAt newLines Bytes.copy
  rw [if_pos (by omega), if_pos (by omega)]
  have hlow : p + 2 * c - p = 2 * c := by omega
  have hhigh : p + 2 * c + 1 - p = 2 * c + 1 := by omega
  rw [hlow, hhigh]
  unfold codeStyle
  rcases Nat.mod_two_eq_zero_or_one c with heven | hodd
  · have h0 : 2 * c % 4 = 0 := by omega
    have h1 : (2 * c + 1) % 4 = 1 := by omega
    simp only [h0, h1, heven, if_true]
    decide
  · have h2 : 2 * c % 4 = 2 := by omega
    have h3 : (2 * c + 1) % 4 = 3 := by omega
    simp only [h2, h3, hodd, one_ne_zero, if_false]
    decide

/-- The state with another memory, and the window at row `k` of it. -/
def State.place (s : State) (m : Bytes) (k : ℕ) : State :=
  { s with
    ram := m
    screen := MEM_BASE + ROW_SIZE * k
    pos := MEM_BASE + ROW_SIZE * k + 2 * (WIDTH * s.y + s.x) }

theorem Cursor.place (h : Cursor s) (m : Bytes) {k : ℕ} (hk : k ≤ 77) : Cursor (s.place m k) where
  x_le := h.x_le
  y_lt := h.y_lt
  pos := rfl
  aligned := by
    change (MEM_BASE + ROW_SIZE * k - MEM_BASE) % ROW_SIZE = 0
    rw [Nat.add_sub_cancel_left, Nat.mul_mod_right]
  base_le := Nat.le_add_right _ _
  lt_end := by
    change MEM_BASE + ROW_SIZE * k + SCR_SIZE < MEM_END
    simp only [MEM_BASE, ROW_SIZE, WIDTH, SCR_SIZE, HEIGHT, MEM_END, MEM_SIZE]
    omega

/-- The state is given by its memory and the place of the window. -/
theorem Cursor.eq_place (h : Cursor s) {k : ℕ} (hk : s.screen = MEM_BASE + ROW_SIZE * k) :
    s = s.place s.ram k := by
  have hpos := h.pos
  cases s with
  | mk ram screen pos x y crtIndex crt =>
      dsimp only at hk hpos
      subst hk hpos
      rfl

/-- What `scroll_up` works on: a window with room for another line behind it. -/
structure Roomy (s s' : State) (t : Terminal Cell) (l : List Event) (m : Bytes) (k : ℕ) :
    Prop where
  eq : s' = s.place m k
  le : k ≤ 76
  cells : ∀ i < WIDTH * HEIGHT, cellAt m (MEM_BASE + ROW_SIZE * k + 2 * i) = t.cell i
  row : t.scrolled ≤ 76 → k = t.scrolled
  inside : ∀ p, Stored l p → Inside p

/-- The stores of a copy to the start of the memory. -/
theorem stored_copy {p src : ℕ} (hp : Stored ((copyAccesses MEM_BASE src SCR_SIZE).map .bulk) p) :
    Inside p := by
  have hmem : Access.store p ∈ copyAccesses MEM_BASE src SCR_SIZE := by
    rcases hp with hp | hp
    · simp at hp
    · simpa using hp
  obtain ⟨k, hk, rfl⟩ := (store_mem_copyAccesses (by decide)).mp hmem
  unfold SCR_SIZE ROW_SIZE WIDTH HEIGHT at hk
  have hlt : MEM_BASE + k < 2 ^ 32 := by
    unfold MEM_BASE
    omega
  rw [u32_of_lt hlt]
  unfold Inside MEM_END MEM_SIZE
  omega

/-- Whether the window is at the end of the memory. -/
theorem full_iff {k : ℕ} (hk : s.screen = MEM_BASE + ROW_SIZE * k) (hle : k ≤ 77) :
    MEM_END ≤ u32 (s.screen + SCR_SIZE + ROW_SIZE) ↔ k = 77 := by
  rw [hk]
  simp only [MEM_BASE, ROW_SIZE, WIDTH, SCR_SIZE, HEIGHT, MEM_END, MEM_SIZE]
  rw [u32_of_lt (by omega)]
  omega

theorem run_rewind_last (h : Cursor s) (hk : s.screen = MEM_BASE + ROW_SIZE * 77) :
    rewind.run s =
      .ok ((), s.place (s.ram.copy MEM_BASE SCR_SIZE fun j => s.ram (s.screen + j)) 0,
        (copyAccesses MEM_BASE s.screen SCR_SIZE).map .bulk) := by
  have hcopied : copied s.ram MEM_BASE s.screen SCR_SIZE =
      s.ram.copy MEM_BASE SCR_SIZE fun j => s.ram (s.screen + j) := by
    rw [hk]
    exact copied_eq (by decide) (by decide) (by decide)
  have hback : sub32 s.pos (sub32 s.screen MEM_BASE) = MEM_BASE + 2 * (WIDTH * s.y + s.x) := by
    have hpos := h.pos_bounds
    rw [sub32_of_le h.base_le (by omega), sub32_of_le (by omega) (by omega), h.pos]
    omega
  unfold rewind
  rw [run_bind _ (run_get s), if_pos ((full_iff hk le_rfl).mpr rfl),
    run_bind_ok _ (run_tag (run_memcpy _ _ _ s)), run_modify]
  simp only [List.append_nil, withRam, ram, hcopied, hback, State.place, Nat.mul_zero, Nat.add_zero]

theorem ends_rewind (h : Shows s t) :
    Ends rewind (fun _ s' l => ∃ m k, Roomy s s' t l m k) s := by
  obtain ⟨k, hk, hle⟩ := h.bounds
  have hrow : t.scrolled ≤ 77 → k = t.scrolled := by
    intro hn
    have hscreen := h.row hn
    rw [hk] at hscreen
    unfold ROW_SIZE WIDTH at hscreen
    omega
  by_cases hlast : k = 77
  · subst hlast
    refine ⟨(), _, _, run_rewind_last h.toCursor hk, _, 0, rfl, by omega, fun i hi => ?_,
      fun hn => absurd (hrow (by omega)) (by omega), fun p hp => stored_copy hp⟩
    have hcell := h.cells i hi
    rw [← hcell]
    unfold cellAt Bytes.copy
    unfold SCR_SIZE ROW_SIZE HEIGHT at *
    unfold WIDTH at *
    rw [if_pos (by omega), if_pos (by omega)]
    have hlow : MEM_BASE + 80 * 2 * 0 + 2 * i - MEM_BASE = 2 * i := by omega
    have hhigh : MEM_BASE + 80 * 2 * 0 + 2 * i + 1 - MEM_BASE = 2 * i + 1 := by omega
    rw [hlow, hhigh, add_assoc]
  · have hrun : rewind.run s = .ok ((), s, []) := by
      unfold rewind
      rw [run_bind _ (run_get s), if_neg fun hfull => hlast ((full_iff hk hle).mp hfull)]
      rfl
    refine ⟨(), s, [], hrun, s.ram, k, h.eq_place hk, by omega, ?_, fun hn => hrow (by omega), ?_⟩
    · rw [← hk]
      exact h.cells
    · intro p hp
      simp [Stored] at hp

/-- The stores of the new lines, which leave the memory in one place of the window. -/
theorem stored_newLines {p k : ℕ} :
    Stored ((stores (MEM_BASE + ROW_SIZE * k + SCR_SIZE) (4 * WIDTH)).map .bulk) p ↔
      MEM_BASE + 160 * k + 4000 ≤ p ∧ p < MEM_BASE + 160 * k + 4320 := by
  have hmem : Stored ((stores (MEM_BASE + ROW_SIZE * k + SCR_SIZE) (4 * WIDTH)).map .bulk) p ↔
      Access.store p ∈ stores (MEM_BASE + ROW_SIZE * k + SCR_SIZE) (4 * WIDTH) := by
    simp [Stored]
  rw [hmem, mem_stores]
  simp only [Access.store.injEq, SCR_SIZE, ROW_SIZE, WIDTH, HEIGHT]
  constructor
  · rintro ⟨q, hlo, hhi, rfl⟩
    omega
  · rintro ⟨hlo, hhi⟩
    exact ⟨p, by omega, by omega, rfl⟩

/-- The memory of the scrolled window. -/
def scrolledRam (m : Bytes) (k : ℕ) : Bytes := newLines m (MEM_BASE + ROW_SIZE * k + SCR_SIZE)

theorem run_scrollUp {m : Bytes} {k : ℕ} (h : rewind.run s = .ok ((), s.place m k, l))
    (hs : Cursor s) (hk : k ≤ 76) :
    scrollUp.run s = .ok ((),
      (s.place (scrolledRam m k) (k + 1)).setPair CRT_START_ADDR_H CRT_START_ADDR_L
        (MEM_BASE + ROW_SIZE * (k + 1)),
      l ++ (stores (MEM_BASE + ROW_SIZE * k + SCR_SIZE) (4 * WIDTH)).map .bulk) := by
  have hbounds := hs.pos_bounds
  have hp : u32 ((s.place m k).screen + SCR_SIZE) = MEM_BASE + ROW_SIZE * k + SCR_SIZE := by
    apply u32_of_lt
    change MEM_BASE + ROW_SIZE * k + SCR_SIZE < 2 ^ 32
    simp only [MEM_BASE, ROW_SIZE, WIDTH, SCR_SIZE, HEIGHT]
    omega
  have hfill : (fill 4 erase (u32 ((s.place m k).screen + SCR_SIZE)) WIDTH).run (s.place m k) =
      .ok ((), withRam (s.place m k) (scrolledRam m k),
        stores (MEM_BASE + ROW_SIZE * k + SCR_SIZE) (4 * WIDTH)) := by
    rw [hp]
    exact run_fill _ _ _ _ _
  have hscreen : u32 (MEM_BASE + ROW_SIZE * k + ROW_SIZE) = MEM_BASE + ROW_SIZE * (k + 1) := by
    rw [Nat.mul_succ, ← add_assoc]
    apply u32_of_lt
    simp only [MEM_BASE, ROW_SIZE, WIDTH]
    omega
  have hpos : u32 (MEM_BASE + ROW_SIZE * k + 2 * (WIDTH * s.y + s.x) + ROW_SIZE) =
      MEM_BASE + ROW_SIZE * (k + 1) + 2 * (WIDTH * s.y + s.x) := by
    rw [u32_of_lt]
    · rw [Nat.mul_succ]
      omega
    · simp only [MEM_BASE, ROW_SIZE, WIDTH]
      omega
  have hmodify : (modify fun s : State => { s with
      screen := u32 (s.screen + ROW_SIZE)
      pos := u32 (s.pos + ROW_SIZE) } : M Unit).run (withRam (s.place m k) (scrolledRam m k)) =
      .ok ((), s.place (scrolledRam m k) (k + 1), []) := by
    rw [run_modify]
    simp only [withRam, State.place, hscreen, hpos]
  refine bind_eq_ok.mpr ⟨(), _, l, _, h, bind_eq_ok.mpr ⟨_, _, [], _, run_get _,
    bind_eq_ok.mpr ⟨(), _, _, _, run_tag hfill,
      bind_eq_ok.mpr ⟨(), _, [], [], hmodify, run_setScreen _, rfl⟩, rfl⟩, rfl⟩, ?_⟩
  simp

theorem Frame.scrolled {m : Bytes} {k : ℕ} (h : Frame s t)
    (hcells : ∀ i < WIDTH * HEIGHT, cellAt m (MEM_BASE + ROW_SIZE * k + 2 * i) = t.cell i)
    (hk : k ≤ 76) : Frame (s.place (scrolledRam m k) (k + 1)) (t.scroll codeStyle) where
  toCursor := h.toCursor.place _ (by omega)
  x_eq := h.x_eq
  y_eq := h.y_eq
  cells i hi := by
    change cellAt (scrolledRam m k) (MEM_BASE + ROW_SIZE * (k + 1) + 2 * i) =
      if i < WIDTH * (HEIGHT - 1) then t.cell (i + WIDTH)
      else codeStyle.line (i - WIDTH * (HEIGHT - 1))
    unfold scrolledRam
    split
    · rename_i hlt
      have hshift : MEM_BASE + ROW_SIZE * (k + 1) + 2 * i =
          MEM_BASE + ROW_SIZE * k + 2 * (i + WIDTH) := by
        unfold ROW_SIZE
        ring
      rw [hshift, cellAt_newLines]
      · exact hcells _ (by unfold HEIGHT WIDTH at *; omega)
      · unfold SCR_SIZE ROW_SIZE HEIGHT WIDTH at *
        omega
    · rename_i hge
      have hcolumn : MEM_BASE + ROW_SIZE * (k + 1) + 2 * i =
          MEM_BASE + ROW_SIZE * k + SCR_SIZE + 2 * (i - WIDTH * (HEIGHT - 1)) := by
        unfold SCR_SIZE ROW_SIZE HEIGHT WIDTH at *
        omega
      rw [hcolumn, cellAt_newLines_add]
      unfold HEIGHT WIDTH at *
      omega

theorem does_scrollUp (h : Shows s t) : Does scrollUp () s t (t.scroll codeStyle) := by
  obtain ⟨_, s', l, hrewind, m, k, rfl, hle, hcells, hrow, hinside⟩ := ends_rewind h
  have hframe := h.toFrame.scrolled hcells hle
  refine ⟨(), _, _, run_scrollUp hrewind h.toCursor hle, rfl,
    { hframe.setPair _ _ _ with
      window := window_setPair hframe.toCursor
      row := fun hn => ?_ }, ?_⟩
  · change MEM_BASE + ROW_SIZE * (k + 1) = MEM_BASE + ROW_SIZE * (t.scrolled + 1)
    rw [hrow (Nat.le_of_lt_succ hn)]
  · refine ⟨Nat.le_succ _, fun p hp => ?_, fun hn p hp => ?_, fun hn hn' => ?_⟩
    · rcases List.mem_append.mp hp with hp | hp
      · exact hinside p (.inl hp)
      · simp at hp
    · rcases stored_append.mp hp with hp | hp
      · exact hinside p hp
      · have hbounds := stored_newLines.mp hp
        have hn' : t.scrolled + 1 ≤ 76 := hn
        have hkn : k = t.scrolled := hrow (by omega)
        unfold Inside MEM_END MEM_SIZE
        omega
    · have hkn : k = t.scrolled := hrow hn
      have hn'' : 76 < t.scrolled + 1 := hn'
      refine ⟨MEM_BASE + 160 * k + 4319, stored_append.mpr (.inr (stored_newLines.mpr (by omega))),
        ?_⟩
      unfold Inside MEM_END MEM_SIZE
      omega

theorem does_commandLf (h : Shows s t) : Does commandLf () s t (t.lf codeStyle) := by
  unfold commandLf Terminal.lf
  refine Does.get ?_
  by_cases hy : s.y + 1 < HEIGHT
  · have hy' : t.y + 1 < codeStyle.height := h.y_eq ▸ hy
    rw [if_pos hy, if_pos hy']
    have hpos : u32 (s.pos + ROW_SIZE) = s.screen + 2 * (WIDTH * (s.y + 1) + s.x) := by
      have hbounds := h.pos_bounds
      rw [u32_of_lt]
      · rw [h.pos]
        unfold ROW_SIZE WIDTH
        omega
      · unfold ROW_SIZE WIDTH
        omega
    exact does_modify { h with
      y_lt := hy
      pos := hpos
      x_eq := h.x_eq
      y_eq := congrArg (· + 1) h.y_eq } rfl
  · have hy' : ¬t.y + 1 < codeStyle.height := h.y_eq ▸ hy
    rw [if_neg hy, if_neg hy']
    exact does_scrollUp h

theorem does_wrapLine (h : Shows s t) : Does wrapLine () s t (t.wrap codeStyle) := by
  unfold wrapLine Terminal.wrap
  refine Does.get ?_
  have hbounds := h.pos_bounds
  by_cases hx : WIDTH ≤ s.x
  · have hx' : codeStyle.width ≤ t.x := h.x_eq ▸ hx
    have hzero : s.x - WIDTH = 0 := by
      unfold WIDTH
      omega
    have hpos : sub32 s.pos ROW_SIZE = s.screen + 2 * (WIDTH * s.y + 0) := by
      unfold ROW_SIZE WIDTH at *
      rw [sub32_of_le (by omega) (by omega)]
      omega
    rw [if_pos hx, if_pos hx']
    have hcr : Does (modify fun s => { s with x := s.x - WIDTH, pos := sub32 s.pos ROW_SIZE } :
        M Unit) () s t t.cr := by
      refine does_modify ?_ rfl
      rw [hzero, hpos]
      exact { h with
        x_le := Nat.zero_le _
        pos := rfl
        x_eq := rfl
        y_eq := h.y_eq }
    exact hcr.bind fun s' h' => does_commandLf h'
  · have hx' : ¬codeStyle.width ≤ t.x := h.x_eq ▸ hx
    rw [if_neg hx, if_neg hx']
    exact does_pure h

/-! ## Cells -/

def putCell (m : Bytes) (p : ℕ) (c : Cell) : Bytes :=
  Function.update (Function.update m p c.1) (p + 1) c.2

@[simp] theorem cellAt_putCell (m : Bytes) (p : ℕ) (c : Cell) : cellAt (putCell m p c) p = c := by
  simp [cellAt, putCell]

theorem cellAt_putCell_of_ne {m : Bytes} {p q : ℕ} (h : q + 2 ≤ p ∨ p + 2 ≤ q) :
    cellAt (putCell m p c) q = cellAt m q := by
  unfold cellAt putCell
  rw [Function.update_of_ne (by omega), Function.update_of_ne (by omega),
    Function.update_of_ne (by omega), Function.update_of_ne (by omega)]

/-- The cell at the cursor is stored. -/
theorem Shows.putCell (h : Shows s t) (c : Cell) :
    Shows (withRam s (putCell s.ram s.pos c)) (t.setCell codeStyle c) :=
  { h with
    x_eq := h.x_eq
    y_eq := h.y_eq
    cells := fun i hi => by
      change cellAt (Console.putCell s.ram s.pos c) (s.screen + 2 * i) =
        Function.update t.cell (WIDTH * t.y + t.x) c i
      rw [h.pos, h.x_eq, h.y_eq]
      by_cases hi' : i = WIDTH * t.y + t.x
      · rw [hi', cellAt_putCell, Function.update_self]
      · rw [cellAt_putCell_of_ne (by omega), Function.update_of_ne hi']
        exact h.cells i hi }

/-- Both bytes of the cell at the cursor are inside the memory. -/
theorem Cursor.inside (h : Cursor s) : Inside s.pos ∧ Inside (s.pos + 1) := by
  obtain ⟨k, hk, hle⟩ := h.bounds
  have hbounds := h.pos_bounds
  unfold ROW_SIZE WIDTH MEM_BASE at hk
  unfold Inside MEM_END MEM_BASE MEM_SIZE
  omega

theorem does_commandDel (h : Shows s t) :
    Does commandDel () s t (t.setCell codeStyle codeStyle.erased) := by
  have hcell : s.ram.copy s.pos 2 (fun k => UInt8.ofNat (erase / 256 ^ k)) =
      Console.putCell s.ram s.pos blank := by
    rw [Bytes.copy_succ, Bytes.copy_succ, Bytes.copy_zero]
    rfl
  have hstore := run_storeLe 2 s.pos erase s
  refine ⟨(), _, _, bind_eq_ok.mpr ⟨_, _, _, _, run_gets _ s, run_tag hstore, rfl⟩, rfl, ?_, ?_⟩
  · have hshows := h.putCell blank
    rw [← hcell] at hshows
    exact hshows
  · refine Writes.of_inside _ fun p hp => ?_
    have hinside := h.inside
    have hmem : p = s.pos ∨ p = s.pos + 1 := by
      simp [Stored, stores, List.range'_succ] at hp
      omega
    rcases hmem with rfl | rfl
    · exact hinside.1
    · exact hinside.2

theorem does_commandBs (h : Shows s t) : Does commandBs () s t (t.bs codeStyle) := by
  unfold commandBs Terminal.bs
  refine Does.get ?_
  have hbounds := h.pos_bounds
  by_cases hx : s.x = 0
  · rw [if_neg (not_not.mpr hx), if_pos (h.x_eq ▸ hx)]
    exact does_pure h
  · rw [if_pos hx, if_neg (h.x_eq ▸ hx)]
    have hpos : sub32 s.pos 2 = s.screen + 2 * (WIDTH * s.y + (s.x - 1)) := by
      rw [sub32_of_le (by omega) (by omega)]
      unfold WIDTH
      omega
    have hleft : Does (modify fun s => { s with x := s.x - 1, pos := sub32 s.pos 2 } : M Unit) () s t
        { t with x := t.x - 1 } := by
      refine does_modify ?_ rfl
      rw [hpos]
      exact { h with
        x_le := (Nat.sub_le _ _).trans h.x_le
        pos := rfl
        x_eq := congrArg (· - 1) h.x_eq
        y_eq := h.y_eq }
    exact hleft.bind fun s' h' => does_commandDel h'

theorem run_putChar (ch : UInt8) (s : State) (hpos : s.pos + 2 < 2 ^ 32) :
    (putChar ch).run s = .ok ((),
      { withRam s (putCell s.ram s.pos (ch, attr)) with pos := s.pos + 2, x := s.x + 1 },
      [.char (.store s.pos), .char (.store (s.pos + 1))]) := by
  have hone : u32 (s.pos + 1) = s.pos + 1 := u32_of_lt (by omega)
  have htwo : u32 (s.pos + 1 + 1) = s.pos + 2 := u32_of_lt (by omega)
  unfold putChar
  refine bind_eq_ok.mpr ⟨_, _, [], _, run_gets _ s, bind_eq_ok.mpr ⟨(), _, _, _,
    run_tag (run_store _ _ s), bind_eq_ok.mpr ⟨(), _, [], _, run_modify _ _, bind_eq_ok.mpr
      ⟨_, _, [], _, run_gets _ _, bind_eq_ok.mpr ⟨(), _, _, [], run_tag (run_store _ _ _), ?_, rfl⟩,
        rfl⟩, rfl⟩, rfl⟩, ?_⟩
  · rw [run_modify]
    simp only [withRam, ram, hone, htwo, putCell]
  · simp [withRam, hone]

theorem does_putChar (h : Shows s t) (hx : s.x < WIDTH) (ch : UInt8) :
    Does (putChar ch) () s t (t.put codeStyle ch) := by
  have hbounds := h.pos_bounds
  have hshows := h.putCell (ch, attr)
  refine ⟨(), _, _, run_putChar ch s (by omega), rfl, ?_, ?_⟩
  · exact { hshows with
      x_le := hx
      pos := by
        change s.pos + 2 = s.screen + 2 * (WIDTH * s.y + (s.x + 1))
        unfold WIDTH
        omega
      x_eq := congrArg (· + 1) h.x_eq
      y_eq := h.y_eq }
  · refine Writes.of_inside _ fun p hp => ?_
    have hinside := h.inside
    have hmem : p = s.pos ∨ p = s.pos + 1 := by
      simpa [Stored] using hp
    rcases hmem with rfl | rfl
    · exact hinside.1
    · exact hinside.2

end Ylos.Console
