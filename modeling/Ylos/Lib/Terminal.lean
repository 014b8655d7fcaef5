import Mathlib.Data.Set.Function
import Mathlib.Order.Defs.LinearOrder

/-! # Terminals

A terminal has a window of cells and a cursor, which may stand behind the last column. What the
cells are is a parameter: the style says what is put into them. -/

namespace Ylos

/-- What can be done at the cursor. -/
inductive Command (β : Type*) where
  | print (ch : β)
  | lf | cr | bs | del
  deriving DecidableEq, Repr

/-- A window size, and the cells that a terminal shows. -/
structure Style (β α : Type*) where
  width : ℕ
  height : ℕ
  /-- The cell of a character. -/
  print : β → α
  /-- A cell that was erased. -/
  erased : α
  /-- A line that was scrolled in, column by column. -/
  line : ℕ → α

/-- A terminal: the cells are counted through the lines. -/
structure Terminal (α : Type*) where
  x : ℕ
  y : ℕ
  cell : ℕ → α
  /-- The lines that have left the window. -/
  scrolled : ℕ

/-- The style with other cells. -/
def Style.map {α α' β : Type*} (f : α → α') (st : Style β α) : Style β α' :=
  ⟨st.width, st.height, f ∘ st.print, f st.erased, f ∘ st.line⟩

/-- Whatever the style puts into a cell is `p`. -/
structure Style.All {α β : Type*} (st : Style β α) (p : α → Prop) : Prop where
  print : ∀ ch, p (st.print ch)
  erased : p st.erased
  line : ∀ c, p (st.line c)

namespace Terminal

variable {α α' β : Type*}

section Commands

variable (st : Style β α) (t : Terminal α)

def clear : Terminal α := ⟨0, 0, fun _ => st.erased, 0⟩

/-- The cell at the cursor; behind the last column it is the first one of the next line. -/
def index : ℕ := st.width * t.y + t.x

def setCell (a : α) : Terminal α := { t with cell := Function.update t.cell (t.index st) a }

/-- The window goes one line down. -/
def scroll : Terminal α :=
  { t with
    cell := fun i =>
      if i < st.width * (st.height - 1) then t.cell (i + st.width)
      else st.line (i - st.width * (st.height - 1))
    scrolled := t.scrolled + 1 }

def lf : Terminal α := if t.y + 1 < st.height then { t with y := t.y + 1 } else t.scroll st

def cr : Terminal α := { t with x := 0 }

/-- From behind the last column a character goes to the next line. -/
def wrap : Terminal α := if st.width ≤ t.x then t.cr.lf st else t

def put (ch : β) : Terminal α :=
  { t.setCell st (st.print ch) with x := t.x + 1 }

def bs : Terminal α :=
  if t.x = 0 then t else { t with x := t.x - 1 }.setCell st st.erased

def exec : Command β → Terminal α
  | .print ch => (t.wrap st).put st ch
  | .lf => t.lf st
  | .cr => t.cr
  | .bs => t.bs st
  | .del => t.setCell st st.erased

/-- One command after the other. -/
def run (commands : List (Command β)) : Terminal α := commands.foldl (exec st) t

end Commands

@[simp] theorem run_nil (st : Style β α) (t : Terminal α) : t.run st [] = t := rfl

@[simp] theorem run_cons (st : Style β α) (t : Terminal α) (c : Command β) (cs : List (Command β)) :
    t.run st (c :: cs) = (t.exec st c).run st cs := rfl

@[simp] theorem run_append (st : Style β α) (t : Terminal α) (cs cs' : List (Command β)) :
    t.run st (cs ++ cs') = (t.run st cs).run st cs' := List.foldl_append

@[simp] theorem lf_x (st : Style β α) (t : Terminal α) : (t.lf st).x = t.x := by
  unfold lf
  split <;> rfl

/-- There is room for a character in the line. -/
theorem wrap_x_lt {st : Style β α} (h : 0 < st.width) (t : Terminal α) :
    (t.wrap st).x < st.width := by
  unfold wrap
  split
  · rw [lf_x]
    exact h
  · rename_i hx
    exact not_le.mp hx

/-! ## Cells of another kind -/

def map (f : α → α') (t : Terminal α) : Terminal α' := ⟨t.x, t.y, f ∘ t.cell, t.scrolled⟩

section Map

variable (f : α → α') (st : Style β α) (t : Terminal α)

@[simp] theorem map_clear : (clear st).map f = clear (st.map f) := rfl

@[simp] theorem map_cr : t.cr.map f = (t.map f).cr := rfl

theorem map_setCell (a : α) : (t.setCell st a).map f = (t.map f).setCell (st.map f) (f a) := by
  unfold setCell map
  simp only [Function.comp_update]
  rfl

theorem map_scroll : (t.scroll st).map f = (t.map f).scroll (st.map f) := by
  unfold scroll map
  congr 1
  funext i
  exact apply_ite f _ _ _

theorem map_lf : (t.lf st).map f = (t.map f).lf (st.map f) := by
  unfold lf
  have hheight : (st.map f).height = st.height := rfl
  have hy : (t.map f).y = t.y := rfl
  rw [hheight, hy]
  split
  · rfl
  · exact map_scroll f st t

theorem map_wrap : (t.wrap st).map f = (t.map f).wrap (st.map f) := by
  unfold wrap
  have hwidth : (st.map f).width = st.width := rfl
  have hx : (t.map f).x = t.x := rfl
  rw [hwidth, hx]
  split
  · rw [map_lf, map_cr]
  · rfl

theorem map_put (ch : β) : (t.put st ch).map f = (t.map f).put (st.map f) ch := by
  unfold put
  have hcell := map_setCell f st t (st.print ch)
  unfold setCell map at hcell ⊢
  simp only [Terminal.mk.injEq, true_and, and_true] at hcell ⊢
  exact hcell

theorem map_bs : (t.bs st).map f = (t.map f).bs (st.map f) := by
  unfold bs
  have hx : (t.map f).x = t.x := rfl
  rw [hx]
  split
  · rfl
  · exact map_setCell f st { t with x := t.x - 1 } st.erased

/-- A terminal with other cells does the same. -/
theorem map_exec (c : Command β) : (t.exec st c).map f = (t.map f).exec (st.map f) c := by
  cases c with
  | print ch => exact (map_put f st _ ch).trans (by rw [map_wrap]; rfl)
  | lf => exact map_lf f st t
  | cr => rfl
  | bs => exact map_bs f st t
  | del => exact map_setCell f st t st.erased

theorem map_run (cs : List (Command β)) : (t.run st cs).map f = (t.map f).run (st.map f) cs := by
  induction cs generalizing t with
  | nil => rfl
  | cons c cs ih => simp only [run_cons, ih, map_exec]

end Map

/-! ## What holds of every cell -/

section All

variable {st : Style β α} {t : Terminal α} {p : α → Prop}

theorem all_setCell (h : ∀ i, p (t.cell i)) {a : α} (ha : p a) :
    ∀ i, p ((t.setCell st a).cell i) := by
  intro i
  unfold setCell
  by_cases hi : i = t.index st
  · simpa [hi] using ha
  · simpa [Function.update_of_ne hi] using h i

theorem all_lf (hst : st.All p) (h : ∀ i, p (t.cell i)) : ∀ i, p ((t.lf st).cell i) := by
  intro i
  unfold lf
  split
  · exact h i
  · unfold scroll
    dsimp only
    split
    · exact h _
    · exact hst.line _

theorem all_wrap (hst : st.All p) (h : ∀ i, p (t.cell i)) : ∀ i, p ((t.wrap st).cell i) := by
  unfold wrap
  split
  · exact all_lf (t := t.cr) hst h
  · exact h

theorem all_exec (hst : st.All p) (h : ∀ i, p (t.cell i)) (c : Command β) :
    ∀ i, p ((t.exec st c).cell i) := by
  cases c with
  | print ch => exact all_setCell (all_wrap hst h) (hst.print ch)
  | lf => exact all_lf hst h
  | cr => exact h
  | bs =>
      change ∀ i, p ((t.bs st).cell i)
      unfold bs
      split
      · exact h
      · exact all_setCell (t := { t with x := t.x - 1 }) h hst.erased
  | del => exact all_setCell h hst.erased

theorem all_run (hst : st.All p) (h : ∀ i, p (t.cell i)) (cs : List (Command β)) :
    ∀ i, p ((t.run st cs).cell i) := by
  induction cs generalizing t with
  | nil => exact h
  | cons c cs ih => exact ih (all_exec hst h c)

end All

end Terminal

end Ylos
