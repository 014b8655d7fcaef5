import Mathlib.Order.Bounds.Defs
import Mathlib.Data.List.Basic
import Mathlib.Data.Set.Insert

/-! # First-fit allocators

The purpose of an allocator of numbers, stated on traces: every call is recorded with
its answer, and the answer is determined by the set of numbers in use. -/

namespace Ylos.Allocator

/-- A call with its answer. -/
inductive Call where
  | alloc (n : ℕ)
  | full
  | free (n : ℕ)
  deriving DecidableEq, Repr

/-- The answer is the one of a first-fit allocator over `range`, and only numbers that
the caller holds are given back. -/
def Enabled (range used : Set ℕ) (held : List ℕ) : Call → Prop
  | .alloc n => IsLeast (range \ used) n
  | .full => range ⊆ used
  | .free n => n ∈ held

/-- The numbers in use after a call. -/
def effect (used : Set ℕ) : Call → Set ℕ
  | .alloc n => insert n used
  | .full => used
  | .free n => used \ {n}

/-- The numbers held by the callers after a call. -/
def holds (held : List ℕ) : Call → List ℕ
  | .alloc n => n :: held
  | .full => held
  | .free n => held.erase n

/-- A trace of a first-fit allocator over `range`. -/
def Legal (range : Set ℕ) : Set ℕ → List ℕ → List Call → Prop
  | _, _, [] => True
  | used, held, c :: cs => Enabled range used held c ∧
      Legal range (effect used c) (holds held c) cs

/-- Held numbers are in use, in range, and held once. -/
structure Holding (range used : Set ℕ) (held : List ℕ) : Prop where
  nodup : held.Nodup
  used : ∀ n ∈ held, n ∈ used
  range : ∀ n ∈ held, n ∈ range

theorem holding_nil (range used : Set ℕ) : Holding range used [] :=
  ⟨List.nodup_nil, by simp, by simp⟩

theorem Holding.step {range used : Set ℕ} {held : List ℕ} {c : Call}
    (h : Holding range used held) (hc : Enabled range used held c) :
    Holding range (effect used c) (holds held c) := by
  cases c with
  | alloc n =>
      have hn : n ∈ range ∧ n ∉ used := hc.1
      refine ⟨List.nodup_cons.mpr ⟨fun hmem => hn.2 (h.used n hmem), h.nodup⟩, ?_, ?_⟩
      · intro m hm
        rcases List.mem_cons.mp hm with rfl | hm
        · exact Set.mem_insert _ _
        · exact Set.mem_insert_of_mem _ (h.used m hm)
      · intro m hm
        rcases List.mem_cons.mp hm with rfl | hm
        · exact hn.1
        · exact h.range m hm
  | full => exact h
  | free n =>
      refine ⟨h.nodup.erase n, ?_, fun m hm => h.range m (List.mem_of_mem_erase hm)⟩
      intro m hm
      have hne : m ≠ n := ((h.nodup.mem_erase_iff).mp hm).1
      exact ⟨h.used m (List.mem_of_mem_erase hm), hne⟩

/-! ## Code that serves traces -/

section Serves

variable {σ : Type} (does : σ → Call → σ → Prop) (bits : σ → Set ℕ)

/-- From `s` on, the code gives the answers of the trace, and its bits follow. -/
def Serves : σ → List Call → Prop
  | _, [] => True
  | s, c :: cs => ∃ s', does s c s' ∧ bits s' = effect (bits s) c ∧ Serves s' cs

variable {does bits}

/-- If in every legal situation the code answers a call as it should exactly when the
call is `good`, then it serves exactly the traces all of whose calls are `good`. -/
theorem serves_iff {range : Set ℕ} {scope good : Call → Prop} {Inv : σ → List ℕ → Prop}
    (hfwd : ∀ s held c, Inv s held → Enabled range (bits s) held c → scope c → good c →
      ∃ s', does s c s' ∧ bits s' = effect (bits s) c)
    (hback : ∀ s held c s', Inv s held → Enabled range (bits s) held c → scope c →
      does s c s' → bits s' = effect (bits s) c → good c ∧ Inv s' (holds held c))
    {s : σ} {held : List ℕ} {cs : List Call} (hinv : Inv s held)
    (hlegal : Legal range (bits s) held cs) (hscope : ∀ c ∈ cs, scope c) :
    Serves does bits s cs ↔ ∀ c ∈ cs, good c := by
  induction cs generalizing s held with
  | nil => simp [Serves]
  | cons c cs ih =>
      obtain ⟨henabled, hrest⟩ := hlegal
      have hc : scope c := hscope c (by simp)
      have hcs : ∀ d ∈ cs, scope d := fun d hd => hscope d (by simp [hd])
      constructor
      · rintro ⟨s', hdoes, hbits, hserves⟩
        obtain ⟨hgood, hinv'⟩ := hback s held c s' hinv henabled hc hdoes hbits
        have hall := (ih hinv' (hbits ▸ hrest) hcs).mp hserves
        intro d hd
        rcases List.mem_cons.mp hd with rfl | hd
        · exact hgood
        · exact hall d hd
      · intro hall
        obtain ⟨s', hdoes, hbits⟩ := hfwd s held c hinv henabled hc (hall c (by simp))
        have hinv' := (hback s held c s' hinv henabled hc hdoes hbits).2
        refine ⟨s', hdoes, hbits, (ih hinv' (hbits ▸ hrest) hcs).mpr ?_⟩
        intro d hd
        exact hall d (by simp [hd])

end Serves

end Ylos.Allocator
