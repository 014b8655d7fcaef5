import Mathlib.Data.Finset.Card
import Mathlib.Data.Finset.Prod
import Mathlib.Data.List.Count

/-! # Reference counts

References `ρ` point at objects `φ`, or at nothing. What a counter next to each object
has to say is the number of references that point at it. -/

namespace Ylos

variable {ρ τ φ : Type} [DecidableEq φ]

/-- The number of references of `R` that point at `f`. -/
def refCount (target : ρ → Option φ) (R : Finset ρ) (f : φ) : ℕ :=
  (R.filter fun r => target r = some f).card

/-- 1 if `o` is `f`, and 0 otherwise. -/
def hit (o : Option φ) (f : φ) : ℕ := if o = some f then 1 else 0

@[simp] theorem hit_none (f : φ) : hit none f = 0 := rfl

@[simp] theorem hit_self (f : φ) : hit (some f) f = 1 := by simp [hit]

theorem hit_of_ne {f g : φ} (h : g ≠ f) : hit (some g) f = 0 := by simp [hit, h]

theorem hit_le_one (o : Option φ) (f : φ) : hit o f ≤ 1 := by
  unfold hit
  split <;> simp

theorem hit_eq_zero {o : Option φ} {f : φ} (h : hit o f = 0) : o ≠ some f := by
  rintro rfl
  simp at h

section

variable {p q : ρ → Option φ} {R : Finset ρ} {r r' : ρ} {f : φ}

theorem refCount_congr (h : ∀ r ∈ R, p r = q r) :
    refCount p R f = refCount q R f := by
  unfold refCount
  rw [Finset.filter_congr fun r hr => by rw [h r hr]]

theorem refCount_eq_zero (h : ∀ r ∈ R, p r ≠ some f) : refCount p R f = 0 := by
  unfold refCount
  rw [Finset.filter_eq_empty_iff.mpr (fun r hr => h r hr), Finset.card_empty]

theorem refCount_pos (hr : r ∈ R) (h : p r = some f) : 1 ≤ refCount p R f :=
  Finset.card_pos.mpr ⟨r, by simp [hr, h]⟩

theorem not_target_of_refCount (h : refCount p R f = 0) (hr : r ∈ R) :
    p r ≠ some f := by
  intro htarget
  have hpos := refCount_pos hr htarget
  omega

theorem eq_of_refCount_le_one (h : refCount p R f ≤ 1) (hr : r ∈ R) (hr' : r' ∈ R)
    (htarget : p r = some f) (htarget' : p r' = some f) : r = r' :=
  Finset.card_le_one.mp h r (by simp [hr, htarget]) r' (by simp [hr', htarget'])

@[simp] theorem refCount_empty : refCount p ∅ f = 0 := by simp [refCount]

theorem refCount_singleton : refCount p {r} f = hit (p r) f := by
  unfold refCount hit
  rw [Finset.filter_singleton]
  split <;> simp

variable [DecidableEq ρ]

theorem refCount_insert (hr : r ∉ R) :
    refCount p (insert r R) f = refCount p R f + hit (p r) f := by
  unfold refCount hit
  rw [Finset.filter_insert]
  split
  · rw [Finset.card_insert_of_notMem (by simp [hr])]
  · simp

theorem refCount_erase (hr : r ∈ R) :
    refCount p (R.erase r) f + hit (p r) f = refCount p R f := by
  rw [← refCount_insert (R.notMem_erase r), Finset.insert_erase hr]

/-- One reference is pointed elsewhere. -/
theorem refCount_retarget (hr : r ∈ R) (hother : ∀ r' ∈ R, r' ≠ r → q r' = p r') :
    refCount q R f + hit (p r) f = refCount p R f + hit (q r) f := by
  have hrest : refCount q (R.erase r) f = refCount p (R.erase r) f :=
    refCount_congr fun r' hr' => hother r' (Finset.mem_of_mem_erase hr')
      (Finset.ne_of_mem_erase hr')
  have hnew := refCount_erase (p := q) (f := f) hr
  have hold := refCount_erase (p := p) (f := f) hr
  omega

theorem refCount_disjUnion {R' : Finset ρ} (h : Disjoint R R') :
    refCount p (R ∪ R') f = refCount p R f + refCount p R' f := by
  unfold refCount
  rw [Finset.filter_union, Finset.card_union_of_disjoint (Finset.disjoint_filter_filter h)]

end

/-! ## References in rows -/

section Rows

variable {p : ρ × τ → Option φ} {R : Finset ρ} {T : Finset τ}
  {r : ρ} {f : φ}

theorem refCount_row : refCount p ({r} ×ˢ T) f = refCount (fun t => p (r, t)) T f := by
  unfold refCount
  refine Finset.card_bij' (fun x _ => x.2) (fun t _ => (r, t)) ?_ ?_ ?_ ?_
  · rintro ⟨a, t⟩ hx
    simp only [Finset.mem_filter, Finset.mem_product, Finset.mem_singleton] at hx
    obtain ⟨⟨rfl, ht⟩, hx⟩ := hx
    simp [ht, hx]
  · intro t ht
    simpa using ht
  · rintro ⟨a, t⟩ hx
    simp only [Finset.mem_filter, Finset.mem_product, Finset.mem_singleton] at hx
    rw [hx.1.1]
  · simp

variable [DecidableEq ρ] [DecidableEq τ]

theorem refCount_insert_row (hr : r ∉ R) :
    refCount p (insert r R ×ˢ T) f =
      refCount p (R ×ˢ T) f + refCount (fun t => p (r, t)) T f := by
  rw [Finset.insert_eq, Finset.union_product, Finset.union_comm, ← refCount_row,
    refCount_disjUnion]
  rw [Finset.disjoint_left]
  rintro ⟨a, t⟩ hx hx'
  simp only [Finset.mem_product, Finset.mem_singleton] at hx hx'
  exact hr (hx'.1 ▸ hx.1)

theorem refCount_erase_row (hr : r ∈ R) :
    refCount p (R.erase r ×ˢ T) f + refCount (fun t => p (r, t)) T f =
      refCount p (R ×ˢ T) f := by
  rw [← refCount_insert_row (R.notMem_erase r), Finset.insert_erase hr]

end Rows

/-- Going through the references one by one counts them. -/
theorem refCount_range (p : ℕ → Option φ) (n : ℕ) (f : φ) :
    refCount p (Finset.range n) f =
      (List.range n).countP fun t => decide (p t = some f) := by
  induction n with
  | zero => simp
  | succ n ih =>
      rw [Finset.range_add_one, refCount_insert (by simp), ih, List.range_succ]
      simp [hit, List.countP_append, List.countP_singleton]

end Ylos
