import Ylos.Verification.Arena.Lists
import Mathlib.Data.List.Range
import Mathlib.Data.List.Perm.Subperm

/-! # What the heap keeps in memory

The abstract heap says which pages are arenas and of which kind, which blocks are free in
which order, and what the headers count. -/

namespace Ylos.Heap

open Function

/-- Descriptors, by their index. -/
abbrev Class := Fin DESC_COUNT

def blockSize (c : Class) : ℕ := 16 * 2 ^ c.val

/-- The blocks of a page. -/
def total (c : Class) : ℕ := (PAGE_SIZE - 16) / blockSize c

/-- The two sorts of arena: with blocks of one class, or of so many pages. -/
inductive Kind where
  | small (c : Class)
  | large (count : ℕ)
  deriving DecidableEq

/-- The number of pages. -/
def Kind.span : Kind → ℕ
  | .small _ => 1
  | .large count => count

/-- `arena->large`. -/
def Kind.flag : Kind → ℕ
  | .small _ => 0
  | .large _ => 1

/-- The blocks of page `a`. -/
def blocks (c : Class) (a : ℕ) : List ℕ :=
  (List.range (total c)).map fun i => a * 4096 + 16 + i * blockSize c

structure Layout where
  kind : ℕ → Option Kind
  free : Class → List ℕ
  count : ℕ → ℕ

namespace Layout

/-- `b` is a block of an arena of class `c`. -/
def Block (l : Layout) (c : Class) (b : ℕ) : Prop :=
  l.kind (b / 4096) = some (.small c) ∧ b ∈ blocks c (b / 4096)

def setFree (l : Layout) (c : Class) (xs : List ℕ) : Layout :=
  { l with free := update l.free c xs }

def setCount (l : Layout) (a n : ℕ) : Layout := { l with count := update l.count a n }

def setKind (l : Layout) (a : ℕ) (k : Option Kind) : Layout :=
  { l with kind := update l.kind a k }

@[simp] theorem setFree_kind (l : Layout) (c : Class) (xs : List ℕ) :
    (l.setFree c xs).kind = l.kind := rfl

@[simp] theorem setFree_count (l : Layout) (c : Class) (xs : List ℕ) :
    (l.setFree c xs).count = l.count := rfl

@[simp] theorem setFree_free_self (l : Layout) (c : Class) (xs : List ℕ) :
    (l.setFree c xs).free c = xs := update_self ..

theorem setFree_free_of_ne (l : Layout) {c c' : Class} (h : c' ≠ c) (xs : List ℕ) :
    (l.setFree c xs).free c' = l.free c' := update_of_ne h ..

@[simp] theorem setCount_kind (l : Layout) (a n : ℕ) : (l.setCount a n).kind = l.kind := rfl

@[simp] theorem setCount_free (l : Layout) (a n : ℕ) : (l.setCount a n).free = l.free := rfl

@[simp] theorem setKind_free (l : Layout) (a : ℕ) (k : Option Kind) :
    (l.setKind a k).free = l.free := rfl

@[simp] theorem setKind_count (l : Layout) (a : ℕ) (k : Option Kind) :
    (l.setKind a k).count = l.count := rfl

/-- Arenas lie in kernel pages, and free blocks in arenas of their class. -/
structure Placed (l : Layout) : Prop where
  low : ∀ a k, l.kind a = some k → 256 ≤ a
  high : ∀ a k, l.kind a = some k → a < 4096
  nodup : ∀ c, (l.free c).Nodup
  block : ∀ c, ∀ b ∈ l.free c, l.Block c b

theorem Placed.setCount {l : Layout} (h : l.Placed) (a n : ℕ) : (l.setCount a n).Placed :=
  ⟨h.low, h.high, h.nodup, h.block⟩

theorem Placed.setFree {l : Layout} {c : Class} {xs : List ℕ} (h : l.Placed) (hnodup : xs.Nodup)
    (hblocks : ∀ x ∈ xs, l.Block c x) : (l.setFree c xs).Placed := by
  refine ⟨h.low, h.high, fun c' => ?_, fun c' x hx => ?_⟩
  · by_cases hcc : c' = c
    · rwa [hcc, setFree_free_self]
    · rw [setFree_free_of_ne _ hcc]
      exact h.nodup c'
  · by_cases hcc : c' = c
    · rw [hcc, setFree_free_self] at hx
      exact hcc ▸ hblocks x hx
    · rw [setFree_free_of_ne _ hcc] at hx
      exact h.block c' x hx

@[simp] theorem setFree_setFree (l : Layout) (c : Class) (xs ys : List ℕ) :
    (l.setFree c xs).setFree c ys = l.setFree c ys := by
  unfold setFree
  rw [update_idem]

end Layout

/-! ## Blocks -/

section Blocks

variable {c c' : Class} {a b b' : ℕ} {l : Layout}

theorem total_mul_le (c : Class) : total c * blockSize c ≤ 4080 := by
  revert c
  decide

theorem total_pos (c : Class) : 0 < total c := by
  revert c
  decide

theorem blockSize_pos (c : Class) : 0 < blockSize c := by
  revert c
  decide

theorem le_blockSize (c : Class) : 16 ≤ blockSize c := by
  revert c
  decide

theorem blockSize_mod (c : Class) : blockSize c % 16 = 0 := Nat.mul_mod_right 16 _

theorem total_lt (c : Class) : total c < 4096 := by
  revert c
  decide

theorem blockSize_le (c : Class) : blockSize c ≤ 1024 := by
  revert c
  decide

theorem mem_blocks : b ∈ blocks c a ↔ ∃ i < total c, b = a * 4096 + 16 + i * blockSize c := by
  unfold blocks
  simp only [List.mem_map, List.mem_range]
  exact exists_congr fun i => and_congr_right fun _ => eq_comm

theorem slot_le {i : ℕ} (h : i < total c) : i * blockSize c + blockSize c ≤ 4080 :=
  calc i * blockSize c + blockSize c = (i + 1) * blockSize c := by ring
    _ ≤ total c * blockSize c := Nat.mul_le_mul_right _ h
    _ ≤ 4080 := total_mul_le c

theorem length_blocks (c : Class) (a : ℕ) : (blocks c a).length = total c := by
  unfold blocks
  rw [List.length_map, List.length_range]

theorem nodup_blocks (c : Class) (a : ℕ) : (blocks c a).Nodup := by
  refine List.nodup_range.map fun i j h => ?_
  have heq : i * blockSize c = j * blockSize c := by
    omega
  exact Nat.eq_of_mul_eq_mul_right (blockSize_pos c) heq

/-- Where a block lies in its page. -/
theorem of_mem_blocks (h : b ∈ blocks c a) :
    b / 4096 = a ∧ b % 16 = 0 ∧ a * 4096 + 16 ≤ b ∧ b + blockSize c ≤ (a + 1) * 4096 := by
  obtain ⟨i, hi, rfl⟩ := mem_blocks.mp h
  have hend := slot_le hi
  have hpos := blockSize_pos c
  have hmod : i * blockSize c % 16 = 0 := by
    rw [Nat.mul_mod, blockSize_mod, Nat.mul_zero, Nat.zero_mod]
  exact ⟨by omega, by omega, by omega, by omega⟩

/-- Blocks of a page do not overlap. -/
theorem blocks_apart (h : b ∈ blocks c a) (h' : b' ∈ blocks c a) (hlt : b < b') :
    b + blockSize c ≤ b' := by
  obtain ⟨i, hi, rfl⟩ := mem_blocks.mp h
  obtain ⟨j, hj, rfl⟩ := mem_blocks.mp h'
  have hij : i + 1 ≤ j := by
    by_contra hnot
    have hle : j * blockSize c ≤ i * blockSize c := Nat.mul_le_mul_right _ (by omega)
    omega
  have hle : (i + 1) * blockSize c ≤ j * blockSize c := Nat.mul_le_mul_right _ hij
  have hsucc : (i + 1) * blockSize c = i * blockSize c + blockSize c := by ring
  omega

theorem getBlockArena_eq (h : b < 2 ^ 32) : getBlockArena b = b / 4096 * 4096 := by
  have hmask : 0xFFFFF000 = (2 ^ 20 - 1) <<< 12 := by decide
  have hsplit : b / 4096 * 4096 = (b / 2 ^ 12) <<< 12 := by rw [Nat.shiftLeft_eq]; norm_num
  unfold getBlockArena
  rw [hmask, hsplit]
  refine Nat.eq_of_testBit_eq fun i => ?_
  rw [Nat.testBit_and, Nat.testBit_shiftLeft, Nat.testBit_shiftLeft, Nat.testBit_two_pow_sub_one,
    Nat.testBit_div_two_pow]
  by_cases hi : 12 ≤ i
  · rw [decide_eq_true hi, Bool.true_and, Bool.true_and, Nat.sub_add_cancel hi]
    by_cases hhigh : i < 32
    · rw [decide_eq_true (by omega), Bool.and_true]
    · rw [Nat.testBit_lt_two_pow (h.trans_le (Nat.pow_le_pow_right (by norm_num) (by omega))),
        Bool.false_and]
  · rw [decide_eq_false hi, Bool.false_and, Bool.false_and, Bool.and_false]

/-- A free list is shorter than memory. -/
theorem Layout.Placed.length_lt (h : l.Placed) (c : Class) : (l.free c).length < 2 ^ 32 := by
  have hsub : l.free c ⊆ List.range (4096 * 4096) := by
    intro b hb
    have hblock := h.block c b hb
    have hhigh := h.high _ _ hblock.1
    rw [List.mem_range]
    omega
  have hle := (List.subperm_of_subset (h.nodup c) hsub).length_le
  rw [List.length_range] at hle
  omega

end Blocks

end Ylos.Heap
