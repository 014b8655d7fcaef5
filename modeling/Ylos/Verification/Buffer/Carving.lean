import Ylos.Lib.Carve
import Ylos.Model.BufferMemory
import Mathlib.Data.List.Basic

/-! # Buffers do not overlap -/

namespace Ylos.BufferMemory

open Exec Cache Carve

def KERNEL_BUFFER_END : ℕ := KERNEL_BUFFER_MEM + KERNEL_BUFFER_SIZE

/-- The state after `k` calls that have returned a buffer. -/
def after (size k : ℕ) : State :=
  ⟨KERNEL_BUFFER_MEM + k * size, KERNEL_BUFFER_END - BLOCK_SIZE - k * BLOCK_SIZE, k⟩

/-- The test in call `k`, if all before it were passed. -/
def Passes (size k : ℕ) : Prop := (k + 1) * (size + BLOCK_SIZE) < KERNEL_BUFFER_SIZE

instance (size k : ℕ) : Decidable (Passes size k) := by
  unfold Passes
  infer_instance

/-- What call `k` returns. -/
def answer (size k : ℕ) : Option (ℕ × ℕ) :=
  if Passes size k then some ((after size k).bufferPtr, (after size k).bufferData) else none

/-- The addresses of a descriptor and of its data. -/
def areas (size : ℕ) : Option (ℕ × ℕ) → List (Set ℕ)
  | none => []
  | some (buf, data) => [Set.Ico buf (buf + size), Set.Ico data (data + BLOCK_SIZE)]

variable {size i j k n : ℕ}

/-! ## One call -/

theorem Passes.of_le (h : Passes size k) (hj : j ≤ k) : Passes size j :=
  lt_of_le_of_lt (Nat.mul_le_mul_right _ (Nat.succ_le_succ hj)) h

theorem passes_iff : Passes size k ↔ k * size + size + (k + 1) * 1024 < 0x400000 := by
  change (k + 1) * (size + 1024) < 0x400000 ↔ _
  rw [Nat.mul_add, Nat.succ_mul]

theorem Passes.places (h : Passes size k) :
    Places KERNEL_BUFFER_MEM KERNEL_BUFFER_END size BLOCK_SIZE k := by
  rw [passes_iff] at h
  change 0x800000 + (k + 1) * size ≤ 0xC00000 - (k + 1) * 1024
  rw [Nat.succ_mul]
  omega

theorem answer_of_not (h : ¬Passes size k) (hj : k ≤ j) : answer size j = none :=
  if_neg fun hpass => h (hpass.of_le hj)

/-- The sum does not wrap around, and it is compared as it should be. -/
theorem test_iff (hsize : KERNEL_BUFFER_MEM + size < 2 ^ 32) (hk : ∀ j < k, Passes size j) :
    u32 ((after size k).bufferPtr + size) < (after size k).bufferData ↔ Passes size k := by
  have hsmall : k * size + size + k * 1024 < 2 ^ 32 - 0x800000 := by
    change 0x800000 + size < 2 ^ 32 at hsize
    rcases Nat.eq_zero_or_pos k with rfl | hpos
    · omega
    · have hlast := hk (k - 1) (by omega)
      rw [passes_iff, ← Nat.succ_mul, Nat.succ_eq_add_one, Nat.sub_add_cancel hpos] at hlast
      have hone := Nat.le_mul_of_pos_left size hpos
      omega
  rw [passes_iff]
  change (0x800000 + k * size + size) % 2 ^ 32 < 0xC00000 - 1024 - k * 1024 ↔ _
  omega

/-- The pointers move by one descriptor and one block. -/
theorem step_eq (h : Passes size k) :
    (⟨u32 ((after size k).bufferPtr + size),
      u32 ((after size k).bufferData + (2 ^ 32 - BLOCK_SIZE)),
      u32 ((after size k).bufferCount + 1)⟩ : State) = after size (k + 1) := by
  rw [passes_iff] at h
  unfold after
  rw [State.mk.injEq]
  refine ⟨?_, ?_, ?_⟩
  · change (0x800000 + k * size + size) % 2 ^ 32 = 0x800000 + (k + 1) * size
    rw [Nat.succ_mul]
    omega
  · change (0xC00000 - 1024 - k * 1024 + (2 ^ 32 - 1024)) % 2 ^ 32 =
      0xC00000 - 1024 - (k + 1) * 1024
    omega
  · change (k + 1) % 2 ^ 32 = k + 1
    omega

theorem run_getNewBuffer (hsize : KERNEL_BUFFER_MEM + size < 2 ^ 32)
    (hk : ∀ j < k, Passes size j) :
    (getNewBuffer size).run (after size k) =
      .ok (answer size k, after size (if Passes size k then k + 1 else k), []) := by
  unfold getNewBuffer answer
  rw [run_bind _ (run_get _)]
  by_cases hpass : Passes size k
  · rw [if_pos ((test_iff hsize hk).mpr hpass), if_pos hpass, if_pos hpass,
      ← step_eq hpass]
    rfl
  · rw [if_neg (mt (test_iff hsize hk).mp hpass), if_neg hpass, if_neg hpass]
    rfl

/-! ## Any number of calls -/

theorem run_getNewBuffers (n : ℕ) (hsize : KERNEL_BUFFER_MEM + size < 2 ^ 32)
    (hk : ∀ j < k, Passes size j) :
    ∃ s, (getNewBuffers size n).run (after size k) =
      .ok ((List.range n).map fun i => answer size (k + i), s, []) := by
  induction n generalizing k with
  | zero => exact ⟨after size k, rfl⟩
  | succ n ih =>
      unfold getNewBuffers
      rw [run_bind _ (run_getNewBuffer hsize hk), List.range_succ_eq_map, List.map_cons,
        List.map_map]
      by_cases hpass : Passes size k
      · obtain ⟨s, hs⟩ := ih (k := k + 1) fun j hj => hpass.of_le (Nat.le_of_lt_succ hj)
        refine ⟨s, ?_⟩
        rw [if_pos hpass, run_bind _ hs]
        simp only [Function.comp_def, Nat.add_zero, Nat.add_right_comm k 1, Nat.add_succ]
        rfl
      · -- this call and all later ones return no buffer
        obtain ⟨s, hs⟩ := ih hk
        refine ⟨s, ?_⟩
        rw [if_neg hpass, run_bind _ hs]
        simp only [Function.comp_def, answer_of_not hpass (Nat.le_add_right k _),
          answer_of_not hpass le_rfl, Nat.add_zero, run_pure]

theorem areas_answer (h : Passes size k) : areas size (answer size k) =
    [low KERNEL_BUFFER_MEM size k, high KERNEL_BUFFER_END BLOCK_SIZE k] := by
  have hdata : high KERNEL_BUFFER_END BLOCK_SIZE k =
      Set.Ico (after size k).bufferData ((after size k).bufferData + BLOCK_SIZE) := by
    rw [passes_iff] at h
    change Set.Ico (0xC00000 - (k + 1) * 1024) (0xC00000 - k * 1024) =
      Set.Ico (0xC00000 - 1024 - k * 1024) (0xC00000 - 1024 - k * 1024 + 1024)
    congr 1 <;> omega
  have hdesc : low KERNEL_BUFFER_MEM size k =
      Set.Ico (after size k).bufferPtr ((after size k).bufferPtr + size) := by
    unfold low after
    rw [Nat.succ_mul, Nat.add_assoc]
  unfold answer
  rw [if_pos h, hdata, hdesc]
  rfl

theorem areas_answer_of_not (h : ¬Passes size k) : areas size (answer size k) = [] := by
  rw [answer_of_not h le_rfl]
  rfl

/-- For the descriptors of the source these are the areas of buffer `k` of the cache. -/
theorem answer_buffer : answer BUFFER_T_SIZE k =
    if bufferPtr k + BUFFER_T_SIZE < bufferData k then some (bufferPtr k, bufferData k)
    else none := by
  have hiff : Passes BUFFER_T_SIZE k ↔ bufferPtr k + BUFFER_T_SIZE < bufferData k := by
    rw [passes_iff]
    change k * 64 + 64 + (k + 1) * 1024 < 0x400000 ↔
      0x800000 + k * 64 + 64 < 0x800000 + 0x400000 - 1024 - k * 1024
    omega
  unfold answer
  simp only [hiff]
  rfl

/-- The areas of one call and of an earlier one. -/
theorem areas_disjoint (h : i < j) :
    ∀ x ∈ areas size (answer size i), ∀ y ∈ areas size (answer size j), Disjoint x y := by
  intro x hx y hy
  by_cases hj : Passes size j
  · have hi := hj.of_le h.le
    rw [areas_answer hi, List.mem_pair] at hx
    rw [areas_answer hj, List.mem_pair] at hy
    rcases hx with rfl | rfl
    · rcases hy with rfl | rfl
      · exact low_disjoint h.ne
      · exact low_high_disjoint hi.places hj.places
    · rcases hy with rfl | rfl
      · exact (low_high_disjoint hj.places hi.places).symm
      · exact high_disjoint h.ne
  · rw [areas_answer_of_not hj] at hy
    cases hy

theorem areas_pairwise : (areas size (answer size k)).Pairwise Disjoint := by
  by_cases h : Passes size k
  · rw [areas_answer h]
    exact List.pairwise_pair.mpr (low_high_disjoint h.places h.places)
  · rw [areas_answer_of_not h]
    exact List.Pairwise.nil

theorem areas_subset {area : Set ℕ} (harea : area ∈ areas size (answer size k)) :
    area ⊆ Set.Ico KERNEL_BUFFER_MEM KERNEL_BUFFER_END := by
  by_cases h : Passes size k
  · rw [areas_answer h, List.mem_pair] at harea
    rcases harea with rfl | rfl
    · exact low_subset h.places
    · exact high_subset h.places
  · rw [areas_answer_of_not h] at harea
    cases harea

/-- However many buffers are asked for, what is handed out does not overlap and lies in the
memory for buffers. After the first call that returns none, none is returned. -/
theorem getNewBuffers_carve (size n : ℕ) (hsize : KERNEL_BUFFER_MEM + size < 2 ^ 32) :
    ∃ rs s, (getNewBuffers size n).run boot = .ok (rs, s, []) ∧ rs.length = n ∧
      (rs.flatMap (areas size)).Pairwise Disjoint ∧
      (∀ area ∈ rs.flatMap (areas size),
        area ⊆ Set.Ico KERNEL_BUFFER_MEM (KERNEL_BUFFER_MEM + KERNEL_BUFFER_SIZE)) ∧
      ∀ i j, i ≤ j → j < n → rs[i]? = some none → rs[j]? = some none := by
  obtain ⟨s, hs⟩ := run_getNewBuffers n hsize (k := 0) (by simp)
  simp only [Nat.zero_add] at hs
  have hboot : after size 0 = boot := by
    unfold after
    rw [Nat.zero_mul]
    rfl
  refine ⟨_, s, hboot ▸ hs, by rw [List.length_map, List.length_range], ?_, ?_, ?_⟩
  · rw [List.pairwise_flatMap]
    refine ⟨fun r hr => ?_, ?_⟩
    · obtain ⟨i, -, rfl⟩ := List.mem_map.mp hr
      exact areas_pairwise
    · rw [List.pairwise_map]
      exact List.pairwise_lt_range.imp fun hij => areas_disjoint hij
  · intro area harea
    obtain ⟨r, hr, harea⟩ := List.mem_flatMap.mp harea
    obtain ⟨i, -, rfl⟩ := List.mem_map.mp hr
    exact areas_subset harea
  · intro i j hij hj hi
    rw [List.getElem?_map, List.getElem?_range (lt_of_le_of_lt hij hj)] at hi
    rw [List.getElem?_map, List.getElem?_range hj]
    have hnot : ¬Passes size i := fun hpass => by simp [answer, hpass] at hi
    exact congrArg some (answer_of_not hnot hij)

theorem getNewBuffers_carve_two :
    ([some (0x800000, 0xBFFC00), some (0x800040, 0xBFF800)].flatMap (areas 64)).Pairwise
      Disjoint := by
  obtain ⟨rs, s, hrun, -, hdisjoint, -⟩ := getNewBuffers_carve 64 2 (by decide)
  have hrs : (getNewBuffers 64 2).run boot = .ok
      ([some (0x800000, 0xBFFC00), some (0x800040, 0xBFF800)], after 64 2, []) := rfl
  rw [hrs] at hrun
  cases hrun
  exact hdisjoint

/-- A descriptor for which the sum wraps around would not fit anywhere, and is handed out. -/
theorem getNewBuffer_wraps (hsize : 2 ^ 32 ≤ KERNEL_BUFFER_MEM + size) (hlt : size < 2 ^ 32) :
    ∃ s, (getNewBuffer size).run boot =
      .ok (some (KERNEL_BUFFER_MEM, KERNEL_BUFFER_END - BLOCK_SIZE), s, []) := by
  have htest : u32 (boot.bufferPtr + size) < boot.bufferData := by
    change 2 ^ 32 ≤ 0x800000 + size at hsize
    change (0x800000 + size) % 2 ^ 32 < 0xC00000 - 1024
    omega
  unfold getNewBuffer
  rw [run_bind _ (run_get _), if_pos htest]
  exact ⟨_, rfl⟩

end Ylos.BufferMemory
