import Ylos.Model.Copy
import Mathlib.Data.Nat.ModEq

/-! # What `memcpy` and `memset` do -/

namespace Ylos

open Ram

variable {σ : Type} [Ram σ] {s : σ} {m : Bytes} {dest src count addr : ℕ} {ch : UInt8}

/-! ## `memcpy` -/

/-- The memory behind `memcpy`. -/
def copied (m : Bytes) (dest src : ℕ) : (count : ℕ) → Bytes
  | 0 => m
  | count + 1 =>
    copied (Function.update m dest (m src)) (u32 (dest + 1)) (u32 (src + 1)) count

/-- The accesses of `memcpy`. -/
def copyAccesses (dest src : ℕ) : (count : ℕ) → List Access
  | 0 => []
  | count + 1 =>
    .load src :: .store dest :: copyAccesses (u32 (dest + 1)) (u32 (src + 1)) count

theorem run_memcpy (dest src count : ℕ) (s : σ) : (memcpy dest src count).run s =
    .ok ((), withRam s (copied (ram s) dest src count), copyAccesses dest src count) := by
  induction count generalizing dest src s with
  | zero => simp [memcpy, copied, copyAccesses]
  | succ count ih =>
      unfold memcpy
      rw [Exec.run_bind_ok _ (run_load src s), Exec.run_bind_ok _ (run_store dest _ s), ih]
      simp [copied, copyAccesses]

/-- Address `k` steps after `p`. -/
theorem u32_step (addr k : ℕ) : u32 (u32 (addr + 1) + k) = u32 (addr + (k + 1)) := by
  unfold u32
  omega

theorem load_mem_copyAccesses (h : src < 2 ^ 32) :
    .load addr ∈ copyAccesses dest src count ↔ ∃ k < count, addr = u32 (src + k) := by
  induction count generalizing dest src with
  | zero => simp [copyAccesses]
  | succ count ih =>
      have hnext : u32 (src + 1) < 2 ^ 32 := Nat.mod_lt _ (by decide)
      have hfirst : u32 (src + 0) = src := Nat.mod_eq_of_lt h
      simp only [copyAccesses, List.mem_cons, Access.load.injEq, reduceCtorEq, false_or,
        ih hnext, u32_step, Nat.exists_lt_succ_left, hfirst]

theorem store_mem_copyAccesses (h : dest < 2 ^ 32) :
    .store addr ∈ copyAccesses dest src count ↔ ∃ k < count, addr = u32 (dest + k) := by
  induction count generalizing dest src with
  | zero => simp [copyAccesses]
  | succ count ih =>
      have hnext : u32 (dest + 1) < 2 ^ 32 := Nat.mod_lt _ (by decide)
      have hfirst : u32 (dest + 0) = dest := Nat.mod_eq_of_lt h
      simp only [copyAccesses, List.mem_cons, Access.store.injEq, reduceCtorEq, false_or,
        ih hnext, u32_step, Nat.exists_lt_succ_left, hfirst]

/-- Areas that do not overlap. -/
theorem copied_eq (hdest : dest + count ≤ 2 ^ 32) (hsrc : src + count ≤ 2 ^ 32)
    (hdisj : dest + count ≤ src ∨ src + count ≤ dest) :
    copied m dest src count = m.copy dest count fun k => m (src + k) := by
  induction count generalizing m dest src with
  | zero => simp [copied]
  | succ count ih =>
      unfold copied
      rw [Bytes.copy_succ]
      cases count with
      | zero => simp [copied]
      | succ count =>
          have hd : u32 (dest + 1) = dest + 1 := Nat.mod_eq_of_lt (by omega)
          have hs : u32 (src + 1) = src + 1 := Nat.mod_eq_of_lt (by omega)
          rw [hd, hs, ih (by omega) (by omega) (by omega)]
          refine Bytes.copy_congr fun k hk => ?_
          -- the byte stored first is not one of those that are still to be loaded
          rw [Function.update_of_ne (by omega), add_assoc, Nat.add_comm 1 k]

/-! ## `memset` -/

/-- The accesses of `memset`. -/
def setAccesses (dest : ℕ) : (count : ℕ) → List Access
  | 0 => []
  | count + 1 => .store dest :: setAccesses (u32 (dest + 1)) count

theorem run_memset (s : σ) (hdest : dest + count ≤ 2 ^ 32) : (memset dest ch count).run s =
    .ok ((), withRam s ((ram s).copy dest count fun _ => ch), setAccesses dest count) := by
  induction count generalizing dest s with
  | zero => simp [memset, setAccesses]
  | succ count ih =>
      unfold memset
      rw [Exec.run_bind_ok _ (run_store dest ch s), Bytes.copy_succ]
      cases count with
      | zero => simp [memset, setAccesses]
      | succ count =>
          have hd : u32 (dest + 1) = dest + 1 := Nat.mod_eq_of_lt (by omega)
          rw [hd, ih _ (by omega)]
          simp [setAccesses, hd]

end Ylos
