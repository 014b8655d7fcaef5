import Ylos.Lib.Insertion
import Ylos.Model.List
import Ylos.Verification.Arena.Lists

/-! # The loops and insertions of `lib/list.c` -/

namespace Ylos.Heap

open Exec Function

variable {s : State} {list node a b n size : ℕ} {xs ys : List ℕ} {offset key : ℤ}

/-- `element_node_key` in this memory. -/
def keyAt (mem : ℕ → ℕ) (offset : ℤ) (node : ℕ) : ℤ :=
  (mem ((node + offset) % 2 ^ 32).toNat : ℤ).bmod (2 ^ 32)

theorem run_elementNodeKey (node : ℕ) (offset : ℤ) (s : State) :
    (elementNodeKey node offset).run s = .ok (keyAt s.mem offset node, s, []) := rfl

theorem run_listInsertBefore (h : Chain s.mem a (xs ++ ys) b)
    (hspread : Spread (n :: a :: (xs ++ ys ++ [b]))) :
    (listInsertBefore (ys.headD b) n).run s =
      .ok ((), { s with mem := Chain.linked s.mem (xs.getLastD a) n }, []) := by
  have hsplit := h.split
  have hback := hsplit.back
  have hnext := hsplit.first
  have hmem := hsplit.first_mem
  rw [hnext] at hmem
  have hprev : xs.getLastD a ∈ a :: xs := List.getLastD_mem_cons
  obtain ⟨hnodup, hapart⟩ := hspread
  have hn : n ∈ n :: a :: (xs ++ ys ++ [b]) := List.mem_cons_self
  have hin : ys.headD b ∈ a :: (xs ++ ys ++ [b]) := by
    rw [List.append_assoc]
    exact List.mem_cons_of_mem _ (List.mem_append_right _ hmem)
  have hprevin : xs.getLastD a ∈ a :: (xs ++ ys ++ [b]) := by
    rw [List.append_assoc]
    exact List.cons_subset_cons a (List.subset_append_left xs _) hprev
  have hne : ys.headD b ≠ n := fun heq => (List.nodup_cons.mp hnodup).1 (heq ▸ hin)
  have hne' : ys.headD b ≠ n + 4 := (hapart n hn _ (List.mem_cons_of_mem _ hin)).symm
  have hcross : xs.getLastD a + 4 ≠ ys.headD b :=
    hapart _ (List.mem_cons_of_mem _ hprevin) _ (List.mem_cons_of_mem _ hin)
  have hload : update (update s.mem n (xs.getLastD a)) (n + 4) (ys.headD b) (ys.headD b) =
      xs.getLastD a := by
    rw [update_of_ne hne', update_of_ne hne, hback]
  unfold listInsertBefore Chain.linked
  simp only [run_bind _ (run_store _ _ _), run_bind _ (run_load _ _), run_store, hback, hload,
    hnext, update_comm hcross]

theorem run_sizeLoop (h : Chain s.mem a xs (list + 8)) (hend : list + 8 ∉ xs)
    (hleft : xs.length < n) (hsize : size + xs.length < 2 ^ 32) :
    (sizeLoop list n (s.mem (a + 4)) size).run s = .ok (size + xs.length, s, []) := by
  induction xs generalizing a n size with
  | nil =>
      obtain ⟨n, rfl⟩ : ∃ m, n = m + 1 := ⟨n - 1, by simp at hleft; omega⟩
      unfold sizeLoop
      rw [if_pos h.1]
      rfl
  | cons x xs ih =>
      obtain ⟨n, rfl⟩ : ∃ m, n = m + 1 := ⟨n - 1, by simp at hleft; omega⟩
      obtain ⟨⟨hnext, -⟩, hrest⟩ := h
      have hx : x ≠ list + 8 := fun heq => hend (heq ▸ List.mem_cons_self)
      have hends : list + 8 ∉ xs := fun hmem => hend (List.mem_cons_of_mem _ hmem)
      rw [List.length_cons] at hsize
      have hcount : u32 (size + 1) = size + 1 := Nat.mod_eq_of_lt (by omega)
      unfold sizeLoop
      rw [hnext, if_neg hx, run_bind _ (run_load (x + 4) s), hcount,
        ih hrest hends (by simpa using hleft) (by omega), List.length_cons, Nat.add_assoc,
        Nat.add_comm 1]

/-- The loop ends at the first node with a greater key, or at the tail. -/
theorem run_anchorLoop (h : Chain s.mem a xs (list + 8)) (hend : list + 8 ∉ xs)
    (hleft : xs.length < n) :
    (anchorLoop list offset key n (s.mem (a + 4))).run s = .ok
      ((xs.dropWhile fun x => decide (keyAt s.mem offset x ≤ key)).headD (list + 8), s, []) := by
  induction xs generalizing a n with
  | nil =>
      obtain ⟨n, rfl⟩ : ∃ m, n = m + 1 := ⟨n - 1, by simp at hleft; omega⟩
      unfold anchorLoop
      rw [if_pos h.1]
      rfl
  | cons x xs ih =>
      obtain ⟨n, rfl⟩ : ∃ m, n = m + 1 := ⟨n - 1, by simp at hleft; omega⟩
      obtain ⟨⟨hnext, -⟩, hrest⟩ := h
      have hx : x ≠ list + 8 := fun heq => hend (heq ▸ List.mem_cons_self)
      have hends : list + 8 ∉ xs := fun hmem => hend (List.mem_cons_of_mem _ hmem)
      unfold anchorLoop
      rw [hnext, if_neg hx, run_bind _ (run_elementNodeKey x offset s)]
      by_cases hkey : key < keyAt s.mem offset x
      · rw [if_pos hkey, List.dropWhile_cons_of_neg (by simpa using hkey)]
        rfl
      · rw [if_neg hkey, run_bind _ (run_load (x + 4) s), ih hrest hends (by simpa using hleft),
          List.dropWhile_cons_of_pos (by simpa using hkey)]

end Ylos.Heap
