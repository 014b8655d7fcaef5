import Ylos.Model.Arena
import Ylos.Lib.Chain

/-! # The list functions on words -/

namespace Ylos.Heap

open Exec Function

variable {s : State} {list node a b n : ℕ} {xs ys : List ℕ}

@[simp] theorem run_load (addr : ℕ) (s : State) :
    (load addr).run s = .ok (s.mem addr, s, []) := rfl

@[simp] theorem run_store (addr value : ℕ) (s : State) :
    (store addr value).run s = .ok ((), { s with mem := update s.mem addr value }, []) := rfl

theorem run_searchLoop (h : Chain s.mem a xs (list + 8)) (hend : list + 8 ∉ xs)
    (hleft : xs.length < n) :
    (searchLoop list node n (s.mem (a + 4))).run s = .ok (decide (node ∈ xs), s, []) := by
  induction xs generalizing a n with
  | nil =>
      obtain ⟨n, rfl⟩ : ∃ m, n = m + 1 := ⟨n - 1, by simp at hleft; omega⟩
      unfold searchLoop
      rw [if_pos h.1]
      simp
  | cons x xs ih =>
      obtain ⟨n, rfl⟩ : ∃ m, n = m + 1 := ⟨n - 1, by simp at hleft; omega⟩
      obtain ⟨⟨hnext, -⟩, hrest⟩ := h
      have hx : x ≠ list + 8 := fun heq => hend (heq ▸ List.mem_cons_self)
      have hends : list + 8 ∉ xs := fun hmem => hend (List.mem_cons_of_mem _ hmem)
      unfold searchLoop
      rw [hnext, if_neg hx]
      by_cases hnode : x = node
      · rw [if_pos hnode, decide_eq_true (hnode ▸ List.mem_cons_self)]
        rfl
      · rw [if_neg hnode, run_bind _ (run_load (x + 4) s),
          ih hrest hends (by simpa using hleft)]
        have hiff : node ∈ x :: xs ↔ node ∈ xs := by
          rw [List.mem_cons, or_iff_right fun heq => hnode heq.symm]
        simp only [hiff]

theorem run_listSearch (h : Chain s.mem list xs (list + 8)) (hend : list + 8 ∉ xs)
    (hlength : xs.length < 2 ^ 32) :
    (listSearch list node).run s = .ok (decide (node ∈ xs), s, []) := by
  unfold listSearch
  rw [run_bind _ (run_load (list + 4) s)]
  exact run_searchLoop h hend hlength

theorem run_listEmpty (h : Chain s.mem list xs (list + 8)) (hend : list + 8 ∉ xs) :
    (listEmpty list).run s = .ok (decide (xs = []), s, []) := by
  unfold listEmpty
  rw [run_bind _ (run_load (list + 4) s), run_pure, h.first]
  cases xs with
  | nil => simp
  | cons x xs =>
      have hx : x ≠ list + 8 := fun heq => hend (heq ▸ List.mem_cons_self)
      simp [hx]

theorem run_listInsertAfter (hne : n ≠ a) (hna : n ≠ a + 4) :
    (listInsertAfter a n).run s = .ok ((), { s with mem := Chain.linked s.mem a n }, []) := by
  have hsame : update (update s.mem n a) (n + 4) (s.mem (a + 4)) (a + 4) = s.mem (a + 4) := by
    rw [update_of_ne (by omega), update_of_ne hna.symm]
  unfold listInsertAfter
  simp only [run_bind _ (run_store _ _ _), run_bind _ (run_load _ _), run_store,
    update_of_ne hna.symm, hsame]
  rfl

/-- `list_push` of a node that is not in the list. -/
theorem run_listPush (h : Chain s.mem list xs (list + 8)) (hlength : xs.length < 2 ^ 32)
    (hspread : Spread (node :: list :: (xs ++ [list + 8]))) :
    (listPush list node).run s =
      .ok ((), { s with mem := Chain.linked s.mem list node }, []) := by
  obtain ⟨hnodup, hapart⟩ := hspread
  obtain ⟨hnew, hnodup⟩ := List.nodup_cons.mp hnodup
  have hends : list + 8 ∉ xs := by
    intro hmem
    have hrest := (List.nodup_cons.mp hnodup).2
    exact (List.nodup_append.mp hrest).2.2 _ hmem _ (List.mem_singleton_self _) rfl
  have hnode : node ∉ xs := fun hmem =>
    hnew (List.mem_cons_of_mem _ (List.mem_append_left _ hmem))
  have hne : node ≠ list := fun heq => hnew (heq ▸ List.mem_cons_self)
  have hna : node ≠ list + 4 := (hapart list (List.mem_cons_of_mem _ List.mem_cons_self) node
    List.mem_cons_self).symm
  unfold listPush
  rw [run_bind _ (run_listSearch h hends hlength),
    run_bind _ (run_check_pos (decide_eq_false hnode) s), run_listInsertAfter hne hna]

/-- `list_remove` of a node that is in a list. -/
theorem run_listRemove (h : Chain s.mem a (xs ++ n :: ys) b)
    (hspread : Spread (a :: (xs ++ n :: (ys ++ [b]))))
    (hpos : ∀ u ∈ a :: (xs ++ n :: (ys ++ [b])), u ≠ 0) :
    (listRemove n).run s = .ok ((), { s with mem := Chain.unlinked s.mem n }, []) := by
  have hprev := h.prev_mem
  have hnext := h.next_mem
  have hprevin : s.mem n ∈ a :: (xs ++ n :: (ys ++ [b])) := by
    rcases List.mem_cons.mp hprev with heq | hmem
    · exact heq ▸ List.mem_cons_self
    · exact List.mem_cons_of_mem _ (List.mem_append_left _ hmem)
  have hnextin : s.mem (n + 4) ∈ a :: (xs ++ n :: (ys ++ [b])) :=
    List.mem_cons_of_mem _ (List.mem_append_right _ (List.mem_cons_of_mem _ hnext))
  have hnin : n ∈ a :: (xs ++ n :: (ys ++ [b])) :=
    List.mem_cons_of_mem _ (List.mem_append_right _ List.mem_cons_self)
  obtain ⟨hnodup, hapart⟩ := hspread
  have hprevne : s.mem n ≠ n := by
    intro heq
    rw [heq] at hprev
    rw [← List.cons_append] at hnodup
    exact (List.nodup_append.mp hnodup).2.2 _ hprev _ List.mem_cons_self rfl
  have hload : update s.mem (s.mem n + 4) (s.mem (n + 4)) (n + 4) = s.mem (n + 4) :=
    update_of_ne (by omega) _ _
  have hload' : update s.mem (s.mem n + 4) (s.mem (n + 4)) n = s.mem n :=
    update_of_ne (hapart _ hprevin n hnin).symm _ _
  unfold listRemove
  rw [run_bind _ (run_load n s), run_bind _ (run_check_pos (hpos _ hprevin) s),
    run_bind _ (run_load (n + 4) s), run_bind _ (run_check_pos (hpos _ hnextin) s)]
  simp only [run_bind _ (run_store _ _ _), run_bind _ (run_load _ _), run_store, hload, hload']
  rfl

/-- `list_pop` from a list that is not empty. -/
theorem run_listPop (h : Chain s.mem list (n :: xs) (list + 8))
    (hspread : Spread (list :: (n :: xs ++ [list + 8])))
    (hpos : ∀ u ∈ list :: (n :: xs ++ [list + 8]), u ≠ 0) :
    (listPop list).run s = .ok (n, { s with mem := Chain.unlinked s.mem n }, []) := by
  have hends : list + 8 ∉ n :: xs := by
    intro hmem
    have hrest := (List.nodup_cons.mp hspread.nodup).2
    exact (List.nodup_append.mp hrest).2.2 _ hmem _ (List.mem_singleton_self _) rfl
  have hfirst : Chain s.mem list ([] ++ n :: xs) (list + 8) := h
  have hremove : (listRemove n).run s =
      .ok ((), { s with mem := Chain.unlinked s.mem n }, []) :=
    run_listRemove hfirst hspread hpos
  unfold listPop
  rw [run_bind _ (run_listEmpty h hends), run_bind _ (run_check_pos (by simp) s),
    run_bind _ (run_load (list + 4) s), h.1.1, run_bind _ hremove, run_pure]

end Ylos.Heap
