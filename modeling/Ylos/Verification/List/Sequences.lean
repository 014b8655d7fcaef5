import Ylos.Lib.Chains
import Ylos.Verification.List.Loops

/-! # Lists are sequences

Each function of `lib/list.c` acts on one of the lists in memory as on a sequence of nodes. -/

namespace Ylos.Heap

open Exec Function Chains

/-- The list has the nodes `xs` now. The other lists are as they were, and so are all words but
those of `n` and of the nodes that the list had. -/
structure Changes (s : State) (lists : Set ℕ) (seq : ℕ → List ℕ) (list n : ℕ) (xs : List ℕ)
    (s' : State) : Prop where
  wellFormed : WellFormed s'.mem lists (update seq list xs)
  frame : Frame (n :: nodes seq list) s.mem s'.mem
  kernelMap : s'.kernelMap = s.kernelMap

/-- A node that is in no list, as `list_remove` leaves it. -/
def Unlinked (mem : ℕ → ℕ) (n : ℕ) : Prop := mem n = 0 ∧ mem (n + 4) = 0

variable {s : State} {lists : Set ℕ} {seq : ℕ → List ℕ} {list n : ℕ} {xs ys : List ℕ}

/-! ## The two changes -/

theorem changes_linked (h : WellFormed s.mem lists seq) (hl : list ∈ lists)
    (hn : Fresh lists seq n) (hxs : seq list = xs ++ ys) :
    Changes s lists seq list n (xs ++ n :: ys)
      { s with mem := Chain.linked s.mem (xs.getLastD list) n } :=
  ⟨h.insert hl hn hxs, h.insert_frame hl hxs, rfl⟩

theorem changes_unlinked (h : WellFormed s.mem lists seq) (hl : list ∈ lists)
    (hxs : seq list = xs ++ n :: ys) :
    Changes s lists seq list n (xs ++ ys) { s with mem := Chain.unlinked s.mem n } :=
  ⟨h.remove hl hxs, h.remove_frame hl hxs, rfl⟩

theorem unlinked_unlinked (mem : ℕ → ℕ) (n : ℕ) : Unlinked (Chain.unlinked mem n) n := by
  refine ⟨update_self .., ?_⟩
  unfold Chain.unlinked
  rw [update_of_ne (by omega), update_self]

/-! ## Insertions -/

theorem spread_fresh (h : WellFormed s.mem lists seq) (hl : list ∈ lists)
    (hn : Fresh lists seq n) (hxs : seq list = xs ++ ys) :
    Spread (n :: list :: (xs ++ ys ++ [list + 8])) :=
  hxs ▸ spread_of_apart (h.apart_cons hl hn)

theorem fresh_notMem (hl : list ∈ lists) (hn : Fresh lists seq n) : n ∉ seq list :=
  fun hmem => (hn.apart list hl n (mem_nodes hmem)).ne.1 rfl

theorem listPush_changes (h : WellFormed s.mem lists seq) (hl : list ∈ lists)
    (hn : Fresh lists seq n) : ∃ s', (listPush list n).run s = .ok ((), s', []) ∧
      Changes s lists seq list n (n :: seq list) s' := by
  have hxs : seq list = [] ++ seq list := (List.nil_append _).symm
  have hspread := spread_fresh h hl hn hxs
  exact ⟨_, run_listPush (h.chain list hl) (h.length_lt hl) hspread, changes_linked h hl hn hxs⟩

/-- Before the node that `ys` begin with. -/
theorem listInsertBefore_changes (h : WellFormed s.mem lists seq) (hl : list ∈ lists)
    (hn : Fresh lists seq n) (hxs : seq list = xs ++ ys) :
    ∃ s', (listInsertBefore (ys.headD (list + 8)) n).run s = .ok ((), s', []) ∧
      Changes s lists seq list n (xs ++ n :: ys) s' :=
  ⟨_, run_listInsertBefore (hxs ▸ h.chain list hl) (spread_fresh h hl hn hxs),
    changes_linked h hl hn hxs⟩

theorem run_search (h : WellFormed s.mem lists seq) (hl : list ∈ lists) (n : ℕ) :
    (listSearch list n).run s = .ok (decide (n ∈ seq list), s, []) :=
  run_listSearch (h.chain list hl) (h.tail_notMem hl) (h.length_lt hl)

theorem listPushback_changes (h : WellFormed s.mem lists seq) (hl : list ∈ lists)
    (hn : Fresh lists seq n) : ∃ s', (listPushback list n).run s = .ok ((), s', []) ∧
      Changes s lists seq list n (seq list ++ [n]) s' := by
  have hxs : seq list = seq list ++ [] := (List.append_nil _).symm
  obtain ⟨s', hrun, hchanges⟩ := listInsertBefore_changes h hl hn hxs
  refine ⟨s', ?_, hchanges⟩
  unfold listPushback
  rw [run_bind _ (run_search h hl n),
    run_bind _ (run_check_pos (decide_eq_false (fresh_notMem hl hn)) s)]
  exact hrun

theorem listInsertSort_changes (h : WellFormed s.mem lists seq) (hl : list ∈ lists)
    (hn : Fresh lists seq n) (hunlinked : Unlinked s.mem n) (offset : ℤ) :
    ∃ s', (listInsertSort list n offset).run s = .ok ((), s', []) ∧
      Changes s lists seq list n (Insertion.insert (keyAt s.mem offset) n (seq list)) s' := by
  obtain ⟨s', hrun, hchanges⟩ := listInsertBefore_changes h hl hn
    (List.takeWhile_append_dropWhile (p := fun x =>
      decide (keyAt s.mem offset x ≤ keyAt s.mem offset n)) (l := seq list)).symm
  have hinsert : Insertion.insert (keyAt s.mem offset) n (seq list) = _ := Insertion.insert_eq
  rw [← hinsert] at hchanges
  refine ⟨s', ?_, hchanges⟩
  unfold listInsertSort
  rw [run_bind _ (run_elementNodeKey n offset s), run_bind _ (run_load (list + 4) s),
    run_bind _ (run_anchorLoop (h.chain list hl) (h.tail_notMem hl) (h.length_lt hl)),
    run_bind _ (run_load (n + 4) s), run_bind _ (run_check_pos hunlinked.2 s),
    run_bind _ (run_load n s), run_bind _ (run_check_pos hunlinked.1 s)]
  exact hrun

/-! ## Removals -/

theorem listRemove_changes (h : WellFormed s.mem lists seq) (hl : list ∈ lists)
    (hxs : seq list = xs ++ n :: ys) : ∃ s', (listRemove n).run s = .ok ((), s', []) ∧
      Changes s lists seq list n (xs ++ ys) s' ∧ Unlinked s'.mem n := by
  have hnodes : nodes seq list = list :: (xs ++ n :: (ys ++ [list + 8])) := by
    unfold nodes
    rw [hxs, List.append_assoc, List.cons_append]
  have hrun := run_listRemove (hxs ▸ h.chain list hl) (hnodes ▸ h.spread hl)
    fun u hu => (h.fits list hl u (hnodes ▸ hu)).1.ne'
  exact ⟨_, hrun, changes_unlinked h hl hxs, unlinked_unlinked _ _⟩

theorem run_empty (h : WellFormed s.mem lists seq) (hl : list ∈ lists) :
    (listEmpty list).run s = .ok (decide (seq list = []), s, []) :=
  run_listEmpty (h.chain list hl) (h.tail_notMem hl)

theorem listPop_changes (h : WellFormed s.mem lists seq) (hl : list ∈ lists)
    (hxs : seq list = n :: xs) : ∃ s', (listPop list).run s = .ok (n, s', []) ∧
      Changes s lists seq list n xs s' ∧ Unlinked s'.mem n := by
  have hfirst : seq list = [] ++ n :: xs := hxs
  obtain ⟨s', hrun, hchanges, hunlinked⟩ := listRemove_changes h hl hfirst
  refine ⟨s', ?_, hchanges, hunlinked⟩
  have hnext : s.mem (list + 4) = n := by
    rw [(h.chain list hl).first, hxs]
    rfl
  have hne : decide (seq list = []) = false := decide_eq_false (hxs ▸ List.cons_ne_nil n xs)
  unfold listPop
  rw [run_bind _ (run_empty h hl), run_bind _ (run_check_pos hne s),
    run_bind _ (run_load (list + 4) s), hnext, run_bind _ hrun]
  rfl

theorem listPopback_changes (h : WellFormed s.mem lists seq) (hl : list ∈ lists)
    (hxs : seq list = xs ++ [n]) : ∃ s', (listPopback list).run s = .ok (n, s', []) ∧
      Changes s lists seq list n xs s' ∧ Unlinked s'.mem n := by
  obtain ⟨s', hrun, hchanges, hunlinked⟩ := listRemove_changes h hl hxs
  refine ⟨s', ?_, List.append_nil xs ▸ hchanges, hunlinked⟩
  have hprev : s.mem (list + 8) = n := by
    rw [(h.chain list hl).last, hxs, List.getLastD_concat]
  have hne : decide (seq list = []) = false := decide_eq_false (by simp [hxs])
  unfold listPopback
  rw [run_bind _ (run_empty h hl), run_bind _ (run_check_pos hne s),
    run_bind _ (run_load (list + 8) s), hprev, run_bind _ hrun]
  rfl

theorem run_size (h : WellFormed s.mem lists seq) (hl : list ∈ lists) :
    (listSize list).run s = .ok ((seq list).length, s, []) := by
  have hlength := h.length_lt hl
  unfold listSize
  rw [run_bind _ (run_load (list + 4) s), run_sizeLoop (h.chain list hl) (h.tail_notMem hl) hlength
    (by omega), Nat.zero_add]

/-! ## A new list -/

theorem listInit_wellFormed (h : WellFormed s.mem lists seq) (hhead : Fresh lists seq list)
    (htail : Fresh lists seq (list + 8)) : ∃ s', (listInit list).run s = .ok ((), s', []) ∧
      WellFormed s'.mem (insert list lists) (update seq list []) :=
  ⟨{ s with mem := emptied s.mem list }, rfl, h.new hhead htail⟩

/-! ## All functions -/

/-- On lists that are well formed, the functions act on one list as on a sequence, and answer
for the sequence. -/
theorem list_sequences (s : State) (lists : Set ℕ) (seq : ℕ → List ℕ)
    (h : WellFormed s.mem lists seq) (list : ℕ) (hl : list ∈ lists) :
    (∀ n, Fresh lists seq n →
      (∃ s', (listPush list n).run s = .ok ((), s', []) ∧
        Changes s lists seq list n (n :: seq list) s') ∧
      (∃ s', (listPushback list n).run s = .ok ((), s', []) ∧
        Changes s lists seq list n (seq list ++ [n]) s') ∧
      ∀ offset, Unlinked s.mem n →
        (seq list).Pairwise (fun x y => keyAt s.mem offset x ≤ keyAt s.mem offset y) →
        ∃ s' xs ys, (listInsertSort list n offset).run s = .ok ((), s', []) ∧
          Changes s lists seq list n (xs ++ n :: ys) s' ∧ seq list = xs ++ ys ∧
          (∀ x ∈ xs, keyAt s.mem offset x ≤ keyAt s.mem offset n) ∧
          (∀ y ∈ ys, keyAt s.mem offset n < keyAt s.mem offset y) ∧
          (xs ++ n :: ys).Pairwise fun x y => keyAt s.mem offset x ≤ keyAt s.mem offset y) ∧
    (∀ n ∈ seq list, ∃ s', (listRemove n).run s = .ok ((), s', []) ∧
      Changes s lists seq list n ((seq list).erase n) s' ∧ Unlinked s'.mem n) ∧
    (∀ n xs, seq list = n :: xs → ∃ s', (listPop list).run s = .ok (n, s', []) ∧
      Changes s lists seq list n xs s' ∧ Unlinked s'.mem n) ∧
    (∀ n xs, seq list = xs ++ [n] → ∃ s', (listPopback list).run s = .ok (n, s', []) ∧
      Changes s lists seq list n xs s' ∧ Unlinked s'.mem n) ∧
    (∀ n, (listSearch list n).run s = .ok (decide (n ∈ seq list), s, [])) ∧
    (listSize list).run s = .ok ((seq list).length, s, []) ∧
    (listEmpty list).run s = .ok (decide (seq list = []), s, []) := by
  refine ⟨fun n hn => ⟨listPush_changes h hl hn, listPushback_changes h hl hn,
      fun offset hunlinked hsorted => ?_⟩, fun n hn => ?_, fun n xs hxs => listPop_changes h hl hxs,
    fun n xs hxs => listPopback_changes h hl hxs, run_search h hl, run_size h hl, run_empty h hl⟩
  · obtain ⟨s', hrun, hchanges⟩ := listInsertSort_changes h hl hn hunlinked offset
    obtain ⟨xs, ys, hsplit, hinsert, hxs, hys⟩ := Insertion.insert_split (a := n) hsorted
    have hresult := Insertion.insert_sorted (a := n) hsorted
    rw [hinsert] at hchanges hresult
    exact ⟨s', xs, ys, hrun, hchanges, hsplit, hxs, hys, hresult⟩
  · obtain ⟨xs, ys, hsplit⟩ := List.append_of_mem hn
    have hnodup : (xs ++ n :: ys).Nodup := by
      rw [← hsplit]
      exact (List.nodup_append.mp (List.nodup_cons.mp (h.spread hl).nodup).2).1
    have hnew : n ∉ xs := fun hmem =>
      (List.nodup_append.mp hnodup).2.2 n hmem n List.mem_cons_self rfl
    have herase : (seq list).erase n = xs ++ ys := by
      rw [hsplit, List.erase_append_right _ hnew, List.erase_cons_head]
    rw [herase]
    exact listRemove_changes h hl hsplit

/-! ## Two lists, of one node and of none -/

/-- Node 2000, with the key 5, is in list 1000; node 3000 has the key -1. -/
def twoLists : State where
  kernelMap := ⟨fun _ => 0, 0, 0, 0⟩
  mem w :=
    if w = 1004 ∨ w = 1008 then 2000 else if w = 2000 then 1000 else if w = 2004 then 1008
    else if w = 1020 then 1024 else if w = 1024 then 1016
    else if w = 2008 then 5 else if w = 3008 then 0xFFFFFFFF else 0

def twoSeqs (list : ℕ) : List ℕ := if list = 1000 then [2000] else []

theorem twoLists_wellFormed : WellFormed twoLists.mem {1000, 1016} twoSeqs where
  chain := by
    rintro list (rfl | rfl)
    · exact ⟨⟨rfl, rfl⟩, rfl, rfl⟩
    · exact ⟨rfl, rfl⟩
  ends := by
    rintro list (rfl | rfl)
    · exact ⟨rfl, rfl⟩
    · exact ⟨rfl, rfl⟩
  apart := by
    unfold Apart
    rintro list (rfl | rfl)
    · decide
    · decide
  others := by
    unfold Apart
    rintro list (rfl | rfl) list' (rfl | rfl) hne
    · exact absurd rfl hne
    · decide
    · decide
    · exact absurd rfl hne
  fits := by
    rintro list (rfl | rfl)
    · decide
    · decide

theorem fresh_twoLists : Fresh {1000, 1016} twoSeqs 3000 where
  apart := by
    unfold Apart
    rintro list (rfl | rfl)
    · decide
    · decide
  fits := by decide

/-- Node 3000 comes before node 2000. -/
theorem list_sequences_two : ∃ s', (listInsertSort 1000 3000 8).run twoLists = .ok ((), s', []) ∧
    WellFormed s'.mem {1000, 1016} (update twoSeqs 1000 [3000, 2000]) := by
  obtain ⟨hinsertions, -⟩ := list_sequences twoLists {1000, 1016} twoSeqs twoLists_wellFormed 1000
    (.inl rfl)
  obtain ⟨-, -, hsort⟩ := hinsertions 3000 fresh_twoLists
  obtain ⟨s', xs, ys, hrun, hchanges, hsplit, hxs, -⟩ :=
    hsort 8 ⟨rfl, rfl⟩ (List.pairwise_singleton _ _)
  refine ⟨s', hrun, ?_⟩
  have hfirst : xs = [] := by
    cases xs with
    | nil => rfl
    | cons x xs =>
        obtain ⟨rfl, -⟩ := List.cons.inj hsplit
        exact absurd (hxs 2000 List.mem_cons_self) (by decide)
  subst hfirst
  exact (show [2000] = ys from hsplit) ▸ hchanges.wellFormed

end Ylos.Heap
