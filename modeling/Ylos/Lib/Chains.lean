import Ylos.Lib.Chain
import Mathlib.Algebra.Group.Nat.Defs
import Mathlib.Data.List.Pairwise
import Mathlib.Data.List.Perm.Subperm
import Mathlib.Data.Set.Insert

/-! # Several lists in one memory

A list has its head at an address `list` and its tail at `list + 8`, with the nodes
`seq list` between them. -/

namespace Ylos

open Function Chain

namespace Chains

/-- The words of two nodes do not overlap. -/
def Apart (u v : ℕ) : Prop := u + 8 ≤ v ∨ v + 8 ≤ u

instance : Std.Symm Apart := ⟨fun _ _ => Or.symm⟩

theorem Apart.symm {u v : ℕ} (h : Apart u v) : Apart v u := Or.symm h

theorem Apart.ne {u v : ℕ} (h : Apart u v) : u ≠ v ∧ u + 4 ≠ v ∧ u ≠ v + 4 ∧ u + 4 ≠ v + 4 := by
  unfold Apart at h
  omega

theorem spread_of_apart {nodes : List ℕ} (h : nodes.Pairwise Apart) : Spread nodes where
  nodup := h.imp fun huv => huv.ne.1
  apart u hu v hv := by
    by_cases heq : u = v
    · omega
    · exact (h.forall hu hv heq).ne.2.1

/-- The nodes of a list with its head and its tail. -/
def nodes (seq : ℕ → List ℕ) (list : ℕ) : List ℕ := list :: (seq list ++ [list + 8])

/-- From head to tail each list is a chain, and no node is in two lists. -/
structure WellFormed (mem : ℕ → ℕ) (lists : Set ℕ) (seq : ℕ → List ℕ) : Prop where
  chain : ∀ list ∈ lists, Chain mem list (seq list) (list + 8)
  ends : ∀ list ∈ lists, mem list = 0 ∧ mem (list + 8 + 4) = 0
  apart : ∀ list ∈ lists, (nodes seq list).Pairwise Apart
  others : ∀ list ∈ lists, ∀ list' ∈ lists, list ≠ list' →
    ∀ u ∈ nodes seq list, ∀ v ∈ nodes seq list', Apart u v
  fits : ∀ list ∈ lists, ∀ u ∈ nodes seq list, 0 < u ∧ u + 8 ≤ 2 ^ 32

/-- A node that is in no list. -/
structure Fresh (lists : Set ℕ) (seq : ℕ → List ℕ) (n : ℕ) : Prop where
  apart : ∀ list ∈ lists, ∀ u ∈ nodes seq list, Apart n u
  fits : 0 < n ∧ n + 8 ≤ 2 ^ 32

/-- The words of the nodes `us` are all that may have changed. -/
def Frame (us : List ℕ) (mem mem' : ℕ → ℕ) : Prop :=
  ∀ w, (∀ u ∈ us, w ≠ u ∧ w ≠ u + 4) → mem' w = mem w

variable {mem mem' : ℕ → ℕ} {lists : Set ℕ} {seq : ℕ → List ℕ} {list n : ℕ} {xs ys : List ℕ}

theorem mem_nodes_head : list ∈ nodes seq list := List.mem_cons_self

theorem mem_nodes_tail : list + 8 ∈ nodes seq list :=
  List.mem_cons_of_mem _ (List.mem_append_right _ (List.mem_singleton_self _))

theorem mem_nodes (h : n ∈ seq list) : n ∈ nodes seq list :=
  List.mem_cons_of_mem _ (List.mem_append_left _ h)

/-- The memory after a list without nodes is put at `list`. -/
def emptied (mem : ℕ → ℕ) (list : ℕ) : ℕ → ℕ :=
  update (update (update (update mem list 0) (list + 12) 0) (list + 4) (list + 8)) (list + 8) list

namespace WellFormed

theorem spread (h : WellFormed mem lists seq) (hl : list ∈ lists) : Spread (nodes seq list) :=
  spread_of_apart (h.apart list hl)

theorem tail_notMem (h : WellFormed mem lists seq) (hl : list ∈ lists) : list + 8 ∉ seq list := by
  have hnodup := (List.nodup_cons.mp (h.spread hl).nodup).2
  exact fun hmem => (List.nodup_append.mp hnodup).2.2 _ hmem _ (List.mem_singleton_self _) rfl

/-- There are more addresses than nodes. -/
theorem length_lt (h : WellFormed mem lists seq) (hl : list ∈ lists) :
    (seq list).length < 2 ^ 32 := by
  have hsub : nodes seq list ⊆ List.range (2 ^ 32) := by
    intro u hu
    have hfits := h.fits list hl u hu
    exact List.mem_range.mpr (by omega)
  have hle := (List.subperm_of_subset (h.spread hl).nodup hsub).length_le
  rw [List.length_range] at hle
  simp only [nodes, List.length_cons, List.length_append] at hle
  omega

/-- One list has changed, with words of its own nodes and of `n` only. -/
theorem replace (h : WellFormed mem lists seq) (hl : list ∈ lists)
    (hchain : Chain mem' list xs (list + 8))
    (hends : mem' list = mem list ∧ mem' (list + 8 + 4) = mem (list + 8 + 4))
    (hframe : Frame (n :: nodes seq list) mem mem')
    (hapart : (list :: (xs ++ [list + 8])).Pairwise Apart)
    (hsub : ∀ u ∈ xs, u ∈ n :: seq list)
    (hothers : ∀ list' ∈ lists, list ≠ list' → ∀ u ∈ nodes seq list', Apart n u)
    (hfits : 0 < n ∧ n + 8 ≤ 2 ^ 32) : WellFormed mem' lists (update seq list xs) := by
  have hself : nodes (update seq list xs) list = list :: (xs ++ [list + 8]) := by
    unfold nodes
    rw [update_self]
  have hother : ∀ list', list ≠ list' →
      nodes (update seq list xs) list' = nodes seq list' := by
    intro list' hne
    unfold nodes
    rw [update_of_ne hne.symm]
  -- each node of the list was one of it, or is `n`
  have hnodes : ∀ u ∈ nodes (update seq list xs) list, u = n ∨ u ∈ nodes seq list := by
    intro u hu
    rw [hself] at hu
    rcases List.mem_cons.mp hu with rfl | hu
    · exact .inr mem_nodes_head
    · rcases List.mem_append.mp hu with hu | hu
      · exact (List.mem_cons.mp (hsub u hu)).imp_right mem_nodes
      · rw [List.mem_singleton.mp hu]
        exact .inr mem_nodes_tail
  have hcross : ∀ list' ∈ lists, list ≠ list' → ∀ u ∈ n :: nodes seq list,
      ∀ v ∈ nodes seq list', Apart u v := by
    intro list' hl' hne u hu v hv
    rcases List.mem_cons.mp hu with rfl | hu
    · exact hothers list' hl' hne v hv
    · exact h.others list hl list' hl' hne u hu v hv
  have hstay : ∀ list' ∈ lists, list ≠ list' → ∀ v ∈ nodes seq list',
      mem' v = mem v ∧ mem' (v + 4) = mem (v + 4) := by
    intro list' hl' hne v hv
    refine ⟨hframe v fun u hu => ?_, hframe (v + 4) fun u hu => ?_⟩
    · have hapart := (hcross list' hl' hne u hu v hv).ne
      exact ⟨hapart.1.symm, hapart.2.1.symm⟩
    · have hapart := (hcross list' hl' hne u hu v hv).ne
      exact ⟨hapart.2.2.1.symm, hapart.2.2.2.symm⟩
  refine ⟨fun list' hl' => ?_, fun list' hl' => ?_, fun list' hl' => ?_,
    fun l hl₁ l' hl₂ hne u hu v hv => ?_, fun list' hl' u hu => ?_⟩
  · by_cases heq : list = list'
    · subst heq
      rw [update_self]
      exact hchain
    · rw [update_of_ne (Ne.symm heq)]
      have hwords := hstay list' hl' heq
      exact (h.chain list' hl').congr (hwords _ mem_nodes_head).2 (hwords _ mem_nodes_tail).1
        fun u hu => hwords u (mem_nodes hu)
  · by_cases heq : list = list'
    · subst heq
      rw [hends.1, hends.2]
      exact h.ends list hl
    · have hwords := hstay list' hl' heq
      rw [(hwords _ mem_nodes_head).1, (hwords _ mem_nodes_tail).2]
      exact h.ends list' hl'
  · by_cases heq : list = list'
    · subst heq
      rw [hself]
      exact hapart
    · rw [hother list' heq]
      exact h.apart list' hl'
  · by_cases heq : list = l
    · subst heq
      rw [hother l' hne] at hv
      exact hcross l' hl₂ hne u (List.mem_cons.mpr (hnodes u hu)) v hv
    · rw [hother l heq] at hu
      by_cases heq' : list = l'
      · subst heq'
        exact (hcross l hl₁ heq v (List.mem_cons.mpr (hnodes v hv)) u hu).symm
      · rw [hother l' heq'] at hv
        exact h.others l hl₁ l' hl₂ hne u hu v hv
  · by_cases heq : list = list'
    · subst heq
      rcases hnodes u hu with rfl | hu
      · exact hfits
      · exact h.fits list hl u hu
    · rw [hother list' heq] at hu
      exact h.fits list' hl' u hu

/-! ## A node more -/

theorem apart_cons (h : WellFormed mem lists seq) (hl : list ∈ lists) (hn : Fresh lists seq n) :
    (n :: nodes seq list).Pairwise Apart :=
  List.pairwise_cons.mpr ⟨hn.apart list hl, h.apart list hl⟩

/-- The node before a place in a list is no tail, and the one after it is no head. -/
theorem neighbours (h : WellFormed mem lists seq) (hl : list ∈ lists) (hxs : seq list = xs ++ ys) :
    xs.getLastD list ∈ nodes seq list ∧ xs.getLastD list ≠ list + 8 ∧
      mem (xs.getLastD list + 4) ∈ nodes seq list ∧ mem (xs.getLastD list + 4) ≠ list := by
  have hchain : Chain mem list (xs ++ ys) (list + 8) := hxs ▸ h.chain list hl
  have hprev : xs.getLastD list ∈ list :: xs := List.getLastD_mem_cons
  have hnext := hchain.split.first_mem
  have hnodup := (h.spread hl).nodup
  have hnodes : nodes seq list = (list :: xs) ++ (ys ++ [list + 8]) := by
    unfold nodes
    rw [hxs, List.append_assoc, List.cons_append]
  rw [hnodes] at hnodup ⊢
  have hdisjoint := (List.nodup_append.mp hnodup).2.2
  refine ⟨List.mem_append_left _ hprev, ?_, List.mem_append_right _ hnext, ?_⟩
  · exact hdisjoint _ hprev _ (List.mem_append_right _ (List.mem_singleton_self _))
  · exact (hdisjoint _ List.mem_cons_self _ hnext).symm

theorem insert_frame (h : WellFormed mem lists seq) (hl : list ∈ lists)
    (hxs : seq list = xs ++ ys) :
    Frame (n :: nodes seq list) mem (linked mem (xs.getLastD list) n) := by
  obtain ⟨hprev, -, hnext, -⟩ := h.neighbours hl hxs
  intro w hw
  have hself := hw n List.mem_cons_self
  exact linked_of_ne hself.1 hself.2 (hw _ (List.mem_cons_of_mem _ hnext)).1
    (hw _ (List.mem_cons_of_mem _ hprev)).2

/-- A new node comes between the nodes `xs` and `ys` of a list. -/
theorem insert (h : WellFormed mem lists seq) (hl : list ∈ lists) (hn : Fresh lists seq n)
    (hxs : seq list = xs ++ ys) :
    WellFormed (linked mem (xs.getLastD list) n) lists (update seq list (xs ++ n :: ys)) := by
  have hapart := h.apart_cons hl hn
  have hperm : (list :: (xs ++ n :: ys ++ [list + 8])).Perm (n :: nodes seq list) := by
    unfold nodes
    rw [hxs, List.append_assoc, List.append_assoc]
    exact (List.perm_middle.cons list).trans (List.Perm.swap n list _)
  have hspread : Spread (n :: list :: (xs ++ ys ++ [list + 8])) := hxs ▸ spread_of_apart hapart
  have hchain : Chain mem list (xs ++ ys) (list + 8) := hxs ▸ h.chain list hl
  obtain ⟨hprev, hprevne, hnext, hnextne⟩ := h.neighbours hl hxs
  have hhead := (hn.apart list hl list mem_nodes_head).ne
  have htail := (hn.apart list hl (list + 8) mem_nodes_tail).ne
  have hspread' := (h.spread hl).apart
  refine h.replace hl (hchain.insert hspread) ⟨?_, ?_⟩ (h.insert_frame hl hxs)
    ((hperm.pairwise_iff Apart.symm).mpr hapart) ?_ (fun list' hl' _ => hn.apart list' hl') hn.fits
  · exact linked_of_ne hhead.1.symm hhead.2.1.symm hnextne.symm
      (hspread' _ hprev list mem_nodes_head).symm
  · exact linked_of_ne htail.2.2.1.symm htail.2.2.2.symm
      (hspread' (list + 8) mem_nodes_tail _ hnext)
      fun heq => hprevne (Nat.add_right_cancel heq).symm
  · intro u hu
    rw [hxs]
    exact List.perm_middle.subset hu

/-! ## A node less -/

/-- The node before a node of a list is no tail, and the one after it is no head. -/
theorem beside (h : WellFormed mem lists seq) (hl : list ∈ lists)
    (hxs : seq list = xs ++ n :: ys) :
    mem n ∈ nodes seq list ∧ mem n ≠ list + 8 ∧
      mem (n + 4) ∈ nodes seq list ∧ mem (n + 4) ≠ list := by
  have hchain : Chain mem list (xs ++ n :: ys) (list + 8) := hxs ▸ h.chain list hl
  have hprev := hchain.prev_mem
  have hnext := hchain.next_mem
  have hnodup := (h.spread hl).nodup
  have hnodes : nodes seq list = (list :: xs) ++ n :: (ys ++ [list + 8]) := by
    unfold nodes
    rw [hxs, List.append_assoc, List.cons_append, List.cons_append]
  rw [hnodes] at hnodup ⊢
  have hdisjoint := (List.nodup_append.mp hnodup).2.2
  refine ⟨List.mem_append_left _ hprev, ?_, ?_, ?_⟩
  · refine hdisjoint _ hprev _ (List.mem_cons_of_mem _ (List.mem_append_right _ ?_))
    exact List.mem_singleton_self _
  · exact List.mem_append_right _ (List.mem_cons_of_mem _ hnext)
  · exact (hdisjoint _ List.mem_cons_self _ (List.mem_cons_of_mem _ hnext)).symm

theorem remove_frame (h : WellFormed mem lists seq) (hl : list ∈ lists)
    (hxs : seq list = xs ++ n :: ys) : Frame (n :: nodes seq list) mem (unlinked mem n) := by
  obtain ⟨hprev, -, hnext, -⟩ := h.beside hl hxs
  intro w hw
  have hself := hw n List.mem_cons_self
  exact unlinked_of_ne (hw _ (List.mem_cons_of_mem _ hprev)).2
    (hw _ (List.mem_cons_of_mem _ hnext)).1 hself.1 hself.2

/-- A node of a list is taken out. -/
theorem remove (h : WellFormed mem lists seq) (hl : list ∈ lists) (hxs : seq list = xs ++ n :: ys) :
    WellFormed (unlinked mem n) lists (update seq list (xs ++ ys)) := by
  obtain ⟨hprev, hprevne, hnext, hnextne⟩ := h.beside hl hxs
  have hmem : n ∈ seq list := by
    rw [hxs]
    exact List.mem_append_right _ List.mem_cons_self
  have hn : n ∈ nodes seq list := mem_nodes hmem
  have hspread := h.spread hl
  have hapart := hspread.apart
  have hne : n ≠ list := by
    rintro rfl
    exact (List.nodup_cons.mp hspread.nodup).1 (List.mem_append_left _ hmem)
  have hnetail : n ≠ list + 8 := fun heq => h.tail_notMem hl (heq ▸ hmem)
  have hchain : Chain mem list (xs ++ n :: ys) (list + 8) := hxs ▸ h.chain list hl
  have hsub : (list :: (xs ++ ys ++ [list + 8])).Sublist (nodes seq list) := by
    unfold nodes
    rw [hxs, List.append_assoc, List.append_assoc, List.cons_append]
    exact ((List.sublist_cons_self n _).append_left xs).cons_cons list
  refine h.replace hl (hchain.remove ?_) ⟨?_, ?_⟩ (h.remove_frame hl hxs)
    ((h.apart list hl).sublist hsub) ?_ (fun list' hl' hne' => h.others list hl list' hl' hne' n hn)
    (h.fits list hl n hn)
  · have hnodes : nodes seq list = list :: (xs ++ n :: (ys ++ [list + 8])) := by
      unfold nodes
      rw [hxs, List.append_assoc, List.cons_append]
    exact hnodes ▸ hspread
  · exact unlinked_of_ne (hapart _ hprev list mem_nodes_head).symm hnextne.symm hne.symm
      (hapart n hn list mem_nodes_head).symm
  · exact unlinked_of_ne (fun heq => hprevne (Nat.add_right_cancel heq).symm)
      (hapart (list + 8) mem_nodes_tail _ hnext) (hapart (list + 8) mem_nodes_tail n hn)
      fun heq => hnetail (Nat.add_right_cancel heq).symm
  · intro u hu
    rw [hxs]
    rcases List.mem_append.mp hu with hu | hu
    · exact List.mem_cons_of_mem _ (List.mem_append_left _ hu)
    · exact List.mem_cons_of_mem _ (List.mem_append_right _ (List.mem_cons_of_mem _ hu))

/-! ## A list more -/

/-- A new list is put there. -/
theorem new (h : WellFormed mem lists seq) (hhead : Fresh lists seq list)
    (htail : Fresh lists seq (list + 8)) :
    WellFormed (emptied mem list) (Insert.insert list lists) (update seq list []) := by
  have hne : ∀ l ∈ lists, l ≠ list := fun l hl heq =>
    (hhead.apart l hl l mem_nodes_head).ne.1 heq.symm
  have hself : nodes (update seq list []) list = [list, list + 8] := by
    unfold nodes
    rw [update_self]
    rfl
  have hother : ∀ l ∈ lists, nodes (update seq list []) l = nodes seq l := by
    intro l hl
    unfold nodes
    rw [update_of_ne (hne l hl)]
  have hcross : ∀ l ∈ lists, ∀ u ∈ nodes (update seq list []) list, ∀ v ∈ nodes seq l,
      Apart u v := by
    intro l hl u hu v hv
    rw [hself] at hu
    rcases List.mem_pair.mp hu with rfl | rfl
    · exact hhead.apart l hl v hv
    · exact htail.apart l hl v hv
  have hstay : ∀ l ∈ lists, ∀ v ∈ nodes seq l, ∀ w, w = v ∨ w = v + 4 →
      emptied mem list w = mem w := by
    intro l hl v hv w hw
    have hfirst := (hhead.apart l hl v hv).ne
    have hlast := (htail.apart l hl v hv).ne
    unfold emptied
    rw [update_of_ne (by omega), update_of_ne (by omega), update_of_ne (by omega),
      update_of_ne (by omega)]
  refine ⟨?_, ?_, ?_, ?_, ?_⟩
  · rintro l (rfl | hl)
    · rw [update_self]
      refine ⟨?_, update_self ..⟩
      unfold emptied
      rw [update_of_ne (by omega), update_self]
    · rw [update_of_ne (hne l hl)]
      exact (h.chain l hl).congr (hstay l hl l mem_nodes_head _ (.inr rfl))
        (hstay l hl _ mem_nodes_tail _ (.inl rfl)) fun x hx =>
          ⟨hstay l hl x (mem_nodes hx) _ (.inl rfl), hstay l hl x (mem_nodes hx) _ (.inr rfl)⟩
  · rintro l (rfl | hl)
    · unfold emptied
      refine ⟨?_, ?_⟩
      · rw [update_of_ne (by omega), update_of_ne (by omega), update_of_ne (by omega), update_self]
      · rw [update_of_ne (by omega), update_of_ne (by omega), update_self]
    · have hends := h.ends l hl
      exact ⟨(hstay l hl l mem_nodes_head _ (.inl rfl)).trans hends.1,
        (hstay l hl _ mem_nodes_tail _ (.inr rfl)).trans hends.2⟩
  · rintro l (rfl | hl)
    · rw [hself]
      exact List.pairwise_pair.mpr (.inl le_rfl)
    · rw [hother l hl]
      exact h.apart l hl
  · rintro l (rfl | hl) l' (rfl | hl') hne' u hu v hv
    · exact absurd rfl hne'
    · rw [hother l' hl'] at hv
      exact hcross l' hl' u hu v hv
    · rw [hother l hl] at hu
      exact (hcross l hl v hv u hu).symm
    · rw [hother l hl] at hu
      rw [hother l' hl'] at hv
      exact h.others l hl l' hl' hne' u hu v hv
  · rintro l (rfl | hl) u hu
    · rw [hself] at hu
      rcases List.mem_pair.mp hu with rfl | rfl
      · exact hhead.fits
      · exact htail.fits
    · rw [hother l hl] at hu
      exact h.fits l hl u hu

end WellFormed

end Chains

end Ylos
