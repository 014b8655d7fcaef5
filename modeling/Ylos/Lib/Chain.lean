import Mathlib.Data.List.Nodup
import Mathlib.Logic.Function.Basic

/-! # Doubly linked lists in a memory of words

A node at address `a` has the address of the node before it at `a` and that of the node
after it at `a + 4`. -/

namespace Ylos

open Function

variable {mem mem' : ℕ → ℕ} {a b n x : ℕ} {xs ys : List ℕ}

/-- Node `b` comes right after node `a`. -/
def Link (mem : ℕ → ℕ) (a b : ℕ) : Prop := mem (a + 4) = b ∧ mem b = a

/-- The nodes from `a` on are `xs`, and then comes `b`. -/
def Chain (mem : ℕ → ℕ) (a : ℕ) : List ℕ → ℕ → Prop
  | [], b => Link mem a b
  | x :: xs, b => Link mem a x ∧ Chain mem x xs b

/-- Nodes that do not overlap. -/
structure Spread (nodes : List ℕ) : Prop where
  nodup : nodes.Nodup
  apart : ∀ u ∈ nodes, ∀ v ∈ nodes, u + 4 ≠ v

namespace Spread

theorem sublist {nodes nodes' : List ℕ} (h : Spread nodes) (hsub : nodes'.Sublist nodes) :
    Spread nodes' :=
  ⟨h.nodup.sublist hsub, fun u hu v hv => h.apart u (hsub.subset hu) v (hsub.subset hv)⟩

theorem perm {nodes nodes' : List ℕ} (h : Spread nodes) (hperm : nodes'.Perm nodes) :
    Spread nodes' :=
  ⟨hperm.nodup_iff.mpr h.nodup,
    fun u hu v hv => h.apart u (hperm.subset hu) v (hperm.subset hv)⟩

end Spread

namespace Chain

/-- The words that a chain reads. -/
theorem congr (h : Chain mem a xs b) (hfirst : mem' (a + 4) = mem (a + 4)) (hlast : mem' b = mem b)
    (hnodes : ∀ x ∈ xs, mem' x = mem x ∧ mem' (x + 4) = mem (x + 4)) : Chain mem' a xs b := by
  induction xs generalizing a with
  | nil => exact ⟨hfirst.trans h.1, hlast.trans h.2⟩
  | cons x xs ih =>
      obtain ⟨⟨hnext, hprev⟩, hrest⟩ := h
      obtain ⟨hx, hx'⟩ := hnodes x List.mem_cons_self
      exact ⟨⟨hfirst.trans hnext, hx.trans hprev⟩,
        ih hrest hx' fun y hy => hnodes y (List.mem_cons_of_mem _ hy)⟩

/-- The node after `a`. -/
theorem first (h : Chain mem a xs b) : mem (a + 4) = xs.headD b := by
  cases xs with
  | nil => exact h.1
  | cons x xs => exact h.1.1

theorem first_mem (h : Chain mem a xs b) : mem (a + 4) ∈ xs ++ [b] := by
  rw [h.first]
  cases xs with
  | nil => exact List.mem_singleton_self b
  | cons x xs => exact List.mem_cons_self

/-- The memory after node `n` is put right after node `a`. -/
def linked (mem : ℕ → ℕ) (a n : ℕ) : ℕ → ℕ :=
  update (update (update (update mem n a) (n + 4) (mem (a + 4))) (mem (a + 4)) n) (a + 4) n

theorem linked_of_ne {w : ℕ} (hn : w ≠ n) (hn' : w ≠ n + 4) (hnext : w ≠ mem (a + 4))
    (ha : w ≠ a + 4) : linked mem a n w = mem w := by
  unfold linked
  rw [update_of_ne ha, update_of_ne hnext, update_of_ne hn', update_of_ne hn]

theorem push (h : Chain mem a xs b) (hspread : Spread (n :: a :: (xs ++ [b]))) :
    Chain (linked mem a n) a (n :: xs) b := by
  obtain ⟨hnodup, hapart⟩ := hspread
  have hn : n ∈ n :: a :: (xs ++ [b]) := List.mem_cons_self
  have ha : a ∈ n :: a :: (xs ++ [b]) := List.mem_cons_of_mem _ List.mem_cons_self
  have hin : ∀ x ∈ xs ++ [b], x ∈ n :: a :: (xs ++ [b]) :=
    fun x hx => List.mem_cons_of_mem _ (List.mem_cons_of_mem _ hx)
  obtain ⟨hnew, hnodup⟩ := List.nodup_cons.mp hnodup
  obtain ⟨hnew', hnodup⟩ := List.nodup_cons.mp hnodup
  have hfirst := h.first_mem
  have hne : ∀ x ∈ xs ++ [b], x ≠ n ∧ x ≠ a := fun x hx =>
    ⟨fun heq => hnew (heq ▸ List.mem_cons_of_mem _ hx), fun heq => hnew' (heq ▸ hx)⟩
  have hna : n ≠ a := fun heq => hnew (heq ▸ List.mem_cons_self)
  have hother : ∀ w, w ≠ n → w ≠ n + 4 → w ≠ mem (a + 4) → w ≠ a + 4 →
      linked mem a n w = mem w := fun w => linked_of_ne
  have hlink : Link (linked mem a n) a n := by
    refine ⟨update_self .., ?_⟩
    unfold linked
    rw [update_of_ne (hapart a ha n hn).symm, update_of_ne (hne _ hfirst).1.symm,
      update_of_ne (hapart n hn n hn).symm, update_self]
  have hnext : linked mem a n (n + 4) = mem (a + 4) := by
    unfold linked
    rw [update_of_ne (by omega), update_of_ne (hapart n hn _ (hin _ hfirst)), update_self]
  have hprev : linked mem a n (mem (a + 4)) = n := by
    unfold linked
    rw [update_of_ne (hapart a ha _ (hin _ hfirst)).symm, update_self]
  refine ⟨hlink, ?_⟩
  cases xs with
  | nil =>
      rw [h.first] at hnext hprev
      exact ⟨hnext, hprev⟩
  | cons x xs =>
      rw [h.first] at hnext hprev hother
      change ∀ w, w ≠ n → w ≠ n + 4 → w ≠ x → w ≠ a + 4 → _ at hother
      obtain ⟨hx, hnodup⟩ := List.nodup_cons.mp hnodup
      have hstay : ∀ y ∈ xs ++ [b], linked mem a n y = mem y := by
        intro y hy
        have hy' := List.mem_cons_of_mem x hy
        exact hother y (hne y hy').1 (hapart n hn y (hin y hy')).symm (fun heq => hx (heq ▸ hy))
          (hapart a ha y (hin y hy')).symm
      have hstay' : ∀ y ∈ x :: (xs ++ [b]), linked mem a n (y + 4) = mem (y + 4) := by
        intro y hy
        refine hother (y + 4) (hapart y (hin y hy) n hn) ?_
          (hapart y (hin y hy) x (hin x List.mem_cons_self)) ?_
        · exact fun heq => (hne y hy).1 (Nat.add_right_cancel heq)
        · exact fun heq => (hne y hy).2 (Nat.add_right_cancel heq)
      refine ⟨⟨hnext, hprev⟩, h.2.congr (hstay' x List.mem_cons_self)
        (hstay b (List.mem_append_right _ (List.mem_singleton_self b))) fun y hy => ?_⟩
      have hy' : y ∈ xs ++ [b] := List.mem_append_left _ hy
      exact ⟨hstay y hy', hstay' y (List.mem_cons_of_mem _ hy')⟩

/-- The node before `b`. -/
theorem last (h : Chain mem a xs b) : mem b = xs.getLastD a := by
  induction xs generalizing a with
  | nil => exact h.2
  | cons x xs ih =>
      rw [List.getLastD_cons]
      exact ih h.2

/-- The node before the first one. -/
theorem back (h : Chain mem a xs b) : mem (xs.headD b) = a := by
  cases xs with
  | nil => exact h.2
  | cons x xs => exact h.1.2

theorem split (h : Chain mem a (xs ++ ys) b) : Chain mem (xs.getLastD a) ys b := by
  induction xs generalizing a with
  | nil => exact h
  | cons x xs ih =>
      rw [List.getLastD_cons]
      exact ih h.2

theorem insert (h : Chain mem a (xs ++ ys) b) (hspread : Spread (n :: a :: (xs ++ ys ++ [b]))) :
    Chain (linked mem (xs.getLastD a) n) a (xs ++ n :: ys) b := by
  induction xs generalizing a with
  | nil => exact h.push hspread
  | cons x xs ih =>
      have hrest := ih h.2 (hspread.sublist ((List.sublist_cons_self a _).cons_cons n))
      have hnext := h.2.split.first_mem
      have hprev : xs.getLastD x ∈ x :: xs := List.getLastD_mem_cons
      obtain ⟨hnodup, hapart⟩ := hspread
      obtain ⟨hnew, hnodup⟩ := List.nodup_cons.mp hnodup
      obtain ⟨hnew', hnodup⟩ := List.nodup_cons.mp hnodup
      have hn : n ∈ n :: a :: (x :: xs ++ ys ++ [b]) := List.mem_cons_self
      have ha : a ∈ n :: a :: (x :: xs ++ ys ++ [b]) := List.mem_cons_of_mem _ List.mem_cons_self
      have hin : ∀ u ∈ x :: xs ++ ys ++ [b], u ∈ n :: a :: (x :: xs ++ ys ++ [b]) :=
        fun u hu => List.mem_cons_of_mem _ (List.mem_cons_of_mem _ hu)
      have hx : x ∈ x :: xs ++ ys ++ [b] := List.mem_cons_self
      have hprevin : xs.getLastD x ∈ x :: xs ++ ys ++ [b] :=
        List.mem_append_left _ (List.mem_append_left _ hprev)
      have hnextin : mem (xs.getLastD x + 4) ∈ x :: xs ++ ys ++ [b] := by
        rw [List.append_assoc]
        exact List.mem_append_right _ hnext
      have hne : ∀ u ∈ x :: xs ++ ys ++ [b], u ≠ n ∧ u ≠ a := fun u hu =>
        ⟨fun heq => hnew (heq ▸ List.mem_cons_of_mem _ hu), fun heq => hnew' (heq ▸ hu)⟩
      rw [List.getLastD_cons]
      refine ⟨⟨?_, ?_⟩, hrest⟩
      · rw [linked_of_ne (hapart a ha n hn) ?_ (hapart a ha _ (hin _ hnextin)) ?_]
        · exact h.1.1
        · exact fun heq => hnew ((Nat.add_right_cancel heq) ▸ List.mem_cons_self)
        · exact fun heq => (hne _ hprevin).2 (Nat.add_right_cancel heq).symm
      · rw [linked_of_ne (hne x hx).1 (hapart n hn x (hin x hx)).symm ?_
          (hapart _ (hin _ hprevin) x (hin x hx)).symm]
        · exact h.1.2
        · intro heq
          rw [List.cons_append, List.cons_append, List.append_assoc] at hnodup
          exact (List.nodup_cons.mp hnodup).1 (heq ▸ List.mem_append_right _ hnext)

/-- The memory after node `n` is taken out. -/
def unlinked (mem : ℕ → ℕ) (n : ℕ) : ℕ → ℕ :=
  update (update (update (update mem (mem n + 4) (mem (n + 4))) (mem (n + 4)) (mem n)) (n + 4) 0)
    n 0

theorem prev_mem (h : Chain mem a (xs ++ n :: ys) b) : mem n ∈ a :: xs := by
  induction xs generalizing a with
  | nil =>
      rw [h.1.2]
      exact List.mem_singleton_self a
  | cons x xs ih => exact List.mem_cons_of_mem _ (ih h.2)

theorem tail (h : Chain mem a (xs ++ n :: ys) b) : Chain mem n ys b := by
  induction xs generalizing a with
  | nil => exact h.2
  | cons x xs ih => exact ih h.2

theorem next_mem (h : Chain mem a (xs ++ n :: ys) b) : mem (n + 4) ∈ ys ++ [b] :=
  h.tail.first_mem

theorem unlinked_of_ne {w : ℕ} (hprev : w ≠ mem n + 4) (hnext : w ≠ mem (n + 4)) (hn : w ≠ n)
    (hn' : w ≠ n + 4) : unlinked mem n w = mem w := by
  unfold unlinked
  rw [update_of_ne hn, update_of_ne hn', update_of_ne hnext, update_of_ne hprev]

theorem remove (h : Chain mem a (xs ++ n :: ys) b)
    (hspread : Spread (a :: (xs ++ n :: (ys ++ [b])))) : Chain (unlinked mem n) a (xs ++ ys) b := by
  induction xs generalizing a with
  | nil =>
      obtain ⟨hnodup, hapart⟩ := hspread
      obtain ⟨hnew, hnodup⟩ := List.nodup_cons.mp hnodup
      obtain ⟨hnew', hnodup⟩ := List.nodup_cons.mp hnodup
      have ha : a ∈ a :: ([] ++ n :: (ys ++ [b])) := List.mem_cons_self
      have hn : n ∈ a :: ([] ++ n :: (ys ++ [b])) := List.mem_cons_of_mem _ List.mem_cons_self
      have hin : ∀ x ∈ ys ++ [b], x ∈ a :: ([] ++ n :: (ys ++ [b])) :=
        fun x hx => List.mem_cons_of_mem _ (List.mem_cons_of_mem _ hx)
      have hfirst := h.2.first_mem
      have hne : ∀ x ∈ ys ++ [b], x ≠ a ∧ x ≠ n := fun x hx =>
        ⟨fun heq => hnew (heq ▸ List.mem_cons_of_mem _ hx), fun heq => hnew' (heq ▸ hx)⟩
      have hna : n ≠ a := fun heq => hnew (heq ▸ List.mem_cons_self)
      have hprev : mem n = a := h.1.2
      have hlink : Link (unlinked mem n) a (mem (n + 4)) := by
        unfold unlinked
        rw [hprev]
        constructor
        · rw [update_of_ne (hapart a ha n hn), update_of_ne fun heq => hna (by omega),
            update_of_ne (hapart a ha _ (hin _ hfirst)), update_self]
        · rw [update_of_ne (hne _ hfirst).2, update_of_ne (hapart n hn _ (hin _ hfirst)).symm,
            update_self]
      cases ys with
      | nil =>
          rw [h.2.first] at hlink
          exact hlink
      | cons y ys =>
          have hnext : mem (n + 4) = y := h.2.first
          rw [hnext] at hlink
          obtain ⟨hy, hnodup⟩ := List.nodup_cons.mp hnodup
          have hstay : ∀ x ∈ ys ++ [b], unlinked mem n x = mem x := by
            intro x hx
            have hx' := List.mem_cons_of_mem y hx
            refine unlinked_of_ne ?_ ?_ (hne x hx').2 (hapart n hn x (hin x hx')).symm
            · rw [hprev]
              exact (hapart a ha x (hin x hx')).symm
            · rw [hnext]
              exact fun heq => hy (heq ▸ hx)
          have hstay' : ∀ x ∈ y :: (ys ++ [b]), unlinked mem n (x + 4) = mem (x + 4) := by
            intro x hx
            refine unlinked_of_ne ?_ ?_ (hapart x (hin x hx) n hn) ?_
            · rw [hprev]
              exact fun heq => (hne x hx).1 (Nat.add_right_cancel heq)
            · rw [hnext]
              exact hapart x (hin x hx) y (hin y List.mem_cons_self)
            · exact fun heq => (hne x hx).2 (Nat.add_right_cancel heq)
          refine ⟨hlink, h.2.2.congr (hstay' y List.mem_cons_self)
            (hstay b (List.mem_append_right _ (List.mem_singleton_self b))) fun x hx => ?_⟩
          have hx' : x ∈ ys ++ [b] := List.mem_append_left _ hx
          exact ⟨hstay x hx', hstay' x (List.mem_cons_of_mem _ hx')⟩
  | cons x xs ih =>
      have hprev := h.2.prev_mem
      have hnext := h.2.next_mem
      obtain ⟨hnodup, hapart⟩ := hspread
      have hrest := ih h.2 ⟨(List.nodup_cons.mp hnodup).2, fun u hu v hv =>
        hapart u (List.mem_cons_of_mem _ hu) v (List.mem_cons_of_mem _ hv)⟩
      obtain ⟨hnew, hnodup⟩ := List.nodup_cons.mp hnodup
      obtain ⟨hnew', -⟩ := List.nodup_cons.mp hnodup
      have ha : a ∈ a :: (x :: xs ++ n :: (ys ++ [b])) := List.mem_cons_self
      have hx : x ∈ a :: (x :: xs ++ n :: (ys ++ [b])) := List.mem_cons_of_mem _ List.mem_cons_self
      have hin : ∀ y ∈ x :: xs ++ n :: (ys ++ [b]), y ∈ a :: (x :: xs ++ n :: (ys ++ [b])) :=
        fun y hy => List.mem_cons_of_mem _ hy
      have hnextin : mem (n + 4) ∈ x :: xs ++ n :: (ys ++ [b]) :=
        List.mem_append_right _ (List.mem_cons_of_mem _ hnext)
      have hprevin : mem n ∈ x :: xs ++ n :: (ys ++ [b]) := List.mem_append_left _ hprev
      have hnin : n ∈ x :: xs ++ n :: (ys ++ [b]) := List.mem_append_right _ List.mem_cons_self
      refine ⟨⟨?_, ?_⟩, hrest⟩
      · rw [unlinked_of_ne ?_ (hapart a ha _ (hin _ hnextin)) (hapart a ha n (hin n hnin)) ?_]
        · exact h.1.1
        · exact fun heq => hnew ((Nat.add_right_cancel heq) ▸ hprevin)
        · exact fun heq => hnew ((Nat.add_right_cancel heq) ▸ hnin)
      · rw [unlinked_of_ne (hapart _ (hin _ hprevin) x hx).symm ?_ ?_
          (hapart n (hin n hnin) x hx).symm]
        · exact h.1.2
        · exact fun heq => hnew' (heq ▸ List.mem_append_right _ (List.mem_cons_of_mem _ hnext))
        · exact fun heq => hnew' (heq ▸ List.mem_append_right _ List.mem_cons_self)

end Chain

end Ylos
