import Ylos.Verification.Arena.Stored
import Ylos.Verification.Arena.Pages

/-! # Which blocks are handed out -/

namespace Ylos.Heap

open Function

variable {l : Layout} {live : List (ℕ × ℕ)} {a b n p q size : ℕ} {c c' : Class} {k : Kind}
  {xs : List ℕ}

namespace Layout

/-- The pages of arenas. -/
def covered (l : Layout) : Set ℕ := {q | ∃ a k, l.kind a = some k ∧ a ≤ q ∧ q < a + k.span}

@[simp] theorem covered_setFree (l : Layout) (c : Class) (xs : List ℕ) :
    (l.setFree c xs).covered = l.covered := rfl

@[simp] theorem covered_setCount (l : Layout) (a n : ℕ) :
    (l.setCount a n).covered = l.covered := rfl

/-- `p` is memory for `size` bytes. -/
def Held (l : Layout) (p size : ℕ) : Prop :=
  (∃ c, l.Block c p ∧ size ≤ blockSize c) ∨
    ∃ n, l.kind (p / 4096) = some (.large n) ∧ p % 4096 = 16 ∧ size + 16 ≤ n * 4096

end Layout

/-- Pointers of blocks that are handed out. -/
def pointers (live : List (ℕ × ℕ)) : List ℕ := live.map Prod.fst

/-- What is left after `p` is given back. -/
def without (live : List (ℕ × ℕ)) (p : ℕ) : List (ℕ × ℕ) := live.filter fun x => x.1 ≠ p

/-- The blocks of a page are free or handed out, and only one of these. -/
structure Sound (l : Layout) (live : List (ℕ × ℕ)) : Prop where
  placed : l.Placed
  high : ∀ a k, l.kind a = some k → 0 < k.span ∧ a + k.span ≤ 4096
  apart : ∀ a k a' k', l.kind a = some k → l.kind a' = some k' → a < a' → a + k.span ≤ a'
  free : ∀ c b, l.Block c b → (b ∈ l.free c ↔ b ∉ pointers live)
  count : ∀ a c, l.kind a = some (.small c) → l.count a = (l.free c).countP (· / 4096 = a)
  large : ∀ a n, l.kind a = some (.large n) → l.count a = n
  nodup : (pointers live).Nodup
  held : ∀ x ∈ live, l.Held x.1 x.2

theorem mem_without {x : ℕ × ℕ} : x ∈ without live p ↔ x ∈ live ∧ x.1 ≠ p := by
  unfold without
  rw [List.mem_filter, decide_eq_true_iff]

theorem mem_pointers_without : b ∈ pointers (without live p) ↔ b ∈ pointers live ∧ b ≠ p := by
  unfold pointers
  simp only [List.mem_map, mem_without]
  constructor
  · rintro ⟨x, ⟨hx, hne⟩, rfl⟩
    exact ⟨⟨x, hx, rfl⟩, hne⟩
  · rintro ⟨⟨x, hx, rfl⟩, hne⟩
    exact ⟨x, ⟨hx, hne⟩, rfl⟩

theorem nodup_pointers_without (h : (pointers live).Nodup) : (pointers (without live p)).Nodup :=
  h.sublist (List.filter_sublist.map _)

theorem Layout.Held.kind (h : l.Held p size) : ∃ k, l.kind (p / 4096) = some k := by
  rcases h with ⟨c, hblock, -⟩ | ⟨n, hkind, -⟩
  · exact ⟨_, hblock.1⟩
  · exact ⟨_, hkind⟩

/-! ## Arenas come and go -/

theorem covered_setKind_some (hfresh : l.kind a = none) (k : Kind) (n : ℕ) :
    ((l.setKind a (some k)).setCount a n).covered = l.covered ∪ Set.Ico a (a + k.span) := by
  ext q
  constructor
  · rintro ⟨a', k', hk', hq, hq'⟩
    change update l.kind a (some k) a' = some k' at hk'
    by_cases heq : a' = a
    · rw [heq, update_self] at hk'
      cases hk'
      exact .inr ⟨heq ▸ hq, heq ▸ hq'⟩
    · rw [update_of_ne heq] at hk'
      exact .inl ⟨a', k', hk', hq, hq'⟩
  · rintro (⟨a', k', hk', hq, hq'⟩ | ⟨hq, hq'⟩)
    · refine ⟨a', k', ?_, hq, hq'⟩
      have hne : a' ≠ a := by
        rintro rfl
        rw [hfresh] at hk'
        cases hk'
      exact (update_of_ne hne ..).trans hk'
    · exact ⟨a, k, update_self .., hq, hq'⟩

theorem Sound.covered_setKind_none (h : Sound l live) (hkind : l.kind a = some k) :
    (l.setKind a none).covered = l.covered \ Set.Ico a (a + k.span) := by
  ext q
  constructor
  · rintro ⟨a', k', hk', hq, hq'⟩
    change update l.kind a none a' = some k' at hk'
    have hne : a' ≠ a := by
      rintro rfl
      rw [update_self] at hk'
      cases hk'
    rw [update_of_ne hne] at hk'
    refine ⟨⟨a', k', hk', hq, hq'⟩, fun hin => ?_⟩
    obtain ⟨hin, hin'⟩ := hin
    rcases Nat.lt_or_gt_of_ne hne with hlt | hlt
    · have hapart := h.apart _ _ _ _ hk' hkind hlt
      omega
    · have hapart := h.apart _ _ _ _ hkind hk' hlt
      omega
  · rintro ⟨⟨a', k', hk', hq, hq'⟩, hout⟩
    refine ⟨a', k', ?_, hq, hq'⟩
    have hne : a' ≠ a := by
      rintro rfl
      rw [hkind] at hk'
      cases hk'
      exact hout ⟨hq, hq'⟩
    exact (update_of_ne hne ..).trans hk'

/-- New pages are in no arena. -/
theorem Sound.fresh (h : Sound l live) (hdisj : Disjoint (Set.Ico a (a + n)) l.covered)
    (hq : a ≤ q) (hq' : q < a + n) : l.kind q = none := by
  cases hk : l.kind q with
  | none => rfl
  | some k =>
      have hpos := (h.high q k hk).1
      exact absurd ⟨q, k, hk, le_rfl, by omega⟩ (Set.disjoint_left.mp hdisj ⟨hq, hq'⟩)

section Fresh

variable {l' : Layout}

/-- With a new arena, what was a block stays one. -/
theorem Layout.Block.of_fresh (h : l.Block c b) (hfresh : l.kind a = none) :
    (l.setKind a (some k)).Block c b := by
  refine ⟨?_, h.2⟩
  have hne : b / 4096 ≠ a := by
    rintro rfl
    rw [h.1] at hfresh
    cases hfresh
  exact (update_of_ne hne ..).trans h.1

theorem Layout.Held.of_fresh (h : l.Held p size) (hfresh : l.kind a = none) :
    (l.setKind a (some k)).Held p size := by
  rcases h with ⟨c, hblock, hsize⟩ | ⟨n, hkind, hoff, hsize⟩
  · exact .inl ⟨c, hblock.of_fresh hfresh, hsize⟩
  · refine .inr ⟨n, ?_, hoff, hsize⟩
    have hne : p / 4096 ≠ a := by
      rintro rfl
      rw [hkind] at hfresh
      cases hfresh
    exact (update_of_ne hne ..).trans hkind

/-- A block after a new arena is an old one, or lies in the arena. -/
theorem Layout.Block.old_or_new (h : (l.setKind a (some k)).Block c b) :
    l.Block c b ∨ b / 4096 = a ∧ k = .small c ∧ b ∈ blocks c a := by
  obtain ⟨hkind, hmem⟩ := h
  change update l.kind a (some k) (b / 4096) = some (.small c) at hkind
  by_cases heq : b / 4096 = a
  · rw [heq, update_self] at hkind
    cases hkind
    exact .inr ⟨heq, rfl, heq ▸ hmem⟩
  · rw [update_of_ne heq] at hkind
    exact .inl ⟨hkind, hmem⟩

/-- Where a new arena may lie. -/
structure Fits (l : Layout) (a : ℕ) (k : Kind) : Prop where
  low : 256 ≤ a
  high : a + k.span ≤ 4096
  pos : 0 < k.span
  disjoint : Disjoint (Set.Ico a (a + k.span)) l.covered

theorem Fits.fresh (h : Fits l a k) (hsound : Sound l live) : l.kind a = none :=
  hsound.fresh h.disjoint le_rfl (Nat.lt_add_of_pos_right h.pos)

theorem Sound.apart_open (h : Sound l live) (hfits : Fits l a k) {b b' : ℕ} {k₁ k₂ : Kind}
    (hk₁ : update l.kind a (some k) b = some k₁) (hk₂ : update l.kind a (some k) b' = some k₂)
    (hlt : b < b') : b + k₁.span ≤ b' := by
  have hpos := hfits.pos
  have hout := Set.disjoint_left.mp hfits.disjoint
  by_cases hb : b = a
  · have hb' : b' ≠ a := by omega
    rw [hb, update_self] at hk₁
    rw [update_of_ne hb'] at hk₂
    cases hk₁
    by_contra hnot
    have hpos' := (h.high b' k₂ hk₂).1
    exact hout ⟨by omega, by omega⟩ ⟨b', k₂, hk₂, le_rfl, by omega⟩
  · rw [update_of_ne hb] at hk₁
    by_cases hb' : b' = a
    · by_contra hnot
      exact hout ⟨le_rfl, by omega⟩ ⟨b, k₁, hk₁, by omega, by omega⟩
    · rw [update_of_ne hb'] at hk₂
      exact h.apart b k₁ b' k₂ hk₁ hk₂ hlt

theorem Sound.high_open (h : Sound l live) (hfits : Fits l a k) {b : ℕ} {k₁ : Kind}
    (hk₁ : update l.kind a (some k) b = some k₁) : 0 < k₁.span ∧ b + k₁.span ≤ 4096 := by
  by_cases hb : b = a
  · rw [hb, update_self] at hk₁
    cases hk₁
    exact ⟨hfits.pos, hb ▸ hfits.high⟩
  · rw [update_of_ne hb] at hk₁
    exact h.high b k₁ hk₁

theorem Sound.placed_open (h : Sound l live) (hfits : Fits l a k) :
    (l.setKind a (some k)).Placed := by
  refine ⟨fun b k₁ hk₁ => ?_, fun b k₁ hk₁ => ?_, h.placed.nodup,
    fun c b hb => (h.placed.block c b hb).of_fresh (hfits.fresh h)⟩
  · change update l.kind a (some k) b = some k₁ at hk₁
    by_cases hb : b = a
    · exact hb ▸ hfits.low
    · rw [update_of_ne hb] at hk₁
      exact h.placed.low b k₁ hk₁
  · have hhigh := h.high_open hfits hk₁
    omega

/-- Nothing is handed out in a page that is in no arena. -/
theorem Sound.not_live (h : Sound l live) (hfresh : l.kind a = none) (hb : b / 4096 = a) :
    b ∉ pointers live := by
  intro hmem
  obtain ⟨x, hx, rfl⟩ := List.mem_map.mp hmem
  obtain ⟨k, hk⟩ := (h.held x hx).kind
  rw [hb, hfresh] at hk
  cases hk

/-- A new page for a class that has no free block. -/
theorem Sound.openSmall (h : Sound l live) (hfits : Fits l a (.small c)) (hempty : l.free c = []) :
    Sound (((l.setKind a (some (.small c))).setCount a (total c)).setFree c
      (blocks c a).reverse) live := by
  have hfresh := hfits.fresh h
  have hplaced := h.placed_open hfits
  have hpage : ∀ b ∈ blocks c a, b / 4096 = a := fun b hb => (of_mem_blocks hb).1
  refine ⟨⟨hplaced.low, hplaced.high, fun c' => ?_, fun c' b hb => ?_⟩,
    fun b k₁ hk₁ => h.high_open hfits hk₁, fun b k₁ b' k₂ hk₁ hk₂ => h.apart_open hfits hk₁ hk₂,
    fun c' b hb => ?_, fun a' c' hkind => ?_, fun a' n hkind => ?_, h.nodup,
    fun x hx => (h.held x hx).of_fresh hfresh⟩
  · by_cases hcc : c' = c
    · rw [hcc, Layout.setFree_free_self]
      exact List.nodup_reverse.mpr (nodup_blocks c a)
    · rw [Layout.setFree_free_of_ne _ hcc]
      exact h.placed.nodup c'
  · by_cases hcc : c' = c
    · rw [hcc, Layout.setFree_free_self, List.mem_reverse] at hb
      rw [hcc]
      refine ⟨?_, (hpage b hb).symm ▸ hb⟩
      rw [hpage b hb]
      exact update_self ..
    · rw [Layout.setFree_free_of_ne _ hcc] at hb
      exact hplaced.block c' b hb
  · rcases Layout.Block.old_or_new hb with hold | ⟨hpageb, hk, hnew⟩
    · by_cases hcc : c' = c
      · subst hcc
        rw [Layout.setFree_free_self, List.mem_reverse, ← h.free c' b hold, hempty]
        refine ⟨fun hmem => ?_, fun hmem => absurd hmem List.not_mem_nil⟩
        have hkind := hold.1
        rw [hpage b hmem, hfresh] at hkind
        cases hkind
      · rw [Layout.setFree_free_of_ne _ hcc]
        exact h.free c' b hold
    · cases hk
      rw [Layout.setFree_free_self, List.mem_reverse]
      exact ⟨fun _ => h.not_live hfresh hpageb, fun _ => hnew⟩
  · change update l.kind a _ a' = _ at hkind
    change update l.count a _ a' = _
    by_cases ha : a' = a
    · rw [ha, update_self] at hkind
      cases hkind
      rw [ha, update_self, Layout.setFree_free_self, List.countP_reverse,
        List.countP_eq_length.mpr fun b hb => decide_eq_true (hpage b hb), length_blocks]
    · rw [update_of_ne ha] at hkind
      rw [update_of_ne ha, h.count a' c' hkind]
      by_cases hcc : c' = c
      · rw [hcc, hempty, Layout.setFree_free_self, List.countP_reverse, List.countP_nil, eq_comm,
          List.countP_eq_zero]
        intro b hb
        rw [decide_eq_true_iff, hpage b hb]
        exact fun heq => ha heq.symm
      · rw [Layout.setFree_free_of_ne _ hcc]
        rfl
  · change update l.kind a _ a' = _ at hkind
    change update l.count a _ a' = _
    by_cases ha : a' = a
    · rw [ha, update_self] at hkind
      cases hkind
    · rw [update_of_ne ha] at hkind
      rw [update_of_ne ha]
      exact h.large a' n hkind

/-- Pages for one large block, which is handed out. -/
theorem Sound.openLarge (h : Sound l live) (hfits : Fits l a (.large n))
    (hsize : size + 16 ≤ n * 4096) :
    Sound ((l.setKind a (some (.large n))).setCount a n) ((a * 4096 + 16, size) :: live) := by
  have hfresh := hfits.fresh h
  have hpage : (a * 4096 + 16) / 4096 = a := by omega
  have hnew := h.not_live hfresh hpage
  refine ⟨(h.placed_open hfits).setCount a n, fun b k₁ hk₁ => h.high_open hfits hk₁,
    fun b k₁ b' k₂ hk₁ hk₂ => h.apart_open hfits hk₁ hk₂, fun c b hb => ?_, fun a' c hkind => ?_,
    fun a' m hkind => ?_, List.nodup_cons.mpr ⟨hnew, h.nodup⟩, fun x hx => ?_⟩
  · rcases Layout.Block.old_or_new hb with hold | ⟨-, hk, -⟩
    · have hne : b ≠ a * 4096 + 16 := by
        rintro rfl
        have hkind := hold.1
        rw [hpage, hfresh] at hkind
        cases hkind
      refine (h.free c b hold).trans (not_congr ?_)
      exact (List.mem_cons.trans (or_iff_right hne)).symm
    · cases hk
  · change update l.kind a _ a' = _ at hkind
    change update l.count a _ a' = _
    by_cases ha : a' = a
    · rw [ha, update_self] at hkind
      cases hkind
    · rw [update_of_ne ha] at hkind
      rw [update_of_ne ha]
      exact h.count a' c hkind
  · change update l.kind a _ a' = _ at hkind
    change update l.count a _ a' = _
    by_cases ha : a' = a
    · rw [ha, update_self] at hkind
      cases hkind
      rw [ha, update_self]
    · rw [update_of_ne ha] at hkind
      rw [update_of_ne ha]
      exact h.large a' m hkind
  · rcases List.mem_cons.mp hx with rfl | hx
    · exact .inr ⟨n, by rw [hpage]; exact update_self .., by omega, hsize⟩
    · exact (h.held x hx).of_fresh hfresh

end Fresh

/-! ## Blocks change hands -/

/-- The free list of one class changes, and with it the count of one page. -/
theorem Sound.relist {live' : List (ℕ × ℕ)} (h : Sound l live)
    (hkind : l.kind a = some (.small c)) (hnodup : xs.Nodup) (hblocks : ∀ x ∈ xs, l.Block c x)
    (hfree : ∀ x, l.Block c x → (x ∈ xs ↔ x ∉ pointers live'))
    (hother : ∀ c' x, c' ≠ c → l.Block c' x → (x ∉ pointers live ↔ x ∉ pointers live'))
    (hcount : n = xs.countP (· / 4096 = a))
    (hsame : ∀ a', a' ≠ a → xs.countP (· / 4096 = a') = (l.free c).countP (· / 4096 = a'))
    (hlive : (pointers live').Nodup) (hheld : ∀ x ∈ live', l.Held x.1 x.2) :
    Sound ((l.setFree c xs).setCount a n) live' := by
  refine ⟨(h.placed.setFree hnodup hblocks).setCount a n, h.high, h.apart, fun c' x hx => ?_,
    fun a' c' hkind' => ?_, fun a' m hkind' => ?_, hlive, hheld⟩
  · change x ∈ (l.setFree c xs).free c' ↔ _
    by_cases hcc : c' = c
    · rw [hcc, Layout.setFree_free_self]
      exact hfree x (hcc ▸ hx)
    · rw [Layout.setFree_free_of_ne _ hcc]
      exact (h.free c' x hx).trans (hother c' x hcc hx)
  · change update l.count a n a' = ((l.setFree c xs).free c').countP _
    by_cases ha : a' = a
    · have hcc : c' = c := by
        rw [ha] at hkind'
        have hkinds := hkind'.symm.trans hkind
        cases hkinds
        rfl
      rw [hcc, ha, Layout.setFree_free_self, update_self, hcount]
    · rw [update_of_ne ha, h.count a' c' hkind']
      by_cases hcc : c' = c
      · rw [hcc, Layout.setFree_free_self, hsame a' ha]
      · rw [Layout.setFree_free_of_ne _ hcc]
  · change update l.count a n a' = m
    have hne : a' ≠ a := by
      rintro rfl
      have hkinds := hkind.symm.trans hkind'
      cases hkinds
    rw [update_of_ne hne]
    exact h.large a' m hkind'

theorem countP_page_cons (b : ℕ) (xs : List ℕ) (a : ℕ) :
    (b :: xs).countP (· / 4096 = a) =
      xs.countP (· / 4096 = a) + if b / 4096 = a then 1 else 0 := by
  rw [List.countP_cons]
  simp only [decide_eq_true_iff]

/-- The first free block of a class is handed out. -/
theorem Sound.take (h : Sound l live) (hfree : l.free c = b :: xs) (hsize : size ≤ blockSize c) :
    Sound ((l.setFree c xs).setCount (b / 4096) (l.count (b / 4096) - 1)) ((b, size) :: live) := by
  have hmem : b ∈ l.free c := hfree ▸ List.mem_cons_self
  have hblock := h.placed.block c b hmem
  have hnodup := h.placed.nodup c
  rw [hfree] at hnodup
  obtain ⟨hnew, hxs⟩ := List.nodup_cons.mp hnodup
  refine h.relist hblock.1 hxs (fun x hx => ?_) (fun x hx => ?_) (fun c' x hcc hx => ?_) ?_
    (fun a' ha => ?_) (List.nodup_cons.mpr ⟨(h.free c b hblock).mp hmem, h.nodup⟩) fun x hx => ?_
  · exact h.placed.block c x (hfree ▸ List.mem_cons_of_mem _ hx)
  · change _ ↔ x ∉ b :: pointers live
    rw [List.mem_cons, not_or, ← h.free c x hx, hfree, List.mem_cons]
    constructor
    · exact fun hin => ⟨fun heq => hnew (heq ▸ hin), .inr hin⟩
    · exact fun hin => hin.2.resolve_left hin.1
  · change _ ↔ x ∉ b :: pointers live
    have hne : x ≠ b := by
      rintro rfl
      exact hcc (hblock.class_eq hx)
    rw [List.mem_cons, or_iff_right hne]
  · rw [h.count _ c hblock.1, hfree, countP_page_cons, if_pos rfl, Nat.add_sub_cancel]
  · rw [hfree, countP_page_cons, if_neg ha.symm, Nat.add_zero]
  · rcases List.mem_cons.mp hx with rfl | hx
    · exact .inl ⟨c, hblock, hsize⟩
    · exact h.held x hx

/-- A block is given back to its class. -/
theorem Sound.give (h : Sound l live) (hmem : p ∈ pointers live) (hblock : l.Block c p) :
    Sound ((l.setFree c (p :: l.free c)).setCount (p / 4096) (l.count (p / 4096) + 1))
      (without live p) := by
  have hnew : p ∉ l.free c := fun hin => (h.free c p hblock).mp hin hmem
  refine h.relist hblock.1 (List.nodup_cons.mpr ⟨hnew, h.placed.nodup c⟩) (fun x hx => ?_)
    (fun x hx => ?_) (fun c' x hcc hx => ?_) ?_ (fun a' ha => ?_) (nodup_pointers_without h.nodup)
    fun x hx => h.held x (mem_without.mp hx).1
  · rcases List.mem_cons.mp hx with rfl | hx
    · exact hblock
    · exact h.placed.block c x hx
  · rw [mem_pointers_without, not_and_or, not_not, ← h.free c x hx, List.mem_cons, or_comm]
  · have hne : x ≠ p := by
      rintro rfl
      exact hcc (hblock.class_eq hx)
    rw [mem_pointers_without, and_iff_left hne]
  · rw [h.count _ c hblock.1, countP_page_cons, if_pos rfl]
  · rw [countP_page_cons, if_neg ha.symm, Nat.add_zero]

/-- A page whose count is that of all its blocks is one whose blocks are all free. -/
theorem Sound.full_iff (h : Sound l live) (hkind : l.kind a = some (.small c)) :
    l.count a = total c ↔ ∀ b ∈ blocks c a, b ∈ l.free c := by
  have hsub : (l.free c).filter (· / 4096 = a) ⊆ blocks c a := by
    intro b hb
    obtain ⟨hb, hpage⟩ := List.mem_filter.mp hb
    rw [decide_eq_true_iff] at hpage
    exact hpage ▸ (h.placed.block c b hb).2
  have hperm := List.subperm_of_subset ((h.placed.nodup c).filter (· / 4096 = a)) hsub
  rw [h.count a c hkind, List.countP_eq_length_filter, ← length_blocks c a]
  constructor
  · intro hlength b hb
    have hmem := (hperm.perm_of_length_le hlength.ge).mem_iff.mpr hb
    exact List.mem_of_mem_filter hmem
  · intro hall
    refine le_antisymm hperm.length_le (List.subperm_of_subset (nodup_blocks c a) ?_).length_le
    exact fun b hb => List.mem_filter.mpr ⟨hall b hb, decide_eq_true (of_mem_blocks hb).1⟩

/-- An arena with nothing handed out in it goes away, and its blocks out of their list. -/
theorem Sound.drop {live' : List (ℕ × ℕ)} (h : Sound l live) (c : Class)
    (hother : ∀ c', c' ≠ c → ∀ b ∈ l.free c', b / 4096 ≠ a)
    (hlive : ∀ x ∈ live', x ∈ live ∧ x.1 / 4096 ≠ a)
    (hkept : ∀ b, b / 4096 ≠ a → (b ∈ pointers live' ↔ b ∈ pointers live))
    (hnodup : (pointers live').Nodup) :
    Sound ((l.setFree c ((l.free c).filter (· / 4096 ≠ a))).setKind a none) live' := by
  have hkind : ∀ {b k}, update l.kind a none b = some k → b ≠ a ∧ l.kind b = some k := by
    intro b k hk
    by_cases hb : b = a
    · rw [hb, update_self] at hk
      cases hk
    · exact ⟨hb, by rwa [update_of_ne hb] at hk⟩
  have hfree : ∀ {c' b}, b ∈ (l.setFree c ((l.free c).filter (· / 4096 ≠ a))).free c' ↔
      b ∈ l.free c' ∧ b / 4096 ≠ a := by
    intro c' b
    by_cases hcc : c' = c
    · rw [hcc, Layout.setFree_free_self, List.mem_filter, decide_eq_true_iff]
    · rw [Layout.setFree_free_of_ne _ hcc]
      exact ⟨fun hb => ⟨hb, hother c' hcc b hb⟩, And.left⟩
  refine ⟨⟨fun b k hk => h.placed.low b k (hkind hk).2,
      fun b k hk => h.placed.high b k (hkind hk).2, fun c' => ?_, fun c' b hb => ?_⟩,
    fun b k hk => h.high b k (hkind hk).2,
    fun b k b' k' hk hk' => h.apart b k b' k' (hkind hk).2 (hkind hk').2, fun c' b hb => ?_,
    fun a' c' hk => ?_, fun a' n hk => h.large a' n (hkind hk).2, hnodup, fun x hx => ?_⟩
  · change ((l.setFree c _).free c').Nodup
    by_cases hcc : c' = c
    · rw [hcc, Layout.setFree_free_self]
      exact (h.placed.nodup c).filter _
    · rw [Layout.setFree_free_of_ne _ hcc]
      exact h.placed.nodup c'
  · obtain ⟨hb, hpage⟩ := hfree.mp hb
    have hblock := h.placed.block c' b hb
    exact ⟨(update_of_ne hpage ..).trans hblock.1, hblock.2⟩
  · obtain ⟨hpage, hkind'⟩ := hkind hb.1
    rw [hkept b hpage, ← h.free c' b ⟨hkind', hb.2⟩]
    exact hfree.trans (and_iff_left hpage)
  · obtain ⟨hne, hkind'⟩ := hkind hk
    refine (h.count a' c' hkind').trans ?_
    change _ = ((l.setFree c _).free c').countP _
    by_cases hcc : c' = c
    · rw [hcc, Layout.setFree_free_self, List.countP_filter]
      refine List.countP_congr fun b _ => ?_
      rw [decide_eq_true_iff, Bool.and_eq_true, decide_eq_true_iff, decide_eq_true_iff]
      exact ⟨fun heq => ⟨heq, fun heq' => hne (heq.symm.trans heq')⟩, And.left⟩
    · rw [Layout.setFree_free_of_ne _ hcc]
  · obtain ⟨hx, hpage⟩ := hlive x hx
    rcases h.held x hx with ⟨c', hblock, hsize⟩ | ⟨n, hkind', hoff, hsize⟩
    · exact .inl ⟨c', ⟨(update_of_ne hpage ..).trans hblock.1, hblock.2⟩, hsize⟩
    · exact .inr ⟨n, (update_of_ne hpage ..).trans hkind', hoff, hsize⟩

/-- A page of free blocks is given back. -/
theorem Sound.dropSmall (h : Sound l live) (hkind : l.kind a = some (.small c))
    (hfull : l.count a = total c) :
    Sound ((l.setFree c ((l.free c).filter (· / 4096 ≠ a))).setKind a none) live := by
  refine h.drop c (fun c' hcc b hb hpage => ?_) (fun x hx => ⟨hx, fun hpage => ?_⟩)
    (fun _ _ => Iff.rfl) h.nodup
  · have hkinds := (h.placed.block c' b hb).1
    rw [hpage, hkind] at hkinds
    cases hkinds
    exact hcc rfl
  · rcases h.held x hx with ⟨c', hblock, -⟩ | ⟨n, hkind', -⟩
    · have hkinds := hblock.1
      rw [hpage, hkind] at hkinds
      cases hkinds
      have hin := (h.full_iff hkind).mp hfull x.1 (hpage ▸ hblock.2)
      exact (h.free c x.1 hblock).mp hin (List.mem_map_of_mem hx)
    · rw [hpage, hkind] at hkind'
      cases hkind'

/-- The pages of a large block are given back. -/
theorem Sound.dropLarge (h : Sound l live) (hkind : l.kind a = some (.large n)) :
    Sound (l.setKind a none) (without live (a * 4096 + 16)) := by
  have hnone : ∀ c, ∀ b ∈ l.free c, b / 4096 ≠ a := by
    rintro c b hb rfl
    have hkinds := hkind.symm.trans (h.placed.block c b hb).1
    cases hkinds
  obtain ⟨c₀⟩ : Nonempty Class := ⟨⟨0, by decide⟩⟩
  have hdrop := h.drop (a := a) c₀
    (fun c _ => hnone c) (fun x hx => ?_) (fun b hpage => ?_)
    (nodup_pointers_without (p := a * 4096 + 16) h.nodup)
  · have hsame : l.setFree c₀ ((l.free c₀).filter (· / 4096 ≠ a)) = l := by
      unfold Layout.setFree
      rw [List.filter_eq_self.mpr fun b hb => decide_eq_true (hnone c₀ b hb), update_eq_self]
    rwa [hsame] at hdrop
  · obtain ⟨hx, hne⟩ := mem_without.mp hx
    refine ⟨hx, fun hpage => ?_⟩
    rcases h.held x hx with ⟨c, hblock, -⟩ | ⟨n, -, hoff, -⟩
    · have hkinds := hblock.1
      rw [hpage, hkind] at hkinds
      cases hkinds
    · omega
  · rw [mem_pointers_without, and_iff_left]
    omega

end Ylos.Heap
