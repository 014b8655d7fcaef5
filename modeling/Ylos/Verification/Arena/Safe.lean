import Ylos.Verification.Arena.Free

/-! # What the callers of the heap may rely on -/

namespace Ylos.Heap

open Exec

namespace State

/-- `arena->large` of the arena that a block lies in. -/
def isLarge (s : State) (p : ℕ) : Prop := s.mem (getBlockArena p + 8) ≠ 0

instance (s : State) (p : ℕ) : Decidable (s.isLarge p) := by
  unfold isLarge
  infer_instance

/-- The number of bytes from `p` on that its arena sets aside for it. -/
def capacity (s : State) (p : ℕ) : ℕ :=
  let arena := getBlockArena p
  if s.isLarge p then s.mem (arena + 4) * PAGE_SIZE - 16 else s.mem (s.mem arena + 4)

/-- The number of pages of the arena. -/
def span (s : State) (p : ℕ) : ℕ := if s.isLarge p then s.mem (getBlockArena p + 4) else 1

/-- `b` is a block of the arena. -/
def IsBlock (s : State) (arena b : ℕ) : Prop :=
  ∃ i < s.mem (s.mem arena), b = arena + 16 + i * s.mem (s.mem arena + 4)

/-- `kernel_map` says that a page is in use. -/
def marked (s : State) (q : ℕ) : Prop := bitAt s.kernelMap.bits (q - s.kernelMap.offset) = true

end State

/-- The heap with the blocks that are handed out, each with the size asked for, and the
pages of the other callers of `alloc_kpage`. -/
structure Sys where
  state : State
  live : List (ℕ × ℕ)
  pages : Set ℕ

variable {img : Image} {s : Sys} {l : Layout} {p q n w : ℕ} {c c' : Class} {x y : ℕ × ℕ}

namespace Sys

/-- The words of a block that is handed out. -/
def Owns (s : Sys) (p w : ℕ) : Prop := p ≤ w ∧ w < p + s.state.capacity p

/-- The pages that the heap has for a block. -/
def Uses (s : Sys) (p q : ℕ) : Prop := p / 4096 ≤ q ∧ q < p / 4096 + s.state.span p

/-- `p` is a small block of class `c`. -/
def Small (img : Image) (s : Sys) (c : Class) (p : ℕ) : Prop :=
  ¬s.state.isLarge p ∧ s.state.mem (getBlockArena p) = img.desc c

/-- The free list of class `c` has exactly the blocks of its pages that are not handed out,
and the pages count them. -/
structure Listed (img : Image) (s : Sys) (c : Class) (nodes : List ℕ) : Prop where
  chain : Chain s.state.mem (img.list c) nodes (img.list c + 8)
  nodup : nodes.Nodup
  mem_iff : ∀ b, b ∈ nodes ↔ b ∉ pointers s.live ∧
    ∃ x ∈ s.live, Small img s c x.1 ∧ s.state.IsBlock (getBlockArena x.1) b
  count : ∀ x ∈ s.live, Small img s c x.1 → s.state.mem (getBlockArena x.1 + 4) =
    nodes.countP (getBlockArena · = getBlockArena x.1)

end Sys

/-- What holds of the heap between any two calls. -/
structure Safe (img : Image) (s : Sys) : Prop where
  disjoint : s.live.Pairwise fun x y => ∀ w, ¬(s.Owns x.1 w ∧ s.Owns y.1 w)
  fits : ∀ x ∈ s.live, x.2 ≤ s.state.capacity x.1
  marked : ∀ x ∈ s.live, ∀ w, s.Owns x.1 w → 256 ≤ w / 4096 ∧ w / 4096 < 4096 ∧
    s.state.marked (w / 4096) ∧ w / 4096 ∉ s.pages
  headers : ∀ x ∈ s.live, ∀ y ∈ s.live, ∀ w, s.Owns x.1 w →
    w < getBlockArena y.1 ∨ getBlockArena y.1 + 16 ≤ w
  classes : ∀ x ∈ s.live, s.state.isLarge x.1 ∨ ∃ c, s.Small img c x.1
  listed : ∀ c, ∃ nodes, s.Listed img c nodes
  /-- A page is in use exactly as long as a block that is handed out needs it. -/
  pages : ∀ q, 256 ≤ q → q < 4096 →
    (s.state.marked q ↔ q ∈ s.pages ∨ ∃ x ∈ s.live, s.Uses x.1 q)
  /-- `kfree` takes every block that is handed out. -/
  frees : ∀ x ∈ s.live, Returns (kfree x.1) (fun _ _ => True) s.state
  /-- `kmalloc` does not fail as long as there are enough pages in a row. -/
  serves : ∀ size, size + 16 + 4095 < 2 ^ 32 →
    (∃ q, 256 ≤ q ∧ q + pagesFor size ≤ 4096 ∧
      ∀ r, q ≤ r → r < q + pagesFor size → ¬s.state.marked r) →
    Returns (kmalloc img size) (fun _ _ => True) s.state

/-! ## Blocks that are handed out -/

namespace Inv

variable (h : Inv img l s.live s.pages s.state)
include h

theorem arena_eq {k : Kind} (hkind : l.kind (p / 4096) = some k) :
    getBlockArena p = p / 4096 * 4096 := by
  have hhigh := h.sound.placed.high _ _ hkind
  exact getBlockArena_eq (by omega)

/-- What the header of a small block says. -/
theorem small (hblock : l.Block c p) :
    s.Small img c p ∧ s.state.capacity p = blockSize c ∧ s.state.span p = 1 := by
  obtain ⟨hdesc, -, hlarge, -⟩ := h.stored.header _ _ hblock.1
  have harena := h.arena_eq hblock.1
  have hnot : ¬s.state.isLarge p := by
    unfold State.isLarge
    rw [harena, hlarge]
    exact not_not.mpr rfl
  refine ⟨⟨hnot, ?_⟩, ?_, if_neg hnot⟩
  · rw [harena, hdesc c rfl]
  · unfold State.capacity
    dsimp only
    rw [if_neg hnot, harena, hdesc c rfl, h.stored.size c]

/-- What the header of a large block says. -/
theorem large (hkind : l.kind (p / 4096) = some (.large n)) :
    s.state.isLarge p ∧ s.state.capacity p = n * 4096 - 16 ∧ s.state.span p = n := by
  obtain ⟨-, hcount, hlarge, -⟩ := h.stored.header _ _ hkind
  have harena := h.arena_eq hkind
  have hyes : s.state.isLarge p := by
    unfold State.isLarge
    rw [harena, hlarge]
    exact Nat.one_ne_zero
  rw [h.sound.large _ _ hkind] at hcount
  refine ⟨hyes, ?_, ?_⟩
  · unfold State.capacity
    dsimp only
    rw [if_pos hyes, harena, hcount]
    rfl
  · unfold State.span
    rw [if_pos hyes, harena, hcount]

/-- A block lies in its arena, after the header. -/
theorem extent (hx : x ∈ s.live) : ∃ k, l.kind (x.1 / 4096) = some k ∧ s.state.span x.1 = k.span ∧
    x.1 / 4096 * 4096 + 16 ≤ x.1 ∧ x.1 + s.state.capacity x.1 ≤ (x.1 / 4096 + k.span) * 4096 := by
  rcases h.sound.held x hx with ⟨c, hblock, -⟩ | ⟨n, hkind, hoff, -⟩
  · obtain ⟨-, hcapacity, hspan⟩ := h.small hblock
    obtain ⟨-, -, hstart, hend⟩ := of_mem_blocks hblock.2
    exact ⟨_, hblock.1, hspan, hstart, by rw [hcapacity]; exact hend⟩
  · obtain ⟨-, hcapacity, hspan⟩ := h.large hkind
    have hpos := (h.sound.high _ _ hkind).1
    change 0 < n at hpos
    refine ⟨_, hkind, hspan, by omega, ?_⟩
    rw [hcapacity]
    change _ ≤ (x.1 / 4096 + n) * 4096
    omega

theorem owns_page {k : Kind} (hx : x ∈ s.live) (hkind : l.kind (x.1 / 4096) = some k)
    (hw : s.Owns x.1 w) :
    x.1 / 4096 * 4096 + 16 ≤ w ∧ w < (x.1 / 4096 + k.span) * 4096 := by
  obtain ⟨k', hkind', -, hstart, hend⟩ := h.extent hx
  rw [hkind] at hkind'
  cases hkind'
  obtain ⟨hw, hw'⟩ := hw
  omega

theorem disjoint (hx : x ∈ s.live) (hy : y ∈ s.live) (hne : x.1 ≠ y.1) (hxw : s.Owns x.1 w) :
    ¬s.Owns y.1 w := by
  intro hyw
  obtain ⟨k, hkind, -⟩ := h.extent hx
  obtain ⟨k', hkind', -⟩ := h.extent hy
  have hxpage := h.owns_page hx hkind hxw
  have hypage := h.owns_page hy hkind' hyw
  by_cases hpage : x.1 / 4096 = y.1 / 4096
  · rcases h.sound.held x hx with ⟨c, hblock, -⟩ | ⟨n, hlarge, hoff, -⟩
    · rcases h.sound.held y hy with ⟨c', hblock', -⟩ | ⟨n, hlarge, hoff, -⟩
      · have hcc := hblock.1.symm.trans (hpage ▸ hblock'.1)
        cases hcc
        obtain ⟨hxw, hxw'⟩ := hxw
        obtain ⟨hyw, hyw'⟩ := hyw
        rw [(h.small hblock).2.1] at hxw'
        rw [(h.small hblock').2.1] at hyw'
        have hmem := hblock.2
        rw [hpage] at hmem
        rcases Nat.lt_or_gt_of_ne hne with hlt | hlt
        · have hapart := blocks_apart hmem hblock'.2 hlt
          omega
        · have hapart := blocks_apart hblock'.2 hmem hlt
          omega
      · have hkinds := hblock.1.symm.trans (hpage ▸ hlarge)
        cases hkinds
    · rcases h.sound.held y hy with ⟨c', hblock', -⟩ | ⟨n', hlarge', hoff', -⟩
      · have hkinds := hlarge.symm.trans (hpage ▸ hblock'.1)
        cases hkinds
      · omega
  · rcases Nat.lt_or_gt_of_ne hpage with hlt | hlt
    · have hapart := h.sound.apart _ _ _ _ hkind hkind' hlt
      omega
    · have hapart := h.sound.apart _ _ _ _ hkind' hkind hlt
      omega

/-- No block overlaps a header. -/
theorem headers (hx : x ∈ s.live) (hy : y ∈ s.live) (hw : s.Owns x.1 w) :
    w < getBlockArena y.1 ∨ getBlockArena y.1 + 16 ≤ w := by
  obtain ⟨k, hkind, -⟩ := h.extent hx
  obtain ⟨k', hkind', -⟩ := h.extent hy
  have hpage := h.owns_page hx hkind hw
  have hpos := (h.sound.high _ _ hkind').1
  rw [h.arena_eq hkind']
  rcases Nat.lt_trichotomy (x.1 / 4096) (y.1 / 4096) with hlt | heq | hlt
  · have hapart := h.sound.apart _ _ _ _ hkind hkind' hlt
    omega
  · omega
  · omega

theorem marked_iff (hq : 256 ≤ q) (hq' : q < 4096) :
    s.state.marked q ↔ q ∈ s.pages ∪ l.covered := by
  unfold State.marked
  rw [h.mapped.offset]
  exact h.mapped.bits q hq hq'

theorem owned (hx : x ∈ s.live) (hw : s.Owns x.1 w) :
    w / 4096 ∈ l.covered ∧ 256 ≤ w / 4096 ∧ w / 4096 < 4096 := by
  obtain ⟨k, hkind, -⟩ := h.extent hx
  have hpage := h.owns_page hx hkind hw
  have hcovered : w / 4096 ∈ l.covered := ⟨_, k, hkind, by omega, by omega⟩
  exact ⟨hcovered, h.mapped.inside _ (.inr hcovered)⟩

theorem small_of (hx : x ∈ s.live) (hsmall : s.Small img c x.1) : l.Block c x.1 := by
  rcases h.sound.held x hx with ⟨c', hblock, -⟩ | ⟨n, hkind, -⟩
  · have hdesc := (h.small hblock).1.2
    rw [hsmall.2] at hdesc
    by_cases hcc : c' = c
    · exact hcc ▸ hblock
    · have hapart := img.desc_apart hcc
      omega
  · exact absurd (h.large hkind).1 hsmall.1

theorem isBlock_iff (hblock : l.Block c x.1) {b : ℕ} :
    s.state.IsBlock (getBlockArena x.1) b ↔ b ∈ blocks c (x.1 / 4096) := by
  unfold State.IsBlock
  rw [(h.small hblock).1.2, h.stored.total c, h.stored.size c, h.arena_eq hblock.1, mem_blocks]

theorem listed (c : Class) : s.Listed img c (l.free c) := by
  refine ⟨h.stored.chain c, h.sound.placed.nodup c, fun b => ?_, fun x hx hsmall => ?_⟩
  · constructor
    · intro hb
      have hblock := h.sound.placed.block c b hb
      refine ⟨(h.sound.free c b hblock).mp hb, ?_⟩
      obtain ⟨x, hx, hpage⟩ := h.fair _ _ hblock.1
      have hkind : l.kind (x.1 / 4096) = some (.small c) := hpage ▸ hblock.1
      have hblock' : l.Block c x.1 := by
        rcases h.sound.held x hx with ⟨c', hblock', -⟩ | ⟨n, hlarge, -⟩
        · have hkinds := hkind.symm.trans hblock'.1
          cases hkinds
          exact hblock'
        · have hkinds := hkind.symm.trans hlarge
          cases hkinds
      refine ⟨x, hx, (h.small hblock').1, (h.isBlock_iff hblock').mpr ?_⟩
      rw [hpage]
      exact hblock.2
    · rintro ⟨hout, x, hx, hsmall, hb⟩
      have hblock := h.small_of hx hsmall
      have hmem := (h.isBlock_iff hblock).mp hb
      have hpage := (of_mem_blocks hmem).1
      exact (h.sound.free c b ⟨hpage ▸ hblock.1, hpage ▸ hmem⟩).mpr hout
  · have hblock := h.small_of hx hsmall
    have harena := h.arena_eq hblock.1
    rw [harena, (h.stored.header _ _ hblock.1).count, h.sound.count _ c hblock.1]
    refine List.countP_congr fun b hb => ?_
    have hkind := (h.sound.placed.block c b hb).1
    have hhigh := h.sound.placed.high _ _ hkind
    rw [decide_eq_true_iff, decide_eq_true_iff, getBlockArena_eq (by omega)]
    omega

theorem uses_iff (q : ℕ) : (∃ x ∈ s.live, s.Uses x.1 q) ↔ q ∈ l.covered := by
  constructor
  · rintro ⟨x, hx, hq, hq'⟩
    obtain ⟨k, hkind, hspan, -⟩ := h.extent hx
    exact ⟨_, k, hkind, hq, hspan ▸ hq'⟩
  · rintro ⟨a, k, hkind, hq, hq'⟩
    obtain ⟨x, hx, rfl⟩ := h.fair a k hkind
    obtain ⟨k', hkind', hspan, -⟩ := h.extent hx
    rw [hkind] at hkind'
    cases hkind'
    exact ⟨x, hx, hq, hspan.symm ▸ hq'⟩

theorem room_of (size : ℕ) (hroom : ∃ q, 256 ≤ q ∧ q + pagesFor size ≤ 4096 ∧
    ∀ r, q ≤ r → r < q + pagesFor size → ¬s.state.marked r) :
    Room (s.pages ∪ l.covered) (pagesFor size) := by
  obtain ⟨q, hq, hend, hclear⟩ := hroom
  refine ⟨?_, q, hq, hend, Set.disjoint_left.mpr fun r hr hused => ?_⟩
  · unfold pagesFor
    split <;> omega
  · exact hclear r hr.1 hr.2 ((h.marked_iff (hq.trans hr.1) (hr.2.trans_le hend)).mpr hused)

theorem safe : Safe img s := by
  have hnodup := h.sound.nodup
  constructor
  · refine (List.pairwise_map.mp hnodup).imp_of_mem fun hx hy hne w hboth => ?_
    exact h.disjoint hx hy hne hboth.1 hboth.2
  · intro x hx
    rcases h.sound.held x hx with ⟨c, hblock, hsize⟩ | ⟨n, hkind, -, hsize⟩
    · rw [(h.small hblock).2.1]
      exact hsize
    · rw [(h.large hkind).2.1]
      omega
  · intro x hx w hw
    obtain ⟨hcovered, hlow, hhigh⟩ := h.owned hx hw
    exact ⟨hlow, hhigh, (h.marked_iff hlow hhigh).mpr (.inr hcovered),
      fun hpage => Set.disjoint_left.mp h.foreign hpage hcovered⟩
  · exact fun x hx y hy w hw => h.headers hx hy hw
  · intro x hx
    rcases h.sound.held x hx with ⟨c, hblock, -⟩ | ⟨n, hkind, -⟩
    · exact .inr ⟨c, (h.small hblock).1⟩
    · exact .inl (h.large hkind).1
  · exact fun c => ⟨_, h.listed c⟩
  · intro q hq hq'
    rw [h.marked_iff hq hq', h.uses_iff q]
    rfl
  · intro x hx
    obtain ⟨s', hrun, -⟩ := run_kfree h hx
    exact ⟨(), s', [], hrun, trivial⟩
  · intro size hsize hroom
    exact returns_mono ((meets_kmalloc h size hsize).returns (h.room_of size hroom))
      fun _ _ _ => trivial

end Inv

end Ylos.Heap
