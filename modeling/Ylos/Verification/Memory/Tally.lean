import Ylos.Lib.Runs
import Ylos.Verification.Memory.Booting
import Mathlib.Data.Finset.Card
import Mathlib.Order.Interval.Finset.Nat

/-! # The counter of free frames

`mapping_init` counts the frames of the kernel without a word to `free_pages`, and all that
comes after keeps the difference. -/

namespace Ylos.Memory

open Exec

variable {α β : Type} {s s' s₀ s₁ : State} {i n idx : ℕ}

/-- The frames that `get_page` may return. -/
def State.spare (s : State) : Finset ℕ :=
  (Finset.Ico s.startPage s.totalPages).filter fun i => s.memoryMap i = 0

theorem mem_spare :
    i ∈ s.spare ↔ (s.startPage ≤ i ∧ i < s.totalPages) ∧ s.memoryMap i = 0 := by
  rw [State.spare, Finset.mem_filter, Finset.mem_Ico]

/-- The counter is ahead of the frames that are free by those of the kernel that
`memory_map_init` did not give away. -/
structure Ahead (s : State) : Prop where
  free : s.freePages + s.startPage = s.spare.card + KERNEL_PAGES
  start : 0 < s.startPage ∧ s.startPage < KERNEL_PAGES
  total : s.totalPages < 2 ^ 31
  small : ∀ f < s.totalPages, s.memoryMap f < 255

namespace Ahead

theorem card_le (h : Ahead s) : s.spare.card < 2 ^ 31 := by
  have hle := Finset.card_filter_le (Finset.Ico s.startPage s.totalPages)
    fun i => s.memoryMap i = 0
  have htotal := h.total
  rw [Nat.card_Ico] at hle
  change s.spare.card ≤ _ at hle
  omega

theorem bound (h : Ahead s) : s.freePages < 2 ^ 32 - 1 := by
  have hcard := h.card_le
  have hfree := h.free
  unfold KERNEL_PAGES at hfree
  omega

theorem congr (h : Ahead s) (hmap : s'.memoryMap = s.memoryMap) (hfree : s'.freePages = s.freePages)
    (hstart : s'.startPage = s.startPage) (htotal : s'.totalPages = s.totalPages) : Ahead s' := by
  have hspare : s'.spare = s.spare := by
    unfold State.spare
    rw [hmap, hstart, htotal]
  obtain ⟨hf, hs, ht, hsmall⟩ := h
  constructor <;> simpa only [hspare, hmap, hfree, hstart, htotal]

/-- A frame that is in use stays in use. -/
theorem setCount (h : Ahead s) (hused : s.memoryMap i ≠ 0) (hn : n ≠ 0)
    (hsmall : i < s.totalPages → n < 255) :
    Ahead (s.setCount i n) := by
  have hspare : (s.setCount i n).spare = s.spare := by
    ext f
    rw [mem_spare, mem_spare]
    refine and_congr_right fun _ => ?_
    change (if f = i then n else s.memoryMap f) = 0 ↔ _
    split
    · rename_i hf
      rw [hf]
      exact ⟨fun hzero => absurd hzero hn, fun hzero => absurd hzero hused⟩
    · rfl
  refine ⟨?_, h.start, h.total, fun f hf => ?_⟩
  · rw [hspare]
    exact h.free
  · change (if f = i then n else s.memoryMap f) < 255
    split
    · rename_i hfi
      exact hsmall (hfi ▸ hf)
    · exact h.small f hf

/-- What lies behind `memory_map` is not about frames. -/
theorem setOther (h : Ahead s) (hi : ¬i < s.totalPages) : Ahead (s.setCount i n) := by
  have hsame : ∀ f < s.totalPages, (s.setCount i n).memoryMap f = s.memoryMap f :=
    fun f hf => if_neg (by omega)
  have hspare : (s.setCount i n).spare = s.spare := by
    ext f
    rw [mem_spare, mem_spare]
    refine and_congr_right fun hf => ?_
    rw [hsame f hf.2]
  refine ⟨?_, h.start, h.total, fun f hf => ?_⟩
  · rw [hspare]
    exact h.free
  · rw [hsame f hf]
    exact h.small f hf

/-- `get_page` takes the frame `i`. -/
theorem take (h : Ahead s) (hi : i ∈ s.spare) :
    Ahead { s.setCount i 1 with freePages := u32 (s.freePages + 2 ^ 32 - 1) } := by
  have hspare : State.spare
      { s.setCount i 1 with freePages := u32 (s.freePages + 2 ^ 32 - 1) } = s.spare.erase i := by
    ext f
    rw [Finset.mem_erase, mem_spare, mem_spare]
    change _ ∧ (if f = i then 1 else s.memoryMap f) = 0 ↔ _
    split
    · rename_i hf
      exact ⟨fun hf' => absurd hf'.2 Nat.one_ne_zero, fun hf' => absurd hf hf'.1⟩
    · rename_i hf
      exact ⟨fun hf' => ⟨hf, hf'⟩, fun hf' => hf'.2⟩
  have hfree := h.free
  have hbound := h.bound
  have hstart := h.start
  have hpos := Finset.card_pos.mpr ⟨i, hi⟩
  refine ⟨?_, h.start, h.total, fun f hf => ?_⟩
  · rw [hspare, Finset.card_erase_of_mem hi]
    change u32 (s.freePages + 2 ^ 32 - 1) + s.startPage = _
    unfold u32
    omega
  · change (if f = i then 1 else s.memoryMap f) < 255
    split
    · norm_num
    · exact h.small f hf

/-- `put_page` gives up the last reference to `i`. -/
theorem giveBack (h : Ahead s) (hin : s.startPage ≤ i ∧ i < s.totalPages)
    (hused : s.memoryMap i ≠ 0) :
    Ahead { s.setCount i 0 with freePages := u32 (s.freePages + 1) } := by
  have hspare : State.spare
      { s.setCount i 0 with freePages := u32 (s.freePages + 1) } = insert i s.spare := by
    ext f
    rw [Finset.mem_insert, mem_spare, mem_spare]
    change _ ∧ (if f = i then 0 else s.memoryMap f) = 0 ↔ _
    split
    · rename_i hf
      exact ⟨fun _ => .inl hf, fun _ => ⟨hf ▸ hin, rfl⟩⟩
    · rename_i hf
      exact ⟨fun hf' => .inr hf', fun hf' => hf'.resolve_left hf⟩
  have hnot : i ∉ s.spare := fun hi => hused (mem_spare.mp hi).2
  have hfree := h.free
  have hbound := h.bound
  refine ⟨?_, h.start, h.total, fun f hf => ?_⟩
  · rw [hspare, Finset.card_insert_of_notMem hnot]
    change u32 (s.freePages + 1) + s.startPage = _
    unfold u32
    omega
  · change (if f = i then 0 else s.memoryMap f) < 255
    split
    · norm_num
    · exact h.small f hf

/-- After the start of the memory. -/
theorem of_started {size : ℕ} (h : Started size s) : Ahead s := by
  have hpages := mapPages_eq h.small
  have hlarge := h.large
  have hsmall := h.small
  have htotal := h.total
  have hstart := h.start
  have hkernel : KERNEL_PAGES = 4096 := rfl
  unfold KERNEL_MEMORY_SIZE at hlarge
  have hspare : s.spare = Finset.Ico KERNEL_PAGES s.totalPages := by
    ext f
    rw [mem_spare, Finset.mem_Ico]
    constructor
    · rintro ⟨⟨_, hf⟩, hzero⟩
      rw [h.counts f hf] at hzero
      split at hzero
      · exact absurd hzero Nat.one_ne_zero
      · omega
    · rintro ⟨hf, hf'⟩
      exact ⟨by omega, by rw [h.counts f hf', if_neg (by omega)]⟩
  refine ⟨?_, by omega, by omega, fun f hf => ?_⟩
  · rw [hspare, Nat.card_Ico, h.free]
    omega
  · rw [h.counts f hf]
    split <;> norm_num

end Ahead

/-! ## Code that keeps the difference -/

def Tallies (x : M α) : Prop := ∀ s, Ahead s → wp (fun _ => True) x (fun _ => Ahead) s

section Rules

variable {x y : M α} {f : α → M β}

theorem Tallies.bind (hx : Tallies x) (hf : ∀ a, Tallies (f a)) : Tallies (x >>= f) := by
  intro s h
  rw [wp_bind]
  exact wp_mono (hx s h) fun a s' h' => hf a s' h'

theorem tallies_pure (a : α) : Tallies (pure a : M α) := fun _ h => (wp_pure a).mpr h

theorem tallies_get : Tallies (get : M State) := fun _ h => wp_get.mpr h

theorem tallies_gets (g : State → α) : Tallies (gets g) := fun _ h => (wp_gets g).mpr h

theorem tallies_fault (e : Fault) : Tallies (fault e : M α) := fun _ _ => wp_fault e

theorem tallies_check (p : Prop) [Decidable p] : Tallies (check p) :=
  fun _ h => (wp_check p).mpr fun _ => h

theorem tallies_lift (r : Except Fault α) : Tallies (lift r : M α) :=
  fun _ h => (wp_lift r).mpr fun _ _ => h

theorem Tallies.ite {p : Prop} [Decidable p] (hx : Tallies x) (hy : Tallies y) :
    Tallies (if p then x else y) := by
  split
  · exact hx
  · exact hy

/-- Changes that are not about frames. -/
theorem tallies_modify {g : State → State} (hmap : ∀ s, (g s).memoryMap = s.memoryMap)
    (hfree : ∀ s, (g s).freePages = s.freePages) (hstart : ∀ s, (g s).startPage = s.startPage)
    (htotal : ∀ s, (g s).totalPages = s.totalPages) : Tallies (modify g) :=
  fun s h => (wp_modify g).mpr (h.congr (hmap s) (hfree s) (hstart s) (htotal s))

theorem tallies_setWord (frame i : ℕ) (w : Word) : Tallies (setWord frame i w) :=
  tallies_modify (fun _ => rfl) (fun _ => rfl) (fun _ => rfl) fun _ => rfl

end Rules

/-- `get_page` counts a frame that was not counted, and no other. -/
theorem wp_getPage_ahead (h : Ahead s) :
    wp (fun _ => True) getPage
      (fun _ s' => Ahead s' ∧ ∀ f, s.memoryMap f ≠ 0 → s'.memoryMap f = s.memoryMap f) s := by
  unfold getPage
  rw [wp_bind, wp_get]
  cases hfind : (List.range' s.startPage (s.totalPages - s.startPage)).find? fun i =>
      decide (s.memoryMap i = 0) with
  | none => exact wp_fault _
  | some i =>
      have hmem := List.mem_of_find?_eq_some hfind
      have hzero : s.memoryMap i = 0 := by simpa using List.find?_some hfind
      rw [List.mem_range'_1] at hmem
      have hi : i ∈ s.spare := mem_spare.mpr ⟨by omega, hzero⟩
      rw [wp_bind, wp_modify]
      refine (wp_pure i).mpr ⟨h.take hi, fun f hf => if_neg fun hfi => ?_⟩
      exact hf (hfi ▸ hzero)

theorem tallies_getPage : Tallies getPage :=
  fun _ h => wp_mono (wp_getPage_ahead h) fun _ _ h' => h'.1

theorem tallies_putPage (idx : ℕ) : Tallies (putPage idx) := by
  intro s h
  unfold putPage
  simp only [wp_bind, wp_get, wp_check, wp_modify, wp_gets, wp_ite]
  intro hin hused
  have hzero : (s.setCount idx (s.memoryMap idx - 1)).memoryMap idx = s.memoryMap idx - 1 :=
    if_pos rfl
  have hsmall := h.small idx hin.2
  rw [hzero]
  refine ⟨fun hlast _ => ?_, fun hmore _ => h.setCount (by omega) hmore fun _ => by omega⟩
  rw [hlast]
  exact h.giveBack hin (by omega)

/-! ## Page tables -/

theorem tallies_allocKpage : Tallies allocKpage := by
  refine tallies_get.bind fun _ => (tallies_lift _).bind fun r => ?_
  refine (tallies_check _).bind fun _ => Tallies.bind ?_ fun _ => tallies_pure _
  exact tallies_modify (fun _ => rfl) (fun _ => rfl) (fun _ => rfl) fun _ => rfl

theorem tallies_freeKpage (page : ℕ) : Tallies (freeKpage page) := by
  refine (tallies_gets _).bind fun _ => (tallies_lift _).bind fun _ => ?_
  refine (tallies_check _).bind fun _ => (tallies_lift _).bind fun _ => ?_
  exact tallies_modify (fun _ => rfl) (fun _ => rfl) (fun _ => rfl) fun _ => rfl

theorem tallies_getPde : Tallies getPde := tallies_gets _

theorem tallies_getWord (frame i : ℕ) : Tallies (getWord frame i) := tallies_gets _

theorem tallies_getPte (vaddr : ℕ) (create : Bool) : Tallies (getPte vaddr create) := by
  refine tallies_getPde.bind fun pde => (tallies_getWord _ _).bind fun entry => ?_
  refine (tallies_check _).bind fun _ => Tallies.ite ?_ (tallies_gets _)
  refine tallies_getPage.bind fun page => (tallies_setWord _ _ _).bind fun _ => ?_
  refine Tallies.bind ?_ fun _ => tallies_gets _
  exact tallies_modify (fun _ => rfl) (fun _ => rfl) (fun _ => rfl) fun _ => rfl

theorem tallies_linkPage (vaddr : ℕ) : Tallies (linkPage vaddr) := by
  refine (tallies_check _).bind fun _ => (tallies_getPte _ _).bind fun table => ?_
  refine (tallies_getWord _ _).bind fun entry => Tallies.ite ?_ (tallies_pure _)
  exact tallies_getPage.bind fun page => tallies_setWord _ _ _

theorem tallies_unlinkPage (vaddr : ℕ) : Tallies (unlinkPage vaddr) := by
  refine (tallies_check _).bind fun _ => tallies_getPde.bind fun pde => ?_
  refine (tallies_getWord _ _).bind fun dentry => Tallies.ite ?_ (tallies_pure _)
  refine (tallies_getPte _ _).bind fun table => (tallies_getWord _ _).bind fun entry => ?_
  refine Tallies.ite ?_ (tallies_pure _)
  exact (tallies_setWord _ _ _).bind fun _ => tallies_putPage _

/-- The copy of a page leaves the counts of the frames in use alone. -/
theorem wp_copyPage_ahead {page : ℕ} (h : Ahead s) :
    wp (fun _ => True) (copyPage page)
      (fun _ s' => Ahead s' ∧ ∀ f, s.memoryMap f ≠ 0 → s'.memoryMap f = s.memoryMap f) s := by
  unfold copyPage getPte getPde getWord setWord
  rw [wp_bind]
  refine wp_mono (wp_getPage_ahead h) fun paddr s₁ h₁ => ?_
  simp only [wp_bind, wp_gets, wp_check, wp_ite, wp_modify, wp_pure]
  intro hpresent
  refine ⟨fun habsent => ?_, fun _ => ?_⟩
  · rw [hpresent.resolve_left Bool.false_ne_true] at habsent
    cases habsent
  · exact ⟨h₁.1.congr rfl rfl rfl rfl, h₁.2⟩

theorem tallies_copyPage (page : ℕ) : Tallies (copyPage page) :=
  fun _ h => wp_mono (wp_copyPage_ahead h) fun _ _ h' => h'.1

/-- A frame in use gets one more reference. -/
theorem wp_share {Q : Unit → State → Prop} {rest : M Unit} (h : Ahead s) (hused : s.memoryMap i ≠ 0)
    (hrest : ∀ s', Ahead s' → wp (fun _ => True) rest Q s') :
    wp (fun _ => True) (do
      modify fun s => s.setCount i ((s.memoryMap i + 1) % 256)
      check ((← gets (·.memoryMap i)) < 255)
      rest) Q s := by
  simp only [wp_bind, wp_modify, wp_gets, wp_check]
  have hcount : (s.setCount i ((s.memoryMap i + 1) % 256)).memoryMap i =
      (s.memoryMap i + 1) % 256 := if_pos rfl
  rw [hcount]
  intro hlt
  by_cases hi : i < s.totalPages
  · have hsmall := h.small i hi
    exact hrest _ (h.setCount hused (by omega) fun _ => hlt)
  · exact hrest _ (h.setOther hi)

/-- The assertion of `copy_pde` keeps the 8-bit counts from wrapping. -/
theorem tallies_shareTable (table : ℕ) (tidxs : List ℕ) : Tallies (shareTable table tidxs) := by
  induction tidxs with
  | nil => exact tallies_pure ()
  | cons tidx rest ih =>
      unfold shareTable
      refine (tallies_getWord _ _).bind fun entry => Tallies.ite ?_ ih
      intro s h
      rw [wp_bind, wp_gets, wp_bind, wp_check]
      intro hpos
      rw [wp_ite]
      refine ⟨fun _ => ?_, fun _ => wp_share h (by omega) ih⟩
      rw [wp_bind]
      refine (wp_modify _).mpr (wp_share (h.congr rfl rfl rfl rfl) ?_ ih)
      exact Nat.pos_iff_ne_zero.mp hpos

theorem tallies_copyTables (pde : ℕ) (didxs : List ℕ) : Tallies (copyTables pde didxs) := by
  induction didxs with
  | nil => exact tallies_pure ()
  | cons didx rest ih =>
      refine (tallies_getWord _ _).bind fun dentry => Tallies.ite ?_ ih
      refine (tallies_gets _).bind fun pte => (tallies_shareTable _ _).bind fun _ => ?_
      exact (tallies_copyPage _).bind fun paddr => (tallies_setWord _ _ _).bind fun _ => ih

theorem tallies_copyPde : Tallies copyPde := by
  refine tallies_allocKpage.bind fun pde => Tallies.bind ?_ fun _ => ?_
  · exact tallies_modify (fun _ => rfl) (fun _ => rfl) (fun _ => rfl) fun _ => rfl
  · refine (tallies_setWord _ _ _).bind fun _ => ?_
    exact (tallies_copyTables _ _).bind fun _ => tallies_pure _

theorem tallies_putTable (table : ℕ) (tidxs : List ℕ) : Tallies (putTable table tidxs) := by
  induction tidxs with
  | nil => exact tallies_pure ()
  | cons tidx rest ih =>
      refine (tallies_getWord _ _).bind fun entry => Tallies.ite ?_ ih
      refine (tallies_gets _).bind fun _ => (tallies_check _).bind fun _ => ?_
      exact (tallies_putPage _).bind fun _ => ih

theorem tallies_putTables (pde : ℕ) (didxs : List ℕ) : Tallies (putTables pde didxs) := by
  induction didxs with
  | nil => exact tallies_pure ()
  | cons didx rest ih =>
      refine (tallies_getWord _ _).bind fun dentry => Tallies.ite ?_ ih
      refine (tallies_gets _).bind fun _ => (tallies_putTable _ _).bind fun _ => ?_
      exact (tallies_putPage _).bind fun _ => ih

theorem tallies_freePde : Tallies freePde := by
  refine (tallies_gets _).bind fun task => (tallies_check _).bind fun _ => ?_
  refine tallies_getPde.bind fun pde => (tallies_putTables _ _).bind fun _ => ?_
  exact tallies_freeKpage _

/-! ## Calls -/

theorem tallies_unlinkLoop (page n : ℕ) : Tallies (unlinkLoop page n) := by
  induction n generalizing page with
  | zero => exact tallies_pure ()
  | succ n ih => exact (tallies_unlinkPage _).bind fun _ => ih _

theorem tallies_sysBrk (addr : ℕ) : Tallies (sysBrk addr) := by
  refine (tallies_check _).bind fun _ => (tallies_gets _).bind fun p => ?_
  refine (tallies_gets _).bind fun task => (tallies_check _).bind fun _ => ?_
  refine (tallies_check _).bind fun _ => Tallies.ite ?_ ?_
  · refine (tallies_unlinkLoop _ _).bind fun _ => ?_
    exact tallies_modify (fun _ => rfl) (fun _ => rfl) (fun _ => rfl) fun _ => rfl
  · refine (tallies_gets _).bind fun free => Tallies.ite ?_ (tallies_pure ())
    exact tallies_modify (fun _ => rfl) (fun _ => rfl) (fun _ => rfl) fun _ => rfl

theorem tallies_taskFork (child : ℕ) : Tallies (taskFork child) := by
  refine (tallies_gets _).bind fun task => tallies_allocKpage.bind fun vmapPage => ?_
  refine tallies_copyPde.bind fun pde => ?_
  exact tallies_modify (fun _ => rfl) (fun _ => rfl) (fun _ => rfl) fun _ => rfl

theorem tallies_taskExit : Tallies taskExit := by
  refine (tallies_gets _).bind fun p => tallies_freePde.bind fun _ => ?_
  refine (tallies_gets _).bind fun task => (tallies_freeKpage _).bind fun _ => ?_
  exact tallies_modify (fun _ => rfl) (fun _ => rfl) (fun _ => rfl) fun _ => rfl

/-- A fault that copies a page takes one frame and gives up one reference of several. -/
theorem tallies_pageFault (vaddr : ℕ) (present write : Bool) :
    Tallies (pageFault vaddr present write) := by
  refine (tallies_gets _).bind fun task => Tallies.ite ?_ (Tallies.ite ?_ (Tallies.ite ?_ ?_))
  · exact (tallies_check _).bind fun _ => tallies_taskExit
  · refine (tallies_check _).bind fun _ => (tallies_getPte _ _).bind fun table => ?_
    refine (tallies_getWord _ _).bind fun entry => (tallies_check _).bind fun _ => ?_
    refine (tallies_check _).bind fun _ => (tallies_check _).bind fun _ => ?_
    intro s h
    rw [wp_bind, wp_gets, wp_bind, wp_check]
    intro hpos
    rw [wp_bind, wp_gets, wp_ite]
    refine ⟨fun _ => tallies_setWord _ _ _ s h, fun hmany => ?_⟩
    rw [wp_bind]
    refine wp_mono (wp_copyPage_ahead h) fun paddr s₁ h₁ => ?_
    have hsame := h₁.2 entry.index (by omega)
    rw [wp_bind, wp_modify]
    refine tallies_setWord _ _ _ _ (h₁.1.setCount (by omega) (by omega) fun hi => ?_)
    have hsmall := h₁.1.small entry.index hi
    omega
  · exact tallies_linkPage _
  · exact tallies_fault _

theorem tallies_vmapSet (index : ℕ) : Tallies (vmapSet index) := by
  refine (tallies_gets _).bind fun p => (tallies_gets _).bind fun task => Tallies.ite ?_ ?_
  · refine Tallies.bind (fun s h => (wp_note _).mpr fun _ => h) fun _ => ?_
    exact tallies_modify (fun _ => rfl) (fun _ => rfl) (fun _ => rfl) fun _ => rfl
  · refine (tallies_lift _).bind fun map => ?_
    exact tallies_modify (fun _ => rfl) (fun _ => rfl) (fun _ => rfl) fun _ => rfl

theorem tallies_mmapLoop (prot : Prot) (page n : ℕ) : Tallies (mmapLoop prot page n) := by
  induction n generalizing page with
  | zero => exact tallies_pure ()
  | succ n ih =>
      refine (tallies_linkPage _).bind fun _ => (tallies_vmapSet _).bind fun _ => ?_
      refine (tallies_getPte _ _).bind fun table => (tallies_getWord _ _).bind fun entry => ?_
      refine (tallies_gets _).bind fun count => Tallies.ite ?_ ?_
      · refine Tallies.bind (fun s h => (wp_note _).mpr fun _ => h) fun _ => ?_
        exact (tallies_setWord _ _ _).bind fun _ => ih _
      · exact (tallies_setWord _ _ _).bind fun _ => ih _

theorem tallies_sysMmap (addr length : ℕ) (prot : Prot) : Tallies (sysMmap addr length prot) := by
  refine (tallies_check _).bind fun _ => (tallies_gets _).bind fun p => ?_
  have hrest : ∀ vaddr, Tallies (do
      check (USER_MMAP_ADDR ≤ vaddr ∧ vaddr < USER_STACK_BOTTOM)
      mmapLoop prot vaddr (pagesIn length)
      return vaddr) := fun vaddr =>
    (tallies_check _).bind fun _ => (tallies_mmapLoop _ _ _).bind fun _ => tallies_pure vaddr
  refine Tallies.ite ?_ ((tallies_pure addr).bind hrest)
  refine (tallies_check _).bind fun _ => (tallies_gets _).bind fun task => ?_
  refine (tallies_lift _).bind fun r => (tallies_check _).bind fun _ => Tallies.bind ?_ fun _ => ?_
  · exact tallies_modify (fun _ => rfl) (fun _ => rfl) (fun _ => rfl) fun _ => rfl
  · exact (tallies_pure _).bind hrest

theorem tallies_munmapLoop (page n : ℕ) : Tallies (munmapLoop page n) := by
  induction n generalizing page with
  | zero => exact tallies_pure ()
  | succ n ih =>
      refine (tallies_unlinkPage _).bind fun _ => (tallies_gets _).bind fun p => ?_
      refine (tallies_gets _).bind fun task => (tallies_lift _).bind fun _ => ?_
      refine (tallies_check _).bind fun _ => (tallies_lift _).bind fun map => ?_
      refine Tallies.bind ?_ fun _ => ih _
      exact tallies_modify (fun _ => rfl) (fun _ => rfl) (fun _ => rfl) fun _ => rfl

theorem tallies_sysMunmap (addr length : ℕ) : Tallies (sysMunmap addr length) :=
  (tallies_check _).bind fun _ => (tallies_check _).bind fun _ => tallies_munmapLoop _ _

theorem tallies_load (vaddr : ℕ) : Tallies (load vaddr) :=
  tallies_get.bind fun _ => Tallies.ite (tallies_pure ()) (tallies_pageFault _ _ _)

theorem tallies_store (vaddr : ℕ) (w : Word) : Tallies (store vaddr w) := by
  refine tallies_get.bind fun _ => Tallies.ite (Tallies.ite ?_ (tallies_setWord _ _ _))
    (tallies_pageFault _ _ _)
  exact Tallies.bind (fun s h => (wp_note _).mpr fun _ => h) fun _ => tallies_setWord _ _ _

theorem tallies_act (a : Action) : Tallies a.code := by
  cases a with
  | link vaddr => exact tallies_linkPage vaddr
  | unlink vaddr => exact tallies_unlinkPage vaddr
  | brk addr => exact tallies_sysBrk addr
  | mmap addr length prot => exact (tallies_sysMmap _ _ _).bind fun _ => tallies_pure ()
  | munmap addr length => exact tallies_sysMunmap addr length
  | fork child => exact tallies_taskFork child
  | exit => exact tallies_taskExit
  | load vaddr => exact tallies_load vaddr
  | store vaddr w => exact tallies_store vaddr w
  | switch p => exact tallies_modify (fun _ => rfl) (fun _ => rfl) (fun _ => rfl) fun _ => rfl
  | kalloc => exact tallies_allocKpage.bind fun _ => tallies_pure ()
  | kfree page => exact tallies_freeKpage page

theorem tallies_storeByte (vaddr : ℕ) (b : UInt8) : Tallies (storeByte vaddr b) := by
  refine tallies_get.bind fun _ => Tallies.ite ((tallies_pageFault _ _ _).bind fun _ => ?_) ?_
  · exact tallies_modify (fun _ => rfl) (fun _ => rfl) (fun _ => rfl) fun _ => rfl
  · exact tallies_modify (fun _ => rfl) (fun _ => rfl) (fun _ => rfl) fun _ => rfl

theorem tallies_memcpy (dest : ℕ) (src : List UInt8) : Tallies (memcpy dest src) := by
  induction src generalizing dest with
  | nil => exact tallies_pure ()
  | cons b src ih => exact (tallies_storeByte _ _).bind fun _ => ih _

theorem tallies_copyBlocks (buf : ℕ) (blocks : List (List UInt8)) :
    Tallies (copyBlocks buf blocks) := by
  induction blocks generalizing buf with
  | nil => exact tallies_pure ()
  | cons bytes rest ih => exact (tallies_memcpy _ _).bind fun _ => ih _

theorem tallies_code (call : PageCall) : Tallies call.code := by
  cases call with
  | get => exact tallies_getPage.bind fun _ => tallies_pure ()
  | put idx => exact tallies_putPage idx
  | link vaddr => exact tallies_linkPage vaddr
  | unlink vaddr => exact tallies_unlinkPage vaddr
  | copy => exact tallies_copyPde.bind fun _ => tallies_pure ()
  | fault vaddr present write => exact tallies_pageFault vaddr present write
  | free => exact tallies_freePde
  | brk addr => exact tallies_sysBrk addr
  | fork child => exact tallies_taskFork child
  | exit => exact tallies_taskExit
  | switch p => exact tallies_modify (fun _ => rfl) (fun _ => rfl) (fun _ => rfl) fun _ => rfl

/-! ## The counter is never exact -/

/-- Whether `sys_brk` lets the heap of a task grow depends on the counter only. -/
theorem sysBrk_grows {addr : ℕ} {l : List Event} (hrun : (sysBrk addr).run s = .ok ((), s', l))
    (hgrow : s.task.brk < addr) :
    s'.task.brk = addr ↔ IDX (addr - s.task.brk) ≤ s.freePages := by
  have hpost : wp (fun _ => True) (sysBrk addr) (fun _ s' =>
      s'.task.brk = addr ↔ IDX (addr - s.task.brk) ≤ s.freePages) s := by
    unfold sysBrk
    simp only [wp_bind, wp_check, wp_gets, wp_ite, wp_modify, wp_pure]
    refine fun _ _ _ => ⟨fun hshrink => absurd hgrow hshrink.le.not_gt, fun _ =>
      ⟨fun hfree => ⟨fun _ => hfree, fun _ => ?_⟩, fun hfull => ⟨fun hsame => ?_, fun hfree =>
        absurd hfree hfull⟩⟩⟩
    · change (if s.current = s.current then _ else _ : Proc).brk = addr
      rw [if_pos rfl]
    · exact absurd hsame hgrow.ne
  exact hpost () s' l hrun fun _ _ => trivial

/-- In whatever order frames are taken and given back, `free_pages` is too large by the
frames of the kernel from `start_page` on, and `sys_brk` lets a heap grow by that many pages
more than there are. -/
theorem free_pages_ahead {zones : List Ards} {l : List Event}
    (hboot : (memoryBoot zones).run s₀ = .ok ((), s₁, l))
    (hrun : Run PageStep (fun _ _ => True) s₁ s) :
    s.freePages ≠ s.spare.card ∧ s.startPage < KERNEL_PAGES ∧
      s.freePages = s.spare.card + (KERNEL_PAGES - s.startPage) ∧
      ∀ addr s' l', (sysBrk addr).run s = .ok ((), s', l') → s.task.brk < addr →
        (s'.task.brk = addr ↔
          IDX (addr - s.task.brk) ≤ s.spare.card + (KERNEL_PAGES - s.startPage)) := by
  have h : Ahead s := by
    refine hrun.invariant (fun t call t' h _ hstep => ?_)
      (Ahead.of_started (meets_memoryBoot.post hboot))
    obtain ⟨l, hcode⟩ := hstep
    exact tallies_code call t h () t' l hcode fun _ _ => trivial
  have hfree := h.free
  have hstart := h.start.2
  refine ⟨by omega, hstart, by omega, fun addr s' l' hbrk hgrow => ?_⟩
  rw [sysBrk_grows hbrk hgrow]
  omega

/-- A machine with 16 megabytes of memory above the first. -/
def smallMachine : List Ards := [⟨0x100000, 0x1000000, 1⟩]

/-- Memory before the start, of a machine that has been cleared. -/
def coldState : State where
  mem := fun _ _ => .zero
  memoryMap := fun _ => 0
  freePages := 0
  startPage := 0
  totalPages := 0
  kernelMap := ⟨fun _ => 0, 0, 0, 0⟩
  procs := fun _ => ⟨1, ⟨fun _ => 0, 0, 0, 0⟩, 0, 0, 0, 0⟩
  live := ∅
  current := 0

theorem smallMachine_starts : ∃ s l, (memoryBoot smallMachine).run coldState = .ok ((), s, l) ∧
    Started 0x1000000 s := by
  have haccepted : Accepted smallMachine := ⟨rfl, rfl, le_rfl⟩
  obtain ⟨_, s, l, hrun, hstarted⟩ := (meets_memoryBoot (s := coldState)).returns haccepted
  exact ⟨s, l, hrun, hstarted⟩

/-- The counter says 3838 frames more than there are. -/
theorem smallMachine_free_pages : ∃ s l,
    (memoryBoot smallMachine).run coldState = .ok ((), s, l) ∧
      s.freePages = 4094 ∧ s.spare.card = 256 := by
  obtain ⟨s, l, hrun, hstarted⟩ := smallMachine_starts
  have hpages : mapPages 0x1000000 = 2 := rfl
  have hfree := hstarted.free
  have hstart := hstarted.start
  have hahead := (Ahead.of_started hstarted).free
  unfold KERNEL_PAGES at hahead
  exact ⟨s, l, hrun, by omega, by omega⟩

theorem smallMachine_ahead : ∃ s : State, s.freePages ≠ s.spare.card ∧
    s.freePages = s.spare.card + (KERNEL_PAGES - s.startPage) := by
  obtain ⟨s, l, hrun, -⟩ := smallMachine_starts
  have hahead := free_pages_ahead hrun .refl
  exact ⟨s, hahead.1, hahead.2.2.1⟩

end Ylos.Memory
