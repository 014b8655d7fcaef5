import Ylos.Model.Boot
import Ylos.Verification.Arena.Pages

/-! # What the start of the memory leaves behind -/

namespace Ylos.Memory

open Exec

variable {s : State} {zones : List Ards} {e : Prop}

/-- `memory_init` accepts the zones. -/
def Accepted (zones : List Ards) : Prop :=
  (zoneLoop zones 0 0).1 = MEMORY_BASE ∧ (zoneLoop zones 0 0).2 % PAGE_SIZE = 0 ∧
    KERNEL_MEMORY_SIZE ≤ (zoneLoop zones 0 0).2

theorem zoneLoop_lt (zones : List Ards) {base size : ℕ} (hsize : size < 2 ^ 32) :
    (zoneLoop zones base size).2 < 2 ^ 32 := by
  induction zones generalizing base size with
  | nil => exact hsize
  | cons ptr rest ih =>
      unfold zoneLoop
      split
      · exact ih (Nat.mod_lt _ (by norm_num))
      · exact ih hsize

/-- The frames of a machine with `size` bytes of memory, and the pages of `memory_map`. -/
def frameCount (size : ℕ) : ℕ := IDX size + IDX MEMORY_BASE

def mapPages (size : ℕ) : ℕ := divRoundUp (frameCount size) PAGE_SIZE

theorem frameCount_eq (size : ℕ) : frameCount size = size / 4096 + 256 := rfl

theorem mapPages_eq {size : ℕ} (hsize : size < 2 ^ 32) :
    mapPages size = (size / 4096 + 256 + 4095) / 4096 := by
  unfold mapPages divRoundUp u32 PAGE_SIZE
  rw [frameCount_eq]
  omega

theorem meets_memoryInit : Meets (Accepted zones) (memoryInit zones) (fun _ s' =>
    KERNEL_MEMORY_SIZE ≤ (zoneLoop zones 0 0).2 ∧
      s' = { s with
        totalPages := frameCount (zoneLoop zones 0 0).2
        freePages := IDX (zoneLoop zones 0 0).2 }) s := by
  unfold memoryInit
  dsimp only
  by_cases hbase : (zoneLoop zones 0 0).1 = MEMORY_BASE
  · refine meets_bind (meets_check hbase ?_)
    by_cases haligned : (zoneLoop zones 0 0).2 % PAGE_SIZE = 0
    · refine meets_bind (meets_check haligned (meets_bind (meets_modify ?_)))
      refine meets_ite (fun hsmall => meets_fault fun haccepted => ?_) fun hlarge => ?_
      · exact absurd haccepted.2.2 (not_le.mpr hsmall)
      · exact meets_pure ⟨not_lt.mp hlarge, rfl⟩
    · exact meets_bind (meets_of_error (run_check_neg haligned s) fun h => haligned h.2.1)
  · exact meets_bind (meets_of_error (run_check_neg hbase s) fun h => hbase h.1)

/-- `memory_map_init` gives away the first megabyte and the pages of `memory_map`. -/
theorem meets_memoryMapInit {size : ℕ} (hsize : size < 2 ^ 32) (hlarge : KERNEL_MEMORY_SIZE ≤ size)
    (htotal : s.totalPages = frameCount size) (hfree : s.freePages = IDX size) :
    Meets e memoryMapInit (fun _ s' => s'.totalPages = frameCount size ∧
      s'.freePages = IDX size - mapPages size ∧ s'.startPage = 256 + mapPages size ∧
      (∀ i < frameCount size, s'.memoryMap i = if i < 256 + mapPages size then 1 else 0) ∧
      Heap.Mapped s'.kernelMap (Set.Ico 256 (256 + mapPages size))) s := by
  have hpages := mapPages_eq hsize
  have hframes := frameCount_eq size
  have hidx : IDX size = size / 4096 := rfl
  unfold KERNEL_MEMORY_SIZE at hlarge
  have hzero : ∀ j, bitAt (fun _ => 0) j = false := fun j => Nat.zero_testBit (j % 8)
  unfold memoryMapInit
  refine meets_bind (meets_gets ?_)
  have hround : divRoundUp s.totalPages PAGE_SIZE = mapPages size := by rw [htotal]; rfl
  rw [hround]
  refine meets_bind (meets_modify (meets_bind (meets_modify (meets_bind (meets_modify ?_)))))
  refine meets_bind (meets_modify ?_)
  dsimp only
  have hcount : 0 < mapPages size := by omega
  rcases bitmapScan_run ⟨fun _ => 0, PAGE_SIZE, 480, 256⟩ hcount (by decide) (by decide)
      (by decide) with
    ⟨r, bits, hscan, hend, -, hfirst, hbits⟩ | ⟨-, hnone⟩
  · obtain rfl : r = 0 := by
      by_contra hne
      exact hfirst 0 (Nat.pos_of_ne_zero hne) fun j _ _ => hzero j
    refine meets_bind (meets_of_run (a := (256 + 0, ⟨bits, PAGE_SIZE, 480, 256⟩)) (l := [])
      (by rw [← run_lift_ok, ← hscan]; rfl) (meets_modify ?_))
    refine ⟨htotal, ?_, rfl, fun i hi => ?_, rfl, rfl, (by decide : 480 ≤ PAGE_SIZE), fun q hq => ?_,
      fun q hq hq' => ?_⟩
    · change u32 (s.freePages + 2 ^ 32 - mapPages size) = _
      rw [hfree]
      unfold u32
      omega
    · change (if i < 256 + mapPages size then 1 else if i < mapPages size * 4096 then 0
        else s.memoryMap i) = _
      split
      · rfl
      · exact if_pos (by omega)
    · exact ⟨hq.1, by have hq' := hq.2; omega⟩
    · rw [hbits, hzero, Bool.or_false, decide_eq_true_iff, Set.mem_Ico]
      omega
  · exact absurd (fun j _ _ => hzero j) (hnone 0 (by dsimp only; omega))

/-! ## `mapping_init` -/

/-- Only words and counts change, and the counts of the frames `used` become 1. -/
structure Maps (used : ℕ → Prop) (s s' : State) : Prop where
  counted : ∀ f, used f → s'.memoryMap f = 1
  other : ∀ f, ¬used f → s'.memoryMap f = s.memoryMap f
  free : s'.freePages = s.freePages
  start : s'.startPage = s.startPage
  total : s'.totalPages = s.totalPages
  kernelMap : s'.kernelMap = s.kernelMap

theorem meets_mapTable {pte : ℕ} (tidxs : List ℕ) (index : ℕ) :
    Meets e (mapTable pte tidxs index) (fun next s' => next = index + tidxs.length ∧
      Maps (fun f => f ≠ 0 ∧ index ≤ f ∧ f < index + tidxs.length) s s') s := by
  induction tidxs generalizing s index with
  | nil =>
      refine meets_pure ⟨rfl, fun f hf => ?_, fun f _ => rfl, rfl, rfl, rfl, rfl⟩
      rw [List.length_nil] at hf
      omega
  | cons tidx rest ih =>
      have hlength : (tidx :: rest).length = rest.length + 1 := rfl
      unfold mapTable setWord
      by_cases hindex : index ≠ 0
      · rw [if_pos hindex]
        refine meets_bind (meets_modify (meets_bind (meets_modify (meets_mono (ih (index + 1)) ?_))))
        rintro next s' ⟨rfl, hmaps⟩
        refine ⟨by omega, fun f hf => ?_, fun f hf => ?_, hmaps.free, hmaps.start, hmaps.total,
          hmaps.kernelMap⟩
        · by_cases hlater : index + 1 ≤ f
          · exact hmaps.counted f ⟨hf.1, hlater, by omega⟩
          · rw [hmaps.other f (by omega)]
            exact if_pos (by omega)
        · rw [hmaps.other f (by omega)]
          exact if_neg (by omega)
      · rw [if_neg hindex]
        refine meets_mono (ih (index + 1)) ?_
        rintro next s' ⟨rfl, hmaps⟩
        refine ⟨by omega, fun f hf => hmaps.counted f ⟨hf.1, by omega, by omega⟩,
          fun f hf => hmaps.other f (by omega), hmaps.free, hmaps.start, hmaps.total,
          hmaps.kernelMap⟩

theorem meets_mapTables {pde : ℕ} (tables : List ℕ) (didx index : ℕ) :
    Meets e (mapTables pde tables didx index) (fun _ s' =>
      Maps (fun f => f ≠ 0 ∧ index ≤ f ∧ f < index + tables.length * 1024) s s') s := by
  induction tables generalizing s didx index with
  | nil =>
      refine meets_pure ⟨fun f hf => ?_, fun f _ => rfl, rfl, rfl, rfl, rfl⟩
      rw [List.length_nil] at hf
      omega
  | cons table rest ih =>
      have hlength : (table :: rest).length = rest.length + 1 := rfl
      unfold mapTables setWord
      generalize hentries : List.range 1024 = tidxs
      have hcount : tidxs.length = 1024 := by rw [← hentries, List.length_range]
      refine meets_bind (meets_modify (meets_bind (meets_modify (meets_bind ?_))))
      refine meets_mono (meets_mapTable tidxs index) ?_
      rintro next s₁ ⟨rfl, hmaps₁⟩
      rw [hcount] at hmaps₁ ⊢
      refine meets_mono (ih (didx + 1) (index + 1024)) fun _ s' hmaps => ?_
      refine ⟨fun f hf => ?_, fun f hf => ?_, hmaps.free.trans hmaps₁.free,
        hmaps.start.trans hmaps₁.start, hmaps.total.trans hmaps₁.total,
        hmaps.kernelMap.trans hmaps₁.kernelMap⟩
      · by_cases hlater : index + 1024 ≤ f
        · exact hmaps.counted f ⟨hf.1, hlater, by omega⟩
        · rw [hmaps.other f (by omega)]
          exact hmaps₁.counted f (by omega)
      · rw [hmaps.other f (by omega)]
        exact hmaps₁.other f (by omega)

/-- `mapping_init` counts the frames of the kernel but not the null page. -/
theorem meets_mappingInit : Meets e mappingInit (fun _ s' =>
    Maps (fun f => f ≠ 0 ∧ f < KERNEL_PAGES) s s') s := by
  have hpages : KERNEL_PAGES = 4096 := rfl
  unfold mappingInit setWord
  generalize htables : KERNEL_PAGE_TABLE = tables
  have hlength : tables.length = 4 := by rw [← htables]; rfl
  refine meets_bind (meets_modify (meets_bind ?_))
  refine meets_mono (meets_mapTables tables 0 0) fun _ s' hmaps => ?_
  rw [hlength] at hmaps
  exact meets_modify ⟨fun f hf => hmaps.counted f (by omega),
    fun f hf => hmaps.other f (by omega), hmaps.free, hmaps.start, hmaps.total, hmaps.kernelMap⟩

/-- What the machine starts with. -/
structure Started (size : ℕ) (s : State) : Prop where
  large : KERNEL_MEMORY_SIZE ≤ size
  small : size < 2 ^ 32
  total : s.totalPages = size / 4096 + 256
  start : s.startPage = 256 + mapPages size
  free : s.freePages = size / 4096 - mapPages size
  counts : ∀ f < s.totalPages, s.memoryMap f = if f < KERNEL_PAGES then 1 else 0
  kernelMap : Heap.Mapped s.kernelMap (Set.Ico 256 (256 + mapPages size))

theorem meets_memoryBoot : Meets (Accepted zones) (memoryBoot zones) (fun _ s' =>
    Started (zoneLoop zones 0 0).2 s') s := by
  have hsmall : (zoneLoop zones 0 0).2 < 2 ^ 32 := zoneLoop_lt zones (by norm_num)
  unfold memoryBoot
  refine meets_bind (meets_mono meets_memoryInit ?_)
  rintro _ s₁ ⟨hlarge, rfl⟩
  refine meets_bind (meets_mono (meets_memoryMapInit hsmall hlarge rfl rfl) fun _ s₂ h₂ => ?_)
  obtain ⟨htotal, hfree, hstart, hcounts, hmap⟩ := h₂
  refine meets_mono meets_mappingInit fun _ s₃ hmaps => ?_
  have htotal₃ : s₃.totalPages = (zoneLoop zones 0 0).2 / 4096 + 256 := hmaps.total.trans htotal
  have hpages := mapPages_eq hsmall
  have hframes := frameCount_eq (zoneLoop zones 0 0).2
  have hkernelPages : KERNEL_PAGES = 4096 := rfl
  unfold KERNEL_MEMORY_SIZE at hlarge
  refine ⟨hlarge, hsmall, htotal₃, hmaps.start.trans hstart, hmaps.free.trans hfree,
    fun f hf => ?_, hmaps.kernelMap ▸ hmap⟩
  have hcount := hcounts f (by omega)
  by_cases hkernel : f ≠ 0 ∧ f < KERNEL_PAGES
  · rw [hmaps.counted f hkernel, if_pos hkernel.2]
  · rw [hmaps.other f hkernel, hcount]
    by_cases hzero : f = 0
    · rw [if_pos (by omega), if_pos (by omega)]
    · rw [if_neg (by omega), if_neg (by omega)]

end Ylos.Memory
