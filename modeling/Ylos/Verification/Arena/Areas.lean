import Ylos.Lib.Runs
import Ylos.Verification.Arena.Safe
import Ylos.Verification.Memory.Tally

/-! # Kernel pages and the areas that nobody allocates

The buffers and the RAM disks have fixed places below 16 megabytes, and `kernel_map` has
bits for these places like for any other. -/

namespace Ylos.Heap

open Exec Memory

variable {s s' : State} {used : Set ℕ} {vaddr count n w : ℕ} {l : List Empty}

/-- A byte of the buffers or of the RAM disks. -/
def Reserved (w : ℕ) : Prop :=
  (KERNEL_BUFFER_MEM ≤ w ∧ w < KERNEL_BUFFER_MEM + KERNEL_BUFFER_SIZE) ∨
    (KERNEL_RAMDISK_MEM ≤ w ∧ w < KERNEL_RAMDISK_MEM + KERNEL_RAMDISK_SIZE)

theorem reserved_iff : Reserved w ↔ 2048 * 4096 ≤ w ∧ w < 4096 * 4096 := by
  unfold Reserved KERNEL_RAMDISK_MEM KERNEL_BUFFER_MEM KERNEL_BUFFER_SIZE KERNEL_RAMDISK_SIZE
  omega

/-- Whatever `reset_page` clears was set. -/
theorem wp_resetLoop {q : ℕ} (h : Mapped s.kernelMap used) :
    wp (fun _ => True) (resetLoop n q) (fun _ s' => ∃ used', Mapped s'.kernelMap used') s := by
  induction n generalizing s used q with
  | zero => exact (wp_pure ()).mpr ⟨used, h⟩
  | succ n ih =>
      unfold resetLoop
      simp only [wp_bind, wp_get, wp_lift, wp_check, wp_modify]
      rintro b htest - map hset
      have hlow := (bitmapTest_eq_ok htest).1
      rw [h.offset] at hlow
      have hreset := h.reset hlow
      rw [← h.offset, ← bitmapSet_eq_ok hset] at hreset
      exact ih hreset

theorem KpageStep.mapped {call : KpageCall} (h : ∃ used, Mapped s.kernelMap used)
    (hstep : KpageStep s call s') : ∃ used, Mapped s'.kernelMap used := by
  obtain ⟨used, h⟩ := h
  cases call with
  | alloc count =>
      obtain ⟨vaddr, l, hrun⟩ := hstep
      obtain ⟨q, map, -, rfl, -, -, -, -, -, hmapped⟩ := (meets_allocKpage h).post hrun
      exact ⟨_, hmapped⟩
  | free vaddr count =>
      obtain ⟨l, hrun⟩ := hstep
      have hpost : wp (fun _ => True) (freeKpage vaddr count)
          (fun _ s' => ∃ used', Mapped s'.kernelMap used') s := by
        unfold freeKpage resetPage
        simp only [wp_bind, wp_check]
        exact fun _ _ _ _ => wp_resetLoop h
      exact hpost () s' l hrun fun _ _ => trivial

/-- The pages of a range are below the buffers. -/
theorem avoids_iff {q : ℕ} (hcount : 0 < count) (hend : q + count ≤ 4096) :
    (∀ w, q * 4096 ≤ w → w < q * 4096 + count * PAGE_SIZE → ¬Reserved w) ↔ q + count ≤ 2048 := by
  simp only [reserved_iff]
  unfold PAGE_SIZE
  constructor
  · intro h
    by_contra hhigh
    exact h ((q + count) * 4096 - 1) (by omega) (by omega) (by omega)
  · intro hlow w hw hw'
    omega

/-- However kernel pages have been taken and given back since the start, a range of pages
from `alloc_kpage` keeps clear of the buffers and the RAM disks exactly if there were that
many free pages in a row below the buffers. -/
theorem alloc_kpage_avoids {zones : List Ards} {before boot : Memory.State} {start : State}
    {events : List Memory.Event} (hboot : (memoryBoot zones).run before = .ok ((), boot, events))
    (hmap : start.kernelMap = boot.kernelMap) (hrun : Run KpageStep (fun _ _ => True) start s)
    (halloc : (allocKpage count).run s = .ok (vaddr, s', l)) :
    (∀ w, vaddr ≤ w → w < vaddr + count * PAGE_SIZE → ¬Reserved w) ↔
      ∃ q, IDX MEMORY_BASE ≤ q ∧ q + count ≤ IDX KERNEL_BUFFER_MEM ∧
        ∀ page, q ≤ page → page < q + count → ¬s.marked page := by
  have hstart : ∃ used, Mapped start.kernelMap used :=
    ⟨_, hmap ▸ (meets_memoryBoot.post hboot).kernelMap⟩
  obtain ⟨used, hmapped⟩ : ∃ used, Mapped s.kernelMap used :=
    hrun.invariant (P := fun s => ∃ used, Mapped s.kernelMap used)
      (fun _ _ _ h _ hstep => KpageStep.mapped h hstep) hstart
  have hmarked : ∀ page, 256 ≤ page → page < 4096 → (s.marked page ↔ page ∈ used) := by
    intro page hlow hhigh
    unfold State.marked
    rw [hmapped.offset]
    exact hmapped.bits page hlow hhigh
  have hlow : IDX MEMORY_BASE = 256 := rfl
  have hhigh : IDX KERNEL_BUFFER_MEM = 2048 := rfl
  obtain ⟨q, map, rfl, -, hcount, hq, hend, hfree, hfirst, -⟩ :=
    (meets_allocKpage hmapped).post halloc
  rw [avoids_iff hcount hend]
  constructor
  · intro hbelow
    refine ⟨q, by omega, by omega, fun page hpage hpage' hused => ?_⟩
    exact Set.disjoint_left.mp hfree ⟨hpage, hpage'⟩
      ((hmarked page (by omega) (by omega)).mp hused)
  · rintro ⟨r, hr, hrend, hclear⟩
    by_contra hbeyond
    refine hfirst r (by omega) (by omega) (Set.disjoint_left.mpr fun page hpage hused => ?_)
    obtain ⟨hpage, hpage'⟩ := hpage
    exact hclear page hpage hpage' ((hmarked page (by omega) (by omega)).mpr hused)

theorem smallMachine_room : ∃ s events,
    (memoryBoot smallMachine).run coldState = .ok ((), s, events) ∧
      ∀ count, 0 < count → count ≤ 3838 → Returns (allocKpage count) (fun vaddr _ =>
        vaddr = 0x102000) ⟨s.kernelMap, fun _ => 0⟩ := by
  obtain ⟨s, events, hrun, hstarted⟩ := smallMachine_starts
  refine ⟨s, events, hrun, fun count hpos hcount => ?_⟩
  have hpages : mapPages 0x1000000 = 2 := rfl
  have hmapped : Mapped s.kernelMap (Set.Ico 256 258) := by
    have hmap := hstarted.kernelMap
    rwa [hpages] at hmap
  have hdisj : Disjoint (Set.Ico 258 (258 + count)) (Set.Ico 256 258) :=
    Set.disjoint_left.mpr fun r hr hr' => by
      obtain ⟨hr, -⟩ := hr
      obtain ⟨-, hr'⟩ := hr'
      omega
  have hroom : Room (Set.Ico 256 258) count := ⟨hpos, 258, by omega, by omega, hdisj⟩
  refine returns_mono ((meets_allocKpage (s := ⟨s.kernelMap, fun _ => 0⟩) hmapped).returns hroom) ?_
  rintro vaddr _ ⟨q, map, rfl, -, -, hq, -, hfree, hfirst, -⟩
  have hnot : ¬q < 258 := fun hlt =>
    Set.disjoint_left.mp hfree ⟨le_rfl, by omega⟩ ⟨hq, hlt⟩
  have hle : ¬258 < q := fun hlt => hfirst 258 (by omega) hlt hdisj
  omega

/-- After the start, 1791 pages in a row reach into the buffers. -/
theorem smallMachine_collides : ∃ s events vaddr s' l,
    (memoryBoot smallMachine).run coldState = .ok ((), s, events) ∧
      (allocKpage 1791).run ⟨s.kernelMap, fun _ => 0⟩ = .ok (vaddr, s', l) ∧
      ∃ w, vaddr ≤ w ∧ w < vaddr + 1791 * PAGE_SIZE ∧ Reserved w := by
  obtain ⟨s, events, hrun, halloc⟩ := smallMachine_room
  obtain ⟨vaddr, s', l, hrun', rfl⟩ := halloc 1791 (by omega) (by omega)
  exact ⟨s, events, _, s', l, hrun, hrun', 0x800000, by decide, by decide,
    reserved_iff.mpr (by decide)⟩

theorem smallMachine_avoids : ∃ vaddr,
    ∀ w, vaddr ≤ w → w < vaddr + 1 * PAGE_SIZE → ¬Reserved w := by
  obtain ⟨s, events, hrun, halloc⟩ := smallMachine_room
  obtain ⟨vaddr, s', l, hrun', rfl⟩ := halloc 1 (by omega) (by omega)
  obtain ⟨s₀, l₀, hrun₀, hstarted⟩ := smallMachine_starts
  rw [hrun] at hrun₀
  cases hrun₀
  refine ⟨_, (alloc_kpage_avoids hrun rfl .refl hrun').mpr ⟨258, by decide, by decide, ?_⟩⟩
  intro page hlow hhigh hmarked
  have hbits := (hstarted.kernelMap.bits page (by omega) (by omega)).mp (by
    rwa [State.marked, hstarted.kernelMap.offset] at hmarked)
  have hpages : mapPages 0x1000000 = 2 := rfl
  have hin := hbits.2
  omega

end Ylos.Heap
