import Ylos.Lib.Runs
import Ylos.Verification.Arena.Safe
import Ylos.Verification.Arena.Boot

/-! # The heap never hands out overlapping memory -/

namespace Ylos.Heap

open Exec

variable {img : Image} {s s' : Sys} {l : Layout} {w : ℕ}

/-- A call, or writes by those who have memory. -/
inductive Call where
  | malloc (size : ℕ)
  | free (p : ℕ)
  | alloc (count : ℕ)
  | release (page count : ℕ)
  | write (mem : ℕ → ℕ)

/-- The word belongs to a block that is handed out, or to a page of another caller. -/
def Sys.Lent (s : Sys) (w : ℕ) : Prop := (∃ x ∈ s.live, s.Owns x.1 w) ∨ w / 4096 ∈ s.pages

/-- Sizes do not overflow, what is given back was handed out, and nobody writes to memory
that is not his. -/
def Call.Possible (s : Sys) : Call → Prop
  | .malloc size => size + 16 + 4095 < 2 ^ 32
  | .free p => p ∈ pointers s.live
  | .alloc _ => True
  | .release page count => 0 < count ∧ Set.Ico page (page + count) ⊆ s.pages
  | .write mem => ∀ w, mem w ≠ s.state.mem w → s.Lent w

inductive Step (img : Image) : Sys → Call → Sys → Prop
  | malloc {s : Sys} {size p : ℕ} {state : State} {l : List Empty}
    (hrun : (kmalloc img size).run s.state = .ok (p, state, l)) :
    Step img s (.malloc size) { s with state := state, live := (p, size) :: s.live }
  | free {s : Sys} {p : ℕ} {state : State} {l : List Empty}
    (hrun : (kfree p).run s.state = .ok ((), state, l)) :
    Step img s (.free p) { s with state := state, live := without s.live p }
  | alloc {s : Sys} {count addr : ℕ} {state : State} {l : List Empty}
    (hrun : (allocKpage count).run s.state = .ok (addr, state, l)) :
    Step img s (.alloc count)
      { s with state := state, pages := s.pages ∪ Set.Ico (addr / 4096) (addr / 4096 + count) }
  | release {s : Sys} {page count : ℕ} {state : State} {l : List Empty}
    (hrun : (freeKpage (page * 4096) count).run s.state = .ok ((), state, l)) :
    Step img s (.release page count)
      { s with state := state, pages := s.pages \ Set.Ico page (page + count) }
  | write {s : Sys} {mem : ℕ → ℕ} :
    Step img s (.write mem) { s with state := { s.state with mem := mem } }

/-- After `arena_init`, with the pages that others have taken before. -/
def Booted (img : Image) (s : Sys) : Prop :=
  (∃ state l, (arenaInit img).run state = .ok ((), s.state, l)) ∧ s.live = [] ∧
    Mapped s.state.kernelMap s.pages

/-! ## Every step keeps the invariant -/

/-- Memory that is lent is not read by the heap. -/
theorem Inv.not_guarded (h : Inv img l s.live s.pages s.state) (hlent : s.Lent w) :
    ¬Guarded img l w := by
  have hlow : 256 ≤ w / 4096 := by
    rcases hlent with ⟨x, hx, hw⟩ | hw
    · exact (h.owned hx hw).2.1
    · exact (h.mapped.inside _ (.inl hw)).1
  rintro (⟨c, hw⟩ | ⟨a, k, hkind, hw, hw'⟩ | ⟨c, b, hb, hw⟩)
  · have hdesc := img.desc_lt c
    unfold Image.list at hw
    omega
  · have hpos := (h.sound.high a k hkind).1
    have hpage : w / 4096 = a := by omega
    rcases hlent with ⟨x, hx, hown⟩ | hown
    · obtain ⟨y, hy, hya⟩ := h.fair a k hkind
      have harena := h.arena_eq (p := y.1) (hya ▸ hkind)
      have hheader := h.headers hx hy hown
      omega
    · exact Set.disjoint_left.mp h.foreign hown ⟨a, k, hkind, by omega, by omega⟩
  · have hblock := h.sound.placed.block c b hb
    have hfact := hblock.facts h.sound.placed.low
    have hpage : w / 4096 = b / 4096 := by omega
    have hcovered : w / 4096 ∈ l.covered :=
      ⟨_, _, hblock.1, hpage.ge, by rw [hpage]; exact Nat.lt_succ_self _⟩
    rcases hlent with ⟨x, hx, hown⟩ | hown
    · obtain ⟨k, hkind, -⟩ := h.extent hx
      have hin := h.owns_page hx hkind hown
      have hsame : x.1 / 4096 = b / 4096 := by
        by_contra hne
        rcases Nat.lt_or_gt_of_ne hne with hlt | hlt
        · have hapart := h.sound.apart _ _ _ _ hkind hblock.1 hlt
          omega
        · omega
      rcases h.sound.held x hx with ⟨c', hblock', -⟩ | ⟨n, hlarge, -⟩
      · have hkinds := hblock.1.symm.trans (hsame ▸ hblock'.1)
        cases hkinds
        have hne : x.1 ≠ b := fun heq =>
          (h.sound.free c b hblock).mp hb (heq ▸ List.mem_map_of_mem hx)
        obtain ⟨hown, hown'⟩ := hown
        rw [(h.small hblock').2.1] at hown'
        have hmem := hblock'.2
        rw [hsame] at hmem
        have hsize := le_blockSize c
        rcases Nat.lt_or_gt_of_ne hne with hlt | hlt
        · have hapart := blocks_apart hmem hblock.2 hlt
          omega
        · have hapart := blocks_apart hblock.2 hmem hlt
          omega
      · have hkinds := hblock.1.symm.trans (hsame ▸ hlarge)
        cases hkinds
    · exact Set.disjoint_left.mp h.foreign hown hcovered

theorem Inv.step {call : Call} (h : Inv img l s.live s.pages s.state) (hok : call.Possible s)
    (hstep : Step img s call s') : ∃ l', Inv img l' s'.live s'.pages s'.state := by
  cases hstep with
  | malloc hrun => exact (meets_kmalloc h _ hok).post hrun
  | @free p state events hrun =>
      obtain ⟨x, hx, rfl⟩ := List.mem_map.mp hok
      obtain ⟨state', hrun', hinv⟩ := run_kfree h hx
      rw [hrun] at hrun'
      cases hrun'
      exact hinv
  | alloc hrun =>
      obtain ⟨q, map, rfl, rfl, -, -, -, hdisj, -, hmapped⟩ := (meets_allocKpage h.mapped).post hrun
      rw [Nat.mul_div_cancel q (by omega)]
      obtain ⟨-, hout⟩ := Set.disjoint_union_right.mp hdisj
      refine ⟨l, ?_, Set.disjoint_union_left.mpr ⟨h.foreign, hout⟩, h.stored, h.sound, h.fair⟩
      rwa [Set.union_right_comm]
  | @release page count state events hrun =>
      obtain ⟨hpos, hsub⟩ := hok
      obtain ⟨map, hrun', hmapped⟩ := run_freeKpage h.mapped hpos
        (hsub.trans Set.subset_union_left)
      rw [hrun] at hrun'
      cases hrun'
      refine ⟨l, ?_, h.foreign.mono_left Set.sdiff_subset, h.stored, h.sound, h.fair⟩
      rwa [Set.union_sdiff_distrib, sdiff_eq_left.mpr (h.foreign.symm.mono_right hsub)] at hmapped
  | @write mem =>
      refine ⟨l, h.mapped, h.foreign, h.stored.frame fun w hw => ?_, h.sound, h.fair⟩
      by_contra hne
      exact h.not_guarded (hok w hne) hw

theorem exists_inv {boot : Sys} (hboot : Booted img boot)
    (hrun : Run (Step img) (fun s call => call.Possible s) boot s) :
    ∃ l, Inv img l s.live s.pages s.state := by
  obtain ⟨⟨state, events, hinit⟩, hlive, hmapped⟩ := hboot
  refine hrun.invariant (P := fun s => ∃ l, Inv img l s.live s.pages s.state)
    (fun s call s' h hok hstep => ?_) ⟨.nothing, ?_⟩
  · obtain ⟨l, h⟩ := h
    exact h.step hok hstep
  · obtain ⟨mem, hinit', hstored⟩ := run_arenaInit img state
    rw [hinit] at hinit'
    rw [hlive]
    have hstate : boot.state = { state with mem := mem } :=
      congrArg (fun r => r.2.1) (Except.ok.inj hinit')
    rw [hstate] at hmapped ⊢
    exact inv_boot hmapped hstored

/-- Whatever the callers of the heap and of `alloc_kpage` do with what they were given, the
heap stays safe. -/
theorem heap_safe {boot : Sys} (hboot : Booted img boot)
    (hrun : Run (Step img) (fun s call => call.Possible s) boot s) : Safe img s := by
  obtain ⟨l, h⟩ := exists_inv hboot hrun
  exact h.safe

/-- The descriptors in low memory. -/
def lowImage : Image := ⟨0x20000, by decide, by decide, by decide⟩

/-- Kernel memory with the first page in use. -/
def firstUsed : Bitmap := ⟨putBit (fun _ => 0) 0 true, 480, 480, 256⟩

theorem mapped_firstUsed : Mapped firstUsed {256} := by
  refine ⟨rfl, rfl, le_rfl, fun q hq => ?_, fun q hq hq' => ?_⟩
  · rw [Set.mem_singleton_iff.mp hq]
    exact ⟨le_rfl, by omega⟩
  · have hzero : ∀ j, bitAt (fun _ => 0) j = false := fun j => Nat.zero_testBit (j % 8)
    change bitAt (putBit (fun _ => 0) 0 true) (q - 256) = true ↔ q = 256
    rw [bitAt_putBit, hzero]
    split
    · exact ⟨fun _ => by omega, fun _ => rfl⟩
    · exact ⟨fun hfalse => absurd hfalse Bool.false_ne_true, fun heq => by omega⟩

/-- A block of 1000 bytes is handed out after `arena_init`. -/
theorem heap_safe_malloc : ∃ s : Sys, s.live.map Prod.snd = [1000] ∧ s.pages = {256} ∧
    Safe lowImage s := by
  obtain ⟨mem, hinit, hstored⟩ := run_arenaInit lowImage ⟨firstUsed, fun _ => 0⟩
  have hboot : Booted lowImage ⟨⟨firstUsed, mem⟩, [], {256}⟩ :=
    ⟨⟨_, _, hinit⟩, rfl, mapped_firstUsed⟩
  have hinv := inv_boot (s := ⟨firstUsed, mem⟩) mapped_firstUsed hstored
  have hroom : Room ({256} ∪ Layout.nothing.covered) (pagesFor 1000) := by
    refine ⟨by decide, 257, by omega, by decide, Set.disjoint_left.mpr ?_⟩
    rintro r ⟨hr, -⟩ (heq | ⟨a, k, ⟨⟩, -⟩)
    rw [Set.mem_singleton_iff.mp heq] at hr
    omega
  obtain ⟨p, state, events, hrun, -⟩ :=
    (meets_kmalloc hinv 1000 (by omega)).returns hroom
  have hstep := Step.malloc (s := ⟨⟨firstUsed, mem⟩, [], {256}⟩) hrun
  have hok : (Call.malloc 1000).Possible ⟨⟨firstUsed, mem⟩, [], {256}⟩ := by
    change 1000 + 16 + 4095 < 2 ^ 32
    omega
  exact ⟨_, rfl, rfl, heap_safe hboot (.tail .refl hok hstep)⟩

end Ylos.Heap
