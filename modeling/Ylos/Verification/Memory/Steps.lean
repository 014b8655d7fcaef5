import Ylos.Verification.Memory.Exit

/-! # Steps of virtual memory -/

namespace Ylos.Memory

open Exec

section

variable {strict : Prop} {good : Event → Prop} {s s' : State} {vaddr : ℕ}

/-! ## `page_fault` -/

theorem local_refl (s : State) : Local s s := fun _ _ _ _ _ => rfl

/-- The handler keeps the invariant and leaves the memory of other tasks alone. -/
theorem wp_pageFault {present write : Bool} (h : Inv strict s) (hcur : s.current ∈ s.live) :
    wp good (pageFault vaddr present write)
      (fun _ s' => Inv strict s' ∧ Local s s' ∧ s'.procs = s.procs) s := by
  unfold pageFault getWord setWord
  simp only [wp_bind, wp_gets, wp_ite]
  refine ⟨fun _ => ?_, fun hrange => ⟨fun _ => ?_, fun _ => ⟨fun _ => ?_, fun _ => wp_fault _⟩⟩⟩
  · rw [wp_check]
    intro _
    refine wp_mono (wp_taskExit h hcur) fun _ s' hexit => ?_
    obtain ⟨h', hmem, hprocs⟩ := hexit
    exact ⟨h', fun f _ _ _ _ => by rw [hmem], hprocs⟩
  · have hv : UserAddr vaddr := by
      unfold UserAddr WINDOW
      unfold USER_STACK_TOP at hrange
      omega
    rw [wp_check]
    intro _
    refine wp_getPte_false h hcur fun table ht => ?_
    simp only [wp_check, wp_modify]
    intro hp hshared _ hpos
    have hslot := slot_mem hcur hv
    have hentry : entryAt s.mem (s.slot vaddr, TIDX vaddr) = some (s.mem table (TIDX vaddr)) := by
      rw [entryAt_of_table (r := (s.slot vaddr, TIDX vaddr)) ht, Word.seen_of_present hp]
    have hin : (s.slot vaddr, TIDX vaddr) ∈ entries s.slots :=
      mem_entries.mpr ⟨hslot, tidx_lt vaddr⟩
    generalize hold : s.mem table (TIDX vaddr) = entry at hp hshared hpos hentry ⊢
    obtain ⟨hlow, hhigh⟩ := h.frames.entry _ hin _ hentry
    constructor
    · intro hone
      have hframes := h.frames.retouch (w := { entry with write := true }) hslot ht
        (tidx_lt vaddr) (congrArg Word.present hold).symm (congrArg Word.index hold).symm
        (fun _ _ => .inl (congrArg Word.shared hold).symm) (fun _ _ _ _ => hone.le)
      exact ⟨h.write hcur hv ht (Steady.setWord _ _ _ _) rfl hframes,
        local_setWord hcur hv ht rfl, rfl⟩
    · intro hmany
      have hself := h.spaces.task_self hcur
      refine wp_copyPage h.frames hself (h.spaces.low _ hcur 0 (by decide)) ?_ (by omega)
        fun page s₁ hplow hpage hfree hcontent hother hmap hsteady hframes => ?_
      · unfold KERNEL_PAGES at hlow
        omega
      · have hep : entry.index ≠ page := by
          rintro hep
          rw [hep] at hpos
          omega
        have hdir : s.task.pde < KERNEL_PAGES := h.spaces.pde_lt hcur
        have hpde₁ : ∀ p ∈ s.live, s₁.mem (s.procs p).pde = s.mem (s.procs p).pde := fun p hp =>
          hother _ (by have hlt := h.spaces.pde_lt hp; omega) (h.spaces.pde_ne_two hp)
        have htable := h.frames.table _ hslot _ ht
        have htp : table ≠ page := by
          rintro rfl
          omega
        have ht₁ : tableTarget s₁.mem (s.slot vaddr) = some table := by
          rw [tableTarget, State.slot]
          simp only [State.task, hpde₁ _ hcur]
          exact ht
        have hold₁ : s₁.mem table (TIDX vaddr) = entry := by
          rw [hother table htp (by unfold KERNEL_PAGES at htable; omega), hold]
        have hunseen := hframes.unseen hplow (hsteady.totalPages ▸ hpage) (by
          rw [hmap, if_pos rfl, Pi.add_apply, hit_self]
          omega)
        have hframes₂ := hframes.setEntry (w := entryInit page) (e := hit (some entry.index))
          hslot ht₁ (tidx_lt vaddr)
          (fun f => by
            rw [hold₁, Word.target_of_present hp, Word.target_of_present rfl]
            simp only [Pi.add_apply, Pi.zero_apply, Nat.zero_add]
            exact Nat.add_comm _ _)
          (fun _ => ⟨hplow, hsteady.totalPages ▸ hpage⟩)
          (fun _ _ _ _ => (hmap page).trans_le (by rw [if_pos rfl]))
          (fun _ _ r hr _ w' hw' hindex => absurd hindex (hunseen.2 r hr w' hw'))
        have hpos₁ : 1 ≤ s₁.memoryMap entry.index := by
          rw [hmap, if_neg hep]
          exact hpos
        have hframes₃ := hframes₂.drop (e := 0) hlow (fun f => by simp) hpos₁
        have hsteady' : Steady s ((s₁.setCount entry.index (s₁.memoryMap entry.index - 1)).setWord
            table (TIDX vaddr) (entryInit page)) :=
          hsteady.trans ((Steady.setCount _ _ _).trans (Steady.setWord _ _ _ _))
        refine ⟨h.of_steady hsteady' hframes₃ fun p hp j _ => ?_, ?_, hsteady'.procs⟩
        · exact (State.setWord_frame (h.table_ne_pde hslot hp ht)).trans (congrFun (hpde₁ p hp) j)
        · intro f _ hf2 hcount hf
          have hfp : f ≠ page := fun hfp => hcount (hfp ▸ hfree)
          have hft : f ≠ table := fun hft => hf _ hslot (hft ▸ ht)
          rw [← hother f hfp hf2]
          funext j
          exact State.setWord_frame hft
  · have hv : UserAddr (IDX vaddr * PAGE_SIZE) := by
      unfold UserAddr WINDOW IDX PAGE_SIZE
      unfold USER_STACK_TOP USER_EXEC_ADDR at hrange
      unfold USER_EXEC_ADDR
      omega
    refine wp_mono (wp_linkPage h hcur hv) fun _ s' hlinked => ?_
    obtain ⟨h', hsteady, hlocal, -⟩ := hlinked
    exact ⟨h', hlocal, hsteady.procs⟩

/-! ## System calls -/

/-- The invariant still holds, for the same live tasks. -/
structure Kept (strict : Prop) (s s' : State) : Prop where
  inv : Inv strict s'
  live : s'.live = s.live
  current : s'.current = s.current

theorem Kept.trans {s'' : State} (h : Kept strict s s') (h' : Kept strict s' s'') :
    Kept strict s s'' :=
  ⟨h'.inv, h'.live.trans h.live, h'.current.trans h.current⟩

theorem Kept.running (h : Kept strict s s') (hcur : s.current ∈ s.live) :
    s'.current ∈ s'.live := by
  rw [h.live, h.current]
  exact hcur

/-- A task may change, but not its kernel pages. -/
theorem Kept.setProc (h : Inv strict s) {p : ℕ} {v : Proc} (hpde : v.pde = (s.procs p).pde)
    (hvmap : v.vmapPage = (s.procs p).vmapPage) (hv : p ∈ s.live → v.Valid) :
    Kept strict s (s.setProc p v) := by
  have hpdes : ∀ q, ((s.setProc p v).procs q).pde = (s.procs q).pde := by
    intro q
    change (if q = p then v else s.procs q).pde = _
    split
    · rename_i hqp
      rw [hqp, hpde]
    · rfl
  have hvmaps : ∀ q, ((s.setProc p v).procs q).vmapPage = (s.procs q).vmapPage := by
    intro q
    change (if q = p then v else s.procs q).vmapPage = _
    split
    · rename_i hqp
      rw [hqp, hvmap]
    · rfl
  have hslots : (s.setProc p v).slots = s.slots := by
    unfold State.slots
    simp only [hpdes]
    rfl
  refine ⟨⟨hslots ▸ h.frames.congr rfl rfl rfl, ?_⟩, rfl, rfl⟩
  constructor
  all_goals try simp only [hpdes, hvmaps]
  · exact h.spaces.offset
  · exact h.spaces.length
  · exact h.spaces.size
  · intro q hq
    change (if q = p then v else s.procs q).Valid
    split
    · rename_i hqp
      exact hv (hqp ▸ hq)
    · exact h.spaces.valid q hq
  · exact h.spaces.pde
  · exact h.spaces.vmapPage
  · exact h.spaces.pde_inj
  · exact h.spaces.vmapPage_inj
  · exact h.spaces.pde_ne
  · exact h.spaces.self
  · exact h.spaces.low

/-- `vmap` may change, but not its shape. -/
theorem Kept.setVmap (h : Inv strict s) {p : ℕ} {map : Bitmap}
    (hmap : map.offset = (s.procs p).vmap.offset ∧ map.length = (s.procs p).vmap.length ∧
      map.size = (s.procs p).vmap.size) :
    Kept strict s (s.setProc p { s.procs p with vmap := map }) := by
  refine Kept.setProc h rfl rfl fun hp => ?_
  have hv := h.spaces.valid p hp
  exact ⟨hmap.1.trans hv.offset, hmap.2.1.trans hv.length, hmap.2.2.trans hv.size, hv.endAddr,
    hv.brk⟩

theorem Kept.steady (h : Inv strict s') (hs : Steady s s') : Kept strict s s' :=
  ⟨h, hs.live, hs.current⟩

theorem wp_linkPage_kept (h : Inv strict s) (hcur : s.current ∈ s.live) (hv : UserAddr vaddr) :
    wp good (linkPage vaddr) (fun _ => Kept strict s) s :=
  wp_mono (wp_linkPage h hcur hv) fun _ _ h' => .steady h'.1 h'.2.1

theorem wp_unlinkPage_kept (h : Inv strict s) (hcur : s.current ∈ s.live)
    (hv : UserAddr vaddr) : wp good (unlinkPage vaddr) (fun _ => Kept strict s) s :=
  wp_mono (wp_unlinkPage h hcur hv) fun _ _ h' => .steady h'.1 h'.2.1

/-- The pages that `vmap` has bits for. -/
def MmapAddr (vaddr : ℕ) : Prop := USER_MMAP_ADDR ≤ vaddr ∧ vaddr < USER_STACK_TOP

theorem MmapAddr.userAddr (h : MmapAddr vaddr) : UserAddr vaddr := by
  unfold MmapAddr USER_MMAP_ADDR USER_STACK_TOP at h
  unfold UserAddr USER_EXEC_ADDR WINDOW
  omega

theorem MmapAddr.next (h : MmapAddr vaddr) (hpage : vaddr % PAGE_SIZE = 0) :
    (USER_MMAP_ADDR ≤ u32 (vaddr + PAGE_SIZE) ∧ u32 (vaddr + PAGE_SIZE) ≤ USER_STACK_TOP) ∧
      u32 (vaddr + PAGE_SIZE) % PAGE_SIZE = 0 := by
  unfold MmapAddr USER_MMAP_ADDR USER_STACK_TOP at h
  unfold PAGE_SIZE at hpage
  unfold u32 USER_MMAP_ADDR USER_STACK_TOP PAGE_SIZE
  omega

theorem MmapAddr.of_bit (h : Proc.Valid (s.procs s.current)) (hlow : USER_MMAP_ADDR ≤ vaddr)
    (hbit : (IDX vaddr - s.task.vmap.offset) / 8 < PAGE_SIZE) : MmapAddr vaddr := by
  have hoffset : s.task.vmap.offset = IDX USER_MMAP_ADDR := h.offset
  rw [hoffset] at hbit
  unfold IDX USER_MMAP_ADDR PAGE_SIZE at hbit
  unfold USER_MMAP_ADDR at hlow
  unfold MmapAddr USER_MMAP_ADDR USER_STACK_TOP
  omega

/-- Without writing beyond its page, `vmap` gets a bit for a page that it is about. -/
theorem wp_vmapSet (hgood : ∀ e, good e → Calm strict e) (h : Inv strict s)
    (hcur : s.current ∈ s.live) (hlow : USER_MMAP_ADDR ≤ vaddr) :
    wp good (vmapSet (IDX vaddr)) (fun _ s' => Kept strict s s' ∧ MmapAddr vaddr) s := by
  have hv := h.spaces.valid _ hcur
  have hoffset : s.task.vmap.offset = IDX USER_MMAP_ADDR := hv.offset
  have hsize : s.task.vmap.size = PAGE_SIZE := hv.size
  have hle : IDX USER_MMAP_ADDR ≤ IDX vaddr := Nat.div_le_div_right hlow
  unfold vmapSet
  simp only [wp_bind, wp_gets, wp_ite]
  constructor
  · intro _
    rw [wp_note]
    exact fun hbeyond => (hgood _ hbeyond).elim
  · intro hin
    rw [wp_lift]
    intro map hmap
    rw [wp_modify]
    have hbit : (IDX vaddr - s.task.vmap.offset) / 8 < PAGE_SIZE := by omega
    refine ⟨Kept.setVmap h ?_, MmapAddr.of_bit hv hlow hbit⟩
    rw [bitmapSet_eq_ok hmap]
    exact ⟨rfl, rfl, rfl⟩

/-- What the rest of a round of `sys_mmap` does after the page is linked and its bit is set. -/
theorem wp_grant {prot : Prot} {Q : Unit → State → Prop} {rest : M Unit}
    (hregrant : good .regrant → ¬strict) (h : Inv strict s) (hcur : s.current ∈ s.live)
    (huser : UserAddr vaddr)
    (hQ : ∀ s', Inv strict s' → Steady s s' → (∀ r ∈ entries s.slots,
      (entryAt s'.mem r).isSome = (entryAt s.mem r).isSome) → wp good rest Q s') :
    wp good (do
      let table ← getPte vaddr false
      let entry ← getWord table (TIDX vaddr)
      let count ← gets (·.memoryMap entry.index)
      if 2 ≤ count ∧ entry.shared = false ∧ (prot.write ∨ prot.shared) then note .regrant
      setWord table (TIDX vaddr) (prot.apply entry)
      rest) Q s := by
  unfold getWord setWord
  simp only [wp_bind]
  refine wp_getPte_false h hcur fun table ht => ?_
  simp only [wp_gets, wp_ite, wp_bind, wp_note, wp_modify]
  have hslot := slot_mem hcur huser
  generalize hold : s.mem table (TIDX vaddr) = entry
  -- Whether or not the event is raised, what remains is the write and the rest of the loop.
  suffices hwrite : (2 ≤ s.memoryMap entry.index ∧ entry.shared = false ∧
      (prot.write = true ∨ prot.shared = true) → ¬strict) →
      wp good rest Q (s.setWord table (TIDX vaddr) (prot.apply entry)) from
    ⟨fun _ he => hwrite fun _ => hregrant he, fun hn => hwrite fun hc => absurd hc hn⟩
  intro hshare
  have hframes := h.frames.retouch (w := prot.apply entry) hslot ht (tidx_lt vaddr)
    (congrArg Word.present hold).symm (congrArg Word.index hold).symm
    (fun hstrict _ => by
      by_cases hone : s.memoryMap entry.index ≤ 1
      · exact .inr hone
      · left
        rw [hold]
        cases hshared : entry.shared with
        | true => simp [Prot.apply, hshared]
        | false =>
            have hno : prot.shared ≠ true := fun hps =>
              hshare ⟨by omega, hshared, .inr hps⟩ hstrict
            simp [Prot.apply, hshared, hno])
    (fun hstrict _ hw hshared => by
      by_contra hmany
      have hes : entry.shared = false := by
        simp only [Prot.apply, Bool.or_eq_false_iff] at hshared
        exact hshared.2
      exact hshare ⟨by simp only [Prot.apply] at hmany; omega, hes, .inl hw⟩ hstrict)
  refine hQ _ (h.write hcur huser ht (Steady.setWord _ _ _ _) rfl hframes)
    (Steady.setWord _ _ _ _) fun r hr => ?_
  by_cases heq : r = (s.slot vaddr, TIDX vaddr)
  · rw [heq, h.frames.entryAt_setEntry_self hslot ht,
      entryAt_of_table (r := (s.slot vaddr, TIDX vaddr)) ht, hold, Word.seen, Word.seen]
    change (if entry.present = true then _ else _ : Option Word).isSome = _
    split <;> rfl
  · rw [h.frames.entryAt_setEntry_other hslot ht r hr heq]

theorem wp_mmapLoop {prot : Prot} {n : ℕ} (hgood : ∀ e, good e → Calm strict e)
    (h : Inv strict s) (hcur : s.current ∈ s.live)
    (hv : USER_MMAP_ADDR ≤ vaddr ∧ vaddr ≤ USER_STACK_TOP) (hpage : vaddr % PAGE_SIZE = 0) :
    wp good (mmapLoop prot vaddr n) (fun _ => Kept strict s) s := by
  induction n generalizing s vaddr with
  | zero => exact (wp_pure _).mpr ⟨h, rfl, rfl⟩
  | succ n ih =>
      have huser : UserAddr vaddr := by
        unfold USER_MMAP_ADDR USER_STACK_TOP at hv
        unfold UserAddr USER_EXEC_ADDR WINDOW
        omega
      unfold mmapLoop
      rw [wp_bind]
      refine wp_mono (wp_linkPage_kept h hcur huser) fun _ s₁ h₁ => ?_
      rw [wp_bind]
      refine wp_mono (wp_vmapSet hgood h₁.inv (h₁.running hcur) hv.1) fun _ s₂ ⟨h₂, haddr⟩ => ?_
      have hk₂ := h₁.trans h₂
      refine wp_grant (fun he => hgood _ he) hk₂.inv (hk₂.running hcur) huser
        fun s₃ h₃ hsteady _ => ?_
      have hk₃ : Kept strict s s₃ := hk₂.trans (.steady h₃ hsteady)
      exact wp_mono (ih hk₃.inv (hk₃.running hcur) (haddr.next hpage).1 (haddr.next hpage).2)
        fun _ _ h' => hk₃.trans h'

theorem wp_munmapLoop {n : ℕ} (h : Inv strict s) (hcur : s.current ∈ s.live)
    (hv : USER_MMAP_ADDR ≤ vaddr ∧ vaddr ≤ USER_STACK_TOP) (hpage : vaddr % PAGE_SIZE = 0) :
    wp good (munmapLoop vaddr n) (fun _ => Kept strict s) s := by
  induction n generalizing s vaddr with
  | zero => exact (wp_pure _).mpr ⟨h, rfl, rfl⟩
  | succ n ih =>
      have huser : UserAddr vaddr := by
        unfold USER_MMAP_ADDR USER_STACK_TOP at hv
        unfold UserAddr USER_EXEC_ADDR WINDOW
        omega
      unfold munmapLoop
      simp only [wp_bind]
      refine wp_mono (wp_unlinkPage_kept h hcur huser) fun _ s₁ h₁ => ?_
      simp only [wp_gets, wp_lift, wp_check, wp_modify]
      intro b hb _ map hmap
      have hcur₁ := h₁.running hcur
      have hvalid := h₁.inv.spaces.valid _ hcur₁
      have hlength : s₁.task.vmap.length = PAGE_SIZE := hvalid.length
      have haddr : MmapAddr vaddr :=
        MmapAddr.of_bit hvalid hv.1 (hlength ▸ (bitmapTest_eq_ok hb).2)
      have hk₂ : Kept strict s (s₁.setProc s₁.current { s₁.procs s₁.current with vmap := map }) := by
        refine h₁.trans (Kept.setVmap h₁.inv ?_)
        rw [bitmapSet_eq_ok hmap]
        exact ⟨rfl, rfl, rfl⟩
      refine wp_mono (ih hk₂.inv (hk₂.running hcur) (haddr.next hpage).1 (haddr.next hpage).2)
        fun _ _ h' => hk₂.trans h'

theorem wp_unlinkLoop {n : ℕ} (h : Inv strict s) (hcur : s.current ∈ s.live)
    (hv : USER_EXEC_ADDR ≤ vaddr ∧ vaddr + n * PAGE_SIZE < WINDOW) :
    wp good (unlinkLoop vaddr n) (fun _ s' => Kept strict s s' ∧ s'.procs = s.procs) s := by
  induction n generalizing s vaddr with
  | zero => exact (wp_pure _).mpr ⟨⟨h, rfl, rfl⟩, rfl⟩
  | succ n ih =>
      unfold unlinkLoop
      rw [wp_bind]
      refine wp_mono (wp_unlinkPage h hcur ⟨hv.1, by omega⟩) fun _ s₁ hunlinked => ?_
      obtain ⟨h₁, hsteady, -⟩ := hunlinked
      have hk : Kept strict s s₁ := .steady h₁ hsteady
      have hnext : USER_EXEC_ADDR ≤ vaddr + PAGE_SIZE ∧
          vaddr + PAGE_SIZE + n * PAGE_SIZE < WINDOW := by
        unfold PAGE_SIZE at hv ⊢
        omega
      exact wp_mono (ih h₁ (hk.running hcur) hnext) fun _ _ h' =>
        ⟨hk.trans h'.1, h'.2.trans hsteady.procs⟩

theorem wp_sysBrk {addr : ℕ} (h : Inv strict s) (hcur : s.current ∈ s.live) :
    wp good (sysBrk addr) (fun _ => Kept strict s) s := by
  have hvalid := h.spaces.valid _ hcur
  unfold sysBrk
  simp only [wp_bind, wp_gets, wp_check, wp_ite, wp_modify]
  intro _ _ haddr
  have hend : USER_EXEC_ADDR ≤ s.task.endAddr := hvalid.endAddr
  have hbrk : s.task.brk ≤ USER_MMAP_ADDR := hvalid.brk
  -- The new end of the heap is a good one, for a task that has not changed since.
  have hset : ∀ s₁, Kept strict s s₁ → s₁.procs = s.procs →
      Kept strict s (s₁.setProc s.current { s₁.procs s.current with brk := addr }) := by
    intro s₁ hk hprocs
    refine hk.trans (Kept.setProc hk.inv rfl rfl fun _ => ?_)
    rw [hprocs]
    exact ⟨hvalid.offset, hvalid.length, hvalid.size, hvalid.endAddr, haddr.2⟩
  refine ⟨fun hlt => ?_, fun _ => ⟨fun _ => hset s ⟨h, rfl, rfl⟩ rfl,
    fun _ => (wp_pure _).mpr ⟨h, rfl, rfl⟩⟩⟩
  refine wp_mono (wp_unlinkLoop h hcur ⟨hend.trans haddr.1, ?_⟩) fun _ s₁ hunlinked =>
    hset s₁ hunlinked.1 hunlinked.2
  unfold USER_MMAP_ADDR at hbrk
  unfold pagesIn u32 PAGE_SIZE WINDOW
  omega

theorem wp_sysMmap {addr length : ℕ} {prot : Prot} (hgood : ∀ e, good e → Calm strict e)
    (h : Inv strict s) (hcur : s.current ∈ s.live) :
    wp good (sysMmap addr length prot) (fun _ => Kept strict s) s := by
  unfold sysMmap
  simp only [wp_bind, wp_check, wp_gets, wp_ite, wp_lift, wp_modify, wp_pure]
  intro hpage
  -- From here on the pages to map are known.
  have hloop : ∀ s₁ v, Kept strict s s₁ → v % PAGE_SIZE = 0 →
      USER_MMAP_ADDR ≤ v ∧ v < USER_STACK_BOTTOM →
      wp good (mmapLoop prot v (pagesIn length)) (fun _ => Kept strict s) s₁ := by
    intro s₁ v hk hv hrange
    refine wp_mono (wp_mmapLoop hgood hk.inv (hk.running hcur) ⟨hrange.1, ?_⟩ hv) fun _ _ h' =>
      hk.trans h'
    exact hrange.2.le.trans (Nat.sub_le _ _)
  constructor
  · rintro _ _ ⟨index, map⟩ hscan _ hrange
    refine hloop _ _ (Kept.setVmap h (bitmapScan_eq_ok hscan)) ?_ hrange
    exact Nat.mul_mod_left _ _
  · intro _ hrange
    exact hloop s addr ⟨h, rfl, rfl⟩ hpage hrange

theorem wp_sysMunmap {addr length : ℕ} (h : Inv strict s) (hcur : s.current ∈ s.live) :
    wp good (sysMunmap addr length) (fun _ => Kept strict s) s := by
  unfold sysMunmap
  simp only [wp_bind, wp_check]
  intro hrange hpage
  exact wp_munmapLoop h hcur ⟨hrange.1, hrange.2.le.trans (Nat.sub_le _ _)⟩ hpage

/-! ## User code -/

/-- What user code may access outside the window is behind an entry of a user slot. -/
theorem permits_entry (h : Inv strict s) (hcur : s.current ∈ s.live) {write : Bool}
    (hlow : vaddr < WINDOW) (hp : s.permits s.task.pde vaddr write = true) :
    UserAddr vaddr ∧ entryAt s.mem (s.slot vaddr, TIDX vaddr) =
      some (s.walk s.task.pde vaddr).2 ∧
      (write = true → (s.walk s.task.pde vaddr).2.write = true) := by
  simp only [State.permits, State.mapped, Bool.and_eq_true, Bool.or_eq_true,
    Bool.not_eq_true'] at hp
  obtain ⟨⟨⟨⟨hpd, hpt⟩, hud⟩, _⟩, hw⟩ := hp
  have hexec : USER_EXEC_ADDR ≤ vaddr := by
    by_contra hlt
    have hslot : DIDX vaddr < KERNEL_SLOTS := by
      unfold USER_EXEC_ADDR at hlt
      unfold DIDX KERNEL_SLOTS
      omega
    have hkernel : s.mem s.task.pde (DIDX vaddr) = kernelEntry (DIDX vaddr) :=
      h.spaces.low _ hcur _ hslot
    simp only [State.walk, hkernel] at hud
    cases hud
  have htable : tableTarget s.mem (s.slot vaddr) = some (s.walk s.task.pde vaddr).1.index :=
    Word.target_of_present hpd
  refine ⟨⟨hexec, hlow⟩, ?_, fun hwrite => ?_⟩
  · rw [entryAt_of_table (r := (s.slot vaddr, TIDX vaddr)) htable]
    exact Word.seen_of_present hpt
  · rcases hw with hw | hw
    · rw [hwrite] at hw
      cases hw
    · exact hw.2

/-- A write to a mapped page is no write to a directory or to a page table. -/
theorem Inv.store (h : Inv strict s) {r : Slot × ℕ} (hr : r ∈ entries s.slots) {v w : Word}
    {i : ℕ} (hv : entryAt s.mem r = some v) : Inv strict (s.setWord v.index i w) := by
  obtain ⟨hlow, _⟩ := h.frames.entry r hr v hv
  refine h.of_steady (Steady.setWord _ _ _ _) (h.frames.setWord_other ?_ ?_) fun p hp j _ => ?_
  · exact fun x hx hxv => absurd hxv (h.frames.dir_ne hlow hx)
  · exact fun x hx ht => h.frames.index_ne_table hx ht hr hv rfl
  · have hlt := h.spaces.pde_lt hp
    exact State.setWord_frame (by omega)

/-- Nor does it change what the entries are. -/
theorem Inv.entryAt_store (h : Inv strict s) {r : Slot × ℕ} (hr : r ∈ entries s.slots)
    {v w : Word} {i : ℕ} (hv : entryAt s.mem r = some v) :
    ∀ r' ∈ entries s.slots, entryAt (s.setWord v.index i w).mem r' = entryAt s.mem r' := by
  intro r' hr'
  have hslot := (mem_entries.mp hr').1
  refine entryAt_congr ?_ fun table ht => ?_
  · rw [tableTarget, tableTarget,
      State.setWord_frame (h.frames.dir_ne (h.frames.entry r hr v hv).1 hslot)]
  · exact State.setWord_frame fun heq => h.frames.index_ne_table hslot (heq ▸ ht) hr hv rfl

theorem wp_load (h : Inv strict s) (hcur : s.current ∈ s.live) :
    wp good (load vaddr) (fun _ => Inv strict) s := by
  unfold load
  simp only [wp_bind, wp_get, wp_ite]
  exact ⟨fun _ => (wp_pure _).mpr h, fun _ => wp_mono (wp_pageFault h hcur) fun _ _ h' => h'.1⟩

theorem wp_store {w : Word} (hgood : ∀ e, good e → Calm strict e) (h : Inv strict s)
    (hcur : s.current ∈ s.live) : wp good (store vaddr w) (fun _ => Inv strict) s := by
  unfold store setWord
  simp only [wp_bind, wp_get, wp_ite, wp_note, wp_modify]
  refine ⟨fun hp => ⟨fun _ hwindow => (hgood _ hwindow).elim, fun hlow => ?_⟩,
    fun _ => wp_mono (wp_pageFault h hcur) fun _ _ h' => h'.1⟩
  obtain ⟨hv, hentry, _⟩ := permits_entry h hcur (by omega) hp
  exact h.store (mem_entries.mpr ⟨slot_mem hcur hv, tidx_lt vaddr⟩) hentry

/-! ## Runs -/

theorem wp_code {a : Action} (hgood : ∀ e, good e → Calm strict e) (h : Inv strict s)
    (ha : a.Possible s) : wp good a.code (fun _ => Inv strict) s := by
  cases a with
  | link vaddr => exact wp_mono (wp_linkPage_kept h ha.1 ha.2) fun _ _ h' => h'.inv
  | unlink vaddr => exact wp_mono (wp_unlinkPage_kept h ha.1 ha.2) fun _ _ h' => h'.inv
  | brk addr => exact wp_mono (wp_sysBrk h ha) fun _ _ h' => h'.inv
  | mmap addr length prot =>
      simp only [Action.code, wp_bind, wp_pure]
      exact wp_mono (wp_sysMmap hgood h ha.1) fun _ _ h' => h'.inv
  | munmap addr length => exact wp_mono (wp_sysMunmap h ha.1) fun _ _ h' => h'.inv
  | fork child => exact wp_taskFork h ha.1 ha.2.1
  | exit => exact wp_mono (wp_taskExit h ha) fun _ _ h' => h'.1
  | load vaddr => exact wp_load h ha.1
  | store vaddr w => exact wp_store hgood h ha.1
  | switch p =>
      refine (wp_modify _).mpr ⟨h.frames.congr rfl rfl rfl, ?_⟩
      exact ⟨h.spaces.offset, h.spaces.length, h.spaces.size, h.spaces.valid, h.spaces.pde,
        h.spaces.vmapPage, h.spaces.pde_inj, h.spaces.vmapPage_inj, h.spaces.pde_ne,
        h.spaces.self, h.spaces.low⟩
  | kalloc =>
      simp only [Action.code, wp_bind, wp_pure]
      exact wp_allocKpage h.spaces fun _ map _ _ _ hspaces =>
        ⟨h.frames.congr rfl rfl rfl, hspaces⟩
  | kfree page =>
      refine wp_freeKpage h.spaces.offset fun bits hpage hbits => ⟨h.frames.congr rfl rfl rfl, ?_⟩
      refine h.spaces.of_map rfl rfl (fun _ hp => hp) rfl rfl rfl ?_
      rintro p hp q hq ⟨hlow, hhigh, hbit⟩
      have hne : q ≠ page := by
        rcases hq with rfl | rfl
        · exact (ha p hp).1.symm
        · exact (ha p hp).2.symm
      refine ⟨hlow, hhigh, ?_⟩
      change bitAt bits (q - 256) = true
      rw [hbits, if_neg (by omega)]
      exact hbit

theorem step_inv {a : Action × List Event} (h : Inv strict s) (hcalm : ∀ e ∈ a.2, Calm strict e)
    (hstep : Step s a s') : Inv strict s' :=
  wp_code (fun _ he => he) h hstep.1 () s' a.2 hstep.2 hcalm

end

end Ylos.Memory
