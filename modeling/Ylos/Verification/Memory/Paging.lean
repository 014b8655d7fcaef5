import Ylos.Verification.Memory.Spaces

/-! # Mapping and unmapping pages -/

namespace Ylos.Memory

open Exec

section

variable {strict : Prop} {good : Event → Prop} {s s' : State} {vaddr table i : ℕ} {w : Word}

/-- The slot that `vaddr` goes through in the running task. -/
def State.slot (s : State) (vaddr : ℕ) : Slot := (s.task.pde, DIDX vaddr)

theorem slot_mem (hcur : s.current ∈ s.live) (hv : UserAddr vaddr) : s.slot vaddr ∈ s.slots :=
  Spaces.mem_slots_self hcur (didx_of_userAddr hv)

/-! ## `get_pte` -/

/-- Frames that are in use stay so. -/
def Grown (s s' : State) : Prop := ∀ f, s.memoryMap f ≠ 0 → s'.memoryMap f ≠ 0

private theorem getPte_old (h : Inv strict s) (hcur : s.current ∈ s.live)
    (hp : (s.mem s.task.pde (DIDX vaddr)).present = true) :
    tableTarget s.mem (s.slot vaddr) = some (s.window (DIDX vaddr)) := by
  rw [window_of_self (h.spaces.task_self hcur)]
  exact Word.target_of_present hp

theorem wp_getPte_false {Q : ℕ → State → Prop} (h : Inv strict s) (hcur : s.current ∈ s.live)
    (hQ : ∀ table, tableTarget s.mem (s.slot vaddr) = some table → Q table s) :
    wp good (getPte vaddr false) Q s := by
  unfold getPte getPde getWord
  simp only [wp_bind, wp_gets, wp_check, wp_ite, window_self (h.spaces.task_self hcur)]
  intro hp
  simp only [Bool.false_eq_true, false_or] at hp
  exact ⟨fun hn => absurd hp (by simp [hn]), fun _ => hQ _ (getPte_old h hcur hp)⟩

/-- `get_pte` returns the table behind the slot of `vaddr`, which it may have made. -/
theorem wp_getPte_true {Q : ℕ → State → Prop} (h : Inv strict s) (hcur : s.current ∈ s.live)
    (hv : UserAddr vaddr)
    (hQ : ∀ table s', Inv strict s' → Steady s s' → Local s s' →
      tableTarget s'.mem (s.slot vaddr) = some table →
      (tableTarget s.mem (s.slot vaddr) = some table ∨ s.memoryMap table = 0) →
      Grown s s' → (∀ r ∈ entries s.slots, entryAt s'.mem r = entryAt s.mem r) → Q table s') :
    wp good (getPte vaddr true) Q s := by
  have hself := h.spaces.task_self hcur
  unfold getPte getPde getWord
  simp only [wp_bind, wp_gets, wp_check, wp_ite, window_self hself]
  intro _
  constructor
  · intro hblank
    refine wp_getPage h.frames fun page s₁ hlow hpage hzero hmem hmap hsteady hframes => ?_
    unfold setWord
    simp only [wp_modify]
    have hslot := slot_mem hcur hv
    have hdidx := didx_of_userAddr hv
    have hdir : s.task.pde < KERNEL_PAGES := h.spaces.pde_lt hcur
    -- The directory now refers to `page`, which is where the window shows it.
    have hwindow : (s₁.setWord s.task.pde (DIDX vaddr) (entryInit page)).window (DIDX vaddr) =
        page := by
      have htask : (s₁.setWord s.task.pde (DIDX vaddr) (entryInit page)).task = s.task :=
        hsteady.task
      rw [window_of_self, htask, State.setWord_self]
      · rfl
      · rw [htask, State.setWord_word (by omega), hmem, hself]
    rw [hwindow]
    generalize hs' : (s₁.setWord s.task.pde (DIDX vaddr) (entryInit page)).setFrame page
      (fun _ => Word.zero) = s'
    have hpde : s'.mem s.task.pde = (s₁.setWord s.task.pde (DIDX vaddr) (entryInit page)).mem
        s.task.pde := by
      rw [← hs', State.setFrame_frame (by omega)]
    have hother : ∀ f, f ≠ s.task.pde → f ≠ page → s'.mem f = s.mem f := by
      intro f hf hf'
      rw [← hs', State.setFrame_frame hf', ← hmem]
      funext j
      exact State.setWord_frame hf
    have htable : tableTarget s'.mem (s.slot vaddr) = some page := by
      rw [tableTarget, State.slot]
      simp only [hpde, State.setWord_self]
      rfl
    have hsteady' : Steady s s' := by
      rw [← hs']
      exact hsteady.trans ((Steady.setWord _ _ _ _).trans (Steady.setFrame _ _ _))
    have hframes' : Frames strict s' s.slots 0 := by
      rw [← hs']
      refine hframes.newTable hslot ?_ hlow (hsteady.totalPages ▸ hpage) ?_ fun f => by simp
      · rw [hmem]
        exact hblank
      · rw [hmap, if_pos rfl]
    have hinv : Inv strict s' := by
      refine h.of_steady hsteady' hframes' fun p hp j hj => ?_
      have hlt := h.spaces.pde_lt hp
      by_cases hpd : (s.procs p).pde = s.task.pde
      · rw [hpd, hpde, State.setWord_word (by omega), hmem]
      · rw [hother _ hpd (by omega)]
    have hwin : s'.window (DIDX vaddr) = page := by
      have htask : s'.task = s.task := hsteady'.task
      rw [window_of_self (hinv.spaces.task_self ?_), htask, hpde, State.setWord_self]
      · rfl
      · rw [hsteady'.current, hsteady'.live]
        exact hcur
    rw [hwin]
    refine hQ page s' hinv hsteady' ?_ htable (.inr hzero) ?_ fun r hr => ?_
    · intro f hf _ hcount _
      exact hother f hf fun hfp => hcount (hfp ▸ hzero)
    · intro f hf
      rw [← hs']
      change s₁.memoryMap f ≠ 0
      rw [hmap]
      split
      · exact one_ne_zero
      · exact hf
    · have hblank₁ : (s₁.mem s.task.pde (DIDX vaddr)).present = false := hmem ▸ hblank
      have hunseen := (h.frames.unseen hlow hpage (by omega)).1
      exact (hframes.entryAt_newTable (x := s.slot vaddr) hlow hs' hslot hblank₁
        (hmem ▸ hunseen) r hr).trans (by rw [hmem])
  · intro hp
    refine hQ _ s h (Steady.refl s) (fun f _ _ _ _ => rfl) ?_ (.inl ?_) (fun f hf => hf)
      (fun _ _ => rfl)
    · exact getPte_old h hcur (by simpa using hp)
    · exact getPte_old h hcur (by simpa using hp)

/-! ## `link_page` and `unlink_page` -/

/-- A write to a page table of the running task. -/
theorem Inv.write (h : Inv strict s) (hcur : s.current ∈ s.live) (hv : UserAddr vaddr)
    (ht : tableTarget s.mem (s.slot vaddr) = some table) (hsteady : Steady s s')
    (hmem : s'.mem = (s.setWord table i w).mem) (hframes : Frames strict s' s.slots 0) :
    Inv strict s' := by
  refine h.of_steady hsteady hframes fun p hp j _ => ?_
  rw [hmem]
  exact State.setWord_frame (h.table_ne_pde (slot_mem hcur hv) hp ht)

theorem local_setWord (hcur : s.current ∈ s.live) (hv : UserAddr vaddr)
    (ht : tableTarget s.mem (s.slot vaddr) = some table)
    (hmem : s'.mem = (s.setWord table i w).mem) : Local s s' := by
  intro f _ _ _ hf
  have hne : f ≠ table := fun hft => hf _ (slot_mem hcur hv) (hft ▸ ht)
  rw [hmem]
  funext j
  exact State.setWord_frame hne

theorem wp_linkPage (h : Inv strict s) (hcur : s.current ∈ s.live) (hv : UserAddr vaddr) :
    wp good (linkPage vaddr) (fun _ s' => Inv strict s' ∧ Steady s s' ∧ Local s s' ∧
      Sourced s s' ∧ Grown s s' ∧
        ∃ v, entryAt s'.mem (s.slot vaddr, TIDX vaddr) = some v) s := by
  unfold linkPage getWord
  simp only [wp_bind, wp_check]
  intro _
  refine wp_getPte_true h hcur hv fun table s₁ h₁ hsteady₁ hlocal₁ htable hfresh hpos hview => ?_
  simp only [wp_gets, wp_ite]
  refine ⟨fun hblank => ?_, fun hmapped => (wp_pure _).mpr ⟨h₁, hsteady₁, hlocal₁,
    ⟨fun r hr _ => hview r hr, fun r hr w hw => (hview r hr).trans hw,
      fun r hr f hf => .inl ?_⟩, hpos, s₁.mem table (TIDX vaddr), ?_⟩⟩
  · simp only [wp_bind]
    refine wp_getPage h₁.frames fun page s₂ hlow hpage hzero hmem hmap hsteady₂ hframes => ?_
    unfold setWord
    simp only [wp_modify]
    have hslots : s₁.slots = s.slots := hsteady₁.slots
    have hslot : s.slot vaddr ∈ s₁.slots := hslots ▸ slot_mem hcur hv
    have htable₂ : tableTarget s₂.mem (s.slot vaddr) = some table := hmem ▸ htable
    have hunseen := h₁.frames.unseen hlow hpage (by omega)
    have hframes' : Frames strict (s₂.setWord table (TIDX vaddr) (entryInit page)) s₁.slots 0 := by
      refine hframes.setEntry hslot htable₂ (tidx_lt vaddr) ?_ ?_ ?_ ?_
      · intro f
        have hold : (s₂.mem table (TIDX vaddr)).target = none := by
          rw [hmem]
          exact Word.target_of_absent hblank
        rw [hold, hit_none]
        rfl
      · exact fun _ => ⟨hlow, hsteady₂.totalPages ▸ hpage⟩
      · intro _ _ _ _
        exact (hmap page).trans_le (by rw [if_pos rfl])
      · intro _ _ r hr _ w' hw' hindex
        exact absurd hindex (hunseen.2 r hr w' (hmem ▸ hw'))
    have hsteady := hsteady₁.trans hsteady₂
    have hother : ∀ r ∈ entries s.slots, r ≠ (s.slot vaddr, TIDX vaddr) →
        entryAt (s₂.setWord table (TIDX vaddr) (entryInit page)).mem r = entryAt s.mem r := by
      intro r hr hne
      rw [hframes.entryAt_setEntry_other hslot htable₂ r (hslots ▸ hr) hne, hmem]
      exact hview r hr
    refine ⟨?_, hsteady.trans (Steady.setWord _ _ _ _), ?_,
      ⟨fun r hr hne => ?_, fun r hr w hw => ?_, fun r hr f hf => ?_⟩, fun f hf => ?_,
      entryInit page, hframes.entryAt_setEntry_self hslot htable₂⟩
    · refine h₁.of_steady (hsteady₂.trans (Steady.setWord _ _ _ _)) hframes' fun p hp j _ => ?_
      rw [State.setWord_frame (h₁.table_ne_pde hslot hp htable), hmem]
    · intro f hpde htwo hcount hf
      have hne : f ≠ table := by
        rintro rfl
        rcases hfresh with hold | hnew
        · exact hf _ (slot_mem hcur hv) hold
        · exact hcount hnew
      rw [← hlocal₁ f hpde htwo hcount hf, ← hmem]
      funext j
      exact State.setWord_frame hne
    · exact hother r hr fun heq => hne (congrArg (fun r : Slot × ℕ => r.1.1) heq)
    · rw [hother r hr, hw]
      rintro rfl
      rw [← hview _ hr, entryAt_of_table (r := (s.slot vaddr, TIDX vaddr)) htable,
        Word.seen_of_absent hblank] at hw
      cases hw
    · by_cases heq : r = (s.slot vaddr, TIDX vaddr)
      · subst r
        rw [entryTarget, hframes.entryAt_setEntry_self hslot htable₂] at hf
        obtain rfl : page = f := Option.some.inj hf
        by_contra hn
        exact hpos page (fun hzero' => hn (.inr hzero')) hzero
      · rw [entryTarget, hother r hr heq] at hf
        exact .inl hf
    · change s₂.memoryMap f ≠ 0
      rw [hmap]
      split
      · exact one_ne_zero
      · exact hpos f hf
  · rwa [entryTarget, hview r hr] at hf
  · exact (entryAt_of_table (r := (s.slot vaddr, TIDX vaddr)) htable).trans
      (Word.seen_of_present (by simpa using hmapped))

/-- `unlink_page` leaves all entries alone but one, which is blank then. -/
theorem wp_unlinkPage (h : Inv strict s) (hcur : s.current ∈ s.live) (hv : UserAddr vaddr) :
    wp good (unlinkPage vaddr) (fun _ s' => Inv strict s' ∧ Steady s s' ∧
      ∀ r ∈ entries s.slots, entryAt s'.mem r =
        if r = (s.slot vaddr, TIDX vaddr) then none else entryAt s.mem r) s := by
  have hself := h.spaces.task_self hcur
  have hslot := slot_mem hcur hv
  -- Without a page there is nothing to do.
  have hblank : entryAt s.mem (s.slot vaddr, TIDX vaddr) = none →
      ∀ r ∈ entries s.slots, entryAt s.mem r =
        if r = (s.slot vaddr, TIDX vaddr) then none else entryAt s.mem r := by
    intro hnone r _
    split
    · rename_i hr
      rw [hr, hnone]
    · rfl
  unfold unlinkPage getWord getPde
  simp only [wp_bind, wp_check, wp_gets, wp_ite, window_self hself]
  intro _
  refine ⟨fun _ => ?_, fun habsent => (wp_pure _).mpr ⟨h, Steady.refl s, hblank ?_⟩⟩
  · refine wp_getPte_false h hcur fun table ht => ?_
    have hat := entryAt_of_table (r := (s.slot vaddr, TIDX vaddr)) ht
    refine ⟨fun hp => ?_, fun hn => (wp_pure _).mpr ⟨h, Steady.refl s, hblank ?_⟩⟩
    · unfold setWord
      simp only [wp_modify]
      have hentry : entryAt s.mem (s.slot vaddr, TIDX vaddr) =
          some (s.mem table (TIDX vaddr)) := by
        rw [hat, Word.seen_of_present hp]
      have hin : (s.slot vaddr, TIDX vaddr) ∈ entries s.slots :=
        mem_entries.mpr ⟨hslot, tidx_lt vaddr⟩
      obtain ⟨hlow, _⟩ := h.frames.entry _ hin _ hentry
      -- The reference that the entry had is now in the hands of `unlink_page`.
      have hframes := h.frames.setEntry (w := { s.mem table (TIDX vaddr) with present := false })
        (e := hit (some (s.mem table (TIDX vaddr)).index)) hslot ht (tidx_lt vaddr)
        (fun f => by
          rw [Word.target_of_absent rfl, Word.target_of_present hp, hit_none, Pi.zero_apply]
          omega)
        (fun hf => absurd hf (by simp)) (fun _ hf => absurd hf (by simp))
        (fun _ hf => absurd hf (by simp))
      refine wp_putPage hframes hlow (e := 0) (fun f => by simp) ?_
      intro s' hmem hsteady hframes'
      have hsteady' : Steady s s' := (Steady.setWord s table _ _).trans hsteady
      refine ⟨h.write hcur hv ht hsteady' hmem hframes', hsteady', fun r hr => ?_⟩
      rw [hmem]
      split
      · rename_i heq
        rw [heq, h.frames.entryAt_setEntry_self hslot ht, Word.seen_of_absent rfl]
      · rename_i hne
        exact h.frames.entryAt_setEntry_other hslot ht r hr hne
    · rw [hat, Word.seen_of_absent (by simpa using hn)]
  · refine entryAt_of_blank (r := (s.slot vaddr, TIDX vaddr)) (Word.target_of_absent ?_)
    change (s.mem s.task.pde (DIDX vaddr)).present = false
    simpa using habsent

/-! ## `copy_page` -/

/-- `copy_page` puts a copy of `frame` into a free frame, with the help of the kernel's page
table for page 0. -/
theorem wp_copyPage {Q : ℕ → State → Prop} {S : Finset Slot} {extra : ℕ → ℕ} {frame : ℕ}
    (h : Frames strict s S extra) (hself : s.mem s.task.pde SELF_SLOT = entryInit s.task.pde)
    (hzero : s.mem s.task.pde 0 = kernelEntry 0) (hframe : frame ≠ 2)
    (hpos : s.memoryMap frame ≠ 0)
    (hQ : ∀ page s', KERNEL_PAGES ≤ page → page < s.totalPages → s.memoryMap page = 0 →
      s'.mem page = s.mem frame → (∀ f, f ≠ page → f ≠ 2 → s'.mem f = s.mem f) →
      (∀ f, s'.memoryMap f = if f = page then 1 else s.memoryMap f) → Steady s s' →
      Frames strict s' S (extra + hit (some page)) → Q page s') :
    wp good (copyPage frame) Q s := by
  unfold copyPage
  simp only [wp_bind]
  refine wp_getPage h fun page s₁ hlow hpage hfree hmem hmap hsteady hframes => ?_
  have htask : s₁.task = s.task := hsteady.task
  have hself₁ : s₁.mem s₁.task.pde SELF_SLOT = entryInit s₁.task.pde := by
    rw [htask, hmem]
    exact hself
  have hzero₁ : s₁.mem s₁.task.pde (DIDX 0) = kernelEntry 0 := by
    rw [htask, hmem]
    exact hzero
  have hwindow : s₁.window (DIDX 0) = 2 := by
    rw [window_of_self hself₁, hzero₁]
    rfl
  have hpresent : (s₁.mem s₁.task.pde (DIDX 0)).present = true := by
    rw [hzero₁]
    rfl
  unfold getPte getPde getWord setWord
  simp only [wp_bind, wp_gets, wp_check, wp_ite, window_self hself₁, hwindow, hpresent, wp_modify,
    wp_pure, Bool.true_eq_false, false_implies, true_and]
  intro _ _
  have hne : page ≠ 2 := by
    unfold KERNEL_PAGES at hlow
    omega
  have hfp : frame ≠ page := fun hfp => hpos (hfp ▸ hfree)
  have hunseen := h.unseen hlow hpage (by omega)
  have hkernel : (2 : ℕ) < KERNEL_PAGES := by decide
  rw [State.setWord_self]
  generalize hs' : ((s₁.setWord 2 0 (entryInit page)).setFrame (entryInit page).index
    ((s₁.setWord 2 0 (entryInit page)).mem frame)) = s₂
  have hpage₂ : s₂.mem page = s.mem frame := by
    rw [← hs', ← hmem]
    funext j
    exact (congrFun State.setFrame_self j).trans (State.setWord_frame hframe)
  have hother : ∀ f, f ≠ page → f ≠ 2 → s₂.mem f = s.mem f := by
    intro f hf hf'
    rw [← hs', ← hmem]
    funext j
    exact (congrFun (State.setFrame_frame hf) j).trans (State.setWord_frame hf')
  have hframes₂ : Frames strict s₂ S (extra + hit (some page)) := by
    rw [← hs']
    refine (hframes.setWord_other ?_ ?_).setFrame_other ?_ ?_
    · exact fun x hx hx' => absurd hx' (h.dir x hx).1
    · exact fun x hx => hframes.table_ne_kernel hkernel hx
    · exact fun x hx => h.dir_ne hlow hx
    · intro x hx
      have hx2 : (s₁.setWord 2 0 (entryInit page)).mem x.1 x.2 = s.mem x.1 x.2 := by
        rw [State.setWord_frame (h.dir x hx).1, hmem]
      rw [tableTarget, hx2]
      exact hunseen.1 x hx
  have hsteady₂ : Steady s s₂ := by
    rw [← hs']
    exact hsteady.trans ((Steady.setWord _ _ _ _).trans (Steady.setFrame _ _ _))
  have hmap₂ : ∀ f, s₂.memoryMap f = if f = page then 1 else s.memoryMap f := by
    rw [← hs']
    exact hmap
  refine hQ page _ hlow hpage hfree ?_ ?_ hmap₂ (hsteady₂.trans (Steady.setWord _ _ _ _)) ?_
  · rw [← hpage₂]
    funext j
    exact State.setWord_frame hne
  · intro f hf hf'
    rw [← hother f hf hf']
    funext j
    exact State.setWord_frame hf'
  · refine hframes₂.setWord_other ?_ ?_
    · exact fun x hx hx' => absurd hx' (h.dir x hx).1
    · exact fun x hx => hframes₂.table_ne_kernel hkernel hx

end

end Ylos.Memory
