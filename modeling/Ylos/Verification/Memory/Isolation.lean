import Ylos.Verification.Memory.Counts

/-! # Copy on write -/

namespace Ylos.Memory

open Exec

variable {s s₀ s' : State} {vaddr : ℕ} {w : Word}

/-! ## What a store of another task leaves alone -/

/-- What the entry `r` of another task's tables maps does not change in a step that is
local. -/
theorem Local.view {strict : Prop} (hlocal : Local s s') (h : Inv strict s)
    (hcur : s.current ∈ s.live) {q : ℕ} (hq : q ∈ s.live) (hne : q ≠ s.current) {i t : ℕ}
    (hr : (((s.procs q).pde, i), t) ∈ entries s.slots) {v : Word}
    (hv : entryAt s.mem (((s.procs q).pde, i), t) = some v) :
    entryAt s'.mem (((s.procs q).pde, i), t) = some v ∧ s'.mem v.index = s.mem v.index := by
  have hpde : (s.procs q).pde ≠ s.task.pde := fun heq => hne (h.spaces.pde_inj q hq _ hcur heq)
  have hslot := (mem_entries.mp hr).1
  have hdir : s'.mem (s.procs q).pde = s.mem (s.procs q).pde := by
    refine hlocal _ hpde (h.spaces.pde_ne_two hq) ?_ ?_
    · have hone := h.frames.kernel _ (h.spaces.pde_lt hq)
      omega
    · intro j hj ht
      exact h.table_ne_pde hj hq ht rfl
  have hmine : ∀ j, (s.task.pde, j) ∈ s.slots → ((s.procs q).pde, i) ≠ (s.task.pde, j) :=
    fun j _ heq => hpde (Prod.mk.inj heq).1
  have htable : ∀ table, tableTarget s.mem ((s.procs q).pde, i) = some table →
      s'.mem table = s.mem table := by
    intro table ht
    obtain ⟨hlow, _, hone⟩ := h.frames.table _ hslot _ ht
    have hlt : s.task.pde < KERNEL_PAGES := h.spaces.pde_lt hcur
    refine hlocal table (by omega) (by unfold KERNEL_PAGES at hlow; omega) (by omega) ?_
    intro j hj ht'
    exact hmine j hj (h.frames.table_unique hslot hj ht ht')
  have hpage : s'.mem v.index = s.mem v.index := by
    obtain ⟨hlow, _⟩ := h.frames.entry _ hr _ hv
    have hlt : s.task.pde < KERNEL_PAGES := h.spaces.pde_lt hcur
    have hpos := h.frames.entry_pos hr hv
    refine hlocal v.index (by omega) (by unfold KERNEL_PAGES at hlow; omega) (by omega) ?_
    intro j hj ht
    exact h.frames.index_ne_table hj ht hr hv rfl
  refine ⟨?_, hpage⟩
  rw [← hv]
  refine entryAt_congr ?_ fun table ht => by rw [htable table ht]
  rw [tableTarget, tableTarget]
  exact congrArg Word.target (congrFun hdir i)

/-- A store by the running task does not change what another task sees through an entry
that is not shared. -/
theorem wp_store_other {good : Event → Prop} (hgood : ∀ e, good e → Calm True e)
    (h : Inv True s) (hcur : s.current ∈ s.live) {q : ℕ} (hq : q ∈ s.live)
    (hne : q ≠ s.current) {i t : ℕ} (hr : (((s.procs q).pde, i), t) ∈ entries s.slots) {v : Word}
    (hv : entryAt s.mem (((s.procs q).pde, i), t) = some v) (hshared : v.shared = false) :
    wp good (store vaddr w) (fun _ s' =>
      entryAt s'.mem (((s.procs q).pde, i), t) = some v ∧ s'.mem v.index = s.mem v.index) s := by
  unfold store setWord
  simp only [wp_bind, wp_get, wp_ite, wp_note, wp_modify]
  refine ⟨fun hp => ⟨fun _ hwindow => (hgood _ hwindow).elim, fun hlow => ?_⟩,
    fun _ => wp_mono (wp_pageFault h hcur) fun _ _ h' => h'.2.1.view h hcur hq hne hr hv⟩
  obtain ⟨huser, hentry, hwrite⟩ := permits_entry h hcur (by omega) hp
  have hin : (s.slot vaddr, TIDX vaddr) ∈ entries s.slots :=
    mem_entries.mpr ⟨slot_mem hcur huser, tidx_lt vaddr⟩
  generalize (s.walk s.task.pde vaddr).2 = u at hentry hwrite ⊢
  -- Two entries of different tasks that map the same page are both shared, or not writable.
  have hindex : v.index ≠ u.index := by
    intro hvu
    have hsame := h.frames.uniform trivial _ hin _ hr u v hentry hv hvu.symm
    have hone := h.frames.cow trivial _ hin u hentry (hwrite rfl) (hsame.trans hshared)
    have heq := h.frames.entry_unique hin hr hentry hv hvu hone
    have hpde : s.task.pde = (s.procs q).pde := congrArg (fun r : Slot × ℕ => r.1.1) heq
    exact hne (h.spaces.pde_inj q hq _ hcur hpde.symm)
  refine ⟨(h.entryAt_store hin hentry _ hr).trans hv, ?_⟩
  funext j
  exact State.setWord_frame hindex

/-- As long as no `sys_mmap` goes past the page of `vmap` or makes a page with other mappings
writable or shared, and user code does not write through the window, a page with several
mappings is writable through shared entries only, and no store changes what another task sees
through an entry that is not shared. -/
theorem copy_on_write (h₀ : Fresh s₀) (hrun : Run Step (fun _ a => a.2 = []) s₀ s) :
    (∀ r ∈ entries s.slots, ∀ v, entryAt s.mem r = some v → v.write = true →
      v.shared = false → s.memoryMap v.index < 2) ∧
    ∀ vaddr w s', Step s (.store vaddr w, []) s' → ∀ q ∈ s.live, q ≠ s.current →
      ∀ i t v, (((s.procs q).pde, i), t) ∈ entries s.slots →
        entryAt s.mem (((s.procs q).pde, i), t) = some v → v.shared = false →
          entryAt s'.mem (((s.procs q).pde, i), t) = some v ∧
            s'.mem v.index = s.mem v.index := by
  have hcalm : ∀ (s : State) (a : Action × List Event), a.2 = [] → ∀ e ∈ a.2, Calm True e := by
    intro s a ha e he
    rw [ha] at he
    cases he
  have h : Inv True s := run_inv hcalm h₀ hrun
  constructor
  · intro r hr v hv hwrite hshared
    have hone := h.frames.cow trivial r hr v hv hwrite hshared
    omega
  · intro vaddr w s' hstep q hq hne i t v hr hv hshared
    have hstore : wp (Calm True) (store vaddr w) (fun _ s' =>
        entryAt s'.mem (((s.procs q).pde, i), t) = some v ∧ s'.mem v.index = s.mem v.index) s :=
      wp_store_other (fun _ he => he) h hstep.1.1 hq hne hr hv hshared
    exact hstore () s' [] hstep.2 (by simp)

/-! ## A page that is mapped again after a fork -/

/-- Task 0 maps a page, forks, and maps the page again. -/
theorem oneTask_returns : returnsBool (Action.mmap 0x8000000 4096 ⟨true, false, true⟩).code
    (fun _ s => decide (s.current ∈ s.live ∧ 1 ∉ s.live ∧ 1 ≠ s.current) &&
      returnsBool (taskFork 1)
        (fun _ s => decide (s.current ∈ s.live) &&
          returnsBool (Action.mmap 0x8000000 4096 ⟨true, false, true⟩).code
            (fun _ s => decide (((256, 32) : Slot) ∈ s.slots ∧ entryAt s.mem ((256, 32), 0) =
              some ⟨true, true, true, 0, false, true, false, 4097⟩ ∧ s.memoryMap 4097 = 2)) s) s)
    oneTask = true := by
  decide +kernel

/-- After a fork, `sys_mmap` makes a page writable that the child maps too. -/
theorem exists_writable : ∃ s₀ s, Fresh s₀ ∧ Run Step (fun _ _ => True) s₀ s ∧
    ∃ r ∈ entries s.slots, ∃ v, entryAt s.mem r = some v ∧ v.write = true ∧ v.shared = false ∧
      2 ≤ s.memoryMap v.index := by
  obtain ⟨_, s₁, l₁, hrun₁, h₁⟩ := returns_of_bool oneTask_returns
  simp only [Bool.and_eq_true, decide_eq_true_eq] at h₁
  obtain ⟨⟨hcur₁, hchild, hne⟩, h₁⟩ := h₁
  obtain ⟨_, s₂, l₂, hrun₂, h₂⟩ := returns_of_bool h₁
  simp only [Bool.and_eq_true, decide_eq_true_eq] at h₂
  obtain ⟨hcur₂, h₂⟩ := h₂
  obtain ⟨_, s₃, l₃, hrun₃, h₃⟩ := returns_of_bool h₂
  obtain ⟨hslot, hentry, hcount⟩ := of_decide_eq_true h₃
  refine ⟨oneTask, s₃, oneTask_fresh, ?_, ((256, 32), 0),
    mem_entries.mpr ⟨hslot, by decide⟩, _, hentry, rfl, rfl, hcount.ge⟩
  refine .head (a := (.mmap 0x8000000 4096 ⟨true, false, true⟩, l₁)) trivial
    ⟨⟨by decide, by decide, by decide⟩, hrun₁⟩ ?_
  refine .head (a := (.fork 1, l₂)) trivial ⟨⟨hcur₁, hchild, hne⟩, hrun₂⟩ ?_
  exact .head (a := (.mmap 0x8000000 4096 ⟨true, false, true⟩, l₃)) trivial
    ⟨⟨hcur₂, by decide, by decide⟩, hrun₃⟩ .refl

/-- In the first state of that run, and after a step of it. -/
theorem oneTask_copy_on_write : ∃ s, Run Step (fun _ a => a.2 = []) oneTask s ∧
    s.memoryMap 4097 = 1 ∧ ∀ r ∈ entries s.slots, ∀ v, entryAt s.mem r = some v →
      v.write = true → v.shared = false → s.memoryMap v.index < 2 := by
  have hrun : ∃ s, Run Step (fun _ a => a.2 = []) oneTask s ∧ s.memoryMap 4097 = 1 :=
    ⟨_, .head (a := (.mmap 0x8000000 4096 ⟨true, false, true⟩, [])) rfl
      ⟨⟨by decide, by decide, by decide⟩, rfl⟩ .refl, rfl⟩
  obtain ⟨s, hrun, hone⟩ := hrun
  exact ⟨s, hrun, hone, (copy_on_write oneTask_fresh hrun).1⟩

end Ylos.Memory
