import Ylos.Verification.Memory.Isolation

/-! # Stores of the kernel into user memory -/

namespace Ylos.Memory

open Exec

variable {strict : Prop} {good : Event → Prop} {s s₀ s₁ s' s'' : State} {vaddr a : ℕ} {b : UInt8}

/-- Another task than the running one maps `v` at `r`, and not as a shared page. -/
structure Foreign (s : State) (r : Slot × ℕ) (v : Word) : Prop where
  mem : r ∈ entries s.slots
  dir : r.1.1 ≠ s.task.pde
  entry : entryAt s.mem r = some v
  shared : v.shared = false

/-- What other tasks see through their entries that are not shared does not change. -/
def Unseen (s s' : State) : Prop :=
  ∀ r v, Foreign s r v → entryAt s'.mem r = some v ∧ s'.mem v.index = s.mem v.index

/-- No other task maps the page of `vaddr`, unless as a shared one. -/
def Alone (s : State) (vaddr : ℕ) : Prop :=
  ∀ f, entryTarget s.mem (s.slot vaddr, TIDX vaddr) = some f → ∀ r v, Foreign s r v → v.index ≠ f

theorem Foreign.before {r : Slot × ℕ} {v : Word} (hs : Steady s s') (hsourced : Sourced s s')
    (h : Foreign s' r v) : Foreign s r v := by
  have hmem : r ∈ entries s.slots := hs.slots ▸ h.mem
  have hdir : r.1.1 ≠ s.task.pde := hs.task ▸ h.dir
  exact ⟨hmem, hdir, (hsourced.other r hmem hdir).symm.trans h.entry, h.shared⟩

theorem Unseen.trans (h : Unseen s s') (hs : Steady s s') (h' : Unseen s' s'') :
    Unseen s s'' := by
  intro r v hr
  obtain ⟨hentry, hwords⟩ := h r v hr
  have hr' : Foreign s' r v :=
    ⟨hs.slots.symm ▸ hr.mem, hs.task.symm ▸ hr.dir, hentry, hr.shared⟩
  exact ⟨(h' r v hr').1, (h' r v hr').2.trans hwords⟩

/-- Where a task has its memory, and a `read` its buffer. -/
def BufferAddr (vaddr : ℕ) : Prop := USER_EXEC_ADDR ≤ vaddr ∧ vaddr < USER_STACK_TOP

theorem BufferAddr.userAddr (h : BufferAddr vaddr) : UserAddr vaddr := by
  unfold BufferAddr USER_STACK_TOP at h
  unfold UserAddr WINDOW
  omega

/-- What a store of the kernel does to the rest of the address spaces. -/
structure Poked (strict : Prop) (s s' : State) : Prop where
  inv : Inv strict s'
  steady : Steady s s'
  sourced : Sourced s s'
  grown : Grown s s'

theorem Poked.refl (h : Inv strict s) : Poked strict s s :=
  ⟨h, Steady.refl s, ⟨fun _ _ _ => rfl, fun _ _ _ hw => hw, fun _ _ _ hf => .inl hf⟩,
    fun _ hf => hf⟩

theorem Poked.trans (h : Poked strict s s') (h' : Poked strict s' s'') : Poked strict s s'' := by
  refine ⟨h'.inv, h.steady.trans h'.steady, ⟨fun r hr hdir => ?_, fun r hr w hw => ?_,
    fun r hr f hf => ?_⟩, fun f hf => h'.grown f (h.grown f hf)⟩
  · rw [h'.sourced.other r (h.steady.slots.symm ▸ hr) (h.steady.task.symm ▸ hdir)]
    exact h.sourced.other r hr hdir
  · exact h'.sourced.stays r (h.steady.slots.symm ▸ hr) w (h.sourced.stays r hr w hw)
  · rcases h'.sourced.target r (h.steady.slots.symm ▸ hr) f hf with hold | hfree
    · exact h.sourced.target r hr f hold
    · exact .inr (by_contra fun hne => h.grown f hne hfree)

theorem Poked.running (h : Poked strict s s') (hcur : s.current ∈ s.live) : s'.current ∈ s'.live := by
  rw [h.steady.current, h.steady.live]
  exact hcur

theorem Poked.slot (h : Poked strict s s') : s'.slot vaddr = s.slot vaddr := by
  unfold State.slot
  rw [h.steady.task]

theorem Poked.alone (hp : Poked strict s s') (h : Inv strict s) (hcur : s.current ∈ s.live)
    (hv : UserAddr vaddr) (halone : Alone s vaddr) : Alone s' vaddr := by
  intro f hf r v hr
  have hr' := hr.before hp.steady hp.sourced
  rw [hp.slot] at hf
  rcases hp.sourced.target _ (mem_entries.mpr ⟨slot_mem hcur hv, tidx_lt vaddr⟩) f hf with
    hold | hfree
  · exact halone f hold r v hr'
  · rintro rfl
    have hpos := h.frames.entry_pos hr'.mem hr'.entry
    omega

/-! ## A byte -/

theorem walk_of_entry {v : Word} (h : entryAt s.mem (s.slot vaddr, TIDX vaddr) = some v) :
    (s.walk s.task.pde vaddr).2 = v := by
  unfold entryAt tableTarget at h
  obtain ⟨table, ht, hv⟩ := Option.bind_eq_some_iff.mp h
  obtain ⟨-, rfl⟩ := Word.target_eq_some.mp ht
  exact (Word.seen_eq_some.mp hv).2

theorem entry_of_mapped (h : s.mapped s.task.pde vaddr = true) :
    ∃ v, entryAt s.mem (s.slot vaddr, TIDX vaddr) = some v := by
  obtain ⟨hd, ht⟩ := Bool.and_eq_true_iff.mp h
  have htable : tableTarget s.mem (s.slot vaddr) = some (s.walk s.task.pde vaddr).1.index :=
    Word.target_of_present hd
  exact ⟨_, (entryAt_of_table (r := (s.slot vaddr, TIDX vaddr)) htable).trans
    (Word.seen_of_present ht)⟩

/-- A missing page of the buffer is a new one after the fault. -/
theorem wp_pageFault_missing {write : Bool} (h : Inv strict s) (hcur : s.current ∈ s.live)
    (hv : BufferAddr vaddr) :
    wp good (pageFault vaddr false write) (fun _ s' => Poked strict s s' ∧ Local s s' ∧
      ∃ v, entryAt s'.mem (s.slot vaddr, TIDX vaddr) = some v) s := by
  have hdidx : DIDX (IDX vaddr * PAGE_SIZE) = DIDX vaddr := by
    unfold DIDX IDX PAGE_SIZE
    omega
  have htidx : TIDX (IDX vaddr * PAGE_SIZE) = TIDX vaddr := by
    unfold TIDX IDX PAGE_SIZE
    omega
  have hslot : s.slot (IDX vaddr * PAGE_SIZE) = s.slot vaddr := by
    unfold State.slot
    rw [hdidx]
  have huser : UserAddr (IDX vaddr * PAGE_SIZE) := by
    unfold BufferAddr USER_STACK_TOP USER_EXEC_ADDR at hv
    unfold UserAddr IDX WINDOW USER_EXEC_ADDR PAGE_SIZE
    omega
  unfold pageFault
  simp only [wp_bind, wp_gets, wp_ite]
  refine ⟨fun hout => ?_, fun _ => ⟨fun hp => absurd hp (by simp), fun _ => ⟨fun _ => ?_,
    fun _ => wp_fault _⟩⟩⟩
  · unfold BufferAddr at hv
    omega
  · refine wp_mono (wp_linkPage h hcur huser) fun _ s' hlinked => ?_
    obtain ⟨h', hsteady, hlocal, hsourced, hgrown, hentry⟩ := hlinked
    rw [hslot, htidx] at hentry
    exact ⟨⟨h', hsteady, hsourced, hgrown⟩, hlocal, hentry⟩

/-- The byte goes into the page of `vaddr`, whoever else maps it. -/
theorem poked_of_entry (h : Inv strict s) (hcur : s.current ∈ s.live) (hv : UserAddr vaddr)
    {v : Word} (hentry : entryAt s.mem (s.slot vaddr, TIDX vaddr) = some v) {i : ℕ} {w : Word} :
    Poked strict s (s.setWord v.index i w) ∧ (Alone s vaddr → Unseen s (s.setWord v.index i w)) := by
  have hin : (s.slot vaddr, TIDX vaddr) ∈ entries s.slots :=
    mem_entries.mpr ⟨slot_mem hcur hv, tidx_lt vaddr⟩
  have hviews := h.entryAt_store (i := i) (w := w) hin hentry
  refine ⟨⟨h.store hin hentry, Steady.setWord _ _ _ _, ⟨fun r hr _ => hviews r hr,
    fun r hr w' hw' => (hviews r hr).trans hw', fun r hr f hf => .inl ?_⟩, fun _ hf => hf⟩,
    fun halone r v' hr => ⟨(hviews r hr.mem).trans hr.entry, ?_⟩⟩
  · rwa [entryTarget, hviews r hr] at hf
  · have hne := halone v.index (entryTarget_eq_some.mpr ⟨v, hentry, rfl⟩) r v' hr
    funext j
    exact State.setWord_frame hne

theorem Local.unseen (h : Inv strict s) (hcur : s.current ∈ s.live) (hlocal : Local s s') :
    Unseen s s' := by
  rintro ⟨⟨d, i⟩, t⟩ v hr
  obtain ⟨⟨q, hq, rfl⟩, _⟩ := mem_slots.mp (mem_entries.mp hr.mem).1
  exact hlocal.view h hcur hq (fun heq => hr.dir (by rw [heq]; rfl)) hr.mem hr.entry

theorem wp_storeByte (h : Inv strict s) (hcur : s.current ∈ s.live) (hv : BufferAddr vaddr) :
    wp good (storeByte vaddr b) (fun _ s' => Poked strict s s' ∧ (Alone s vaddr → Unseen s s')) s := by
  unfold storeByte
  simp only [wp_bind, wp_get, wp_ite, wp_modify]
  constructor
  · intro _
    refine wp_mono (wp_pageFault_missing h hcur hv) fun _ s₁ hfault => ?_
    obtain ⟨hp₁, hlocal₁, v, hentry⟩ := hfault
    rw [← hp₁.slot] at hentry
    rw [walk_of_entry hentry]
    obtain ⟨hp₂, hunseen⟩ := poked_of_entry hp₁.inv (hp₁.running hcur) hv.userAddr hentry
      (i := vaddr % PAGE_SIZE / 4)
      (w := (s₁.mem v.index (vaddr % PAGE_SIZE / 4)).setByte (vaddr % 4) b)
    exact ⟨hp₁.trans hp₂, fun halone => (hlocal₁.unseen h hcur).trans hp₁.steady
      (hunseen (hp₁.alone h hcur hv.userAddr halone))⟩
  · intro hmapped
    obtain ⟨v, hentry⟩ := entry_of_mapped (by simpa using hmapped)
    rw [walk_of_entry hentry]
    exact poked_of_entry h hcur hv.userAddr hentry

/-! ## The copies of `inode_read` -/

/-- The `n` bytes from `buf` on lie where a task has its memory. -/
def Buffer (buf n : ℕ) : Prop := USER_EXEC_ADDR ≤ buf ∧ buf + n ≤ USER_STACK_TOP

/-- No other task maps a page of the buffer, unless as a shared one. -/
def AllAlone (s : State) (buf n : ℕ) : Prop := ∀ k < n, Alone s (buf + k)

/-- One part of a copy after another. -/
theorem unseen_parts {buf n m : ℕ} (h : Inv strict s) (hcur : s.current ∈ s.live)
    (hbuf : Buffer buf (n + m)) (hp : Poked strict s s') (hunseen : AllAlone s buf n → Unseen s s')
    (hrest : AllAlone s' (buf + n) m → Unseen s' s'') (halone : AllAlone s buf (n + m)) :
    Unseen s s'' := by
  refine (hunseen fun k hk => halone k (by omega)).trans hp.steady (hrest fun k hk => ?_)
  have haddr : BufferAddr (buf + n + k) := by
    unfold Buffer at hbuf
    unfold BufferAddr
    omega
  refine hp.alone h hcur haddr.userAddr ?_
  rw [Nat.add_assoc]
  exact halone (n + k) (by omega)

theorem wp_memcpy {dest : ℕ} {src : List UInt8} (h : Inv strict s) (hcur : s.current ∈ s.live)
    (hbuf : Buffer dest src.length) :
    wp good (memcpy dest src) (fun _ s' => Poked strict s s' ∧
      (AllAlone s dest src.length → Unseen s s')) s := by
  induction src generalizing s dest with
  | nil => exact (wp_pure _).mpr ⟨.refl h, fun _ r v hr => ⟨hr.entry, rfl⟩⟩
  | cons b src ih =>
      rw [List.length_cons, Nat.add_comm] at hbuf ⊢
      have haddr : BufferAddr dest := by
        unfold Buffer at hbuf
        unfold BufferAddr
        omega
      have hrest : Buffer (dest + 1) src.length := by
        unfold Buffer at hbuf ⊢
        omega
      unfold memcpy
      rw [wp_bind]
      refine wp_mono (wp_storeByte h hcur haddr) fun _ s₁ ⟨hp₁, hunseen₁⟩ => ?_
      refine wp_mono (ih hp₁.inv (hp₁.running hcur) hrest) fun _ s₂ ⟨hp₂, hunseen₂⟩ =>
        ⟨hp₁.trans hp₂, unseen_parts h hcur hbuf hp₁ (fun halone => ?_) hunseen₂⟩
      exact hunseen₁ (halone 0 Nat.zero_lt_one)

theorem wp_copyBlocks {buf : ℕ} {blocks : List (List UInt8)} (h : Inv strict s)
    (hcur : s.current ∈ s.live) (hbuf : Buffer buf blocks.flatten.length) :
    wp good (copyBlocks buf blocks) (fun _ s' => Poked strict s s' ∧
      (AllAlone s buf blocks.flatten.length → Unseen s s')) s := by
  induction blocks generalizing s buf with
  | nil => exact (wp_pure _).mpr ⟨.refl h, fun _ r v hr => ⟨hr.entry, rfl⟩⟩
  | cons bytes rest ih =>
      rw [List.flatten_cons, List.length_append] at hbuf ⊢
      have hfirst : Buffer buf bytes.length := by
        unfold Buffer at hbuf ⊢
        omega
      have hrest : Buffer (buf + bytes.length) rest.flatten.length := by
        unfold Buffer at hbuf ⊢
        omega
      unfold copyBlocks
      rw [wp_bind]
      refine wp_mono (wp_memcpy h hcur hfirst) fun _ s₁ ⟨hp₁, hunseen₁⟩ => ?_
      exact wp_mono (ih hp₁.inv (hp₁.running hcur) hrest) fun _ s₂ ⟨hp₂, hunseen₂⟩ =>
        ⟨hp₁.trans hp₂, unseen_parts h hcur hbuf hp₁ hunseen₁ hunseen₂⟩

/-! ## Runs -/

theorem move_inv {m : Move × List Event} (h : Inv True s) (hcalm : m.2 = [])
    (hstep : MoveStep s m s') : Inv True s' := by
  obtain ⟨m, l⟩ := m
  obtain rfl : l = [] := hcalm
  cases m with
  | act a => exact step_inv (a := (a, [])) h (by simp) hstep
  | read buf blocks =>
      have hread : wp (fun _ => True) (copyBlocks buf blocks) _ s :=
        wp_copyBlocks h hstep.1.1 hstep.1.2
      exact (hread () s' [] hstep.2 (by simp)).1.inv

theorem moves_inv (h₀ : Fresh s₀) (hrun : Run MoveStep (fun _ m => m.2 = []) s₀ s) : Inv True s :=
  hrun.invariant (fun _ _ _ h hcalm hstep => move_inv h hcalm hstep) h₀.inv

/-! ## A page that is shared by a fork -/

theorem Word.toNat_ofNat (n : ℕ) : (Word.ofNat n).toNat = n % 2 ^ 32 := by
  have hbit : ∀ k, (decide (n / k % 2 = 1)).toNat = n / k % 2 := by
    intro k
    rcases Nat.mod_two_eq_zero_or_one (n / k) with hk | hk <;> simp [hk]
  have hlow := hbit 1
  rw [Nat.div_one] at hlow
  unfold ofNat toNat
  simp only [hbit, hlow]
  omega

theorem Word.byte_setByte (w : Word) {k : ℕ} (hk : k < 4) : (w.setByte k b).byte k = b.toNat := by
  have hb : b.toNat < 256 := b.toNat_lt
  have hsplit : w.toNat % 256 ^ k < 256 ^ k := Nat.mod_lt _ (Nat.pow_pos (by norm_num))
  unfold byte setByte
  rw [toNat_ofNat]
  generalize w.toNat % 256 ^ k = low at hsplit ⊢
  generalize w.toNat / 256 ^ (k + 1) = high
  obtain rfl | rfl | rfl | rfl : k = 0 ∨ k = 1 ∨ k = 2 ∨ k = 3 := by omega
  all_goals omega

theorem mapped_of_entry {v : Word} (h : entryAt s.mem (s.slot vaddr, TIDX vaddr) = some v) :
    s.mapped s.task.pde vaddr = true := by
  unfold entryAt tableTarget at h
  obtain ⟨table, ht, hv⟩ := Option.bind_eq_some_iff.mp h
  obtain ⟨hd, rfl⟩ := Word.target_eq_some.mp ht
  exact Bool.and_eq_true_iff.mpr ⟨hd, (Word.seen_eq_some.mp hv).1⟩

theorem run_storeByte {v : Word} (h : entryAt s.mem (s.slot vaddr, TIDX vaddr) = some v) :
    (storeByte vaddr b).run s = .ok ((), s.setWord v.index (vaddr % PAGE_SIZE / 4)
      ((s.mem v.index (vaddr % PAGE_SIZE / 4)).setByte (vaddr % 4) b), []) := by
  unfold storeByte
  rw [run_bind _ (run_get s), if_neg (by rw [mapped_of_entry h]; simp)]
  change (modify _).run s = _
  rw [run_modify, walk_of_entry h]

/-- A new byte in a page that another task maps changes what that task sees. -/
theorem seen_of_not_alone (h : ¬Alone s vaddr) :
    ∃ b s', (storeByte vaddr b).run s = .ok ((), s', []) ∧ ¬Unseen s s' := by
  simp only [Alone, ne_eq, not_forall, not_not, exists_prop] at h
  obtain ⟨f, hf, r, v, hr, rfl⟩ := h
  obtain ⟨u, hentry, hindex⟩ := entryTarget_eq_some.mp hf
  -- a byte that is not there yet
  obtain ⟨b, hb⟩ : ∃ b : UInt8, b.toNat ≠
      (s.mem v.index (vaddr % PAGE_SIZE / 4)).byte (vaddr % 4) := by
    by_cases hzero : (s.mem v.index (vaddr % PAGE_SIZE / 4)).byte (vaddr % 4) = 0
    · exact ⟨1, by rw [hzero]; decide⟩
    · exact ⟨0, fun h => hzero h.symm⟩
  refine ⟨b, _, run_storeByte hentry, fun hunseen => hb ?_⟩
  have hwords := congrFun (hunseen r v hr).2 (vaddr % PAGE_SIZE / 4)
  rw [hindex, State.setWord_self] at hwords
  rw [← Word.byte_setByte _ (Nat.mod_lt _ (by norm_num) : vaddr % 4 < 4), hwords]

/-- Whatever the tasks did before, a `read` into pages that no other task maps, unless as shared
ones, does not change what other tasks see through their entries that are not shared. For a
single byte this condition is exact. -/
theorem reads_respect_copy_on_write (h₀ : Fresh s₀)
    (hrun : Run MoveStep (fun _ m => m.2 = []) s₀ s) :
    (∀ buf blocks s', MoveStep s (.read buf blocks, []) s' →
      AllAlone s buf blocks.flatten.length → Unseen s s') ∧
    ∀ vaddr, s.current ∈ s.live → BufferAddr vaddr →
      (Alone s vaddr ↔ ∀ b s', MoveStep s (.read vaddr [[b]], []) s' → Unseen s s') := by
  have h := moves_inv h₀ hrun
  have hread : ∀ buf blocks s', MoveStep s (.read buf blocks, []) s' →
      AllAlone s buf blocks.flatten.length → Unseen s s' := by
    intro buf blocks s' hstep
    have hwp : wp (fun _ => True) (copyBlocks buf blocks) _ s :=
      wp_copyBlocks h hstep.1.1 hstep.1.2
    exact (hwp () s' [] hstep.2 (by simp)).2
  refine ⟨hread, fun vaddr hcur hv => ⟨fun halone b s' hstep => ?_, fun hall => ?_⟩⟩
  · refine hread vaddr [[b]] s' hstep fun k hk => ?_
    obtain rfl : k = 0 := by simpa using hk
    exact halone
  · by_contra hn
    obtain ⟨b, s', hstore, hseen⟩ := seen_of_not_alone hn
    refine hseen (hall b s' ⟨⟨hcur, hv.1, ?_⟩, ?_⟩)
    · exact Nat.succ_le_of_lt hv.2
    · change (copyBlocks vaddr [[b]]).run s = _
      unfold copyBlocks memcpy
      exact run_bind _ (run_bind _ hstore)

/-- Task 0 gets a page for its stack, forks, and reads a byte of a file into that page. -/
theorem oneTask_reads : returnsBool (store 0xFFFF000 .zero)
    (fun _ s => decide (s.current ∈ s.live ∧ 1 ∉ s.live ∧ 1 ≠ s.current) &&
      returnsBool (taskFork 1)
        (fun _ s => decide (s.current ∈ s.live ∧ ((259, 63) : Slot) ∈ s.slots ∧
            259 ≠ s.task.pde ∧ entryAt s.mem ((259, 63), 1023) =
              some ⟨true, false, true, 0, false, false, false, 4097⟩) &&
          returnsBool (copyBlocks 0xFFFF000 [[7]])
            (fun _ s' => decide (s'.mem 4097 0 ≠ s.mem 4097 0)) s) s)
    oneTask = true := by
  decide +kernel

/-- After a fork, `sys_read` changes what the child sees. -/
theorem exists_seen : ∃ s₀ s s', Fresh s₀ ∧ Run MoveStep (fun _ _ => True) s₀ s ∧
    ∃ buf blocks l, MoveStep s (.read buf blocks, l) s' ∧ ∃ r v, Foreign s r v ∧
      s'.mem v.index ≠ s.mem v.index := by
  obtain ⟨_, s₁, l₁, hrun₁, h₁⟩ := returns_of_bool oneTask_reads
  simp only [Bool.and_eq_true, decide_eq_true_eq] at h₁
  obtain ⟨⟨hcur₁, hchild, hne⟩, h₁⟩ := h₁
  obtain ⟨_, s₂, l₂, hrun₂, h₂⟩ := returns_of_bool h₁
  simp only [Bool.and_eq_true, decide_eq_true_eq] at h₂
  obtain ⟨⟨hcur₂, hslot, hdir, hentry⟩, h₂⟩ := h₂
  obtain ⟨_, s₃, l₃, hrun₃, h₃⟩ := returns_of_bool h₂
  refine ⟨oneTask, s₂, s₃, oneTask_fresh, ?_, 0xFFFF000, [[7]], l₃,
    ⟨⟨hcur₂, by decide, by decide⟩, hrun₃⟩, ((259, 63), 1023), _,
    ⟨mem_entries.mpr ⟨hslot, by decide⟩, hdir, hentry, rfl⟩,
    fun heq => of_decide_eq_true h₃ (congrFun heq 0)⟩
  refine .head (a := (.act (.store 0xFFFF000 .zero), l₁)) trivial
    ⟨⟨by decide, by decide⟩, hrun₁⟩ ?_
  exact .head (a := (.act (.fork 1), l₂)) trivial ⟨⟨hcur₁, hchild, hne⟩, hrun₂⟩ .refl

/-- In the first state of that run, where the stack is not there yet. -/
theorem oneTask_reads_respect : ∃ s', MoveStep oneTask (.read 0xFFFF000 [[7]], []) s' ∧
    Unseen oneTask s' := by
  have hstep : ∃ s', MoveStep oneTask (.read 0xFFFF000 [[7]], []) s' :=
    ⟨_, ⟨by decide, by decide, by decide⟩, rfl⟩
  have hnone : entryTarget oneTask.mem (oneTask.slot 0xFFFF000, TIDX 0xFFFF000) = none := by
    decide
  obtain ⟨s', hstep⟩ := hstep
  refine ⟨s', hstep, (reads_respect_copy_on_write oneTask_fresh .refl).1 _ _ s' hstep fun k hk => ?_⟩
  obtain rfl : k = 0 := by simpa using hk
  intro f hf
  rw [Nat.add_zero, hnone] at hf
  cases hf

end Ylos.Memory
