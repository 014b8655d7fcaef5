import Ylos.Verification.Memory.Steps

/-! # Reference counts of page frames -/

namespace Ylos.Memory

open Exec

/-- The number of present entries, over all live page directories, that map `f`. -/
def State.mappings (s : State) (f : ℕ) : ℕ := refCount (entryTarget s.mem) (entries s.slots) f

/-- The number of user slots of live page directories whose page table is `f`. -/
def State.tables (s : State) (f : ℕ) : ℕ := refCount (tableTarget s.mem) s.slots f

/-- Memory as `mapping_init` leaves it, with live tasks whose user slots are all empty. -/
structure Fresh (s : State) : Prop where
  memoryMap : ∀ f, s.memoryMap f = if f < KERNEL_PAGES then 1 else 0
  spaces : Spaces s
  blank : ∀ x ∈ s.slots, (s.mem x.1 x.2).present = false

variable {strict : Prop} {s s₀ : State}

theorem Fresh.inv (h : Fresh s) : Inv strict s := by
  have hslot : ∀ x ∈ s.slots, tableTarget s.mem x = none := fun x hx =>
    Word.target_of_absent (h.blank x hx)
  have hentry : ∀ r ∈ entries s.slots, entryAt s.mem r = none := fun r hr =>
    entryAt_of_blank (hslot _ (mem_entries.mp hr).1)
  refine ⟨⟨?_, ?_, ?_, ?_, ?_, ?_, ?_, ?_⟩, h.spaces⟩
  · intro f hf
    rw [h.memoryMap, if_pos hf]
  · intro f
    rw [h.memoryMap]
    split <;> decide
  · intro x hx
    obtain ⟨⟨p, hp, hpx⟩, _⟩ := mem_slots.mp hx
    rw [← hpx]
    exact ⟨h.spaces.pde_ne_two hp, h.spaces.pde_lt hp⟩
  · intro x hx f ht
    rw [hslot x hx] at ht
    cases ht
  · intro r hr w hw
    rw [hentry r hr] at hw
    cases hw
  · intro f hf _
    have htables : refCount (tableTarget s.mem) s.slots f = 0 :=
      refCount_eq_zero fun x hx => by simp [hslot x hx]
    have hentries : refCount (entryTarget s.mem) (entries s.slots) f = 0 :=
      refCount_eq_zero fun r hr => by simp [entryTarget, hentry r hr]
    rw [h.memoryMap, if_neg (by omega), references, htables, hentries]
    rfl
  · intro _ r hr w hw
    rw [hentry r hr] at hw
    cases hw
  · intro _ r hr _ _ w _ hw
    rw [hentry r hr] at hw
    cases hw

theorem run_inv {ok : State → Action × List Event → Prop}
    (hok : ∀ s a, ok s a → ∀ e ∈ a.2, Calm strict e) (h₀ : Fresh s₀)
    (hrun : Run Step ok s₀ s) : Inv strict s :=
  hrun.invariant (fun _ _ _ h ha hstep => step_inv h (hok _ _ ha) hstep) h₀.inv

/-! ## A single task -/

/-- What `mapping_init` and `copy_pde` put into a directory without user pages. -/
def blankDirectory (pde : ℕ) : ℕ → Word := fun i =>
  if i = SELF_SLOT then entryInit pde else if i < KERNEL_SLOTS then kernelEntry i else .zero

/-- A task with an empty user space. -/
def blankProc (pde vmapPage : ℕ) : Proc :=
  ⟨pde, ⟨fun _ => 0, PAGE_SIZE, PAGE_SIZE, IDX USER_MMAP_ADDR⟩, vmapPage, USER_EXEC_ADDR,
    USER_EXEC_ADDR, 1⟩

/-- Task 0 is the only one. -/
def oneTask : State where
  mem := fun f => if f = 256 then blankDirectory 256 else fun _ => .zero
  memoryMap := fun f => if f < KERNEL_PAGES then 1 else 0
  freePages := 256
  startPage := 4096
  totalPages := 4352
  kernelMap := ⟨fun i => if i = 0 then 3 else 0, 480, 480, 256⟩
  procs := fun _ => blankProc 256 257
  live := {0}
  current := 0

theorem blankProc_valid (pde vmapPage : ℕ) : (blankProc pde vmapPage).Valid :=
  ⟨rfl, rfl, rfl, le_rfl, (by decide : USER_EXEC_ADDR ≤ USER_MMAP_ADDR)⟩

theorem oneTask_fresh : Fresh oneTask := by
  have hlive : ∀ p, p ∈ oneTask.live → p = 0 := fun p hp => Finset.mem_singleton.mp hp
  have hbit : ∀ page, page = 256 ∨ page = 257 → Taken oneTask.kernelMap page := by
    rintro page (rfl | rfl)
    · exact ⟨by decide, by decide, by decide⟩
    · exact ⟨by decide, by decide, by decide⟩
  refine ⟨fun _ => rfl, ⟨rfl, rfl, rfl, fun _ _ => blankProc_valid _ _, ?_, ?_, ?_, ?_, ?_, ?_,
    ?_⟩, ?_⟩
  · exact fun p _ => hbit _ (.inl rfl)
  · exact fun p _ => hbit _ (.inr rfl)
  · exact fun p hp q hq _ => (hlive p hp).trans (hlive q hq).symm
  · exact fun p hp q hq _ => (hlive p hp).trans (hlive q hq).symm
  · decide
  · exact fun p _ => rfl
  · intro p _
    change ∀ i < KERNEL_SLOTS, blankDirectory 256 i = kernelEntry i
    decide
  · intro x hx
    obtain ⟨⟨p, _, hpx⟩, hlow, hhigh⟩ := mem_slots.mp hx
    rw [← hpx]
    change (blankDirectory 256 x.2).present = false
    unfold blankDirectory
    rw [if_neg (by omega), if_neg (by omega)]
    rfl

/-! ## The counts match -/

/-- As long as no `sys_mmap` sets bits beyond the page of `vmap`, and user code does not
write through the window, `memory_map` counts the mappings of every frame, and `get_page`
returns frames without mappings. -/
theorem counts_match (h₀ : Fresh s₀)
    (hrun : Run Step (fun _ a => Event.beyond ∉ a.2 ∧ Event.window ∉ a.2) s₀ s) :
    (∀ f, KERNEL_PAGES ≤ f → f < s.totalPages →
      s.memoryMap f = s.mappings f + s.tables f ∧
        (s.memoryMap f = 0 ↔ s.mappings f = 0 ∧ s.tables f = 0)) ∧
      ∀ i s' l, getPage.run s = .ok (i, s', l) →
        KERNEL_PAGES ≤ i ∧ i < s.totalPages ∧ s.mappings i = 0 ∧ s.tables i = 0 := by
  have hcalm : ∀ (s : State) (a : Action × List Event),
      Event.beyond ∉ a.2 ∧ Event.window ∉ a.2 → ∀ e ∈ a.2, Calm False e := by
    rintro s a ⟨hbeyond, hwindow⟩ e he
    cases e with
    | beyond => exact hbeyond he
    | regrant => exact id
    | window => exact hwindow he
  have h : Inv False s := run_inv hcalm h₀ hrun
  have hcount : ∀ f, KERNEL_PAGES ≤ f → f < s.totalPages →
      s.memoryMap f = s.mappings f + s.tables f := by
    intro f hf hf'
    have hrefs := h.frames.count f hf hf'
    unfold references at hrefs
    unfold State.mappings State.tables
    rw [Pi.zero_apply] at hrefs
    omega
  constructor
  · intro f hf hf'
    have hsum := hcount f hf hf'
    exact ⟨hsum, by omega⟩
  · intro i s' l hget
    have hwp : wp (fun _ => True) getPage
        (fun i _ => KERNEL_PAGES ≤ i ∧ i < s.totalPages ∧ s.memoryMap i = 0) s :=
      wp_getPage h.frames fun i s' hlow hhigh hzero _ _ _ _ => ⟨hlow, hhigh, hzero⟩
    have hpage := hwp i s' l hget (fun _ _ => trivial)
    have hsum := hcount i hpage.1 hpage.2.1
    exact ⟨hpage.1, hpage.2.1, by omega⟩

theorem oneTask_counts_match : ∃ s,
    Run Step (fun _ a => Event.beyond ∉ a.2 ∧ Event.window ∉ a.2) oneTask s ∧
      s.memoryMap 4097 = 1 ∧ s.memoryMap 4097 = s.mappings 4097 + s.tables 4097 := by
  have hrun : ∃ s, Run Step (fun _ a => Event.beyond ∉ a.2 ∧ Event.window ∉ a.2) oneTask s ∧
      s.memoryMap 4097 = 1 ∧ s.totalPages = 4352 :=
    ⟨_, .head (a := (.mmap 0x8000000 4096 ⟨true, false, true⟩, [])) ⟨by simp, by simp⟩
      ⟨⟨by decide, by decide, by decide⟩, rfl⟩ .refl, rfl, rfl⟩
  obtain ⟨s, hrun, hone, htotal⟩ := hrun
  exact ⟨s, hrun, hone, ((counts_match oneTask_fresh hrun).1 4097 (by decide)
    (by rw [htotal]; decide)).1⟩

/-! ## A `vmap` next to a page directory -/

/-- Task 0 is running. The page directory of task 1 is the page after its `vmap`. -/
def cornerState : State where
  mem := fun f => if f = 512 ∨ f = 601 then blankDirectory f else fun _ => .zero
  memoryMap := fun f => if f < KERNEL_PAGES then 1 else 0
  freePages := 12288
  startPage := 260
  totalPages := 16384
  kernelMap := ⟨fun _ => 0xFF, 480, 480, 256⟩
  procs := fun p => if p = 0 then blankProc 512 600 else blankProc 601 700
  live := {0, 1}
  current := 0

theorem cornerState_fresh : Fresh cornerState := by
  have htaken : ∀ page, 256 ≤ page → page < KERNEL_PAGES → Taken cornerState.kernelMap page :=
    fun page hlow hhigh => ⟨hlow, hhigh, bitAt_ones _⟩
  have hlive : ∀ {P : Proc → Prop}, P (blankProc 512 600) → P (blankProc 601 700) →
      ∀ p ∈ cornerState.live, P (cornerState.procs p) := by
    intro P h0 h1 p hp
    rcases Finset.mem_insert.mp hp with rfl | hp
    · exact h0
    · rw [Finset.mem_singleton.mp hp]
      exact h1
  refine ⟨fun _ => rfl, ⟨rfl, rfl, rfl, ?_, ?_, ?_, ?_, ?_, ?_, ?_, ?_⟩, ?_⟩
  · exact hlive (blankProc_valid _ _) (blankProc_valid _ _)
  · exact hlive (P := fun v => Taken cornerState.kernelMap v.pde)
      (htaken 512 (by decide) (by decide)) (htaken 601 (by decide) (by decide))
  · exact hlive (P := fun v => Taken cornerState.kernelMap v.vmapPage)
      (htaken 600 (by decide) (by decide)) (htaken 700 (by decide) (by decide))
  · decide
  · decide
  · decide
  · exact hlive (P := fun v => cornerState.mem v.pde SELF_SLOT = entryInit v.pde) rfl rfl
  · refine hlive (P := fun v => ∀ i < KERNEL_SLOTS, cornerState.mem v.pde i = kernelEntry i) ?_ ?_
    · decide
    · decide
  · intro x hx
    obtain ⟨⟨p, hp, hpx⟩, hlow, hhigh⟩ := mem_slots.mp hx
    rw [← hpx]
    refine hlive (P := fun v => (cornerState.mem v.pde x.2).present = false) ?_ ?_ p hp
    all_goals
      change (blankDirectory _ x.2).present = false
      unfold blankDirectory
      rw [if_neg (by omega), if_neg (by omega)]
      rfl

/-- The word with the bits below `k` set. -/
def lowBits (k : ℕ) : Word := (List.range k).foldl Word.setBit .zero

theorem lowBits_succ (k : ℕ) : lowBits (k + 1) = (lowBits k).setBit k := by
  unfold lowBits
  rw [List.range_succ, List.foldl_append]
  rfl

/-- The states in which task 0 maps page after page; fewer than `a` frames are taken, and
`w` is what the directory of task 1 has in its first user slot. -/
structure Corner (a : ℕ) (w : Word) (s : State) : Prop where
  current : s.current = 0
  live : s.live = {0, 1}
  totalPages : s.totalPages = 16384
  startPage : s.startPage = 260
  pde : (s.procs 0).pde = 512
  vmapPage : (s.procs 0).vmapPage = 600
  offset : (s.procs 0).vmap.offset = 32768
  size : (s.procs 0).vmap.size = 4096
  other : (s.procs 1).pde = 601
  self : s.mem 512 SELF_SLOT = entryInit 512
  table : ∀ i, KERNEL_SLOTS ≤ i → i < SELF_SLOT → (s.mem 512 i).present = true →
    4096 ≤ (s.mem 512 i).index
  low : ∀ f < 4096, s.memoryMap f ≠ 0
  free : ∀ f, 4096 + a ≤ f → s.memoryMap f = 0
  word : s.mem 601 4 = w

namespace Corner

variable {a b : ℕ} {w w' : Word} {table i : ℕ} {vaddr : ℕ}

theorem mono (h : Corner a w s) (hab : a ≤ b) : Corner b w s :=
  { h with free := fun f hf => h.free f (by omega) }

theorem task (h : Corner a w s) : s.task = s.procs 0 := by rw [State.task, h.current]

theorem task_pde (h : Corner a w s) : s.task.pde = 512 := by rw [h.task, h.pde]

theorem window (h : Corner a w s) (i : ℕ) : s.window i = (s.mem 512 i).index := by
  rw [window_of_self (by rw [h.task_pde]; exact h.self), h.task_pde]

/-- A write to a frame of user memory. -/
theorem setWord (h : Corner a w s) (ht : 4096 ≤ table) {v : Word} :
    Corner a w (s.setWord table i v) := by
  have hmem : ∀ f < 4096, ∀ j, (s.setWord table i v).mem f j = s.mem f j :=
    fun f hf j => State.setWord_frame (by omega)
  refine { h with self := ?_, table := ?_, word := ?_ }
  · rw [hmem 512 (by omega)]
    exact h.self
  · intro j hj hj' hp
    rw [hmem 512 (by omega)] at hp ⊢
    exact h.table j hj hj' hp
  · rw [hmem 601 (by omega)]
    exact h.word

theorem setFrame (h : Corner a w s) (ht : 4096 ≤ table) {ws : ℕ → Word} :
    Corner a w (s.setFrame table ws) := by
  have hmem : ∀ f < 4096, (s.setFrame table ws).mem f = s.mem f :=
    fun f hf => State.setFrame_frame (by omega)
  refine { h with self := ?_, table := ?_, word := ?_ }
  · rw [hmem 512 (by omega)]
    exact h.self
  · intro j hj hj' hp
    rw [hmem 512 (by omega)] at hp ⊢
    exact h.table j hj hj' hp
  · rw [hmem 601 (by omega)]
    exact h.word

theorem setOther_mem {v : Word} : (s.setWord 601 i v).mem 512 = s.mem 512 := by
  funext j
  exact State.setWord_frame (by omega)

/-- A write to the directory of task 1. -/
theorem setOther (h : Corner a w s) {v : Word} (hw : (s.setWord 601 i v).mem 601 4 = w') :
    Corner a w' (s.setWord 601 i v) := by
  refine { h with self := ?_, table := ?_, word := hw }
  · rw [setOther_mem]
    exact h.self
  · rw [setOther_mem]
    exact h.table

/-- A new page table in the directory of task 0. -/
theorem setSlot (h : Corner a w s) (hi : i < SELF_SLOT) (ht : 4096 ≤ table) :
    Corner a w (s.setWord 512 i (entryInit table)) := by
  refine { h with self := ?_, table := ?_, word := ?_ }
  · rw [State.setWord_word (by omega)]
    exact h.self
  · intro j hj hj' hp
    by_cases hji : j = i
    · subst j
      rw [State.setWord_self]
      exact ht
    · rw [State.setWord_word hji] at hp ⊢
      exact h.table j hj hj' hp
  · rw [State.setWord_frame (by omega)]
    exact h.word

theorem getPage_returns (h : Corner a w s) (ha : a < 12288) :
    Returns getPage (fun page s' => 4096 ≤ page ∧ Corner (a + 1) w s' ∧ s'.mem = s.mem) s := by
  unfold getPage
  refine returns_bind (returns_get ?_)
  have hfree := h.free (4096 + a) le_rfl
  cases hfind : (List.range' s.startPage (s.totalPages - s.startPage)).find? fun i =>
      s.memoryMap i = 0 with
  | none =>
      have hnone := List.find?_eq_none.mp hfind (4096 + a) (by
        rw [List.mem_range'_1, h.startPage, h.totalPages]
        omega)
      simp [hfree] at hnone
  | some page =>
      obtain ⟨hzero, _, hfirst⟩ := List.find?_range'_eq_some.mp hfind
      have hzero : s.memoryMap page = 0 := by simpa using hzero
      have hlow : 4096 ≤ page := by
        by_contra hlt
        exact h.low page (by omega) hzero
      have hhigh : page ≤ 4096 + a := by
        by_contra hlt
        have hbefore := hfirst (4096 + a) (by rw [h.startPage]; omega) (by omega)
        simp [hfree] at hbefore
      refine returns_bind (returns_modify (returns_pure ⟨hlow, ?_, rfl⟩))
      refine { h with low := ?_, free := ?_ }
      · intro f hf
        change (if f = page then 1 else s.memoryMap f) ≠ 0
        rw [if_neg (by omega)]
        exact h.low f hf
      · intro f hf
        change (if f = page then 1 else s.memoryMap f) = 0
        rw [if_neg (by omega)]
        exact h.free f (by omega)

/-- The table behind `vaddr` is there. -/
def Behind (vaddr table : ℕ) (s : State) : Prop :=
  (s.mem 512 (DIDX vaddr)).present = true ∧ (s.mem 512 (DIDX vaddr)).index = table

theorem getPte_returns (h : Corner a w s) (ha : a < 12288) (hv : UserAddr vaddr) :
    Returns (getPte vaddr true)
      (fun table s' => 4096 ≤ table ∧ Corner (a + 1) w s' ∧ Behind vaddr table s') s := by
  obtain ⟨hlow, hhigh⟩ := didx_of_userAddr hv
  unfold getPte getPde getWord
  refine returns_bind (returns_gets ?_)
  have hself : s.window SELF_SLOT = 512 := by rw [h.window, h.self]; rfl
  rw [hself]
  refine returns_bind (returns_gets (returns_bind (returns_check (.inl rfl) ?_)))
  refine returns_ite (fun hblank => ?_) fun hp => ?_
  · refine returns_bind (returns_mono (h.getPage_returns ha) fun page s₁ ⟨hpage, h₁, _⟩ => ?_)
    unfold Memory.setWord
    have h₂ := h₁.setSlot hhigh hpage
    have hslot : (s₁.setWord 512 (DIDX vaddr) (entryInit page)).mem 512 (DIDX vaddr) =
        entryInit page := State.setWord_self
    have hindex : (entryInit page).index = page := rfl
    refine returns_bind (returns_modify (returns_bind (returns_modify (returns_gets ?_))))
    rw [h₂.window, hslot, hindex]
    have h₃ : Corner _ _ ((s₁.setWord 512 (DIDX vaddr) (entryInit page)).setFrame page
        fun _ => Word.zero) := h₂.setFrame hpage
    have hslot₃ : ((s₁.setWord 512 (DIDX vaddr) (entryInit page)).setFrame page
        fun _ => Word.zero).mem 512 (DIDX vaddr) = entryInit page := by
      rw [State.setFrame_frame (by omega), hslot]
    rw [h₃.window, hslot₃, hindex]
    exact ⟨hpage, h₃, by rw [hslot₃]; rfl, by rw [hslot₃]; rfl⟩
  · have hp' : (s.mem 512 (DIDX vaddr)).present = true := by simpa using hp
    refine returns_gets ?_
    rw [h.window]
    exact ⟨h.table _ hlow hhigh hp', h.mono (by omega), hp', rfl⟩

theorem getPte_behind (h : Corner a w s) (hv : UserAddr vaddr) (hb : Behind vaddr table s) :
    Returns (getPte vaddr false) (fun t s' => t = table ∧ 4096 ≤ t ∧ s' = s) s := by
  obtain ⟨hlow, hhigh⟩ := didx_of_userAddr hv
  obtain ⟨hp, rfl⟩ := hb
  have hself : s.window SELF_SLOT = 512 := by rw [h.window, h.self]; rfl
  unfold getPte getPde getWord
  refine returns_bind (returns_gets ?_)
  rw [hself]
  refine returns_bind (returns_gets (returns_bind (returns_check (.inr hp) ?_)))
  refine returns_ite (fun hblank => ?_) fun _ => returns_gets ?_
  · rw [hp] at hblank
    cases hblank
  · exact ⟨h.window _, by rw [h.window]; exact h.table _ hlow hhigh hp, rfl⟩

theorem linkPage_returns (h : Corner a w s) (ha : a + 1 < 12288) (hv : UserAddr vaddr)
    (hpage : vaddr % PAGE_SIZE = 0) :
    Returns (linkPage vaddr)
      (fun _ s' => Corner (a + 2) w s' ∧ ∃ table, Behind vaddr table s') s := by
  unfold linkPage getWord
  refine returns_bind (returns_check hpage ?_)
  refine returns_bind (returns_mono (h.getPte_returns (by omega) hv) fun table s₁ h₁ => ?_)
  obtain ⟨htable, hcorner, hbehind⟩ := h₁
  refine returns_bind (returns_gets (returns_ite (fun _ => ?_) fun _ => ?_))
  · refine returns_bind (returns_mono (hcorner.getPage_returns (by omega)) fun page s₂ h₂ => ?_)
    obtain ⟨_, hcorner₂, hmem⟩ := h₂
    unfold Memory.setWord
    refine returns_modify ⟨hcorner₂.setWord htable, table, ?_⟩
    have hslot : (s₂.setWord table (TIDX vaddr) (entryInit page)).mem 512 (DIDX vaddr) =
        s₁.mem 512 (DIDX vaddr) := by
      rw [State.setWord_frame (by omega), hmem]
    unfold Behind
    rw [hslot]
    exact hbehind
  · exact returns_pure ⟨hcorner.mono (by omega), table, hbehind⟩

/-- Bit `k - 641` of word 4 is the `k`th bit that `sys_mmap` sets, as long as it is in the
word. -/
theorem vmapSet_returns (h : Corner a (lowBits (i - 641)) s) (hi : i < 666) :
    Returns (vmapSet (IDX (266334208 + 4096 * i)))
      (fun _ s' => Corner a (lowBits (i + 1 - 641)) s' ∧ s'.mem 512 = s.mem 512) s := by
  have hoffset : s.task.vmap.offset = 32768 := by rw [h.task, h.offset]
  have hsize : s.task.vmap.size = 4096 := by rw [h.task, h.size]
  have hvmap : s.task.vmapPage = 600 := by rw [h.task, h.vmapPage]
  have hidx : IDX (266334208 + 4096 * i) = 65023 + i := by
    unfold IDX
    omega
  unfold vmapSet
  rw [hidx]
  refine returns_bind (returns_gets (returns_bind (returns_gets ?_)))
  rw [hoffset, hsize, hvmap]
  refine returns_ite (fun hbeyond => ?_) fun hin => ?_
  · have hframe : 600 + (65023 + i - 32768) / (8 * PAGE_SIZE) = 601 := by
      unfold PAGE_SIZE
      omega
    refine returns_bind (returns_note (returns_modify ?_))
    rw [hframe]
    generalize hj : (65023 + i - 32768) % (8 * PAGE_SIZE) / 32 = j
    unfold PAGE_SIZE at hj
    generalize hv : (s.mem 601 j).setBit ((65023 + i - 32768) % 32) = v
    refine ⟨h.setOther ?_, setOther_mem⟩
    by_cases hword : j = 4
    · rw [hword] at hv ⊢
      have hbit : (65023 + i - 32768) % 32 = i - 641 := by omega
      have hsucc : i + 1 - 641 = i - 641 + 1 := by omega
      rw [State.setWord_self, ← hv, h.word, hbit, hsucc, lowBits_succ]
    · have hsame : i + 1 - 641 = i - 641 := by omega
      rw [State.setWord_word (Ne.symm hword), h.word, hsame]
  · have hbit : (65023 + i - 32768) / 8 < 4096 := by omega
    have hsame : i + 1 - 641 = i - 641 := by omega
    have hset : ∃ map, bitmapSet (s.procs 0).vmap (65023 + i) true = .ok map ∧
        map.offset = (s.procs 0).vmap.offset ∧ map.size = (s.procs 0).vmap.size := by
      have hindex : 65023 + i = (s.procs 0).vmap.offset + (65023 + i - 32768) := by
        rw [h.offset]
        omega
      rw [hindex]
      exact ⟨_, bitmapSet_of_lt true (by rw [h.size]; exact hbit), rfl, rfl⟩
    obtain ⟨map, hmap, hmapoffset, hmapsize⟩ := hset
    refine returns_bind (returns_lift (by rw [h.task]; exact hmap) (returns_modify ?_))
    rw [h.current, hsame]
    exact ⟨{ h with
      pde := h.pde
      vmapPage := h.vmapPage
      offset := hmapoffset.trans h.offset
      size := hmapsize.trans h.size
      other := h.other }, rfl⟩

/-- The loop of `sys_mmap`, from the `i`th page on. -/
theorem mmapLoop_returns {prot : Prot} {n : ℕ} (h : Corner (2 * i) (lowBits (i - 641)) s)
    (hn : i + n = 666) :
    Returns (mmapLoop prot (266334208 + 4096 * i) n)
      (fun _ s' => Corner 1332 (lowBits 25) s') s := by
  induction n generalizing s i with
  | zero =>
      obtain rfl : i = 666 := by omega
      exact returns_pure h
  | succ n ih =>
      have hv : UserAddr (266334208 + 4096 * i) := by
        unfold UserAddr USER_EXEC_ADDR WINDOW
        omega
      have hnext : u32 (266334208 + 4096 * i + PAGE_SIZE) = 266334208 + 4096 * (i + 1) := by
        unfold u32 PAGE_SIZE
        omega
      unfold mmapLoop getWord Memory.setWord
      refine returns_bind (returns_mono (h.linkPage_returns (by omega) hv ?_) fun _ s₁ h₁ => ?_)
      · unfold PAGE_SIZE
        omega
      obtain ⟨h₁, table, hbehind⟩ := h₁
      refine returns_bind (returns_mono (h₁.vmapSet_returns (by omega)) fun _ s₂ hset => ?_)
      obtain ⟨h₂, hmem⟩ := hset
      have hbehind₂ : Behind (266334208 + 4096 * i) table s₂ := by
        unfold Behind
        rw [hmem]
        exact hbehind
      refine returns_bind (returns_mono (h₂.getPte_behind hv hbehind₂) fun t s₃ ht => ?_)
      obtain ⟨rfl, htable, rfl⟩ := ht
      refine returns_bind (returns_gets (returns_bind (returns_gets ?_)))
      have hdone : ∀ v, Returns (mmapLoop prot (u32 (266334208 + 4096 * i + PAGE_SIZE)) n)
          (fun _ s' => Corner 1332 (lowBits 25) s') (s₃.setWord t (TIDX (266334208 + 4096 * i)) v) := by
        intro v
        rw [hnext]
        exact ih (h₂.setWord htable) (by omega)
      exact returns_ite (fun _ => returns_bind (returns_note (returns_bind (returns_modify (hdone _)))))
        fun _ => returns_bind (returns_modify (hdone _))

end Corner

theorem cornerState_corner : Corner 0 (lowBits 0) cornerState := by
  refine ⟨rfl, rfl, rfl, rfl, rfl, rfl, rfl, rfl, rfl, rfl, ?_, ?_, ?_, rfl⟩
  · intro i hlow hhigh hp
    have hzero : cornerState.mem 512 i = .zero := by
      change blankDirectory 512 i = _
      unfold blankDirectory
      rw [if_neg (by omega), if_neg (by omega)]
    rw [hzero] at hp
    cases hp
  · intro f hf
    have hone : cornerState.memoryMap f = 1 := if_pos hf
    rw [hone]
    exact one_ne_zero
  · intro f hf
    exact if_neg (by unfold KERNEL_PAGES; omega)

/-- An `sys_mmap` across the end of the area gives another task a page table that nothing
counts. -/
theorem exists_uncounted : ∃ s₀ s, Fresh s₀ ∧ Run Step (fun _ _ => True) s₀ s ∧
    ∃ f, KERNEL_PAGES ≤ f ∧ f < s.totalPages ∧ s.memoryMap f ≠ s.mappings f + s.tables f := by
  have hmmap : Returns (Action.mmap 266334208 2727936 ⟨true, false, true⟩).code
      (fun _ s => Corner 1332 (lowBits 25) s) cornerState := by
    unfold Action.code sysMmap
    refine returns_bind (returns_mono ?_ fun _ _ h => returns_pure h)
    refine returns_bind (returns_check (by decide) (returns_bind (returns_gets ?_)))
    refine returns_bind (returns_pure ?_)
    refine returns_bind (returns_check (by decide) (returns_bind ?_))
    refine returns_mono (cornerState_corner.mmapLoop_returns (i := 0) rfl) fun _ _ h => ?_
    exact returns_pure h
  obtain ⟨_, s, l, hrun, h⟩ := hmmap
  refine ⟨cornerState, s, cornerState_fresh, .head (a := (.mmap 266334208 2727936
    ⟨true, false, true⟩, l)) trivial ⟨⟨by decide, by decide, by decide⟩, hrun⟩ .refl, 8191,
    by decide, by rw [h.totalPages]; decide, ?_⟩
  have hslot : ((601, 4) : Slot) ∈ s.slots := by
    refine mem_slots.mpr ⟨⟨1, ?_, h.other⟩, by decide⟩
    rw [h.live]
    decide
  have htarget : tableTarget s.mem (601, 4) = some 8191 := by
    rw [tableTarget, h.word]
    decide
  have hpos : 1 ≤ s.tables 8191 := refCount_pos hslot htarget
  have hzero := h.free 8191 (by omega)
  omega

end Ylos.Memory
