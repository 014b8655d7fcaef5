import Ylos.Verification.Bitmap.FirstFit
import Ylos.Verification.Memory.Tables

/-! # Address spaces and the invariant

The kernel's own part of every page directory, the kernel pages that live tasks hold,
and the frames make up the invariant of virtual memory. -/

namespace Ylos.Memory

open Exec

/-- A kernel page that `kernel_map` says is in use. -/
def Taken (map : Bitmap) (page : ℕ) : Prop :=
  256 ≤ page ∧ page < KERNEL_PAGES ∧ bitAt map.bits (page - 256) = true

/-- `vmap` has a page of bits for the pages from `USER_MMAP_ADDR` on, and the heap lies
below. -/
structure Proc.Valid (v : Proc) : Prop where
  offset : v.vmap.offset = IDX USER_MMAP_ADDR
  length : v.vmap.length = PAGE_SIZE
  size : v.vmap.size = PAGE_SIZE
  endAddr : USER_EXEC_ADDR ≤ v.endAddr
  brk : v.brk ≤ USER_MMAP_ADDR

/-- The entry that every directory has in the kernel slot `i`. -/
def kernelEntry (i : ℕ) : Word := { entryInit (i + 2) with user := false }

structure Spaces (s : State) : Prop where
  offset : s.kernelMap.offset = 256
  length : s.kernelMap.length = 480
  size : s.kernelMap.size = 480
  valid : ∀ p ∈ s.live, (s.procs p).Valid
  pde : ∀ p ∈ s.live, Taken s.kernelMap (s.procs p).pde
  vmapPage : ∀ p ∈ s.live, Taken s.kernelMap (s.procs p).vmapPage
  pde_inj : ∀ p ∈ s.live, ∀ q ∈ s.live, (s.procs p).pde = (s.procs q).pde → p = q
  vmapPage_inj : ∀ p ∈ s.live, ∀ q ∈ s.live, (s.procs p).vmapPage = (s.procs q).vmapPage → p = q
  pde_ne : ∀ p ∈ s.live, ∀ q ∈ s.live, (s.procs p).pde ≠ (s.procs q).vmapPage
  self : ∀ p ∈ s.live, s.mem (s.procs p).pde SELF_SLOT = entryInit (s.procs p).pde
  low : ∀ p ∈ s.live, ∀ i < KERNEL_SLOTS, s.mem (s.procs p).pde i = kernelEntry i

/-- What holds of every reachable state. -/
structure Inv (strict : Prop) (s : State) : Prop where
  frames : Frames strict s s.slots 0
  spaces : Spaces s

/-- The events that leave the invariant alone. -/
def Calm (strict : Prop) : Event → Prop
  | .beyond => False
  | .regrant => ¬strict
  | .window => False

/-- The tasks and the size of memory are as before. -/
structure Steady (s s' : State) : Prop where
  procs : s'.procs = s.procs
  live : s'.live = s.live
  current : s'.current = s.current
  kernelMap : s'.kernelMap = s.kernelMap
  totalPages : s'.totalPages = s.totalPages

/-- Frames are as before, unless they are free, belong to the page tables of the running
task, or to the kernel. -/
def Local (s s' : State) : Prop :=
  ∀ f, f ≠ s.task.pde → f ≠ 2 → s.memoryMap f ≠ 0 →
    (∀ i, (s.task.pde, i) ∈ s.slots → tableTarget s.mem (s.task.pde, i) ≠ some f) →
      s'.mem f = s.mem f

/-- The running task may have got frames that were free. Apart from that, entries map what
they mapped. -/
structure Sourced (s s' : State) : Prop where
  other : ∀ r ∈ entries s.slots, r.1.1 ≠ s.task.pde → entryAt s'.mem r = entryAt s.mem r
  stays : ∀ r ∈ entries s.slots, ∀ w, entryAt s.mem r = some w → entryAt s'.mem r = some w
  target : ∀ r ∈ entries s.slots, ∀ f, entryTarget s'.mem r = some f →
    entryTarget s.mem r = some f ∨ s.memoryMap f = 0

theorem mem_slots {s : State} {x : Slot} : x ∈ s.slots ↔
    (∃ p ∈ s.live, (s.procs p).pde = x.1) ∧ KERNEL_SLOTS ≤ x.2 ∧ x.2 < SELF_SLOT := by
  simp [State.slots]

theorem didx_of_userAddr {vaddr : ℕ} (h : UserAddr vaddr) :
    KERNEL_SLOTS ≤ DIDX vaddr ∧ DIDX vaddr < SELF_SLOT := by
  unfold UserAddr USER_EXEC_ADDR WINDOW at h
  unfold DIDX KERNEL_SLOTS SELF_SLOT
  omega

theorem tidx_lt (vaddr : ℕ) : TIDX vaddr < 1024 := Nat.mod_lt _ (by norm_num)

/-- Slots of the window are those of the directory. -/
theorem window_of_self {s : State} (h : s.mem s.task.pde SELF_SLOT = entryInit s.task.pde)
    (i : ℕ) : s.window i = (s.mem s.task.pde i).index := by
  rw [State.window, h]
  rfl

theorem window_self {s : State} (h : s.mem s.task.pde SELF_SLOT = entryInit s.task.pde) :
    s.window SELF_SLOT = s.task.pde := by
  rw [window_of_self h, h]
  rfl

namespace Steady

variable {s s' s'' : State}

theorem refl (s : State) : Steady s s := ⟨rfl, rfl, rfl, rfl, rfl⟩

theorem trans (h : Steady s s') (h' : Steady s' s'') : Steady s s'' :=
  ⟨h'.procs.trans h.procs, h'.live.trans h.live, h'.current.trans h.current,
    h'.kernelMap.trans h.kernelMap, h'.totalPages.trans h.totalPages⟩

theorem setWord (s : State) (f i : ℕ) (w : Word) : Steady s (s.setWord f i w) :=
  ⟨rfl, rfl, rfl, rfl, rfl⟩

theorem setFrame (s : State) (f : ℕ) (ws : ℕ → Word) : Steady s (s.setFrame f ws) :=
  ⟨rfl, rfl, rfl, rfl, rfl⟩

theorem setCount (s : State) (f n : ℕ) : Steady s (s.setCount f n) := ⟨rfl, rfl, rfl, rfl, rfl⟩

theorem slots (h : Steady s s') : s'.slots = s.slots := by
  unfold State.slots
  rw [h.procs, h.live]

theorem task (h : Steady s s') : s'.task = s.task := by
  unfold State.task
  rw [h.procs, h.current]

end Steady

namespace Spaces

variable {s s' : State} {p i : ℕ}

theorem of_steady (h : Spaces s) (hs : Steady s s')
    (hmem : ∀ p ∈ s.live, ∀ i, i = SELF_SLOT ∨ i < KERNEL_SLOTS →
      s'.mem (s.procs p).pde i = s.mem (s.procs p).pde i) : Spaces s' := by
  constructor
  all_goals simp only [hs.procs, hs.live, hs.kernelMap]
  · exact h.offset
  · exact h.length
  · exact h.size
  · exact h.valid
  · exact h.pde
  · exact h.vmapPage
  · exact h.pde_inj
  · exact h.vmapPage_inj
  · exact h.pde_ne
  · intro p hp
    rw [hmem p hp _ (.inl rfl)]
    exact h.self p hp
  · intro p hp i hi
    rw [hmem p hp i (.inr hi)]
    exact h.low p hp i hi

/-- Some tasks may be gone, and `kernel_map` may have changed, but not for the pages that
the others hold. -/
theorem of_map (h : Spaces s) (hmem : s'.mem = s.mem) (hprocs : s'.procs = s.procs)
    (hlive : ∀ p ∈ s'.live, p ∈ s.live) (hoffset : s'.kernelMap.offset = s.kernelMap.offset)
    (hlength : s'.kernelMap.length = s.kernelMap.length)
    (hsize : s'.kernelMap.size = s.kernelMap.size)
    (htaken : ∀ p ∈ s'.live, ∀ page, page = (s.procs p).pde ∨ page = (s.procs p).vmapPage →
      Taken s.kernelMap page → Taken s'.kernelMap page) : Spaces s' := by
  constructor
  all_goals simp only [hmem, hprocs, hoffset, hlength, hsize]
  · exact h.offset
  · exact h.length
  · exact h.size
  · exact fun p hp => h.valid p (hlive p hp)
  · exact fun p hp => htaken p hp _ (.inl rfl) (h.pde p (hlive p hp))
  · exact fun p hp => htaken p hp _ (.inr rfl) (h.vmapPage p (hlive p hp))
  · exact fun p hp q hq => h.pde_inj p (hlive p hp) q (hlive q hq)
  · exact fun p hp q hq => h.vmapPage_inj p (hlive p hp) q (hlive q hq)
  · exact fun p hp q hq => h.pde_ne p (hlive p hp) q (hlive q hq)
  · exact fun p hp => h.self p (hlive p hp)
  · exact fun p hp => h.low p (hlive p hp)

/-- A task that shares no kernel page with the others may be added. -/
theorem addTask (h : Spaces s) {child : ℕ} (hchild : child ∉ s.live) {v : Proc} (hv : v.Valid)
    (hpde : Taken s.kernelMap v.pde) (hvmap : Taken s.kernelMap v.vmapPage)
    (hother : ∀ p ∈ s.live, ∀ page, page = (s.procs p).pde ∨ page = (s.procs p).vmapPage →
      page ≠ v.pde ∧ page ≠ v.vmapPage) (hne : v.pde ≠ v.vmapPage)
    (hself : s.mem v.pde SELF_SLOT = entryInit v.pde)
    (hlow : ∀ i < KERNEL_SLOTS, s.mem v.pde i = kernelEntry i) :
    Spaces { s.setProc child v with live := insert child s.live } := by
  have hold : ∀ p ∈ s.live, (s.setProc child v).procs p = s.procs p :=
    fun p hp => if_neg fun hpc : p = child => hchild (hpc ▸ hp)
  have hnew : (s.setProc child v).procs child = v := if_pos rfl
  have hall : ∀ (P : Proc → Prop), P v → (∀ p ∈ s.live, P (s.procs p)) →
      ∀ p ∈ insert child s.live, P ((s.setProc child v).procs p) := by
    intro P hPv hP p hp
    rcases Finset.mem_insert.mp hp with rfl | hp
    · rw [hnew]
      exact hPv
    · rw [hold p hp]
      exact hP p hp
  refine ⟨h.offset, h.length, h.size, hall _ hv h.valid,
    hall (fun u => Taken s.kernelMap u.pde) hpde h.pde,
    hall (fun u => Taken s.kernelMap u.vmapPage) hvmap h.vmapPage, ?_, ?_, ?_,
    hall (fun u => s.mem u.pde SELF_SLOT = entryInit u.pde) hself h.self,
    hall (fun u => ∀ i < KERNEL_SLOTS, s.mem u.pde i = kernelEntry i) hlow h.low⟩
  · intro p hp q hq hpq
    rcases Finset.mem_insert.mp hp with hp' | hp' <;>
      rcases Finset.mem_insert.mp hq with hq' | hq'
    · exact hp'.trans hq'.symm
    · rw [hp', hnew, hold q hq'] at hpq
      exact absurd hpq.symm (hother q hq' _ (.inl rfl)).1
    · rw [hq', hnew, hold p hp'] at hpq
      exact absurd hpq (hother p hp' _ (.inl rfl)).1
    · rw [hold p hp', hold q hq'] at hpq
      exact h.pde_inj p hp' q hq' hpq
  · intro p hp q hq hpq
    rcases Finset.mem_insert.mp hp with hp' | hp' <;>
      rcases Finset.mem_insert.mp hq with hq' | hq'
    · exact hp'.trans hq'.symm
    · rw [hp', hnew, hold q hq'] at hpq
      exact absurd hpq.symm (hother q hq' _ (.inr rfl)).2
    · rw [hq', hnew, hold p hp'] at hpq
      exact absurd hpq (hother p hp' _ (.inr rfl)).2
    · rw [hold p hp', hold q hq'] at hpq
      exact h.vmapPage_inj p hp' q hq' hpq
  · refine hall (fun u => ∀ q ∈ insert child s.live, u.pde ≠ ((s.setProc child v).procs q).vmapPage)
      ?_ ?_
    · exact hall (fun w => v.pde ≠ w.vmapPage) hne
        fun q hq => (hother q hq _ (.inr rfl)).1.symm
    · exact fun p hp => hall (fun w => (s.procs p).pde ≠ w.vmapPage)
        (hother p hp _ (.inl rfl)).2 (h.pde_ne p hp)

theorem pde_lt (h : Spaces s) (hp : p ∈ s.live) : (s.procs p).pde < KERNEL_PAGES :=
  (h.pde p hp).2.1

theorem pde_ne_two (h : Spaces s) (hp : p ∈ s.live) : (s.procs p).pde ≠ 2 := by
  have hlow := (h.pde p hp).1
  omega

theorem task_self (h : Spaces s) (hcur : s.current ∈ s.live) :
    s.mem s.task.pde SELF_SLOT = entryInit s.task.pde := h.self _ hcur

theorem mem_slots_self (hcur : s.current ∈ s.live) (hi : KERNEL_SLOTS ≤ i ∧ i < SELF_SLOT) :
    (s.task.pde, i) ∈ s.slots :=
  mem_slots.mpr ⟨⟨s.current, hcur, rfl⟩, hi⟩

end Spaces

namespace Inv

variable {strict : Prop} {s s' : State}

theorem of_steady (h : Inv strict s) (hs : Steady s s')
    (hframes : Frames strict s' s.slots 0)
    (hmem : ∀ p ∈ s.live, ∀ i, i = SELF_SLOT ∨ i < KERNEL_SLOTS →
      s'.mem (s.procs p).pde i = s.mem (s.procs p).pde i) : Inv strict s' :=
  ⟨hs.slots ▸ hframes, h.spaces.of_steady hs hmem⟩

/-- The frame behind a slot of a directory is not a directory. -/
theorem table_ne_pde (h : Inv strict s) {x : Slot} (hx : x ∈ s.slots) {f p : ℕ}
    (hp : p ∈ s.live) (ht : tableTarget s.mem x = some f) : (s.procs p).pde ≠ f := by
  have hlow := (h.frames.table x hx f ht).1
  have hlt := h.spaces.pde_lt hp
  omega

end Inv

/-! ## Frames and kernel pages -/

section Pages

variable {strict : Prop} {good : Event → Prop} {s : State} {S : Finset Slot}
  {extra e : ℕ → ℕ}

theorem wp_getPage {Q : ℕ → State → Prop} (h : Frames strict s S extra)
    (hQ : ∀ i s', KERNEL_PAGES ≤ i → i < s.totalPages → s.memoryMap i = 0 → s'.mem = s.mem →
      (∀ f, s'.memoryMap f = if f = i then 1 else s.memoryMap f) → Steady s s' →
      Frames strict s' S (extra + hit (some i)) → Q i s') : wp good getPage Q s := by
  unfold getPage
  simp only [wp_bind, wp_get]
  split
  · exact wp_fault _
  · rename_i i hfind
    simp only [wp_bind, wp_modify, wp_pure]
    have hmem := List.mem_of_find?_eq_some hfind
    have hzero : s.memoryMap i = 0 := by simpa using List.find?_some hfind
    rw [List.mem_range'_1] at hmem
    have hi : i < s.totalPages := by omega
    have hlow : KERNEL_PAGES ≤ i := by
      by_contra hlt
      have hone := h.kernel i (by omega)
      omega
    exact hQ i _ hlow hi hzero rfl (fun _ => rfl) ⟨rfl, rfl, rfl, rfl, rfl⟩
      ((h.grab hlow hi hzero).congr rfl rfl rfl)

theorem wp_putPage {Q : Unit → State → Prop} {i : ℕ} (h : Frames strict s S extra)
    (hlow : KERNEL_PAGES ≤ i) (hextra : ∀ f, extra f = e f + hit (some i) f)
    (hQ : ∀ s', s'.mem = s.mem → Steady s s' → Frames strict s' S e → Q () s') :
    wp good (putPage i) Q s := by
  unfold putPage
  simp only [wp_bind, wp_get, wp_check, wp_modify, wp_gets, wp_ite]
  intro _ hpos
  have hdrop := h.drop hlow hextra hpos
  exact ⟨fun _ _ => hQ _ rfl ⟨rfl, rfl, rfl, rfl, rfl⟩ (hdrop.congr rfl rfl rfl),
    fun _ _ => hQ _ rfl ⟨rfl, rfl, rfl, rfl, rfl⟩ hdrop⟩

theorem wp_freeKpage {Q : Unit → State → Prop} {page : ℕ}
    (hoffset : s.kernelMap.offset = 256)
    (h : ∀ bits, 256 ≤ page → (∀ j, bitAt bits j = if j = page - 256 then false else
        bitAt s.kernelMap.bits j) →
      Q () { s with kernelMap := { s.kernelMap with bits := bits } }) :
    wp good (freeKpage page) Q s := by
  unfold freeKpage
  simp only [wp_bind, wp_gets, wp_lift, wp_check, wp_modify]
  intro b hb _ map hmap
  rw [bitmapSet_eq_ok hmap]
  refine h _ (hoffset ▸ (bitmapTest_eq_ok hb).1) fun j => ?_
  rw [bitAt_putBit, hoffset]

/-- `alloc_kpage` takes a page that nobody holds. -/
theorem wp_allocKpage {Q : ℕ → State → Prop} (hspaces : Spaces s)
    (hQ : ∀ page map, ¬Taken s.kernelMap page → Taken map page →
      (∀ q, Taken s.kernelMap q → Taken map q) → Spaces { s with kernelMap := map } →
      Q page { s with kernelMap := map }) :
    wp good allocKpage Q s := by
  obtain ⟨hoffset, hlength, hsize⟩ : s.kernelMap.offset = 256 ∧ s.kernelMap.length = 480 ∧
    s.kernelMap.size = 480 := ⟨hspaces.offset, hspaces.length, hspaces.size⟩
  unfold allocKpage
  simp only [wp_bind, wp_get, wp_lift]
  rintro ⟨index, map⟩ hscan
  simp only [wp_check, wp_modify, wp_pure]
  intro hfound
  by_cases hfull : ∀ j < 8 * s.kernelMap.length, bitAt s.kernelMap.bits j = true
  · rw [bitmapScan_one_full (by omega) (by omega) (by omega) hfull] at hscan
    cases hscan
    exact absurd rfl hfound
  · obtain ⟨j, hj⟩ := not_forall.mp hfull
    obtain ⟨hlt, hclear⟩ := Classical.not_imp.mp hj
    have hexists : ∃ k, bitAt s.kernelMap.bits k = false := ⟨j, by simpa using hclear⟩
    have hfirst := Nat.find_spec hexists
    have hle : Nat.find hexists ≤ j := Nat.find_min' hexists (by simpa using hclear)
    rw [bitmapScan_one (s := Nat.find hexists) (by omega) (by omega) (by omega) (by omega) hfirst
      (fun k hk => by simpa using Nat.find_min hexists hk)] at hscan
    cases hscan
    have hindex : s.kernelMap.offset + Nat.find hexists - 256 = Nat.find hexists := by omega
    have hlow : 256 ≤ s.kernelMap.offset + Nat.find hexists := by omega
    have hhigh : s.kernelMap.offset + Nat.find hexists < KERNEL_PAGES := by
      unfold KERNEL_PAGES
      omega
    have hkeep : ∀ q, Taken s.kernelMap q → Taken { s.kernelMap with
        bits := putBit s.kernelMap.bits (Nat.find hexists) true } q := by
      rintro q ⟨hq, hq', hbit⟩
      refine ⟨hq, hq', ?_⟩
      rw [bitAt_putBit]
      split
      · rfl
      · exact hbit
    refine hQ _ _ ?_ ⟨hlow, hhigh, ?_⟩ hkeep
      (hspaces.of_map rfl rfl (fun _ hp => hp) rfl rfl rfl fun _ _ q _ => hkeep q)
    · rintro ⟨_, _, hbit⟩
      rw [hindex, hfirst] at hbit
      cases hbit
    · rw [bitAt_putBit, hindex, if_pos rfl]

end Pages

end Ylos.Memory
