import Ylos.Verification.Bitmap.Runs
import Ylos.Verification.Memory.Supervisor
import Ylos.Verification.Memory.Tally

/-! # The pages that `sys_mmap` returns -/

namespace Ylos.Memory

open Exec

variable {strict : Prop} {good : Event → Prop} {s s' s'' s₀ : State} {vaddr a b n i : ℕ}

/-! ## Entries by address -/

/-- The entry that maps the page at `a` for the running task. -/
def State.entry (s : State) (a : ℕ) : Option Word := entryAt s.mem (s.slot a, TIDX a)

theorem entry_mem (hcur : s.current ∈ s.live) (ha : UserAddr a) :
    (s.slot a, TIDX a) ∈ entries s.slots :=
  mem_entries.mpr ⟨slot_mem hcur ha, tidx_lt a⟩

theorem mapped_iff : s.mapped s.task.pde a = true ↔ (s.entry a).isSome = true := by
  rw [Option.isSome_iff_exists]
  constructor
  · exact entry_of_mapped
  · rintro ⟨v, hv⟩
    exact mapped_of_entry hv

/-- Pages have entries of their own. -/
theorem entry_inj (ha : a % PAGE_SIZE = 0) (hb : b % PAGE_SIZE = 0) (hua : UserAddr a)
    (hub : UserAddr b) : (s.slot a, TIDX a) = (s.slot b, TIDX b) ↔ a = b := by
  constructor
  · intro heq
    have hd : DIDX a = DIDX b := congrArg (fun r : Slot × ℕ => r.1.2) heq
    have ht : TIDX a = TIDX b := congrArg (fun r : Slot × ℕ => r.2) heq
    unfold UserAddr WINDOW at hua hub
    unfold PAGE_SIZE at ha hb
    unfold DIDX at hd
    unfold TIDX at ht
    omega
  · rintro rfl
    rfl

/-- The task goes on with the directory that it had. -/
structure Same (s s' : State) : Prop where
  pde : s'.task.pde = s.task.pde
  live : s'.current ∈ s'.live

theorem Same.slot (h : Same s s') : s'.slot a = s.slot a := by
  rw [State.slot, State.slot, h.pde]

theorem Steady.same (h : Steady s s') (hcur : s.current ∈ s.live) : Same s s' := by
  refine ⟨by rw [h.task], ?_⟩
  rw [h.current, h.live]
  exact hcur

theorem wp_linkPage_entry (h : Inv strict s) (hcur : s.current ∈ s.live) (hv : UserAddr vaddr) :
    wp good (linkPage vaddr) (fun _ s' => Inv strict s' ∧ Steady s s' ∧
      (s'.entry vaddr).isSome = true ∧
      ∀ a, UserAddr a → (s.entry a).isSome = true → (s'.entry a).isSome = true) s := by
  refine wp_mono (wp_linkPage h hcur hv) fun _ s' hlinked => ?_
  obtain ⟨h', hsteady, -, hsourced, -, v, hv'⟩ := hlinked
  have hslot : ∀ a, s'.slot a = s.slot a := fun a => (hsteady.same hcur).slot
  refine ⟨h', hsteady, ?_, fun a ha hmapped => ?_⟩
  · rw [State.entry, hslot, hv']
    rfl
  · obtain ⟨w, hw⟩ := Option.isSome_iff_exists.mp hmapped
    rw [State.entry, hslot, hsourced.stays _ (entry_mem hcur ha) w hw]
    rfl

theorem wp_unlinkPage_entry (h : Inv strict s) (hcur : s.current ∈ s.live) (hv : UserAddr vaddr)
    (hpage : vaddr % PAGE_SIZE = 0) :
    wp good (unlinkPage vaddr) (fun _ s' => Inv strict s' ∧ Steady s s' ∧
      ∀ a, UserAddr a → a % PAGE_SIZE = 0 →
        s'.entry a = if a = vaddr then none else s.entry a) s := by
  refine wp_mono (wp_unlinkPage h hcur hv) fun _ s' hunlinked => ?_
  obtain ⟨h', hsteady, hentries⟩ := hunlinked
  refine ⟨h', hsteady, fun a ha hpa => ?_⟩
  rw [State.entry, (hsteady.same hcur).slot, hentries _ (entry_mem hcur ha)]
  exact if_congr (entry_inj hpa hpage ha hv) rfl rfl

/-! ## Bits of `vmap` -/

/-- Bit `i` of the `vmap` of the running task. -/
def State.vmapBit (s : State) (i : ℕ) : Bool := bitAt s.task.vmap.bits i

/-- The bit of the page at `vaddr`. -/
def bitOf (vaddr : ℕ) : ℕ := IDX vaddr - IDX USER_MMAP_ADDR

/-- The running task has other bits in `vmap`. -/
def State.setBits (s : State) (bits : Bytes) : State :=
  s.setProc s.current { s.procs s.current with vmap := { s.task.vmap with bits := bits } }

theorem setBits_task {bits : Bytes} :
    (s.setBits bits).task = { s.task with vmap := { s.task.vmap with bits := bits } } := by
  change (if s.current = s.current then _ else _ : Proc) = _
  rw [if_pos rfl]
  rfl

@[simp] theorem setBits_vmapBit {bits : Bytes} : (s.setBits bits).vmapBit i = bitAt bits i := by
  rw [State.vmapBit, setBits_task]

@[simp] theorem setBits_entry {bits : Bytes} : (s.setBits bits).entry a = s.entry a := by
  have hslot : (s.setBits bits).slot a = s.slot a := by
    rw [State.slot, State.slot, setBits_task]
  rw [State.entry, hslot]
  rfl

theorem setBits_same {bits : Bytes} (hcur : s.current ∈ s.live) : Same s (s.setBits bits) :=
  ⟨by rw [setBits_task], hcur⟩

theorem Inv.setBits {bits : Bytes} (h : Inv strict s) : Inv strict (s.setBits bits) := by
  have hkept : Kept strict s (s.setBits bits) := Kept.setVmap h ⟨rfl, rfl, rfl⟩
  exact hkept.inv

theorem Steady.vmapBit (h : Steady s s') : s'.vmapBit i = s.vmapBit i := by
  rw [State.vmapBit, State.vmapBit, h.task]

theorem bitmapSet_page (h : s.task.Valid) (hv : MmapAddr vaddr) (v : Bool) :
    bitmapSet s.task.vmap (IDX vaddr) v =
      .ok { s.task.vmap with bits := putBit s.task.vmap.bits (bitOf vaddr) v } := by
  have hindex : IDX vaddr = s.task.vmap.offset + bitOf vaddr := by
    rw [h.offset]
    unfold MmapAddr at hv
    unfold bitOf IDX
    omega
  rw [hindex]
  refine bitmapSet_of_lt v ?_
  rw [h.size]
  unfold MmapAddr USER_MMAP_ADDR USER_STACK_TOP at hv
  unfold bitOf IDX USER_MMAP_ADDR PAGE_SIZE
  omega

theorem bitmapTest_page (h : s.task.Valid) (hv : MmapAddr vaddr) :
    bitmapTest s.task.vmap (IDX vaddr) = .ok (s.vmapBit (bitOf vaddr)) := by
  have hindex : IDX vaddr = s.task.vmap.offset + bitOf vaddr := by
    rw [h.offset]
    unfold MmapAddr at hv
    unfold bitOf IDX
    omega
  have hbyte : bitOf vaddr / 8 < PAGE_SIZE := by
    unfold MmapAddr USER_MMAP_ADDR USER_STACK_TOP at hv
    unfold bitOf IDX USER_MMAP_ADDR PAGE_SIZE
    omega
  rw [hindex]
  exact bitmapTest_of_lt (by rw [h.length]; exact hbyte) (by rw [h.size]; exact hbyte)

theorem wp_vmapSet_bit (h : s.task.Valid) (hv : MmapAddr vaddr) {Q : Unit → State → Prop}
    (hQ : Q () (s.setBits (putBit s.task.vmap.bits (bitOf vaddr) true))) :
    wp good (vmapSet (IDX vaddr)) Q s := by
  have hin : ¬(s.task.vmap.offset ≤ IDX vaddr ∧
      s.task.vmap.size ≤ (IDX vaddr - s.task.vmap.offset) / 8) := by
    rw [h.offset, h.size]
    unfold MmapAddr USER_MMAP_ADDR USER_STACK_TOP at hv
    unfold IDX USER_MMAP_ADDR PAGE_SIZE
    omega
  unfold vmapSet
  simp only [wp_bind, wp_gets, wp_ite, wp_lift, wp_modify]
  refine ⟨fun hbeyond => absurd hbeyond hin, fun _ map hmap => ?_⟩
  rw [bitmapSet_page h hv] at hmap
  cases hmap
  exact hQ

/-! ## The loop of `sys_mmap` -/

/-- The bits of the `n` pages from `vaddr` on. -/
def InRange (vaddr n i : ℕ) : Prop := bitOf vaddr ≤ i ∧ i < bitOf vaddr + n

instance : Decidable (InRange vaddr n i) := inferInstanceAs (Decidable (_ ∧ _))

/-- The `n` pages from `vaddr` on belong to the area for mappings and to the stack above it. -/
def Roomy (vaddr n : ℕ) : Prop :=
  USER_MMAP_ADDR ≤ vaddr ∧ vaddr + n * PAGE_SIZE ≤ USER_STACK_TOP ∧ vaddr % PAGE_SIZE = 0

theorem Roomy.head (h : Roomy vaddr (n + 1)) : MmapAddr vaddr := by
  unfold Roomy PAGE_SIZE at h
  unfold MmapAddr
  omega

theorem Roomy.tail (h : Roomy vaddr (n + 1)) :
    u32 (vaddr + PAGE_SIZE) = vaddr + PAGE_SIZE ∧ Roomy (vaddr + PAGE_SIZE) n := by
  unfold Roomy USER_MMAP_ADDR USER_STACK_TOP PAGE_SIZE at *
  unfold u32
  omega

theorem Roomy.inRange (h : Roomy vaddr (n + 1)) :
    InRange vaddr (n + 1) i ↔ i = bitOf vaddr ∨ InRange (vaddr + PAGE_SIZE) n i := by
  unfold Roomy USER_MMAP_ADDR PAGE_SIZE at h
  unfold InRange bitOf IDX USER_MMAP_ADDR PAGE_SIZE
  omega

/-- What the loop of `sys_mmap` does for the `n` pages from `vaddr` on. -/
structure Granted (s s' : State) (vaddr n : ℕ) : Prop where
  same : Same s s'
  bits : ∀ i, s'.vmapBit i = (decide (InRange vaddr n i) || s.vmapBit i)
  mapped : ∀ k < n, (s'.entry (vaddr + k * PAGE_SIZE)).isSome = true
  stays : ∀ a, UserAddr a → (s.entry a).isSome = true → (s'.entry a).isSome = true

theorem wp_mmapLoop_granted {prot : Prot} (h : Inv False s) (hcur : s.current ∈ s.live)
    (hroom : Roomy vaddr n) :
    wp good (mmapLoop prot vaddr n) (fun _ s' => Inv False s' ∧ Granted s s' vaddr n) s := by
  induction n generalizing s vaddr with
  | zero =>
      refine (wp_pure _).mpr ⟨h, ⟨rfl, hcur⟩, fun i => ?_, fun k hk => by omega, fun _ _ ha => ha⟩
      rw [decide_eq_false (by unfold InRange; omega), Bool.false_or]
  | succ n ih =>
      have haddr := hroom.head
      unfold mmapLoop
      rw [wp_bind]
      refine wp_mono (wp_linkPage_entry h hcur haddr.userAddr) fun _ s₁ hlinked => ?_
      obtain ⟨h₁, hsteady₁, hpage₁, hstays₁⟩ := hlinked
      have hsame₁ := hsteady₁.same hcur
      rw [wp_bind]
      refine wp_vmapSet_bit (h₁.spaces.valid _ hsame₁.live) haddr ?_
      generalize hs₂ : s₁.setBits (putBit s₁.task.vmap.bits (bitOf vaddr) true) = s₂
      have h₂ : Inv False s₂ := hs₂ ▸ h₁.setBits
      have hsame₂ : Same s₁ s₂ := hs₂ ▸ setBits_same hsame₁.live
      have hbits₂ : ∀ i, s₂.vmapBit i = (decide (i = bitOf vaddr) || s.vmapBit i) := by
        intro i
        rw [← hs₂, setBits_vmapBit, bitAt_putBit, ← hsteady₁.vmapBit]
        by_cases hi : i = bitOf vaddr
        · rw [if_pos hi, decide_eq_true hi, Bool.true_or]
        · rw [if_neg hi, decide_eq_false hi, Bool.false_or, State.vmapBit]
      have hentry₂ : ∀ a, s₂.entry a = s₁.entry a := fun a => hs₂ ▸ setBits_entry
      refine wp_grant (fun _ => id) h₂ hsame₂.live haddr.userAddr fun s₃ h₃ hsteady₃ hentries₃ => ?_
      have hsame₃ := hsteady₃.same hsame₂.live
      have hentry₃ : ∀ a, UserAddr a → (s₃.entry a).isSome = (s₁.entry a).isSome := by
        intro a ha
        rw [← hentry₂ a, State.entry, hsame₃.slot]
        exact hentries₃ _ (entry_mem hsame₂.live ha)
      obtain ⟨hnext, htail⟩ := hroom.tail
      rw [hnext]
      refine wp_mono (ih h₃ hsame₃.live htail) fun _ s' hrest => ⟨hrest.1, ?_⟩
      have hg := hrest.2
      refine ⟨⟨?_, hg.same.live⟩, fun i => ?_, fun k hk => ?_, fun a ha hmapped => ?_⟩
      · rw [hg.same.pde, hsame₃.pde, hsame₂.pde, hsame₁.pde]
      · have hrange : decide (InRange vaddr (n + 1) i) =
            (decide (InRange (vaddr + PAGE_SIZE) n i) || decide (i = bitOf vaddr)) := by
          rw [decide_eq_decide.mpr hroom.inRange, Bool.decide_or, Bool.or_comm]
        rw [hg.bits, hsteady₃.vmapBit, hbits₂, ← Bool.or_assoc, hrange]
      · cases k with
        | zero =>
            rw [Nat.zero_mul, Nat.add_zero]
            refine hg.stays _ haddr.userAddr ?_
            rw [hentry₃ _ haddr.userAddr]
            exact hpage₁
        | succ k =>
            have hk' : vaddr + (k + 1) * PAGE_SIZE = vaddr + PAGE_SIZE + k * PAGE_SIZE := by ring
            rw [hk']
            exact hg.mapped k (by omega)
      · refine hg.stays a ha ?_
        rw [hentry₃ a ha]
        exact hstays₁ a ha hmapped

/-! ## `sys_munmap` -/

/-- What the loop of `sys_munmap` does to the `n` pages from `vaddr` on. -/
structure Revoked (s s' : State) (vaddr n : ℕ) : Prop where
  same : Same s s'
  bits : ∀ i, s'.vmapBit i = (!decide (InRange vaddr n i) && s.vmapBit i)
  entries : ∀ a, UserAddr a → a % PAGE_SIZE = 0 →
    s'.entry a = if vaddr ≤ a ∧ a < vaddr + n * PAGE_SIZE then none else s.entry a

/-- The counter of free frames stays within what `put_page` asserts. -/
theorem Ahead.in_bounds (h : Ahead s) (hkernel : ∀ f < KERNEL_PAGES, s.memoryMap f ≠ 0)
    (htotal : KERNEL_PAGES < s.totalPages) : 0 < s.freePages ∧ s.freePages < s.totalPages := by
  have hsub : s.spare ⊆ Finset.Ico KERNEL_PAGES s.totalPages := by
    intro f hf
    rw [mem_spare] at hf
    rw [Finset.mem_Ico]
    by_contra hn
    exact hkernel f (by omega) hf.2
  have hcard := Finset.card_le_card hsub
  rw [Nat.card_Ico] at hcard
  have hfree := h.free
  have hstart := h.start
  omega

theorem putPage_returns (ha : Ahead s) (hkernel : ∀ f < KERNEL_PAGES, s.memoryMap f ≠ 0)
    (hlow : KERNEL_PAGES ≤ i) (hi : i < s.totalPages) (hpos : s.memoryMap i ≠ 0) :
    Returns (putPage i) (fun _ _ => True) s := by
  have hstart := ha.start
  have hsmall := ha.small i hi
  have hkernel' : ∀ n, ∀ f < KERNEL_PAGES, (s.setCount i n).memoryMap f ≠ 0 := by
    intro n f hf
    change (if f = i then n else s.memoryMap f) ≠ 0
    rw [if_neg (by omega)]
    exact hkernel f hf
  have hcount : (s.setCount i (s.memoryMap i - 1)).memoryMap i = s.memoryMap i - 1 := if_pos rfl
  unfold putPage
  refine returns_bind (returns_get (returns_bind (returns_check (by omega) ?_)))
  refine returns_bind (returns_check (by omega) (returns_bind (returns_modify ?_)))
  refine returns_bind (returns_gets (returns_ite (fun hlast => ?_) fun hmore => ?_))
  · rw [hcount] at hlast
    refine returns_bind (returns_modify (returns_bind (returns_get (returns_check ?_ trivial))))
    rw [hlast]
    exact (ha.giveBack ⟨by omega, hi⟩ hpos).in_bounds (hkernel' 0) (by change _ < s.totalPages; omega)
  · rw [hcount] at hmore
    refine returns_bind (returns_get (returns_check ?_ trivial))
    exact (ha.setCount hpos hmore fun _ => by omega).in_bounds (hkernel' _)
      (by change _ < s.totalPages; omega)

theorem unlinkPage_returns (h : Inv strict s) (ha : Ahead s) (hcur : s.current ∈ s.live)
    (hv : UserAddr vaddr) (hpage : vaddr % PAGE_SIZE = 0) :
    Returns (unlinkPage vaddr) (fun _ _ => True) s := by
  have hself := h.spaces.task_self hcur
  unfold unlinkPage getPte getPde getWord setWord
  refine returns_bind (returns_check hpage (returns_bind (returns_gets ?_)))
  rw [window_self hself]
  refine returns_bind (returns_gets (returns_ite (fun hp => ?_) fun _ => returns_pure trivial))
  refine returns_bind (returns_bind (returns_gets ?_))
  rw [window_self hself]
  refine returns_bind (returns_gets (returns_bind (returns_check (.inr hp) ?_)))
  rw [if_neg (by simp [hp])]
  refine returns_gets ?_
  rw [window_of_self hself]
  generalize htable : (s.mem s.task.pde (DIDX vaddr)).index = table
  have ht : tableTarget s.mem (s.slot vaddr) = some table :=
    htable ▸ Word.target_of_present hp
  refine returns_bind (returns_gets (returns_ite (fun hpresent => ?_) fun _ =>
    returns_pure trivial))
  have hentry : entryAt s.mem (s.slot vaddr, TIDX vaddr) = some (s.mem table (TIDX vaddr)) := by
    rw [entryAt_of_table (r := (s.slot vaddr, TIDX vaddr)) ht, Word.seen_of_present hpresent]
  have hin := entry_mem hcur hv
  obtain ⟨hlow, hhigh⟩ := h.frames.entry _ hin _ hentry
  have hpos := h.frames.entry_pos hin hentry
  refine returns_bind (returns_modify (putPage_returns (ha.congr rfl rfl rfl rfl) ?_ hlow hhigh ?_))
  · intro f hf
    have hone := h.frames.kernel f hf
    change s.memoryMap f ≠ 0
    omega
  · change s.memoryMap _ ≠ 0
    omega

theorem munmapLoop_returns (h : Inv strict s) (ha : Ahead s) (hcur : s.current ∈ s.live)
    (hroom : Roomy vaddr n) (hset : ∀ i, InRange vaddr n i → s.vmapBit i = true) :
    Returns (munmapLoop vaddr n) (fun _ s' => Revoked s s' vaddr n) s := by
  induction n generalizing s vaddr with
  | zero =>
      refine returns_pure ⟨⟨rfl, hcur⟩, fun i => ?_, fun a _ _ => ?_⟩
      · rw [decide_eq_false (by unfold InRange; omega), Bool.not_false, Bool.true_and]
      · rw [if_neg (by omega)]
  | succ n ih =>
      have haddr := hroom.head
      unfold munmapLoop
      refine returns_bind (returns_mono ((unlinkPage_returns h ha hcur haddr.userAddr
        hroom.2.2).with_wp (wp_and (wp_unlinkPage_entry h hcur haddr.userAddr hroom.2.2)
          (tallies_unlinkPage vaddr s ha))) fun _ s₁ hunlinked => ?_)
      obtain ⟨⟨h₁, hsteady₁, hentries₁⟩, ha₁⟩ := hunlinked
      have hsame₁ := hsteady₁.same hcur
      have hvalid := h₁.spaces.valid _ hsame₁.live
      have hbit : s₁.vmapBit (bitOf vaddr) = true := by
        rw [hsteady₁.vmapBit]
        exact hset _ (hroom.inRange.mpr (.inl rfl))
      refine returns_bind (returns_gets (returns_bind (returns_gets ?_)))
      refine returns_bind (returns_lift (bitmapTest_page hvalid haddr) ?_)
      refine returns_bind (returns_check hbit ?_)
      refine returns_bind (returns_lift (bitmapSet_page hvalid haddr false) ?_)
      refine returns_bind (returns_modify ?_)
      change Returns _ _ (s₁.setBits (putBit s₁.task.vmap.bits (bitOf vaddr) false))
      generalize hs₂ : s₁.setBits (putBit s₁.task.vmap.bits (bitOf vaddr) false) = s₂
      have h₂ : Inv strict s₂ := hs₂ ▸ h₁.setBits
      have ha₂ : Ahead s₂ := hs₂ ▸ ha₁.congr rfl rfl rfl rfl
      have hsame₂ : Same s₁ s₂ := hs₂ ▸ setBits_same hsame₁.live
      have hbits₂ : ∀ i, s₂.vmapBit i = (!decide (i = bitOf vaddr) && s.vmapBit i) := by
        intro i
        rw [← hs₂, setBits_vmapBit, bitAt_putBit, ← hsteady₁.vmapBit]
        by_cases hi : i = bitOf vaddr
        · rw [if_pos hi, decide_eq_true hi, Bool.not_true, Bool.false_and]
        · rw [if_neg hi, decide_eq_false hi, Bool.not_false, Bool.true_and, State.vmapBit]
      have hentry₂ : ∀ a, s₂.entry a = s₁.entry a := fun a => hs₂ ▸ setBits_entry
      obtain ⟨hnext, htail⟩ := hroom.tail
      rw [hnext]
      refine returns_mono (ih h₂ ha₂ hsame₂.live htail fun i hi => ?_) fun _ s' hg => ?_
      · have hne : i ≠ bitOf vaddr := by
          have hv := hroom.1
          unfold InRange bitOf IDX PAGE_SIZE at hi
          unfold USER_MMAP_ADDR at *
          unfold bitOf IDX USER_MMAP_ADDR
          omega
        rw [hbits₂, decide_eq_false hne, Bool.not_false, Bool.true_and]
        exact hset i (hroom.inRange.mpr (.inr hi))
      · refine ⟨⟨?_, hg.same.live⟩, fun i => ?_, fun a hua hpa => ?_⟩
        · rw [hg.same.pde, hsame₂.pde, hsame₁.pde]
        · have hrange : decide (InRange vaddr (n + 1) i) =
              (decide (InRange (vaddr + PAGE_SIZE) n i) || decide (i = bitOf vaddr)) := by
            rw [decide_eq_decide.mpr hroom.inRange, Bool.decide_or, Bool.or_comm]
          rw [hg.bits, hbits₂, ← Bool.and_assoc, hrange, Bool.not_or]
        · rw [hg.entries a hua hpa, hentry₂, hentries₁ a hua hpa]
          have hroom' := hroom.2.2
          unfold PAGE_SIZE at *
          by_cases hav : a = vaddr
          · rw [if_pos hav, ite_self, if_pos (by omega)]
          · rw [if_neg hav]
            exact if_congr (by omega) rfl rfl

/-! ## `sys_mmap` -/

/-- The pages that `length` bytes need. -/
def pageCount (length : ℕ) : ℕ := (length + PAGE_SIZE - 1) / PAGE_SIZE

theorem pagesIn_of_roomy {length : ℕ} (h : Roomy vaddr (pageCount length)) :
    pagesIn length = pageCount length := by
  unfold Roomy pageCount PAGE_SIZE USER_STACK_TOP at h
  unfold pagesIn pageCount u32 PAGE_SIZE
  omega

/-- The first `n` clear bits in a row of `vmap` are those of the pages from `v` on. -/
structure FirstFit (s : State) (v n : ℕ) : Prop where
  pos : 0 < n
  fits : bitOf v + n ≤ 8 * PAGE_SIZE
  clear : Clear s.task.vmap.bits (bitOf v) n
  first : ∀ r < bitOf v, ¬Clear s.task.vmap.bits r n

theorem FirstFit.roomy {v : ℕ} (h : FirstFit s v n) (hlow : USER_MMAP_ADDR ≤ v)
    (hpage : v % PAGE_SIZE = 0) : Roomy v n := by
  have hfits := h.fits
  unfold bitOf IDX USER_MMAP_ADDR PAGE_SIZE at hfits
  unfold PAGE_SIZE at hpage
  unfold Roomy USER_STACK_TOP PAGE_SIZE
  unfold USER_MMAP_ADDR at *
  omega

/-- What `sys_mmap` does when it returns `v`. -/
structure Placed (s s' : State) (addr length v : ℕ) : Prop where
  page : v % PAGE_SIZE = 0
  start : USER_MMAP_ADDR ≤ v ∧ v < USER_STACK_BOTTOM
  explicit : addr ≠ 0 → v = addr
  scanned : addr = 0 → FirstFit s v (pagesIn length)
  granted : Roomy v (pageCount length) → Inv False s' ∧ Granted s s' v (pageCount length)

theorem wp_sysMmap_placed {addr length : ℕ} {prot : Prot} (h : Inv False s)
    (hcur : s.current ∈ s.live) :
    wp good (sysMmap addr length prot) (fun v s' => Placed s s' addr length v) s := by
  have hvalid : s.task.Valid := h.spaces.valid _ hcur
  unfold sysMmap
  simp only [wp_bind, wp_check, wp_gets, wp_ite, wp_lift, wp_modify, wp_pure]
  intro hpage
  -- The loop starts with the bits that the scan has set, if there was one.
  have hloop : ∀ s₁ v, Inv False s₁ → s₁.current ∈ s₁.live →
      wp good (mmapLoop prot v (pagesIn length)) (fun _ s' => Roomy v (pageCount length) →
        Inv False s' ∧ Granted s₁ s' v (pageCount length)) s₁ := by
    intro s₁ v h₁ hcur₁
    by_cases hroom : Roomy v (pageCount length)
    · rw [pagesIn_of_roomy hroom]
      exact wp_mono (wp_mmapLoop_granted h₁ hcur₁ hroom) fun _ _ h' _ => h'
    · exact fun _ _ _ _ _ hr => absurd hr hroom
  constructor
  · rintro hnull hpos ⟨index, map⟩ hscan hfound hrange
    have hlength := hvalid.length
    have hsize := hvalid.size
    have hoffset := hvalid.offset
    rcases bitmapScan_run s.task.vmap hpos (by rw [hlength, hsize])
        (by rw [hlength]; decide) (by rw [hlength, hoffset]; decide) with
      ⟨b, bits, hrun, hfits, hclear, hfirst, hbits⟩ | ⟨hrun, _⟩
    · rw [hrun] at hscan
      cases hscan
      have hb : bitOf ((s.task.vmap.offset + b) * PAGE_SIZE) = b := by
        rw [hoffset]
        unfold bitOf IDX PAGE_SIZE
        omega
      have hfit : FirstFit s ((s.task.vmap.offset + b) * PAGE_SIZE) (pagesIn length) := by
        refine ⟨hpos, ?_, ?_, ?_⟩
        · rw [hb, ← hlength]
          exact hfits
        · rw [hb]
          exact hclear
        · rw [hb]
          exact hfirst
      refine wp_mono (hloop (s.setBits bits) _ h.setBits hcur) fun _ s' hgranted => ?_
      refine ⟨Nat.mul_mod_left _ _, hrange, fun hn => absurd hnull hn, fun _ => hfit,
        fun hroom => ⟨(hgranted hroom).1, ?_⟩⟩
      have hg := (hgranted hroom).2
      have hpde : (s.setBits bits).task.pde = s.task.pde := by rw [setBits_task]
      refine ⟨⟨hg.same.pde.trans hpde, hg.same.live⟩, fun i => ?_, hg.mapped,
        fun a ha hmapped => hg.stays a ha (by rwa [setBits_entry])⟩
      have hrange : decide (InRange ((s.task.vmap.offset + b) * PAGE_SIZE) (pageCount length) i) =
          decide (b ≤ i ∧ i < b + pagesIn length) := by
        unfold InRange
        simp only [hb, pagesIn_of_roomy hroom]
      rw [hg.bits, setBits_vmapBit, hbits, hrange, ← Bool.or_assoc, Bool.or_self]
      rfl
    · rw [hrun] at hscan
      cases hscan
      exact absurd rfl hfound
  · intro hnull hrange
    exact wp_mono (hloop s addr h hcur) fun _ s' hgranted =>
      ⟨hpage, hrange, fun _ => rfl, fun hn => absurd hn hnull, hgranted⟩

/-- The copies of `read` leave the mappings as they are. -/
theorem wp_sysMmapFile_placed {addr length : ℕ} {prot : Prot} {blocks : List (List UInt8)}
    (h : Inv False s) (hcur : s.current ∈ s.live) (hblocks : blocks.flatten.length ≤ length) :
    wp good (sysMmapFile addr length prot blocks) (fun v s' => Placed s s' addr length v) s := by
  unfold sysMmapFile
  rw [wp_bind]
  refine wp_mono (wp_sysMmap_placed h hcur) fun v s₁ hplaced => ?_
  simp only [wp_bind, wp_pure]
  by_cases hroom : Roomy v (pageCount length)
  · obtain ⟨h₁, hg⟩ := hplaced.granted hroom
    have hbuf : Buffer v blocks.flatten.length := by
      unfold Roomy pageCount USER_MMAP_ADDR PAGE_SIZE at hroom
      unfold Buffer USER_EXEC_ADDR
      omega
    refine wp_mono (wp_copyBlocks h₁ hg.same.live hbuf) fun _ s' hcopied => ?_
    have hpoked := hcopied.1
    have hsame := hpoked.steady.same hg.same.live
    have hentry : ∀ a, UserAddr a → (s₁.entry a).isSome = true → (s'.entry a).isSome = true := by
      intro a ha hmapped
      obtain ⟨w, hw⟩ := Option.isSome_iff_exists.mp hmapped
      rw [State.entry, hsame.slot, hpoked.sourced.stays _ (entry_mem hg.same.live ha) w hw]
      rfl
    refine { hplaced with granted := fun _ => ⟨hpoked.inv, ⟨⟨?_, hsame.live⟩, fun i => ?_,
      fun k hk => ?_, fun a ha hmapped => ?_⟩⟩ }
    · rw [hsame.pde, hg.same.pde]
    · rw [hpoked.steady.vmapBit, hg.bits]
    · refine hentry _ ?_ (hg.mapped k hk)
      unfold Roomy USER_MMAP_ADDR USER_STACK_TOP PAGE_SIZE at hroom
      unfold UserAddr USER_EXEC_ADDR WINDOW PAGE_SIZE
      omega
    · exact hentry a ha (hg.stays a ha hmapped)
  · exact fun _ _ _ _ _ => { hplaced with granted := fun hr => absurd hr hroom }

theorem tallies_sysMmapFile (addr length : ℕ) (prot : Prot) (blocks : List (List UInt8)) :
    Tallies (sysMmapFile addr length prot blocks) :=
  (tallies_sysMmap _ _ _).bind fun _ => (tallies_copyBlocks _ _).bind fun _ => tallies_pure _

theorem sysMunmap_returns {length : ℕ} (h : Inv strict s) (ha : Ahead s)
    (hcur : s.current ∈ s.live) (hroom : Roomy vaddr (pageCount length))
    (hstart : vaddr < USER_STACK_BOTTOM)
    (hset : ∀ i, InRange vaddr (pageCount length) i → s.vmapBit i = true) :
    Returns (sysMunmap vaddr length) (fun _ s' => Revoked s s' vaddr (pageCount length)) s := by
  unfold sysMunmap
  rw [pagesIn_of_roomy hroom]
  refine returns_bind (returns_check ⟨hroom.1, hstart⟩ ?_)
  exact returns_bind (returns_check hroom.2.2 (munmapLoop_returns h ha hcur hroom hset))

/-! ## Mappings that are there, and nobody else's -/

/-- The pages for `length` bytes from `v` on lie between the heap and the stack. -/
def InArea (v length : ℕ) : Prop :=
  USER_MMAP_ADDR ≤ v ∧ v + pageCount length * PAGE_SIZE ≤ USER_STACK_BOTTOM

/-- `sys_munmap` has unmapped the pages for `length` bytes from `v` on, and no other, and
`vmap` is as it was in `s`. -/
structure Undone (s s' s'' : State) (v length : ℕ) : Prop where
  bits : ∀ i, s''.vmapBit i = s.vmapBit i
  unmapped : ∀ a, UserAddr a → a % PAGE_SIZE = 0 → (s''.mapped s''.task.pde a = true ↔
    s'.mapped s'.task.pde a = true ∧ ¬(v ≤ a ∧ a < v + pageCount length * PAGE_SIZE))

/-- `sys_mmap` has returned `v`, and it can be relied on. -/
structure Served (s s' : State) (addr length v : ℕ) : Prop where
  area : InArea v length
  mapped : ∀ k < pageCount length, s'.mapped s'.task.pde (v + k * PAGE_SIZE) = true
  marked : ∀ i, InRange v (pageCount length) i → s'.vmapBit i = true
  fresh : addr = 0 → ∀ i, InRange v (pageCount length) i → s.vmapBit i = false
  others : ∀ i, ¬InRange v (pageCount length) i → s'.vmapBit i = s.vmapBit i
  undone : Returns (sysMunmap v length) (fun _ s'' => Undone s s' s'' v length) s'

/-- Between the heap and the stack, at `addr` unless it is `NULL`, there are pages for
`length` bytes that `vmap` has not given away. -/
def Fits (s : State) (addr length : ℕ) : Prop :=
  ∃ v, (addr ≠ 0 → v = addr) ∧ v % PAGE_SIZE = 0 ∧ InArea v length ∧
    ∀ i, InRange v (pageCount length) i → s.vmapBit i = false

theorem InArea.roomy {v length : ℕ} (h : InArea v length) (hpage : v % PAGE_SIZE = 0) :
    Roomy v (pageCount length) :=
  ⟨h.1, h.2.trans (Nat.sub_le _ _), hpage⟩

/-- The page that is returned is no later than the one that fits. -/
theorem Placed.fitting {addr length v : ℕ} (h : Placed s s' addr length v)
    (hfits : Fits s addr length) : InArea v length ∧
      ∀ i, InRange v (pageCount length) i → s.vmapBit i = false := by
  obtain ⟨w, hw, hpage, harea, hclear⟩ := hfits
  by_cases hnull : addr = 0
  · have hfirst := h.scanned hnull
    rw [pagesIn_of_roomy (harea.roomy hpage)] at hfirst
    have hle : bitOf v ≤ bitOf w := by
      by_contra hlt
      exact hfirst.first (bitOf w) (by omega) fun j hj hj' => hclear j ⟨hj, hj'⟩
    refine ⟨⟨h.start.1, ?_⟩, fun i hi => hfirst.clear i hi.1 hi.2⟩
    have hstart := h.start.1
    have hvpage := h.page
    unfold InArea USER_MMAP_ADDR PAGE_SIZE at harea
    unfold bitOf IDX USER_MMAP_ADDR at hle
    unfold USER_MMAP_ADDR at hstart
    unfold PAGE_SIZE at *
    omega
  · rw [h.explicit hnull, ← hw hnull]
    exact ⟨harea, hclear⟩

theorem Placed.served {addr length v : ℕ} (h : Placed s s' addr length v) (ha : Ahead s')
    (hfits : Fits s addr length) : Served s s' addr length v := by
  obtain ⟨harea, hclear⟩ := h.fitting hfits
  have hroom := harea.roomy h.page
  obtain ⟨h', hg⟩ := h.granted hroom
  have hmarked : ∀ i, InRange v (pageCount length) i → s'.vmapBit i = true := by
    intro i hi
    rw [hg.bits, decide_eq_true hi, Bool.true_or]
  refine ⟨harea, fun k hk => mapped_iff.mpr (hg.mapped k hk), hmarked, fun _ => hclear,
    fun i hi => ?_, ?_⟩
  · rw [hg.bits, decide_eq_false hi, Bool.false_or]
  · refine returns_mono (sysMunmap_returns h' ha hg.same.live hroom h.start.2 hmarked)
      fun _ s'' hrevoked => ⟨fun i => ?_, fun a hua hpa => ?_⟩
    · rw [hrevoked.bits, hg.bits]
      by_cases hi : InRange v (pageCount length) i
      · rw [decide_eq_true hi, hclear i hi, Bool.not_true, Bool.false_and]
      · rw [decide_eq_false hi, Bool.not_false, Bool.true_and, Bool.false_or]
    · rw [mapped_iff, mapped_iff, hrevoked.entries a hua hpa]
      split
      · rename_i hin
        simp [hin]
      · rename_i hout
        simp [hout]

theorem Placed.fits {addr length v : ℕ} (h : Placed s s' addr length v) (ha : Ahead s')
    (hserved : Served s s' addr length v) : Fits s addr length := by
  refine ⟨v, h.explicit, h.page, hserved.area, fun i hi => ?_⟩
  by_contra hused
  have hroom := hserved.area.roomy h.page
  obtain ⟨h', hg⟩ := h.granted hroom
  -- A bit that was set before is not set any more after `sys_munmap`.
  obtain ⟨_, s₁, l₁, hrun₁, hrevoked⟩ :=
    sysMunmap_returns h' ha hg.same.live hroom h.start.2 hserved.marked
  obtain ⟨_, s₂, l₂, hrun₂, hundone⟩ := hserved.undone
  rw [hrun₁] at hrun₂
  cases hrun₂
  have hbit := hrevoked.bits i
  rw [decide_eq_true hi, hundone.bits] at hbit
  exact hused hbit

theorem reached_inv (h₀ : Fresh s₀) (ha₀ : Ahead s₀)
    (hrun : Run Step (fun _ a => Event.beyond ∉ a.2 ∧ Event.window ∉ a.2) s₀ s) :
    Inv False s ∧ Ahead s := by
  refine ⟨run_inv (fun _ a ha e he => ?_) h₀ hrun, hrun.invariant (fun t a t' ht _ hstep => ?_) ha₀⟩
  · cases e with
    | beyond => exact ha.1 he
    | regrant => exact id
    | window => exact ha.2 he
  · exact tallies_act a.1 t ht () t' a.2 hstep.2 fun _ _ => trivial

/-- Whatever was mapped before, what `sys_mmap` returns can be relied on exactly if free pages
for the whole length were left between the heap and the stack, at `addr` unless it is `NULL`. -/
theorem mmap_served_iff {addr length v : ℕ} {prot : Prot} {blocks : List (List UInt8)}
    {l : List Event} (h₀ : Fresh s₀) (ha₀ : Ahead s₀)
    (hrun : Run Step (fun _ a => Event.beyond ∉ a.2 ∧ Event.window ∉ a.2) s₀ s)
    (hcur : s.current ∈ s.live) (hblocks : blocks.flatten.length ≤ length)
    (hmmap : (sysMmapFile addr length prot blocks).run s = .ok (v, s', l)) :
    Served s s' addr length v ↔ Fits s addr length := by
  obtain ⟨h, ha⟩ := reached_inv h₀ ha₀ hrun
  have hplaced : wp (fun _ => True) (sysMmapFile addr length prot blocks)
      (fun v s' => Placed s s' addr length v) s := wp_sysMmapFile_placed h hcur hblocks
  have hp := hplaced v s' l hmmap fun _ _ => trivial
  have ha' := tallies_sysMmapFile addr length prot blocks s ha v s' l hmmap fun _ _ => trivial
  exact ⟨hp.fits ha', hp.served ha'⟩

/-- Task 0 after the start of a machine with 17 megabytes of memory. -/
def startedTask : State := { oneTask with freePages := 4094, startPage := 258 }

theorem startedTask_fresh : Fresh startedTask := by
  have h := oneTask_fresh.spaces
  exact ⟨oneTask_fresh.memoryMap, ⟨h.offset, h.length, h.size, h.valid, h.pde, h.vmapPage,
    h.pde_inj, h.vmapPage_inj, h.pde_ne, h.self, h.low⟩, oneTask_fresh.blank⟩

theorem startedTask_ahead : Ahead startedTask := by
  have hspare : startedTask.spare = Finset.Ico 4096 4352 := by
    ext f
    rw [mem_spare, Finset.mem_Ico]
    change (258 ≤ f ∧ f < 4352) ∧ (if f < KERNEL_PAGES then 1 else 0) = 0 ↔ _
    unfold KERNEL_PAGES
    split <;> omega
  refine ⟨?_, by decide, by decide, fun f _ => ?_⟩
  · rw [hspare, Nat.card_Ico]
    rfl
  · change (if f < KERNEL_PAGES then 1 else 0) < 255
    split <;> decide

/-- A length that the rounding to pages wraps around: `sys_mmap` maps nothing and returns. -/
theorem exists_unserved : ∃ s₀ s s' : State, Fresh s₀ ∧ Ahead s₀ ∧
    Run Step (fun _ a => Event.beyond ∉ a.2 ∧ Event.window ∉ a.2) s₀ s ∧ s.current ∈ s.live ∧
    ∃ addr length v prot l, 1 ≤ length ∧ length < 2 ^ 32 ∧ addr % PAGE_SIZE = 0 ∧
      (sysMmapFile addr length prot []).run s = .ok (v, s', l) ∧
      ¬Served s s' addr length v := by
  refine ⟨startedTask, startedTask, startedTask, startedTask_fresh, startedTask_ahead, .refl,
    by decide, 0x8000000, 2 ^ 32 - 1, 0x8000000, ⟨true, false, true⟩, [], by decide, by decide,
    by decide, rfl, fun h => ?_⟩
  have harea := h.area.2
  unfold pageCount PAGE_SIZE USER_STACK_BOTTOM USER_STACK_TOP at harea
  omega

/-- A page that the task asks for at the start of the area. -/
theorem startedTask_served : ∃ v s' l,
    (sysMmapFile 0x8000000 4096 ⟨true, false, true⟩ []).run startedTask = .ok (v, s', l) ∧
    v = 0x8000000 ∧ (Served startedTask s' 0x8000000 4096 v ↔ Fits startedTask 0x8000000 4096) := by
  have hmmap : returnsBool (sysMmapFile 0x8000000 4096 ⟨true, false, true⟩ [])
      (fun v _ => decide (v = 0x8000000)) startedTask = true := by
    decide +kernel
  obtain ⟨v, s', l, hmmap, hv⟩ := returns_of_bool hmmap
  exact ⟨v, s', l, hmmap, of_decide_eq_true hv,
    mmap_served_iff startedTask_fresh startedTask_ahead .refl (by decide) (Nat.zero_le _) hmmap⟩

end Ylos.Memory
