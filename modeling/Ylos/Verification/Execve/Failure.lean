import Ylos.Verification.Execve.Load

/-! # A call of `sys_execve` that fails -/

namespace Ylos.Execve

open Exec
open Memory (PAGE_SIZE USER_EXEC_ADDR USER_MMAP_ADDR USER_STACK_TOP IDX pagesIn)

variable {good : Event → Prop} {s s' s'' : State} {a vaddr dest n : ℕ} {b : UInt8}
  {src content filename : List UInt8} {argv envp : List (List UInt8)}

/-! ## What stays of the task -/

/-- The name of the task and the ends of its program and its heap are what they were. -/
structure SameTask (s s' : State) : Prop where
  name : s'.name = s.name
  endAddr : s'.endAddr = s.endAddr
  brk : s'.brk = s.brk

/-- While a program is loaded, its end moves up. -/
structure SameHeap (s s' : State) : Prop where
  name : s'.name = s.name
  brk : s'.brk = s.brk
  endAddr : s.endAddr ≤ s'.endAddr

/-- The program and the heap end in user memory. -/
structure InUser (s : State) : Prop where
  endAddr : USER_EXEC_ADDR ≤ s.endAddr
  brk : USER_EXEC_ADDR ≤ s.brk

instance : IsPreorder State SameTask where
  refl _ := ⟨rfl, rfl, rfl⟩
  trans _ _ _ h h' :=
    ⟨h'.name.trans h.name, h'.endAddr.trans h.endAddr, h'.brk.trans h.brk⟩

instance : IsPreorder State SameHeap where
  refl _ := ⟨rfl, rfl, le_rfl⟩
  trans _ _ _ h h' :=
    ⟨h'.name.trans h.name, h'.brk.trans h.brk, h.endAddr.trans h'.endAddr⟩

theorem SameTask.sameHeap (h : SameTask s s') : SameHeap s s' := ⟨h.name, h.brk, h.endAddr.ge⟩

theorem SameHeap.inUser (h : SameHeap s s') (hs : InUser s) : InUser s' :=
  ⟨hs.endAddr.trans h.endAddr, hs.brk.trans h.brk.ge⟩

theorem sameTask_setPage (s : State) (k : ℕ) (p : Option Page) : SameTask s (s.setPage k p) :=
  ⟨rfl, rfl, rfl⟩

theorem sameTask_setByte (s : State) (a : ℕ) (b : UInt8) : SameTask s (s.setByte a b) := by
  unfold State.setByte
  cases s.page (IDX a) with
  | none => exact ⟨rfl, rfl, rfl⟩
  | some p => exact sameTask_setPage s _ _

theorem keeps_getPage : Keeps SameTask getPage := by
  refine keeps_get.bind fun s => ?_
  cases s.frames s.taken with
  | none => exact keeps_fault _
  | some bytes => exact (keeps_modify fun _ => ⟨rfl, rfl, rfl⟩).bind fun _ => keeps_pure _

theorem keeps_linkPage (vaddr : ℕ) : Keeps SameTask (linkPage vaddr) := by
  refine (keeps_check _).bind fun _ => keeps_get.bind fun s => ?_
  have hset : ∀ bytes, Keeps SameTask (modify fun s : State =>
      s.setPage (IDX vaddr) (some ⟨bytes, true, false, 1⟩) : M Unit) :=
    fun bytes => keeps_modify fun s => sameTask_setPage s _ _
  cases s.page (IDX vaddr) with
  | some p => exact keeps_pure ()
  | none =>
      refine Keeps.ite (keeps_getPage.bind fun _ => ?_) ?_
      · exact keeps_getPage.bind hset
      · exact keeps_getPage.bind hset

theorem keeps_unlinkPage (vaddr : ℕ) : Keeps SameTask (unlinkPage vaddr) := by
  refine (keeps_check _).bind fun _ => keeps_get.bind fun s => ?_
  cases s.page (IDX vaddr) with
  | none => exact keeps_pure ()
  | some p =>
      have hend : Keeps SameTask (do
          let s ← get
          check (0 < s.freePages ∧ s.freePages < s.totalPages) : M Unit) :=
        keeps_get.bind fun _ => keeps_check _
      refine (keeps_modify fun s => sameTask_setPage s _ _).bind fun _ =>
        (keeps_check _).bind fun _ => Keeps.ite ?_ hend
      exact (keeps_modify fun s => ⟨rfl, rfl, rfl⟩).bind fun _ => hend

theorem keeps_unlinkLoop (page n : ℕ) : Keeps SameTask (unlinkLoop page n) := by
  induction n generalizing page with
  | zero => exact keeps_pure ()
  | succ n ih => exact (keeps_unlinkPage _).bind fun _ => ih _

theorem keeps_touch (vaddr : ℕ) : Keeps SameTask (touch vaddr) := by
  have hrest : Keeps SameTask (do
      let s ← get
      if (s.page (IDX vaddr)).isNone then pageFault vaddr) := by
    refine keeps_get.bind fun s => Keeps.ite (keeps_get.bind fun task => ?_) (keeps_pure ())
    exact Keeps.ite (keeps_fault _) (Keeps.ite (keeps_linkPage _) (keeps_fault _))
  exact Keeps.ite ((keeps_fault _).bind fun _ => hrest) hrest

theorem keeps_memcpy (dest : ℕ) (src : List UInt8) : Keeps SameTask (memcpy dest src) := by
  induction src generalizing dest with
  | nil => exact keeps_pure ()
  | cons b src ih =>
      refine Keeps.bind ?_ fun _ => ih _
      exact (keeps_touch _).bind fun _ => keeps_modify fun s => sameTask_setByte s _ _

theorem keeps_loadField (w vaddr : ℕ) : Keeps SameTask (loadField w vaddr) := by
  induction w generalizing vaddr with
  | zero => exact keeps_pure _
  | succ w ih =>
      refine Keeps.bind ?_ fun b => (ih _).bind fun _ => keeps_pure _
      exact (keeps_touch vaddr).bind fun _ => keeps_get.bind fun _ => keeps_pure _

theorem keeps_inodeRead (file : List UInt8) (data len offset : ℕ) :
    Keeps SameTask (inodeRead file data len offset) :=
  Keeps.ite (keeps_pure _) ((keeps_memcpy _ _).bind fun _ => keeps_pure _)

theorem keeps_memcmp (lhs : ℕ) (rhs : List UInt8) : Keeps SameTask (memcmp lhs rhs) := by
  induction rhs generalizing lhs with
  | nil => exact keeps_pure _
  | cons b rhs ih =>
      refine Keeps.bind ?_ fun _ => Keeps.ite (ih _) (keeps_pure _)
      exact (keeps_touch lhs).bind fun _ => keeps_get.bind fun _ => keeps_pure _

theorem keeps_elfValidate (ehdr : ℕ) : Keeps SameTask (elfValidate ehdr) := by
  refine (keeps_memcmp _ _).bind fun _ => Keeps.ite (keeps_pure _) ?_
  refine (keeps_loadField _ _).bind fun _ => Keeps.ite (keeps_pure _) ?_
  refine (keeps_loadField _ _).bind fun _ => Keeps.ite (keeps_pure _) ?_
  refine (keeps_loadField _ _).bind fun _ => Keeps.ite (keeps_pure _) ?_
  exact (keeps_loadField _ _).bind fun _ => Keeps.ite (keeps_pure _) (keeps_pure _)

theorem keeps_linkLoop (addr n : ℕ) : Keeps SameTask (linkLoop addr n) := by
  induction n generalizing addr with
  | zero => exact keeps_pure ()
  | succ n ih => exact (keeps_check _).bind fun _ => (keeps_linkPage _).bind fun _ => ih _

theorem keeps_protectLoop (addr n : ℕ) : Keeps SameTask (protectLoop addr n) := by
  induction n generalizing addr with
  | zero => exact keeps_pure ()
  | succ n ih =>
      refine keeps_get.bind fun _ => (keeps_check _).bind fun _ => Keeps.bind ?_ fun _ => ih _
      refine keeps_modify fun s => ?_
      cases s.page (IDX addr) with
      | none => exact ⟨rfl, rfl, rfl⟩
      | some p => exact sameTask_setPage s _ _

theorem keeps_heap {α : Type} {x : M α} (h : Keeps SameTask x) : Keeps SameHeap x :=
  Keeps.mono h fun _ _ => SameTask.sameHeap

theorem keeps_loadSegment (inode : List UInt8) (phdr : ℕ) :
    Keeps SameHeap (loadSegment inode phdr) := by
  have hfield : ∀ w a, Keeps SameHeap (loadField w a) := fun w a => keeps_heap (keeps_loadField w a)
  have hset : ∀ n dest, Keeps SameHeap (memset dest 0 n) := by
    intro n dest
    rw [memset_eq]
    exact keeps_heap (keeps_memcpy _ _)
  refine (hfield _ _).bind fun _ => (keeps_check _).bind fun _ => ?_
  refine (hfield _ _).bind fun _ => (keeps_check _).bind fun _ => ?_
  refine (hfield _ _).bind fun vaddr => (hfield _ _).bind fun _ => (hfield _ _).bind fun _ => ?_
  refine (keeps_heap (keeps_linkLoop _ _)).bind fun _ => (hfield _ _).bind fun _ => ?_
  refine (hfield _ _).bind fun _ => (keeps_heap (keeps_inodeRead _ _ _ _)).bind fun _ => ?_
  refine (hfield _ _).bind fun filesz => (hfield _ _).bind fun memsz => ?_
  have hend : ∀ count : ℕ, Keeps SameHeap (modify fun s : State =>
      { s with endAddr := max s.endAddr (u32 (vaddr + count * PAGE_SIZE)) } : M Unit) :=
    fun _ => keeps_modify fun _ => ⟨rfl, rfl, le_max_left _ _⟩
  have hmark : ∀ flags count : ℕ, Keeps SameHeap (do
      if flags = PF_R ||| PF_X then
        modify fun s => { s with text := vaddr }
      else if flags = PF_R ||| PF_W then
        modify fun s => { s with data := vaddr }
      modify fun s => { s with endAddr := max s.endAddr (u32 (vaddr + count * PAGE_SIZE)) }
      : M Unit) := fun flags count =>
    Keeps.ite ((keeps_modify fun _ => ⟨rfl, rfl, le_rfl⟩).bind fun _ => hend count)
      (Keeps.ite ((keeps_modify fun _ => ⟨rfl, rfl, le_rfl⟩).bind fun _ => hend count)
        (hend count))
  have hfinish : ∀ count, Keeps SameHeap (do
      let flags ← loadField 4 (phdr + 24)
      if flags &&& PF_W = 0 then
        protectLoop vaddr count
      if flags = PF_R ||| PF_X then
        modify fun s => { s with text := vaddr }
      else if flags = PF_R ||| PF_W then
        modify fun s => { s with data := vaddr }
      modify fun s => { s with endAddr := max s.endAddr (u32 (vaddr + count * PAGE_SIZE)) }
      : M Unit) := fun count =>
    (hfield _ _).bind fun flags => Keeps.ite
      ((keeps_heap (keeps_protectLoop _ _)).bind fun _ => hmark flags count) (hmark flags count)
  exact Keeps.ite ((hset _ _).bind fun _ => hfinish _) (hfinish _)

theorem keeps_loadLoop (inode : List UInt8) (ehdr rounds i ptr : ℕ) :
    Keeps SameHeap (loadLoop inode ehdr rounds i ptr) := by
  induction rounds generalizing i ptr with
  | zero => exact keeps_pure ()
  | succ rounds ih =>
      refine (keeps_heap (keeps_loadField _ _)).bind fun _ => Keeps.ite ?_ (keeps_pure ())
      refine (keeps_heap (keeps_loadField _ _)).bind fun _ => Keeps.ite (ih _ _) ?_
      exact (keeps_note _).bind fun _ => (keeps_loadSegment _ _).bind fun _ => ih _ _

theorem keeps_loadElf (inode : List UInt8) : Keeps SameHeap (loadElf inode) := by
  refine (keeps_heap (keeps_linkPage _)).bind fun _ => ?_
  refine (keeps_heap (keeps_inodeRead _ _ _ _)).bind fun _ => ?_
  refine (keeps_check _).bind fun _ => (keeps_heap (keeps_elfValidate _)).bind fun _ => ?_
  refine Keeps.ite (keeps_pure _) ((keeps_heap (keeps_loadField _ _)).bind fun _ => ?_)
  refine (keeps_heap (keeps_loadField _ _)).bind fun _ => ?_
  refine (keeps_heap (keeps_loadField _ _)).bind fun _ => ?_
  refine (keeps_heap (keeps_inodeRead _ _ _ _)).bind fun _ => ?_
  exact (keeps_loadLoop _ _ _ _ _).bind fun _ => keeps_heap (keeps_loadField _ _)

/-! ## Writing what is there -/

theorem setPage_same {k : ℕ} {p : Page} (h : s.page k = some p) : s.setPage k (some p) = s := by
  unfold State.page at h
  obtain ⟨table, htable, hentry⟩ := Option.bind_eq_some_iff.mp h
  have htables : (fun d => if d = k / 1024 then
      some fun t => if t = k % 1024 then some p else (s.tables d).bind (· t)
      else s.tables d) = s.tables := by
    funext d
    split
    · rename_i hd
      rw [hd, htable]
      congr 1
      funext t
      split
      · rename_i ht
        rw [ht, hentry]
      · rfl
    · rfl
  unfold State.setPage
  rw [htables]

theorem setByte_same (h : s.byteAt a = some b) : s.setByte a b = s := by
  unfold State.byteAt at h
  obtain ⟨p, hp, hb⟩ := Option.map_eq_some_iff.mp h
  have hbytes : (fun o => if o = a % PAGE_SIZE then b else p.bytes o) = p.bytes := by
    funext o
    split
    · rename_i ho
      rw [ho, hb]
    · rfl
  unfold State.setByte
  rw [hp]
  dsimp only
  rw [hbytes]
  exact setPage_same hp

theorem wp_storeByte_same (h : s.byteAt a = some b) :
    wp good (storeByte a b) (fun _ s' => s' = s) s := by
  have hmapped : s.page (IDX a) ≠ none := by
    intro hnone
    rw [byteAt_eq_none.mpr hnone] at h
    cases h
  unfold storeByte touch
  simp only [wp_bind, wp_ite, wp_get, wp_pure, wp_modify]
  refine ⟨fun _ => wp_fault _, fun _ => ⟨fun hnone => ?_, fun _ => setByte_same h⟩⟩
  exact absurd (Option.isNone_iff_eq_none.mp hnone) hmapped

theorem wp_memcpy_same (h : Shows s dest src.length (listBytes src) 0) :
    wp good (memcpy dest src) (fun _ s' => s' = s) s := by
  induction src generalizing dest with
  | nil => exact (wp_pure _).mpr rfl
  | cons b src ih =>
      have hbyte : s.byteAt dest = some b := h 0 (Nat.succ_pos _)
      have htail : Shows s (dest + 1) src.length (listBytes src) 0 := by
        intro k hk
        have hnext := h (k + 1) (Nat.succ_lt_succ hk)
        rw [Nat.add_comm k 1, ← Nat.add_assoc] at hnext
        rw [hnext, Nat.zero_add, Nat.zero_add, Nat.add_comm 1 k]
        simp [listBytes]
      unfold memcpy
      rw [wp_bind]
      refine wp_mono (wp_storeByte_same hbyte) fun _ s₁ hsame => ?_
      rw [hsame]
      exact ih htail

theorem wp_memset_same (h : Shows s dest n (fun _ => b) 0) :
    wp good (memset dest b n) (fun _ s' => s' = s) s := by
  rw [memset_eq]
  refine wp_memcpy_same ?_
  rw [List.length_replicate]
  intro k hk
  rw [h k hk, listBytes, Nat.zero_add, List.getD_eq_getElem?_getD,
    List.getElem?_replicate_of_lt hk]
  rfl

theorem wp_inodeRead_same {data len offset : ℕ}
    (h : Shows s data (min len (content.length - offset)) (listBytes content) offset) :
    wp good (inodeRead content data len offset) (fun _ s' => s' = s) s := by
  unfold inodeRead
  simp only [wp_ite, wp_bind, wp_pure]
  refine ⟨fun _ => trivial, fun _ => wp_memcpy_same ?_⟩
  rw [List.length_take, List.length_drop]
  intro k hk
  rw [h k hk, Nat.zero_add]
  simp only [listBytes, List.getD_eq_getElem?_getD, List.getElem?_take_of_lt
    (hk.trans_le (min_le_left _ _)), List.getElem?_drop]

/-! ## The steps of `sys_execve` -/

/-- Where `copy_argv_envp` puts its block. -/
def argTop (filename : List UInt8) (argv envp : List (List UInt8)) : ℕ :=
  USER_STACK_TOP - (argBlock filename argv envp).length

/-- The arguments are at the top of the stack. -/
def ShowsArgs (filename : List UInt8) (argv envp : List (List UInt8)) (s : State) : Prop :=
  Shows s (argTop filename argv envp) (argBlock filename argv envp).length
    (listBytes (argBlock filename argv envp)) 0

theorem wp_copyArgvEnvp : wp good (copyArgvEnvp filename argv envp) (fun _ s' =>
    (argBlock filename argv envp).length < 4 * PAGE_SIZE ∧ ShowsArgs filename argv envp s' ∧
      SameTask s s') s := by
  unfold copyArgvEnvp
  rw [wp_ite]
  refine ⟨fun _ => by rw [wp_bind]; exact wp_fault _, fun _ => ?_⟩
  simp only [wp_bind, wp_check, wp_pure]
  intro hlength
  refine wp_mono (wp_and wp_memcpy (wp_weaken (keeps_memcpy _ _ s))) fun _ s' hcopied => ?_
  obtain ⟨⟨hshows, -⟩, hsame⟩ := hcopied
  exact ⟨hlength, hshows, hsame⟩

/-- Where the arguments are in place already, nothing changes. -/
theorem wp_copyArgvEnvp_same (h : ShowsArgs filename argv envp s) :
    wp good (copyArgvEnvp filename argv envp) (fun _ s' => s' = s) s := by
  unfold copyArgvEnvp
  rw [wp_ite]
  refine ⟨fun _ => by rw [wp_bind]; exact wp_fault _, fun _ => ?_⟩
  simp only [wp_bind, wp_check, wp_pure]
  exact fun _ => wp_memcpy_same h

theorem wp_sysBrk_release (h : USER_EXEC_ADDR ≤ s.brk) : wp good (sysBrk USER_EXEC_ADDR)
    (fun _ s' => s'.brk = USER_EXEC_ADDR) s := by
  unfold sysBrk
  simp only [wp_bind, wp_get, wp_check, wp_ite, wp_modify]
  refine fun _ _ _ => ⟨fun _ => ?_, fun hle => ⟨fun _ => trivial, fun hmany => ?_⟩⟩
  · exact wp_mono (wp_weaken (keeps_unlinkLoop _ _ s)) fun _ _ _ => trivial
  · rw [show USER_EXEC_ADDR - s.brk = 0 by omega] at hmany
    exact absurd (Nat.zero_le _) hmany

theorem InUser.sysBrk (h : InUser s) : wp good (sysBrk a) (fun _ => InUser) s := by
  unfold Execve.sysBrk
  simp only [wp_bind, wp_get, wp_check, wp_ite, wp_modify, wp_pure]
  intro _ _ hbounds
  have haddr : USER_EXEC_ADDR ≤ a := h.endAddr.trans hbounds.1
  refine ⟨fun _ => wp_mono (wp_weaken (keeps_unlinkLoop _ _ s)) fun _ s' hsame => ?_,
    fun _ => ⟨fun _ => ⟨h.endAddr, haddr⟩, fun _ => h⟩⟩
  exact ⟨h.endAddr.trans hsame.endAddr.ge, haddr⟩

theorem wp_sysBrk_same (h : s.brk = USER_EXEC_ADDR) : wp good (sysBrk USER_EXEC_ADDR)
    (fun _ s' => s' = s) s := by
  unfold sysBrk
  simp only [wp_bind, wp_get, wp_check, wp_ite, wp_modify, wp_pure]
  refine fun _ _ _ => ⟨fun hlt => absurd hlt (by omega), fun _ => ⟨fun _ => ?_, fun _ => trivial⟩⟩
  rw [← h]

/-- A file whose header is not accepted leaves its header in memory, and nothing else. -/
theorem wp_loadElf_rejected (hlength : EHDR_SIZE ≤ content.length)
    (hinvalid : validates (listBytes content) 0 = false) : wp good (loadElf content) (fun r s' =>
      r = EOF ∧ Shows s' USER_EXEC_ADDR EHDR_SIZE (listBytes content) 0 ∧
        Stays (Outside USER_EXEC_ADDR EHDR_SIZE) s s' ∧ SameTask s s') s := by
  unfold loadElf
  rw [wp_bind]
  refine wp_mono (wp_and (wp_linkPage (P := Outside USER_EXEC_ADDR EHDR_SIZE))
    (wp_weaken (keeps_linkPage _ s))) fun _ s₁ hlinked => ?_
  obtain ⟨⟨-, -, hstays₁⟩, hsame₁⟩ := hlinked
  rw [wp_bind]
  refine wp_mono (wp_and wp_inodeRead (wp_weaken (keeps_inodeRead _ _ _ _ s₁))) fun n s₂ hread => ?_
  obtain ⟨⟨hbytes, -, hstays₂⟩, hsame₂⟩ := hread
  have hehdr := hbytes (by omega)
  rw [wp_bind, wp_check]
  intro _
  have hvalidate := run_elfValidate hehdr le_rfl
  rw [hinvalid] at hvalidate
  refine wp_bind_run hvalidate ?_
  rw [if_pos rfl, wp_pure]
  exact ⟨rfl, hehdr, hstays₁.trans hstays₂, IsTrans.trans _ _ _ hsame₁ hsame₂⟩

/-! ## Callers that find everything in place -/

/-- The segments that `load_elf` loads from entry `i` of the table on. -/
def segmentsFrom (content : List UInt8) (i : ℕ) : List Phdr :=
  ((List.range' i (phnum content - i)).map (entry content)).takeWhile fun p => p.type = PT_LOAD

/-- The segments that `load_elf` loads. -/
def segments (content : List UInt8) : List Phdr :=
  if validates (listBytes content) 0 = true then segmentsFrom content 0 else []

/-- The end of the pages of a segment. -/
def Phdr.stop (p : Phdr) : ℕ := u32 (p.vaddr + pagesIn p.size * PAGE_SIZE)

/-- The pages of the segment are as `load_segment` leaves them. -/
structure Phdr.Placed (content : List UInt8) (p : Phdr) (s : State) : Prop where
  mapped : ∀ k < pagesIn p.size, ∃ page, s.page (IDX p.vaddr + k) = some page ∧
    (p.flags &&& PF_W = 0 → page.write = false ∧ page.readonly = true)
  file : Shows s p.vaddr (min p.filesz (content.length - p.offset)) (listBytes content) p.offset
  zeros : Shows s (u32 (p.vaddr + p.filesz)) (p.memsz - p.filesz) (fun _ => 0) 0

/-- The task is as a call that fails leaves it. -/
structure Settled (content filename : List UInt8) (argv envp : List (List UInt8)) (s : State) :
    Prop where
  name : strncpy s.name filename TASK_NAME_LEN = s.name
  args : ShowsArgs filename argv envp s
  brk : s.brk = USER_EXEC_ADDR
  endAddr : s.endAddr = ((segments content).map Phdr.stop).foldl max USER_EXEC_ADDR
  header : Shows s USER_EXEC_ADDR EHDR_SIZE (listBytes content) 0
  table : validates (listBytes content) 0 = true → Headed content s ∧
    phoff content + PHDR_SIZE * phnum content ≤ content.length
  placed : ∀ p ∈ segments content, p.Placed content s

/-- Loading has changed nothing but what the task knows of its program, whose end is `e`. -/
structure Reloaded (e : ℕ) (s s' : State) : Prop where
  tables : s'.tables = s.tables
  name : s'.name = s.name
  brk : s'.brk = s.brk
  endAddr : s'.endAddr = e

theorem Reloaded.page (h : Reloaded n s s') (k : ℕ) : s'.page k = s.page k := by
  unfold State.page
  rw [h.tables]

theorem Reloaded.shows {m : Bytes} {o e : ℕ} (h : Reloaded e s s') (hs : Shows s a n m o) :
    Shows s' a n m o := by
  intro k hk
  rw [byteAt_of_page (h.page _), hs k hk]

theorem Reloaded.trans {e e' : ℕ} (h : Reloaded e s s') (h' : Reloaded e' s' s'') :
    Reloaded e' s s'' :=
  ⟨h'.tables.trans h.tables, h'.name.trans h.name, h'.brk.trans h.brk, h'.endAddr⟩

theorem wp_linkPage_same (h : s.page (IDX vaddr) ≠ none) :
    wp good (linkPage vaddr) (fun _ s' => s' = s) s := by
  obtain ⟨p, hp⟩ := Option.ne_none_iff_exists'.mp h
  unfold linkPage
  simp only [wp_bind, wp_check, wp_get]
  intro _
  rw [hp]
  exact (wp_pure _).mpr rfl

theorem wp_linkLoop_same (h : ∀ k < n, s.page (IDX vaddr + k) ≠ none) :
    wp good (linkLoop vaddr n) (fun _ s' => s' = s) s := by
  induction n generalizing vaddr with
  | zero => exact (wp_pure _).mpr rfl
  | succ n ih =>
      unfold linkLoop
      simp only [wp_bind, wp_check]
      intro hrange
      refine wp_mono (wp_linkPage_same (h 0 (Nat.succ_pos n))) fun _ s₁ hsame => ?_
      rw [hsame]
      refine ih fun k hk => ?_
      have hidx : IDX (u32 (vaddr + PAGE_SIZE)) + k = IDX vaddr + (k + 1) := by
        unfold USER_MMAP_ADDR at hrange
        unfold IDX u32 PAGE_SIZE
        omega
      rw [hidx]
      exact h (k + 1) (Nat.succ_lt_succ hk)

theorem wp_protectLoop_same (hend : 0 < n → vaddr + n * PAGE_SIZE ≤ USER_MMAP_ADDR)
    (h : ∀ k < n, ∃ p, s.page (IDX vaddr + k) = some p ∧ p.write = false ∧ p.readonly = true) :
    wp good (protectLoop vaddr n) (fun _ s' => s' = s) s := by
  induction n generalizing vaddr with
  | zero => exact (wp_pure _).mpr rfl
  | succ n ih =>
      have hend := hend (Nat.succ_pos n)
      obtain ⟨p, hp, hwrite, hreadonly⟩ := h 0 (Nat.succ_pos n)
      have hentry : ({ p with write := false, readonly := true } : Page) = p := by
        rw [← hwrite, ← hreadonly]
      have hidx : ∀ k, IDX (u32 (vaddr + PAGE_SIZE)) + k = IDX vaddr + (k + 1) := by
        intro k
        unfold USER_MMAP_ADDR PAGE_SIZE at hend
        unfold IDX u32 PAGE_SIZE
        omega
      unfold protectLoop
      simp only [wp_bind, wp_get, wp_check, wp_modify]
      intro _
      rw [Nat.add_zero] at hp
      rw [hp]
      dsimp only
      rw [hentry, setPage_same hp]
      refine ih (fun _ => ?_) fun k hk => ?_
      · unfold USER_MMAP_ADDR PAGE_SIZE at *
        unfold u32
        omega
      · rw [hidx]
        exact h (k + 1) (Nat.succ_lt_succ hk)

theorem wp_loadSegment_same {m : Bytes} {phdr o : ℕ} (h : Shows s phdr PHDR_SIZE m o)
    (hlow : USER_EXEC_ADDR ≤ phdr) (hplaced : (phdrAt m o).Placed content s) :
    wp good (loadSegment content phdr)
      (fun _ => Reloaded (max s.endAddr (phdrAt m o).stop) s) s := by
  generalize hp : phdrAt m o = p at hplaced ⊢
  have hfield : ∀ l, l + 4 ≤ PHDR_SIZE →
      (loadField 4 (phdr + l)).run s = .ok (m.read 4 (o + l), s, []) := fun l hl =>
    run_loadField (h.part hl) (by omega)
  have hoffset : m.read 4 (o + 4) = p.offset := by rw [← hp]; rfl
  have hvaddr : m.read 4 (o + 8) = p.vaddr := by rw [← hp]; rfl
  have hfilesz : m.read 4 (o + 16) = p.filesz := by rw [← hp]; rfl
  have hmemsz : m.read 4 (o + 20) = p.memsz := by rw [← hp]; rfl
  have hflags : m.read 4 (o + 24) = p.flags := by rw [← hp]; rfl
  unfold loadSegment p_align p_vaddr p_memsz p_filesz p_offset p_flags
  refine wp_bind_run (hfield 28 (by decide)) ?_
  rw [wp_bind, wp_check]
  intro _
  refine wp_bind_run (hfield 8 (by decide)) ?_
  rw [wp_bind, wp_check]
  intro _
  refine wp_bind_run (hfield 8 (by decide)) (wp_bind_run (hfield 20 (by decide)) ?_)
  refine wp_bind_run (hfield 16 (by decide)) ?_
  rw [hmemsz, hfilesz, hvaddr, wp_bind]
  change wp good (linkLoop p.vaddr (pagesIn p.size)) _ s
  have hmapped : ∀ k < pagesIn p.size, s.page (IDX p.vaddr + k) ≠ none := by
    intro k hk
    obtain ⟨page, hpage, -⟩ := hplaced.mapped k hk
    rw [hpage]
    exact Option.some_ne_none page
  refine wp_mono (wp_and (wp_linkLoop_same hmapped) (wp_linkLoop (P := fun _ => True)))
    fun _ s₁ hlinked => ?_
  obtain ⟨hsame, -, hrange⟩ := hlinked
  rw [hsame]
  refine wp_bind_run (hfield 16 (by decide)) (wp_bind_run (hfield 4 (by decide)) ?_)
  rw [hfilesz, hoffset, wp_bind]
  refine wp_mono (wp_inodeRead_same hplaced.file) fun _ s₂ hsame₂ => ?_
  rw [hsame₂]
  refine wp_bind_run (hfield 16 (by decide)) (wp_bind_run (hfield 20 (by decide)) ?_)
  rw [hfilesz, hmemsz]
  -- Only the end of the program is new.
  have hfinish : wp good (do
      let flags ← loadField 4 (phdr + 24)
      if flags &&& PF_W = 0 then
        protectLoop p.vaddr (pagesIn p.size)
      if flags = PF_R ||| PF_X then
        modify fun s => { s with text := p.vaddr }
      else if flags = PF_R ||| PF_W then
        modify fun s => { s with data := p.vaddr }
      modify fun s => { s with
        endAddr := max s.endAddr (u32 (p.vaddr + pagesIn p.size * PAGE_SIZE)) } : M Unit)
      (fun _ => Reloaded (max s.endAddr p.stop) s) s := by
    refine wp_bind_run (hfield 24 (by decide)) ?_
    rw [hflags]
    simp only [wp_bind, wp_ite, wp_modify]
    have hmarked : ∀ text data, Reloaded (max s.endAddr p.stop) s
        { s with text := text, data := data, endAddr := max s.endAddr p.stop } :=
      fun _ _ => ⟨rfl, rfl, rfl, rfl⟩
    refine ⟨fun hreadonly => ?_, fun _ => ?_⟩
    · refine wp_mono (wp_protectLoop_same (fun hn => (hrange hn).2) fun k hk => ?_)
        fun _ s₃ hsame₃ => ?_
      · obtain ⟨page, hpage, hprotected⟩ := hplaced.mapped k hk
        exact ⟨page, hpage, hprotected hreadonly⟩
      · rw [hsame₃]
        exact ⟨fun _ => hmarked _ _, fun _ => ⟨fun _ => hmarked _ _, fun _ => hmarked _ _⟩⟩
    · exact ⟨fun _ => hmarked _ _, fun _ => ⟨fun _ => hmarked _ _, fun _ => hmarked _ _⟩⟩
  rw [wp_ite]
  refine ⟨fun _ => ?_, fun _ => hfinish⟩
  rw [wp_bind]
  refine wp_mono (wp_memset_same hplaced.zeros) fun _ s₃ hsame₃ => ?_
  rw [hsame₃]
  exact hfinish

theorem Reloaded.placed {p : Phdr} (h : Reloaded n s s') (hp : p.Placed content s) :
    p.Placed content s' := by
  refine ⟨fun k hk => ?_, h.shows hp.file, h.shows hp.zeros⟩
  rw [h.page]
  exact hp.mapped k hk

theorem Reloaded.headed (h : Reloaded n s s') (hh : Headed content s) : Headed content s' :=
  ⟨h.shows hh.ehdr, h.shows hh.table⟩

theorem segmentsFrom_succ {i : ℕ} (hi : i < phnum content)
    (hload : (entry content i).type = PT_LOAD) :
    segmentsFrom content i = entry content i :: segmentsFrom content (i + 1) := by
  unfold segmentsFrom
  rw [show phnum content - i = (phnum content - (i + 1)) + 1 by omega, List.range'_succ,
    List.map_cons, List.takeWhile_cons_of_pos (by simpa using hload)]

theorem segmentsFrom_eq_nil {i : ℕ} (h : ¬Loadable content i) : segmentsFrom content i = [] := by
  unfold segmentsFrom
  by_cases hi : i < phnum content
  · have hother : (entry content i).type ≠ PT_LOAD := fun hload => h ⟨hi, hload⟩
    rw [show phnum content - i = (phnum content - (i + 1)) + 1 by omega, List.range'_succ,
      List.map_cons, List.takeWhile_cons_of_neg (by simpa using hother)]
  · rw [show phnum content - i = 0 by omega]
    rfl

theorem wp_loadLoop_same {rounds i : ℕ} (h : Headed content s)
    (hrounds : phnum content ≤ i + rounds)
    (hplaced : ∀ p ∈ segmentsFrom content i, p.Placed content s) :
    wp good (loadLoop content USER_EXEC_ADDR rounds i (entryAddr i)) (fun _ => Reloaded
      (((segmentsFrom content i).map Phdr.stop).foldl max s.endAddr) s) s := by
  have hnone : ¬Loadable content i → Reloaded
      (((segmentsFrom content i).map Phdr.stop).foldl max s.endAddr) s s := by
    intro hn
    rw [segmentsFrom_eq_nil hn]
    exact ⟨rfl, rfl, rfl, rfl⟩
  induction rounds generalizing s i with
  | zero => exact (wp_pure _).mpr (hnone fun hl => by have := hl.1; omega)
  | succ rounds ih =>
      have hphnum : (e_phnum USER_EXEC_ADDR).run s = .ok (phnum content, s, []) :=
        run_loadField (h.ehdr.part (i := 44) (l := 2) (by decide)) (by decide)
      unfold loadLoop
      refine wp_bind_run hphnum ((wp_ite _ _ _).mpr ⟨fun hlt => ?_, fun hend => ?_⟩)
      swap
      · exact (wp_pure _).mpr (hnone fun hl => hend hl.1)
      have hlow : USER_EXEC_ADDR ≤ entryAddr i := by
        unfold entryAddr
        omega
      have htype : (p_type (entryAddr i)).run s = .ok ((entry content i).type, s, []) :=
        run_loadField ((h.entry hlt).part (i := 0) (l := 4) (by decide)) hlow
      refine wp_bind_run htype ((wp_ite _ _ _).mpr ⟨fun hother => ?_, fun hload => ?_⟩)
      · intro r s' l hrun _
        rw [(after_loadLoop_stuck h hlt hother r s' l hrun).1]
        exact hnone fun hl => hother hl.2
      have hload : (entry content i).type = PT_LOAD := by simpa using hload
      rw [segmentsFrom_succ hlt hload] at hplaced ⊢
      rw [wp_bind, wp_note]
      intro _
      rw [wp_bind]
      refine wp_mono (wp_loadSegment_same (h.entry hlt) hlow
        (hplaced _ List.mem_cons_self)) fun _ s₁ hloaded => ?_
      have hnext : entryAddr i + PHDR_SIZE = entryAddr (i + 1) := by
        unfold entryAddr PHDR_SIZE
        omega
      rw [hnext]
      refine wp_mono (ih (hloaded.headed h) (by omega) (fun p hp =>
        hloaded.placed (hplaced p (List.mem_cons_of_mem _ hp))) fun hn => ?_) fun _ s₂ hrest => ?_
      · rw [segmentsFrom_eq_nil hn]
        exact ⟨rfl, rfl, rfl, rfl⟩
      · rw [hloaded.endAddr] at hrest
        exact hloaded.trans hrest

theorem wp_loadElf_same (h : Shows s USER_EXEC_ADDR EHDR_SIZE (listBytes content) 0)
    (hlength : EHDR_SIZE ≤ content.length)
    (htable : validates (listBytes content) 0 = true → Headed content s ∧
      phoff content + PHDR_SIZE * phnum content ≤ content.length)
    (hplaced : ∀ p ∈ segments content, p.Placed content s) :
    wp good (loadElf content) (fun _ => Reloaded
      (((segments content).map Phdr.stop).foldl max s.endAddr) s) s := by
  have hmapped : s.page (IDX USER_EXEC_ADDR) ≠ none := by
    intro hnone
    have hbyte := h 0 (by decide)
    rw [Nat.add_zero, byteAt_eq_none.mpr hnone] at hbyte
    cases hbyte
  unfold loadElf
  rw [wp_bind]
  refine wp_mono (wp_linkPage_same hmapped) fun _ s₁ hsame₁ => ?_
  rw [hsame₁, wp_bind]
  have hread : Shows s USER_EXEC_ADDR (min EHDR_SIZE (content.length - 0)) (listBytes content)
      0 := by
    rw [Nat.sub_zero, min_eq_left hlength]
    exact h
  refine wp_mono (wp_inodeRead_same hread) fun n s₂ hsame₂ => ?_
  rw [hsame₂, wp_bind, wp_check]
  intro _
  refine wp_bind_run (run_elfValidate h le_rfl) ?_
  unfold segments at hplaced ⊢
  cases hvalid : validates (listBytes content) 0 with
  | false =>
      rw [if_pos rfl, if_neg (by simp)]
      exact (wp_pure _).mpr ⟨rfl, rfl, rfl, rfl⟩
  | true =>
      obtain ⟨hheaded, hin⟩ := htable hvalid
      rw [hvalid, if_pos rfl] at hplaced
      rw [if_neg (by simp), if_pos rfl]
      have hphnum : (e_phnum USER_EXEC_ADDR).run s = .ok (phnum content, s, []) :=
        run_loadField (h.part (i := 44) (l := 2) (by decide)) (by decide)
      have hphentsize : (e_phentsize USER_EXEC_ADDR).run s = .ok (PHDR_SIZE, s, []) := by
        have hsize : (listBytes content).read 2 42 = PHDR_SIZE := by
          unfold validates at hvalid
          exact (of_decide_eq_true hvalid).2.2.2.2
        rw [← hsize]
        exact run_loadField (h.part (i := 42) (l := 2) (by decide)) (by decide)
      have hphoff : (e_phoff USER_EXEC_ADDR).run s = .ok (phoff content, s, []) :=
        run_loadField (h.part (i := 28) (l := 4) (by decide)) (by decide)
      refine wp_bind_run hphnum (wp_bind_run hphentsize (wp_bind_run hphoff ?_))
      have htableRead : Shows s (USER_EXEC_ADDR + EHDR_SIZE)
          (min (phnum content * PHDR_SIZE) (content.length - phoff content)) (listBytes content)
          (phoff content) := by
        rw [Nat.mul_comm, min_eq_left (by omega)]
        exact hheaded.table
      rw [wp_bind]
      refine wp_mono (wp_inodeRead_same htableRead) fun _ s₃ hsame₃ => ?_
      have hlt : phnum content < 2 ^ 16 := Bytes.read_lt 2 _ _
      rw [hsame₃, wp_bind]
      refine wp_mono (wp_loadLoop_same hheaded (by omega) hplaced) fun _ s₄ hloaded => ?_
      exact wp_of_run (run_loadField ((hloaded.headed hheaded).ehdr.part (i := 24) (l := 4)
        (by decide)) (by decide)) hloaded

/-! ## The caller of a call that fails -/

/-- The name of the task, the ends of its program and its heap, and its pages with their bytes
are what they were. -/
structure Unchanged (s s' : State) : Prop where
  name : s'.name = s.name
  endAddr : s'.endAddr = s.endAddr
  brk : s'.brk = s.brk
  page : ∀ k, s'.page k = s.page k

/-- `namei` has found a regular file that the task may execute, with room for a header. -/
structure Executable (inode : Inode) (s : State) : Prop where
  file : ISFILE inode.mode
  permitted : permission s inode P_EXEC = true
  length : EHDR_SIZE ≤ inode.content.length

variable {inode : Inode}

/-- What `sys_execve` does with such a file. -/
theorem wp_sysExecve_some {Q : Outcome → State → Prop} (h : Executable inode s) (hwp :
    wp good (do
      modify fun s => { s with name := strncpy s.name filename TASK_NAME_LEN }
      let top ← copyArgvEnvp filename argv envp
      modify fun s => { s with endAddr := USER_EXEC_ADDR }
      sysBrk USER_EXEC_ADDR
      let entry ← loadElf inode.content
      if entry = EOF then
        return .returned EOF
      else
        sysBrk (← gets (·.endAddr))
        return .entered entry top) Q s) :
    wp good (sysExecve (some inode) filename argv envp) Q s := by
  unfold sysExecve
  rw [wp_bind, wp_get, if_neg (not_not.mpr h.file), if_neg (by simp [h.permitted])]
  exact hwp

/-- However `sys_execve` ends, the program and the heap end in user memory. -/
theorem InUser.sysExecve {found : Option Inode} (h : InUser s) :
    wp good (sysExecve found filename argv envp) (fun _ => InUser) s := by
  unfold Execve.sysExecve
  cases found with
  | none => exact (wp_pure _).mpr h
  | some inode =>
      rw [wp_bind, wp_get, wp_ite]
      refine ⟨fun _ => (wp_pure _).mpr h, fun _ => ?_⟩
      rw [wp_ite]
      refine ⟨fun _ => (wp_pure _).mpr h, fun _ => ?_⟩
      rw [wp_bind, wp_modify, wp_bind]
      refine wp_mono wp_copyArgvEnvp fun top s₁ hcopied => ?_
      have hbrk : USER_EXEC_ADDR ≤ s₁.brk := h.brk.trans hcopied.2.2.brk.ge
      rw [wp_bind, wp_modify, wp_bind]
      have hlow : InUser { s₁ with endAddr := USER_EXEC_ADDR } := ⟨le_rfl, hbrk⟩
      refine wp_mono hlow.sysBrk fun _ s₂ hreleased => ?_
      rw [wp_bind]
      refine wp_mono (wp_weaken (keeps_loadElf _ s₂)) fun entry s₃ hloaded => ?_
      have hin := hloaded.inUser hreleased
      rw [wp_ite]
      refine ⟨fun _ => (wp_pure _).mpr hin, fun _ => ?_⟩
      rw [wp_bind, wp_gets, wp_bind]
      exact wp_mono hin.sysBrk fun _ _ hend => (wp_pure _).mpr hend

theorem wp_sysExecve_brk (h : Executable inode s) (hbrk : USER_EXEC_ADDR ≤ s.brk) :
    wp good (sysExecve (some inode) filename argv envp)
      (fun r s' => r = .returned EOF → s'.brk = USER_EXEC_ADDR) s := by
  refine wp_sysExecve_some h ?_
  rw [wp_bind, wp_modify, wp_bind]
  refine wp_mono wp_copyArgvEnvp fun top s₁ hcopied => ?_
  obtain ⟨-, -, hsame⟩ := hcopied
  rw [wp_bind, wp_modify, wp_bind]
  refine wp_mono (wp_sysBrk_release (by rw [hsame.brk]; exact hbrk)) fun _ s₂ hreleased => ?_
  rw [wp_bind]
  refine wp_mono (wp_weaken (keeps_loadElf _ s₂)) fun entry s₃ hloaded => ?_
  rw [wp_ite]
  refine ⟨fun _ => (wp_pure _).mpr fun _ => hloaded.brk.trans hreleased, fun _ => ?_⟩
  simp only [wp_bind, wp_gets, wp_pure]
  exact fun _ _ _ _ _ hr => by cases hr

theorem wp_sysExecve_settled (h : Executable inode s)
    (hs : Settled inode.content filename argv envp s) :
    wp good (sysExecve (some inode) filename argv envp)
      (fun r s' => r = .returned EOF → Unchanged s s') s := by
  refine wp_sysExecve_some h ?_
  rw [wp_bind, wp_modify, hs.name, wp_bind]
  refine wp_mono (wp_copyArgvEnvp_same hs.args) fun top s₁ hsame₁ => ?_
  rw [hsame₁, wp_bind, wp_modify, wp_bind]
  refine wp_mono (wp_sysBrk_same hs.brk) fun _ s₂ hsame₂ => ?_
  rw [hsame₂, wp_bind]
  have hload : wp good (loadElf inode.content) _ { s with endAddr := USER_EXEC_ADDR } :=
    wp_loadElf_same hs.header h.length
      (fun hvalid => ⟨⟨(hs.table hvalid).1.ehdr, (hs.table hvalid).1.table⟩, (hs.table hvalid).2⟩)
      fun p hp => ⟨(hs.placed p hp).mapped, (hs.placed p hp).file, (hs.placed p hp).zeros⟩
  refine wp_mono hload fun entry s₃ hloaded => ?_
  rw [wp_ite]
  refine ⟨fun _ => (wp_pure _).mpr fun _ => ?_, fun _ => ?_⟩
  · exact ⟨hloaded.name, hloaded.endAddr.trans hs.endAddr.symm, hloaded.brk, hloaded.page⟩
  · simp only [wp_bind, wp_gets, wp_pure]
    exact fun _ _ _ _ _ hr => by cases hr

/-- What a call with a header that is not accepted leaves. -/
theorem wp_sysExecve_rejected (h : Executable inode s)
    (hinvalid : validates (listBytes inode.content) 0 = false) (hbrk : s.brk = USER_EXEC_ADDR) :
    wp good (sysExecve (some inode) filename argv envp) (fun _ s' =>
      s'.name = strncpy s.name filename TASK_NAME_LEN ∧ s'.endAddr = USER_EXEC_ADDR ∧
      ShowsArgs filename argv envp s' ∧
      Shows s' USER_EXEC_ADDR EHDR_SIZE (listBytes inode.content) 0) s := by
  refine wp_sysExecve_some h ?_
  rw [wp_bind, wp_modify, wp_bind]
  refine wp_mono wp_copyArgvEnvp fun top s₁ hcopied => ?_
  obtain ⟨hlength, hargs, hsame₁⟩ := hcopied
  rw [wp_bind, wp_modify, wp_bind]
  refine wp_mono (wp_sysBrk_same (by rw [hsame₁.brk]; exact hbrk)) fun _ s₂ hsame₂ => ?_
  rw [hsame₂, wp_bind]
  refine wp_mono (wp_loadElf_rejected h.length hinvalid) fun entry s₃ hloaded => ?_
  obtain ⟨hentry, hheader, hstays, hsame₃⟩ := hloaded
  rw [if_pos hentry, wp_pure]
  refine ⟨hsame₃.name.trans hsame₁.name, hsame₃.endAddr, hargs.stays hstays fun k hk => ?_, hheader⟩
  unfold argTop Outside EHDR_SIZE USER_EXEC_ADDR USER_STACK_TOP
  unfold PAGE_SIZE at hlength
  omega

theorem Unchanged.shows {m : Bytes} {o : ℕ} (h : Unchanged s s') (hs : Shows s' a n m o) :
    Shows s a n m o := by
  intro k hk
  rw [← byteAt_of_page (h.page _), hs k hk]

/-- A call that fails on an executable file leaves its caller as it was if the caller is already
in the state in which such calls leave it; if the header of the file is not accepted, only then. -/
theorem failed_execve_unchanged_iff {l : List Event} (h : Executable inode s)
    (hin : InUser s) (hrun : (sysExecve (some inode) filename argv envp).run s =
      .ok (.returned EOF, s', l)) :
    (Settled inode.content filename argv envp s → Unchanged s s') ∧
      (validates (listBytes inode.content) 0 = false →
        (Unchanged s s' ↔ Settled inode.content filename argv envp s)) := by
  have hall : ∀ e ∈ l, (fun _ : Event => True) e := fun _ _ => trivial
  have hsettled : Settled inode.content filename argv envp s → Unchanged s s' :=
    fun hs => wp_sysExecve_settled h hs _ s' l hrun hall rfl
  refine ⟨hsettled, fun hinvalid => ⟨fun hsame => ?_, hsettled⟩⟩
  have hend : s.brk = USER_EXEC_ADDR := by
    rw [← hsame.brk]
    exact wp_sysExecve_brk h hin.brk _ s' l hrun hall rfl
  obtain ⟨hname, hendAddr, hargs, hheader⟩ :=
    wp_sysExecve_rejected h hinvalid hend _ s' l hrun hall
  have hnone : segments inode.content = [] := by
    unfold segments
    rw [if_neg (by simp [hinvalid])]
  refine ⟨hname.symm.trans hsame.name, hsame.shows hargs, hend, ?_, hsame.shows hheader,
    fun hvalid => ?_, fun p hp => ?_⟩
  · rw [hnone]
    exact hsame.endAddr.symm.trans hendAddr
  · rw [hinvalid] at hvalid
    cases hvalid
  · rw [hnone] at hp
    cases hp

/-- A file of zeros that anybody may execute. -/
def zeroFile : Inode where
  mode := 0o100755
  nlinks := 1
  uid := 0
  gid := 0
  content := List.replicate EHDR_SIZE 0

/-- A task with one page of program. -/
def smallTask : State :=
  { blankTask with
    endAddr := USER_EXEC_ADDR + PAGE_SIZE
    brk := USER_EXEC_ADDR + PAGE_SIZE }.setPage (IDX USER_EXEC_ADDR)
      (some ⟨fun _ => 0x90, false, true, 1⟩)

theorem zeroFile_executable : Executable zeroFile smallTask :=
  ⟨by decide, by decide, by decide⟩

theorem smallTask_inUser : InUser smallTask := ⟨by decide, by decide⟩

theorem run_zeroFile : ∃ s' l,
    (sysExecve (some zeroFile) [0x61] [] []).run smallTask = .ok (.returned EOF, s', l) ∧
      s'.brk = USER_EXEC_ADDR := by
  have hreturns : returnsBool (sysExecve (some zeroFile) [0x61] [] [])
      (fun r s' => decide (r = .returned EOF ∧ s'.brk = USER_EXEC_ADDR)) smallTask = true := by
    decide
  obtain ⟨r, s', l, hrun, hr⟩ := returns_of_bool hreturns
  obtain ⟨rfl, hbrk⟩ := of_decide_eq_true hr
  exact ⟨s', l, hrun, hbrk⟩

/-- The program of the caller is gone. -/
theorem exists_unrunnable : ∃ inode s filename argv envp s' l, Executable inode s ∧
    InUser s ∧ (sysExecve (some inode) filename argv envp).run s =
      .ok (.returned EOF, s', l) ∧ ¬Unchanged s s' := by
  obtain ⟨s', l, hrun, hbrk⟩ := run_zeroFile
  refine ⟨zeroFile, smallTask, _, _, _, s', l, zeroFile_executable, smallTask_inUser, hrun,
    fun hsame => ?_⟩
  have hkept := hsame.brk
  rw [hbrk] at hkept
  exact absurd hkept (by decide)

theorem zeroFile_unchanged_iff : ∃ s' l,
    (sysExecve (some zeroFile) [0x61] [] []).run smallTask = .ok (.returned EOF, s', l) ∧
      (Unchanged smallTask s' ↔ Settled zeroFile.content [0x61] [] [] smallTask) := by
  obtain ⟨s', l, hrun, -⟩ := run_zeroFile
  exact ⟨s', l, hrun, (failed_execve_unchanged_iff zeroFile_executable smallTask_inUser hrun).2
    (by decide)⟩

end Ylos.Execve
