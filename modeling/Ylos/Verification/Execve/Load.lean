import Ylos.Verification.Execve.Memory

/-! # What `load_elf` loads -/

namespace Ylos.Execve

open Exec
open Memory (PAGE_SIZE USER_EXEC_ADDR USER_MMAP_ADDR USER_STACK_TOP IDX pagesIn)

variable {good : Event → Prop} {s s' s'' : State} {a vaddr k n o i j phdr ehdr : ℕ} {m : Bytes}
  {P : ℕ → Prop} {inode : List UInt8}

/-! ## The header -/

/-- What `elf_validate` answers for the header at `o` of `m`. -/
def validates (m : Bytes) (o : ℕ) : Bool :=
  decide ((List.range 7).map (fun k => m (o + k)) = ELF_IDENT ∧ m.read 2 (o + 16) = ET_EXEC ∧
    m.read 2 (o + 18) = EM_386 ∧ m.read 4 (o + 20) = EV_CURRENT ∧ m.read 2 (o + 42) = PHDR_SIZE)

theorem run_memcmp {rhs : List UInt8} (h : Shows s a rhs.length m o) (hlow : USER_EXEC_ADDR ≤ a) :
    (memcmp a rhs).run s =
      .ok (decide ((List.range rhs.length).map (fun k => m (o + k)) = rhs), s, []) := by
  induction rhs generalizing a o with
  | nil => rfl
  | cons b rhs ih =>
      have hhead := h 0 (Nat.succ_pos _)
      rw [Nat.add_zero, Nat.add_zero] at hhead
      have htail : Shows s (a + 1) rhs.length m (o + 1) := h.part (Nat.add_comm 1 _).le
      have hshift : (List.range rhs.length).map ((fun k => m (o + k)) ∘ Nat.succ) =
          (List.range rhs.length).map fun k => m (o + 1 + k) := by
        refine List.map_congr_left fun k _ => ?_
        rw [Function.comp, Nat.add_assoc, Nat.add_comm 1 k]
      unfold memcmp
      rw [run_bind _ (run_loadByte hhead hlow), List.length_cons, List.range_succ_eq_map,
        List.map_cons, List.map_map, hshift]
      by_cases hb : m o = b
      · rw [if_pos hb, ih htail (by omega)]
        simp [hb]
      · rw [if_neg hb, run_pure]
        simp [hb]

theorem run_elfValidate (h : Shows s ehdr EHDR_SIZE m o) (hlow : USER_EXEC_ADDR ≤ ehdr) :
    (elfValidate ehdr).run s = .ok (validates m o, s, []) := by
  have hfield : ∀ w l, w + l ≤ EHDR_SIZE →
      (loadField w (ehdr + l)).run s = .ok (m.read w (o + l), s, []) := fun w l hl =>
    run_loadField (h.part (by omega)) (by omega)
  have hident : Shows s ehdr ELF_IDENT.length m o := fun k hk => h k (hk.trans (by decide))
  have hcmp := run_memcmp hident hlow
  change _ = Except.ok (decide ((List.range 7).map (fun k => m (o + k)) = ELF_IDENT), s, []) at hcmp
  unfold elfValidate validates
  rw [run_bind _ hcmp]
  by_cases h₁ : (List.range 7).map (fun k => m (o + k)) = ELF_IDENT
  swap
  · simp [h₁]
  rw [if_neg (by simp [h₁]), e_type, run_bind _ (hfield 2 16 (by decide))]
  by_cases h₂ : m.read 2 (o + 16) = ET_EXEC
  swap
  · simp [h₂]
  rw [if_neg (by simp [h₂]), e_machine, run_bind _ (hfield 2 18 (by decide))]
  by_cases h₃ : m.read 2 (o + 18) = EM_386
  swap
  · simp [h₃]
  rw [if_neg (by simp [h₃]), e_version, run_bind _ (hfield 4 20 (by decide))]
  by_cases h₄ : m.read 4 (o + 20) = EV_CURRENT
  swap
  · simp [h₄]
  rw [if_neg (by simp [h₄]), e_phentsize, run_bind _ (hfield 2 42 (by decide))]
  by_cases h₅ : m.read 2 (o + 42) = PHDR_SIZE
  swap
  · simp [h₅]
  rw [if_neg (by simp [h₅]), run_pure]
  simp [h₁, h₂, h₃, h₄, h₅]

/-! ## A segment -/

/-- What `load_segment` looks at of an `Elf32_Phdr`. -/
structure Phdr where
  type : ℕ
  offset : ℕ
  vaddr : ℕ
  filesz : ℕ
  memsz : ℕ
  flags : ℕ
  align : ℕ

/-- The program header at `o` of `m`. -/
def phdrAt (m : Bytes) (o : ℕ) : Phdr where
  type := m.read 4 o
  offset := m.read 4 (o + 4)
  vaddr := m.read 4 (o + 8)
  filesz := m.read 4 (o + 16)
  memsz := m.read 4 (o + 20)
  flags := m.read 4 (o + 24)
  align := m.read 4 (o + 28)

/-- The bytes that a segment takes in memory. -/
def Phdr.size (p : Phdr) : ℕ := max p.memsz p.filesz

/-- The bytes of the segment are those of the file, as far as it has them, with zeros behind. -/
def InPlace (inode : List UInt8) (p : Phdr) (s : State) : Prop :=
  p.offset + p.filesz ≤ inode.length → Shows s p.vaddr p.filesz (listBytes inode) p.offset ∧
    ∀ k, p.filesz ≤ k → k < p.memsz → s.byteAt (p.vaddr + k) = some 0

/-- Bytes are what they were. -/
def SameBytes (s s' : State) : Prop := ∀ a, s'.byteAt a = s.byteAt a

theorem wp_linkLoop : wp good (linkLoop vaddr n) (fun _ s' => Stays P s s' ∧
    (0 < n → USER_EXEC_ADDR ≤ vaddr ∧ vaddr + n * PAGE_SIZE ≤ USER_MMAP_ADDR)) s := by
  induction n generalizing s vaddr with
  | zero => exact (wp_pure _).mpr ⟨Stays.refl s, fun hn => absurd hn (Nat.lt_irrefl 0)⟩
  | succ n ih =>
      unfold linkLoop
      simp only [wp_bind, wp_check]
      intro hrange
      refine wp_mono (wp_linkPage (P := P)) fun _ s₁ hlinked => wp_mono ih fun _ s₂ hrest => ?_
      obtain ⟨hpage, -, hstays₁⟩ := hlinked
      obtain ⟨hstays₂, hend⟩ := hrest
      refine ⟨hstays₁.trans hstays₂, fun _ => ⟨hrange.1, ?_⟩⟩
      unfold USER_MMAP_ADDR PAGE_SIZE u32 at *
      cases n with
      | zero => omega
      | succ n =>
          have hend' := (hend (Nat.succ_pos n)).2
          omega

theorem wp_protectLoop : wp good (protectLoop vaddr n) (fun _ => SameBytes s) s := by
  induction n generalizing s vaddr with
  | zero => exact (wp_pure _).mpr fun _ => rfl
  | succ n ih =>
      unfold protectLoop
      simp only [wp_bind, wp_get, wp_check, wp_modify]
      intro _
      refine wp_mono ih fun _ s' hrest a => (hrest a).trans ?_
      cases hp : s.page (IDX vaddr) with
      | none => rfl
      | some p =>
          unfold State.byteAt
          dsimp only
          rw [setPage_page]
          by_cases ha : IDX a = IDX vaddr
          · rw [if_pos ha, ha, hp]
            rfl
          · rw [if_neg ha]

/-- After the bytes are in memory, `load_segment` looks at entries and at the task. -/
theorem wp_finishSegment {Q : Unit → State → Prop} {count : ℕ} {flags : ℕ}
    (hQ : ∀ s', SameBytes s s' → Q () s') :
    wp good (do
      if flags &&& PF_W = 0 then
        protectLoop vaddr count
      if flags = PF_R ||| PF_X then
        modify fun s => { s with text := vaddr }
      else if flags = PF_R ||| PF_W then
        modify fun s => { s with data := vaddr }
      modify fun s => { s with endAddr := max s.endAddr (u32 (vaddr + count * PAGE_SIZE)) })
      Q s := by
  simp only [wp_bind, wp_ite, wp_modify]
  refine ⟨fun _ => wp_mono wp_protectLoop fun _ s₁ hsame => ?_, fun _ => ?_⟩
  · exact ⟨fun _ => hQ _ hsame, fun _ => ⟨fun _ => hQ _ hsame, fun _ => hQ _ hsame⟩⟩
  · exact ⟨fun _ => hQ _ fun _ => rfl, fun _ => ⟨fun _ => hQ _ fun _ => rfl,
      fun _ => hQ _ fun _ => rfl⟩⟩

/-- `memset` with zeros behind the bytes of the file. -/
theorem wp_memset {dest : ℕ} {b : UInt8} : wp good (memset dest b n) (fun _ s' =>
    (∀ k < n, s'.byteAt (dest + k) = some b) ∧ Stays (Outside dest n) s s') s := by
  rw [memset_eq]
  refine wp_mono wp_memcpy fun _ s' hcopied => ?_
  rw [List.length_replicate] at hcopied
  refine ⟨fun k hk => ?_, hcopied.2⟩
  rw [hcopied.1 k hk, listBytes, Nat.zero_add, List.getD_eq_getElem?_getD,
    List.getElem?_replicate_of_lt hk]
  rfl

theorem wp_loadSegment (h : Shows s phdr PHDR_SIZE m o) (hlow : USER_EXEC_ADDR ≤ phdr)
    (hsize : (phdrAt m o).vaddr % 0x1000 = 0 → (phdrAt m o).size + PAGE_SIZE ≤ 2 ^ 32)
    (hapart : (phdrAt m o).vaddr + (phdrAt m o).size ≤ USER_MMAP_ADDR → ∀ k < PHDR_SIZE,
      Outside (phdrAt m o).vaddr (phdrAt m o).size (phdr + k)) :
    wp good (loadSegment inode phdr) (fun _ s' => InPlace inode (phdrAt m o) s' ∧
      ((phdrAt m o).size ≠ 0 → (phdrAt m o).vaddr + (phdrAt m o).size ≤ USER_MMAP_ADDR) ∧
      Stays (Outside (phdrAt m o).vaddr (phdrAt m o).size) s s') s := by
  generalize hp : phdrAt m o = p at hsize hapart ⊢
  have hfield : ∀ t, Shows t phdr PHDR_SIZE m o → ∀ l, l + 4 ≤ PHDR_SIZE →
      (loadField 4 (phdr + l)).run t = .ok (m.read 4 (o + l), t, []) := fun t ht l hl =>
    run_loadField (ht.part hl) (by omega)
  -- The fields are read again whenever they are needed.
  have hoffset : m.read 4 (o + 4) = p.offset := by rw [← hp]; rfl
  have hvaddr : m.read 4 (o + 8) = p.vaddr := by rw [← hp]; rfl
  have hfilesz : m.read 4 (o + 16) = p.filesz := by rw [← hp]; rfl
  have hmemsz : m.read 4 (o + 20) = p.memsz := by rw [← hp]; rfl
  unfold loadSegment p_align p_vaddr p_memsz p_filesz p_offset p_flags
  refine wp_bind_run (hfield s h 28 (by decide)) ?_
  rw [wp_bind, wp_check]
  intro _
  refine wp_bind_run (hfield s h 8 (by decide)) ?_
  rw [hvaddr, wp_bind, wp_check]
  intro halign
  have hsize := hsize halign
  refine wp_bind_run (hfield s h 8 (by decide)) (wp_bind_run (hfield s h 20 (by decide)) ?_)
  refine wp_bind_run (hfield s h 16 (by decide)) ?_
  rw [hmemsz, hfilesz, hvaddr, wp_bind]
  change wp good (linkLoop p.vaddr (pagesIn p.size)) _ s
  refine wp_mono (wp_linkLoop (P := fun _ => True)) fun _ s₁ hlinked => ?_
  obtain ⟨hstays₁, hrange⟩ := hlinked
  have h₁ := h.stays hstays₁ fun _ _ => trivial
  have hend : p.size ≠ 0 → p.vaddr + p.size ≤ USER_MMAP_ADDR := by
    intro hne
    have hcount : pagesIn p.size = (p.size + 4095) / 4096 := by
      unfold pagesIn u32 PAGE_SIZE at *
      omega
    have hbound := (hrange (by omega)).2
    rw [hcount] at hbound
    unfold PAGE_SIZE at hbound
    omega
  have houtside : ∀ k < PHDR_SIZE, Outside p.vaddr p.size (phdr + k) := by
    intro k hk
    by_cases hzero : p.size = 0
    · unfold Outside
      omega
    · exact hapart (hend hzero) k hk
  have hfile : p.filesz ≤ p.size := le_max_right _ _
  have hmem : p.memsz ≤ p.size := le_max_left _ _
  refine wp_bind_run (hfield s₁ h₁ 16 (by decide)) (wp_bind_run (hfield s₁ h₁ 4 (by decide)) ?_)
  rw [hfilesz, hoffset, wp_bind]
  refine wp_mono wp_inodeRead fun _ s₂ hread => ?_
  obtain ⟨hbytes, -, hstays₂⟩ := hread
  have hstays₂' : Stays (Outside p.vaddr p.size) s₁ s₂ := by
    refine hstays₂.weaken fun a ha => ?_
    unfold Outside at ha ⊢
    omega
  have h₂ := h₁.stays hstays₂' houtside
  have hstays : Stays (Outside p.vaddr p.size) s s₂ :=
    (hstays₁.weaken fun _ _ => trivial).trans hstays₂'
  refine wp_bind_run (hfield s₂ h₂ 16 (by decide)) (wp_bind_run (hfield s₂ h₂ 20 (by decide)) ?_)
  rw [hfilesz, hmemsz]
  -- What is left does not change bytes.
  have hdone : ∀ s₃ : State, (p.offset + p.filesz ≤ inode.length →
        Shows s₃ p.vaddr p.filesz (listBytes inode) p.offset ∧
          ∀ k, p.filesz ≤ k → k < p.memsz → s₃.byteAt (p.vaddr + k) = some 0) →
      Stays (Outside p.vaddr p.size) s s₃ → ∀ s₄, SameBytes s₃ s₄ →
      InPlace inode p s₄ ∧ (p.size ≠ 0 → p.vaddr + p.size ≤ USER_MMAP_ADDR) ∧
        Stays (Outside p.vaddr p.size) s s₄ := by
    intro s₃ hplace hstays₃ s₄ hsame
    refine ⟨fun hin => ⟨fun k hk => ?_, fun k hk hk' => ?_⟩, hend, fun a b ha hb => ?_⟩
    · rw [hsame]
      exact (hplace hin).1 k hk
    · rw [hsame]
      exact (hplace hin).2 k hk hk'
    · rw [hsame]
      exact hstays₃ a b ha hb
  rw [wp_ite]
  refine ⟨fun hmore => ?_, fun hnone => ?_⟩
  · have hwrap : u32 (p.vaddr + p.filesz) = p.vaddr + p.filesz := by
      have hend' := hend (by omega)
      unfold USER_MMAP_ADDR at hend'
      unfold u32
      omega
    rw [hwrap, wp_bind]
    refine wp_mono wp_memset fun _ s₃ hset => ?_
    obtain ⟨hzeros, hstays₃⟩ := hset
    have hstays₃' : Stays (Outside p.vaddr p.size) s₂ s₃ := by
      refine hstays₃.weaken fun a ha => ?_
      unfold Outside at ha ⊢
      omega
    have h₃ := h₂.stays hstays₃' houtside
    refine wp_bind_run (hfield s₃ h₃ 24 (by decide)) (wp_finishSegment (hdone s₃ (fun hin => ?_)
      (hstays.trans hstays₃')))
    refine ⟨(hbytes hin).stays hstays₃ fun k hk => ?_, fun k hk hk' => ?_⟩
    · unfold Outside
      omega
    · have hzero := hzeros (k - p.filesz) (by omega)
      rwa [Nat.add_assoc, Nat.add_sub_cancel' hk] at hzero
  · refine wp_bind_run (hfield s₂ h₂ 24 (by decide)) (wp_finishSegment (hdone s₂ (fun hin => ?_)
      hstays))
    exact ⟨hbytes hin, fun k hk hk' => by omega⟩

theorem silent_loadSegment (inode : List UInt8) (phdr : ℕ) : Silent (loadSegment inode phdr) := by
  have hlink : ∀ n addr, Silent (linkLoop addr n) := by
    intro n
    induction n with
    | zero => exact fun _ => silent_pure ()
    | succ n ih =>
        exact fun addr => (silent_check _).bind fun _ => (silent_linkPage _).bind fun _ => ih _
  have hprotect : ∀ n addr, Silent (protectLoop addr n) := by
    intro n
    induction n with
    | zero => exact fun _ => silent_pure ()
    | succ n ih =>
        exact fun addr => silent_get.bind fun _ => (silent_check _).bind fun _ =>
          (silent_modify _).bind fun _ => ih _
  have hset : ∀ n dest, Silent (memset dest 0 n) := by
    intro n dest
    rw [memset_eq]
    exact silent_memcpy _ _
  refine (silent_loadField _ _).bind fun _ => (silent_check _).bind fun _ => ?_
  refine (silent_loadField _ _).bind fun _ => (silent_check _).bind fun _ => ?_
  refine (silent_loadField _ _).bind fun vaddr => (silent_loadField _ _).bind fun _ => ?_
  refine (silent_loadField _ _).bind fun _ => (hlink _ _).bind fun _ => ?_
  refine (silent_loadField _ _).bind fun _ => (silent_loadField _ _).bind fun _ => ?_
  refine (silent_inodeRead _ _ _ _).bind fun _ => (silent_loadField _ _).bind fun _ => ?_
  refine (silent_loadField _ _).bind fun _ => ?_
  have hend : ∀ count : ℕ, Silent (modify fun s : State =>
      { s with endAddr := max s.endAddr (u32 (vaddr + count * PAGE_SIZE)) } : M Unit) :=
    fun _ => silent_modify _
  have hmark : ∀ flags count : ℕ, Silent (do
      if flags = PF_R ||| PF_X then
        modify fun s => { s with text := vaddr }
      else if flags = PF_R ||| PF_W then
        modify fun s => { s with data := vaddr }
      modify fun s => { s with endAddr := max s.endAddr (u32 (vaddr + count * PAGE_SIZE)) }
      : M Unit) := fun flags count =>
    Silent.ite ((silent_modify _).bind fun _ => hend count)
      (Silent.ite ((silent_modify _).bind fun _ => hend count) (hend count))
  have hfinish : ∀ count, Silent (do
      let flags ← loadField 4 (phdr + 24)
      if flags &&& PF_W = 0 then
        protectLoop vaddr count
      if flags = PF_R ||| PF_X then
        modify fun s => { s with text := vaddr }
      else if flags = PF_R ||| PF_W then
        modify fun s => { s with data := vaddr }
      modify fun s => { s with endAddr := max s.endAddr (u32 (vaddr + count * PAGE_SIZE)) }
      : M Unit) := fun count =>
    (silent_loadField _ _).bind fun flags => Silent.ite
      ((hprotect _ _).bind fun _ => hmark flags count) (hmark flags count)
  exact Silent.ite ((hset _ _).bind fun _ => hfinish _) (hfinish _)

/-! ## The program header table -/

/-- `e_phnum` of the file. -/
def phnum (inode : List UInt8) : ℕ := (listBytes inode).read 2 44

/-- `e_phoff` of the file. -/
def phoff (inode : List UInt8) : ℕ := (listBytes inode).read 4 28

/-- Entry `i` of the table of the file. -/
def entry (inode : List UInt8) (i : ℕ) : Phdr :=
  phdrAt (listBytes inode) (phoff inode + PHDR_SIZE * i)

/-- Entry `i` is one that is to be loaded. -/
def Loadable (inode : List UInt8) (i : ℕ) : Prop :=
  i < phnum inode ∧ (entry inode i).type = PT_LOAD

/-- Where `load_elf` has the entry `i` of the table in memory. -/
def entryAddr (i : ℕ) : ℕ := USER_EXEC_ADDR + EHDR_SIZE + PHDR_SIZE * i

/-- The bytes of the header and of the table. -/
def headerSize (inode : List UInt8) : ℕ := EHDR_SIZE + PHDR_SIZE * phnum inode

/-- The file has a program header table, and its segments are on disjoint pages away from
those where the headers are read. -/
structure WellFormed (inode : List UInt8) : Prop where
  table : phoff inode + PHDR_SIZE * phnum inode ≤ inode.length
  header : ∀ i, Loadable inode i → ∀ k < (entry inode i).size, ∀ j < headerSize inode,
    IDX (u32 ((entry inode i).vaddr + k)) ≠ IDX (USER_EXEC_ADDR + j)
  disjoint : ∀ i j, Loadable inode i → Loadable inode j → i ≠ j →
    ∀ k < (entry inode i).size, ∀ l < (entry inode j).size,
      IDX (u32 ((entry inode i).vaddr + k)) ≠ IDX (u32 ((entry inode j).vaddr + l))

/-- What the loop reads is still in memory. -/
structure Headed (inode : List UInt8) (s : State) : Prop where
  ehdr : Shows s USER_EXEC_ADDR EHDR_SIZE (listBytes inode) 0
  table : Shows s (entryAddr 0) (PHDR_SIZE * phnum inode) (listBytes inode) (phoff inode)

/-- A segment ends below the area for mappings. -/
def Phdr.Within (p : Phdr) : Prop := p.size ≠ 0 → p.vaddr + p.size ≤ USER_MMAP_ADDR

/-- Outside the bytes of a segment. -/
def Phdr.Avoids (p : Phdr) (a : ℕ) : Prop := Outside p.vaddr p.size a

theorem Phdr.mem_of_not_avoids {p : Phdr} (hp : p.Within) (h : ¬p.Avoids a) :
    ∃ k < p.size, a = u32 (p.vaddr + k) := by
  unfold Avoids Outside at h
  have hend := hp (by omega)
  unfold USER_MMAP_ADDR at hend
  refine ⟨a - p.vaddr, by omega, ?_⟩
  unfold u32
  omega

namespace WellFormed

variable (h : WellFormed inode)
include h

theorem size_le (hi : Loadable inode i) (halign : (entry inode i).vaddr % 0x1000 = 0) :
    (entry inode i).size + PAGE_SIZE ≤ 2 ^ 32 := by
  by_contra hlarge
  have hvaddr : (entry inode i).vaddr < 256 ^ 4 := Bytes.read_lt 4 _ _
  unfold PAGE_SIZE at hlarge
  -- A larger segment comes around to the page of the header.
  refine h.header i hi (u32 (USER_EXEC_ADDR + 2 ^ 32 - (entry inode i).vaddr)) ?_ 0 ?_ ?_
  · unfold u32 USER_EXEC_ADDR
    omega
  · unfold headerSize EHDR_SIZE
    omega
  · congr 1
    unfold u32 USER_EXEC_ADDR
    omega

theorem avoids_header (hi : Loadable inode i) (hw : (entry inode i).Within) {j : ℕ}
    (hj : j < headerSize inode) : (entry inode i).Avoids (USER_EXEC_ADDR + j) := by
  by_contra hn
  obtain ⟨k, hk, hkj⟩ := Phdr.mem_of_not_avoids hw hn
  exact h.header i hi k hk j hj (by rw [hkj])

theorem avoids_other (hi : Loadable inode i) (hj : Loadable inode j) (hij : i ≠ j)
    (hwi : (entry inode i).Within) (hwj : (entry inode j).Within) {k : ℕ}
    (hk : k < (entry inode i).size) : (entry inode j).Avoids ((entry inode i).vaddr + k) := by
  by_contra hn
  obtain ⟨l, hl, hlk⟩ := Phdr.mem_of_not_avoids hwj hn
  have hsame : u32 ((entry inode i).vaddr + k) = (entry inode i).vaddr + k := by
    have hend := hwi (by omega)
    unfold USER_MMAP_ADDR at hend
    unfold u32
    omega
  exact h.disjoint i j hi hj hij k hk l hl (by rw [hsame, hlk])

end WellFormed

theorem Headed.entry (h : Headed inode s) (hi : i < phnum inode) :
    Shows s (entryAddr i) PHDR_SIZE (listBytes inode) (phoff inode + PHDR_SIZE * i) := by
  have hpart := h.table.part (i := PHDR_SIZE * i) (l := PHDR_SIZE) (by
    unfold PHDR_SIZE
    omega)
  exact hpart

theorem Headed.stays (h : Headed inode s) (hs : Stays P s s')
    (hP : ∀ j < headerSize inode, P (USER_EXEC_ADDR + j)) : Headed inode s' := by
  refine ⟨h.ehdr.stays hs fun k hk => hP k ?_, h.table.stays hs fun k hk => ?_⟩
  · unfold headerSize
    omega
  · have hk' := hP (EHDR_SIZE + k) (by
      unfold headerSize
      omega)
    rwa [← Nat.add_assoc] at hk'

/-! ## The loop -/

/-- What the loop has done from entry `i` on: it has loaded the entries before `n`, and stopped
there for good. -/
structure LoadedTo (inode : List UInt8) (i n : ℕ) (s s' : State) (l : List Event) : Prop where
  le : i ≤ n ∧ n ≤ phnum inode
  loadable : ∀ j, i ≤ j → j < n → Loadable inode j
  stop : ¬Loadable inode n
  calls : l = (List.range' i (n - i)).map fun j => .segment (entryAddr j)
  within : ∀ j, i ≤ j → j < n → (entry inode j).Within
  inPlace : ∀ j, i ≤ j → j < n → InPlace inode (entry inode j) s'
  stays : Stays (fun a => ∀ j, i ≤ j → j < n → (entry inode j).Avoids a) s s'

/-- At an entry of another type the pointer stays, and nothing is loaded any more. -/
theorem after_loadLoop_stuck {rounds : ℕ} (h : Headed inode s) (hj : j < phnum inode)
    (hother : (entry inode j).type ≠ PT_LOAD) :
    after (loadLoop inode USER_EXEC_ADDR rounds i (entryAddr j)) (fun _ s' l => s' = s ∧ l = [])
      s := by
  have hphnum : (e_phnum USER_EXEC_ADDR).run s = .ok (phnum inode, s, []) :=
    run_loadField (h.ehdr.part (i := 44) (l := 2) (by decide)) (by decide)
  have htype : (p_type (entryAddr j)).run s = .ok ((entry inode j).type, s, []) :=
    run_loadField ((h.entry hj).part (i := 0) (l := 4) (by decide)) (by
      unfold entryAddr
      omega)
  induction rounds generalizing i with
  | zero => exact (after_pure _).mpr ⟨rfl, rfl⟩
  | succ rounds ih =>
      unfold loadLoop
      refine after_bind_run hphnum ((after_ite _ _ _).mpr ⟨fun _ => after_bind_run htype ?_,
        fun _ => (after_pure _).mpr ⟨rfl, rfl⟩⟩)
      rw [if_pos hother]
      exact ih

theorem InPlace.stays {p : Phdr} (h : InPlace inode p s) (hs : Stays P s s')
    (hP : ∀ k < p.size, P (p.vaddr + k)) : InPlace inode p s' := by
  intro hin
  obtain ⟨hbytes, hzeros⟩ := h hin
  refine ⟨hbytes.stays hs fun k hk => hP k (hk.trans_le (le_max_right _ _)), fun k hk hk' => ?_⟩
  exact hs _ _ (hP k (hk'.trans_le (le_max_left _ _))) (hzeros k hk hk')

theorem after_loadLoop {rounds : ℕ} (hfile : WellFormed inode) (h : Headed inode s)
    (hi : i ≤ phnum inode) (hrounds : phnum inode ≤ i + rounds) :
    after (loadLoop inode USER_EXEC_ADDR rounds i (entryAddr i))
      (fun _ s' l => ∃ n, LoadedTo inode i n s s' l) s := by
  -- Where nothing is loaded any more.
  have hstop : ¬Loadable inode i → LoadedTo inode i i s s [] := fun hn =>
    ⟨⟨le_rfl, hi⟩, fun j _ _ => by omega, hn, by simp, fun j _ _ => by omega,
      fun j _ _ => by omega, Stays.refl s⟩
  induction rounds generalizing s i with
  | zero => exact (after_pure _).mpr ⟨i, hstop fun hl => by have := hl.1; omega⟩
  | succ rounds ih =>
      have hphnum : (e_phnum USER_EXEC_ADDR).run s = .ok (phnum inode, s, []) :=
        run_loadField (h.ehdr.part (i := 44) (l := 2) (by decide)) (by decide)
      unfold loadLoop
      refine after_bind_run hphnum ((after_ite _ _ _).mpr ⟨fun hlt => ?_, fun hend => ?_⟩)
      swap
      · exact (after_pure _).mpr ⟨i, hstop fun hl => hend hl.1⟩
      have hentry := h.entry hlt
      have hlow : USER_EXEC_ADDR ≤ entryAddr i := by
        unfold entryAddr
        omega
      have htype : (p_type (entryAddr i)).run s = .ok ((entry inode i).type, s, []) :=
        run_loadField (hentry.part (i := 0) (l := 4) (by decide)) hlow
      refine after_bind_run htype ((after_ite _ _ _).mpr ⟨fun hother => ?_, fun hload => ?_⟩)
      · refine after_mono (after_loadLoop_stuck h hlt hother) fun _ s' l hstuck => ?_
        obtain ⟨rfl, rfl⟩ := hstuck
        exact ⟨i, hstop fun hl => hother hl.2⟩
      have hloadable : Loadable inode i := ⟨hlt, by simpa using hload⟩
      rw [after_bind, after_note]
      have hseg : wp (fun _ => True) (loadSegment inode (entryAddr i)) _ s :=
        wp_loadSegment hentry hlow (hfile.size_le hloadable) fun hend k hk => by
          have hav := hfile.avoids_header hloadable (fun _ => hend)
            (j := EHDR_SIZE + PHDR_SIZE * i + k) (by
              unfold headerSize PHDR_SIZE at *
              omega)
          rwa [← Nat.add_assoc, ← Nat.add_assoc] at hav
      refine (silent_loadSegment inode _).after_bind hseg fun _ s₁ hloaded => ?_
      obtain ⟨hplace, hwithin, hstays⟩ := hloaded
      have h₁ : Headed inode s₁ := h.stays hstays fun j hj =>
        hfile.avoids_header hloadable hwithin hj
      have hnext : entryAddr i + PHDR_SIZE = entryAddr (i + 1) := by
        unfold entryAddr PHDR_SIZE
        omega
      rw [hnext]
      refine after_mono (ih h₁ (by omega) (by omega) fun hn => ⟨⟨le_rfl, by omega⟩,
        fun j _ _ => by omega, hn, by simp, fun j _ _ => by omega, fun j _ _ => by omega,
        Stays.refl s₁⟩) fun _ s' l hrest => ?_
      obtain ⟨n, hle, hloads, hstopn, hcalls, hwithins, hplaces, hstays'⟩ := hrest
      refine ⟨n, ⟨by omega, hle.2⟩, fun j hj hjn => ?_, hstopn, ?_, fun j hj hjn => ?_,
        fun j hj hjn => ?_, ?_⟩
      · rcases Nat.eq_or_lt_of_le hj with rfl | hlt'
        · exact hloadable
        · exact hloads j hlt' hjn
      · have hsucc : n - i = (n - (i + 1)) + 1 := by omega
        rw [hcalls, hsucc, List.range'_succ, List.map_cons]
        rfl
      · rcases Nat.eq_or_lt_of_le hj with rfl | hlt'
        · exact hwithin
        · exact hwithins j hlt' hjn
      · rcases Nat.eq_or_lt_of_le hj with rfl | hlt'
        · refine hplace.stays hstays' fun k hk j' hj' hjn' => ?_
          exact hfile.avoids_other hloadable (hloads j' hj' hjn') (by omega) hwithin
            (hwithins j' hj' hjn') hk
        · exact hplaces j hlt' hjn
      · refine (hstays.weaken fun a ha => ha i le_rfl (by omega)).trans (hstays'.weaken
          fun a ha j hj hjn => ha j (by omega) hjn)

/-! ## All segments -/

/-- `load_segment` has been called for each entry to be loaded, in their order, and the
segments are in memory. -/
structure AllLoaded (inode : List UInt8) (s : State) (l : List Event) : Prop where
  calls : l = ((List.range (phnum inode)).filter fun i => (entry inode i).type = PT_LOAD).map
    fun i => .segment (entryAddr i)
  inPlace : ∀ i, Loadable inode i → InPlace inode (entry inode i) s

/-- No entry to be loaded stands behind one of another type. -/
def NoGap (inode : List UInt8) : Prop :=
  ∀ j, Loadable inode j → ∀ i < j, (entry inode i).type = PT_LOAD

theorem entryAddr_injective : Function.Injective fun i => Event.segment (entryAddr i) := by
  intro i j hij
  have hij' : entryAddr i = entryAddr j := Event.segment.inj hij
  unfold entryAddr PHDR_SIZE at hij'
  omega

theorem LoadedTo.noGap_iff {l : List Event} (h : LoadedTo inode 0 n s s' l) :
    NoGap inode ↔ ∀ j, Loadable inode j → j < n := by
  constructor
  · intro hgap j hj
    by_contra hle
    rcases Nat.eq_or_lt_of_le (Nat.le_of_not_lt hle) with rfl | hlt
    · exact h.stop hj
    · exact h.stop ⟨hlt.trans hj.1, hgap j hj n hlt⟩
  · intro hlt j hj i hij
    exact (h.loadable i (Nat.zero_le i) (hij.trans (hlt j hj))).2

theorem LoadedTo.allLoaded_iff {l : List Event} (h : LoadedTo inode 0 n s s' l) :
    AllLoaded inode s' l ↔ NoGap inode := by
  rw [h.noGap_iff]
  have hcalls := h.calls
  rw [Nat.sub_zero, ← List.range_eq_range'] at hcalls
  constructor
  · intro hall j hj
    have hmem : Event.segment (entryAddr j) ∈ l := by
      rw [hall.calls]
      refine List.mem_map_of_mem (List.mem_filter.mpr ⟨List.mem_range.mpr hj.1, ?_⟩)
      simpa using hj.2
    rw [hcalls] at hmem
    obtain ⟨k, hk, hkj⟩ := List.mem_map.mp hmem
    rw [← entryAddr_injective hkj]
    exact List.mem_range.mp hk
  · intro hlt
    refine ⟨?_, fun i hi => h.inPlace i (Nat.zero_le i) (hlt i hi)⟩
    have hfilter : (List.range (phnum inode)).filter (fun i => (entry inode i).type = PT_LOAD) =
        List.range n := by
      have hsplit : List.range (phnum inode) =
          List.range n ++ List.range' n (phnum inode - n) := by
        have happend := List.range'_append_1 (s := 0) (m := n) (n := phnum inode - n)
        rw [Nat.zero_add, Nat.add_sub_cancel' h.le.2] at happend
        rw [List.range_eq_range', List.range_eq_range', happend]
      have hfirst : (List.range n).filter (fun i => (entry inode i).type = PT_LOAD) =
          List.range n := by
        refine List.filter_eq_self.mpr fun i hi => ?_
        simpa using (h.loadable i (Nat.zero_le i) (List.mem_range.mp hi)).2
      have hrest : (List.range' n (phnum inode - n)).filter
          (fun i => (entry inode i).type = PT_LOAD) = [] := by
        refine List.filter_eq_nil_iff.mpr fun i hi hload => ?_
        rw [List.mem_range'_1] at hi
        have hle := h.le.2
        have hin := hlt i ⟨by omega, by simpa using hload⟩
        omega
      rw [hsplit, List.filter_append, hfirst, hrest, List.append_nil]
    rw [hcalls, hfilter]

theorem after_loadElf (hfile : WellFormed inode) (hvalid : validates (listBytes inode) 0 = true) :
    after (loadElf inode) (fun _ s' l => ∃ s₁ n, LoadedTo inode 0 n s₁ s' l) s := by
  unfold loadElf
  refine (silent_linkPage _).after_bind (wp_linkPage (P := fun _ => True)) fun _ s₁ _ => ?_
  refine (silent_inodeRead _ _ _ _).after_bind wp_inodeRead fun n s₂ hread => ?_
  obtain ⟨hbytes, hlen, -⟩ := hread
  rw [after_bind, after_check]
  intro hn
  have hehdr : Shows s₂ USER_EXEC_ADDR EHDR_SIZE (listBytes inode) 0 := hbytes (hn ▸ (hlen hn).1)
  have hvalidate := run_elfValidate hehdr le_rfl
  rw [hvalid] at hvalidate
  have hphnum : ∀ t, Shows t USER_EXEC_ADDR EHDR_SIZE (listBytes inode) 0 →
      (e_phnum USER_EXEC_ADDR).run t = .ok (phnum inode, t, []) := fun t ht =>
    run_loadField (ht.part (i := 44) (l := 2) (by decide)) (by decide)
  have hphentsize : (e_phentsize USER_EXEC_ADDR).run s₂ = .ok (PHDR_SIZE, s₂, []) := by
    have hsize : (listBytes inode).read 2 42 = PHDR_SIZE := by
      unfold validates at hvalid
      exact (of_decide_eq_true hvalid).2.2.2.2
    rw [← hsize]
    exact run_loadField (hehdr.part (i := 42) (l := 2) (by decide)) (by decide)
  have hphoff : (e_phoff USER_EXEC_ADDR).run s₂ = .ok (phoff inode, s₂, []) :=
    run_loadField (hehdr.part (i := 28) (l := 4) (by decide)) (by decide)
  refine after_bind_run hvalidate ?_
  rw [if_neg (by simp)]
  refine after_bind_run (hphnum s₂ hehdr) (after_bind_run hphentsize (after_bind_run hphoff ?_))
  refine (silent_inodeRead _ _ _ _).after_bind wp_inodeRead fun _ s₃ hread' => ?_
  obtain ⟨htable, -, hstays⟩ := hread'
  have hheaded : Headed inode s₃ := by
    refine ⟨hehdr.stays hstays fun k hk => .inl (by omega), ?_⟩
    have hshows := htable (by rw [Nat.mul_comm]; exact hfile.table)
    rw [Nat.mul_comm] at hshows
    exact hshows
  have hlt : phnum inode < 2 ^ 16 := Bytes.read_lt 2 _ _
  have hloop : after (loadLoop inode USER_EXEC_ADDR (2 ^ 16) 0 (entryAddr 0)) _ s₃ :=
    after_loadLoop hfile hheaded (Nat.zero_le _) (by omega)
  rw [after_bind]
  refine after_mono hloop fun _ s₄ l hloaded => ?_
  obtain ⟨n, hloaded⟩ := hloaded
  have hend : Headed inode s₄ := hheaded.stays hloaded.stays fun j hj i _ hi =>
    hfile.avoids_header (hloaded.loadable i (Nat.zero_le i) hi)
      (hloaded.within i (Nat.zero_le i) hi) hj
  have hentry : (e_entry USER_EXEC_ADDR).run s₄ =
      .ok ((listBytes inode).read 4 24, s₄, []) :=
    run_loadField (hend.ehdr.part (i := 24) (l := 4) (by decide)) (by decide)
  intro r s' l' hrun
  rw [hentry] at hrun
  cases hrun
  rw [List.append_nil]
  exact ⟨s₃, n, hloaded⟩

/-- `load_elf` loads all segments of an accepted file exactly if no entry to be loaded stands
behind one of another type. -/
theorem load_elf_loads_iff {r : ℕ} {l : List Event} (hfile : WellFormed inode)
    (hvalid : validates (listBytes inode) 0 = true)
    (hrun : (loadElf inode).run s = .ok (r, s', l)) : AllLoaded inode s' l ↔ NoGap inode := by
  obtain ⟨s₁, n, hloaded⟩ := after_loadElf hfile hvalid r s' l hrun
  exact hloaded.allLoaded_iff

/-! ## Small programs -/

/-- A program header of a segment of four bytes on the page `i` after the first one. -/
def smallPhdr (type i : ℕ) : List UInt8 :=
  [type, 0, USER_EXEC_ADDR + (i + 1) * PAGE_SIZE, 0, 4, 4, 7, 0x1000].flatMap wordBytes

/-- A file with a table whose entries have these types. -/
def smallFile (types : List ℕ) : List UInt8 :=
  ELF_IDENT ++ List.replicate 9 0 ++ [2, 0, 3, 0] ++
    [1, USER_EXEC_ADDR + PAGE_SIZE, EHDR_SIZE, 0, 0].flatMap wordBytes ++
    [52, 0, 32, 0, UInt8.ofNat types.length, 0, 0, 0, 0, 0, 0, 0] ++
    (types.zipIdx.map fun r => smallPhdr r.1 r.2).flatten

/-- A task without pages. -/
def blankTask : State where
  name := List.replicate TASK_NAME_LEN 0
  uid := 1
  gid := 0
  text := USER_EXEC_ADDR
  data := USER_EXEC_ADDR
  endAddr := USER_EXEC_ADDR
  brk := USER_EXEC_ADDR
  tables := fun _ => none
  frames := fun _ => some fun _ => 0
  taken := 0
  freePages := 256
  totalPages := 4352

/-- With one segment at most, on a page of its own, the table is well-formed. -/
theorem wellFormed_of_single (hlength : phoff inode + PHDR_SIZE * phnum inode ≤ inode.length)
    (hsize : headerSize inode ≤ PAGE_SIZE) (hsingle : ∀ i, Loadable inode i → i = n)
    (hvaddr : USER_EXEC_ADDR + PAGE_SIZE ≤ (entry inode n).vaddr)
    (hend : (entry inode n).vaddr + (entry inode n).size ≤ USER_MMAP_ADDR) :
    WellFormed inode := by
  refine ⟨hlength, fun i hi k hk j hj => ?_, fun i j hi hj hij => ?_⟩
  · rw [hsingle i hi] at hk ⊢
    unfold USER_MMAP_ADDR at hend
    unfold USER_EXEC_ADDR PAGE_SIZE at *
    unfold IDX u32
    omega
  · exact absurd ((hsingle i hi).trans (hsingle j hj).symm) hij

/-- A note before the segment, and nothing is loaded. -/
theorem exists_unloaded_segment : ∃ inode s r s' l, WellFormed inode ∧
    validates (listBytes inode) 0 = true ∧ (loadElf inode).run s = .ok (r, s', l) ∧
    ¬AllLoaded inode s' l := by
  have hnum : phnum (smallFile [4, PT_LOAD]) = 2 := by decide
  have htype : (entry (smallFile [4, PT_LOAD]) 1).type = PT_LOAD := by decide
  have hsilent : (match (loadElf (smallFile [4, PT_LOAD])).run blankTask with
      | .ok (_, _, l) => decide (l = [])
      | .error _ => false) = true := by
    decide +kernel
  cases hrun : (loadElf (smallFile [4, PT_LOAD])).run blankTask with
  | error e =>
      rw [hrun] at hsilent
      cases hsilent
  | ok result =>
      obtain ⟨r, s', l⟩ := result
      rw [hrun] at hsilent
      obtain rfl : l = [] := of_decide_eq_true hsilent
      refine ⟨_, blankTask, r, s', [], wellFormed_of_single (n := 1) (by decide)
        (by decide) (fun i hi => ?_) (by decide) (by decide),
        by decide, hrun, fun hall => ?_⟩
      · have hlt := hi.1
        rw [hnum] at hlt
        have hne : i ≠ 0 := by
          rintro rfl
          have hnote : (entry (smallFile [4, PT_LOAD]) 0).type ≠ PT_LOAD := by decide
          exact hnote hi.2
        omega
      · have hmem : Event.segment (entryAddr 1) ∈ ([] : List Event) := by
          rw [hall.calls]
          refine List.mem_map_of_mem (List.mem_filter.mpr ⟨List.mem_range.mpr ?_, ?_⟩)
          · rw [hnum]
            decide
          · simpa using htype
        cases hmem

theorem smallFile_loads : ∃ r s' l,
    (loadElf (smallFile [PT_LOAD])).run blankTask = .ok (r, s', l) ∧
    (AllLoaded (smallFile [PT_LOAD]) s' l ↔ NoGap (smallFile [PT_LOAD])) := by
  have hnum : phnum (smallFile [PT_LOAD]) = 1 := by decide
  have hreturns : returnsBool (loadElf (smallFile [PT_LOAD])) (fun _ _ => true) blankTask =
      true := by
    decide +kernel
  obtain ⟨r, s', l, hrun, -⟩ := returns_of_bool hreturns
  refine ⟨r, s', l, hrun, load_elf_loads_iff (wellFormed_of_single (n := 0) (by decide)
    (by decide) (fun i hi => ?_) (by decide) (by decide))
    (by decide) hrun⟩
  have hlt := hi.1
  rw [hnum] at hlt
  omega

end Ylos.Execve
