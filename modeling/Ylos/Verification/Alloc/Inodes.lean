import Ylos.Verification.Alloc.Blocks

/-! # The inode allocator

`ialloc` and `ifree` against a first-fit allocator of the numbers that have a bit. The
bitmap of each block is made with the length `BLOCK_BITS`, eight times the bytes that
the block has, so that a search never gets past a full block. -/

namespace Ylos

open Exec Allocator

/-- The numbers that have a bit in `k` blocks. -/
def inodeRange (k : ℕ) : Set ℕ := { n | n < k * BLOCK_BITS }

/-- The numbers whose bit is set. -/
def inodeBits : ℕ → (ℕ → BufRef) → Fs → Set ℕ := usedBits 0

def InodeMap : ℤ → SuperDesc → ℕ → (ℕ → BufRef) → Fs → Prop := MapBlocks SuperBlock.imaps

/-- The calls that the code answers as it should: an allocation that finds its number in
block 0 and below `zones`. -/
def InodeGood (d : SuperDesc) : Call → Prop
  | .alloc n => n < BLOCK_BITS ∧ n < d.zones
  | .full => False
  | .free _ => True

section InodeMap

variable {dev : ℤ} {d : SuperDesc} {k : ℕ} {ib : ℕ → BufRef} {s s' : Fs} {n : ℕ}

theorem mem_inodeBits : n ∈ inodeBits k ib s ↔
    n < k * 8192 ∧ bitAt (s.data (ib (n / 8192))) (n % 8192) = true := by
  unfold inodeBits
  rw [mem_usedBits]
  simp

/-- All numbers below a bound in block 0 are used. -/
private theorem bits_below {b : ℕ} (hb : b ≤ 8192)
    (h : ∀ j < b, j ∈ inodeBits k ib s) : ∀ j < b, bitAt (s.data (ib 0)) j = true := by
  intro j hj
  have hbit := (mem_inodeBits.mp (h j hj)).2
  rwa [show j / 8192 = 0 by omega, show j % 8192 = j by omega] at hbit

private theorem used_below (hn : IsLeast (inodeRange k \ inodeBits k ib s) n) {j : ℕ}
    (hj : j < n) : j ∈ inodeBits k ib s := by
  have hlt : n < k * BLOCK_BITS := hn.1.1
  by_contra hfree
  have hle := hn.2 ⟨(by omega : j < k * BLOCK_BITS), hfree⟩
  omega

/-- In block 0 and below `zones`, `ialloc` hands out the smallest clear number. -/
theorem run_ialloc (h : InodeMap dev d k ib s)
    (hn : IsLeast (inodeRange k \ inodeBits k ib s) n) (hgood : InodeGood d (.alloc n)) :
    ∃ s', (ialloc dev).run s = .ok (n, s', []) ∧
      Stored s (ib 0) (putBit (s.data (ib 0)) n true) s' := by
  obtain ⟨hblock, hzones⟩ := hgood
  have hblock' : n < 8192 := hblock
  obtain ⟨hk, -⟩ := h.number
  obtain ⟨sb, hfind, hdesc, hmaps, -, -⟩ := h.super
  have hclear : bitAt (s.data (ib 0)) n = false := by
    by_contra hset
    refine hn.1.2 (mem_inodeBits.mpr ⟨by omega, ?_⟩)
    rw [show n / 8192 = 0 by omega, show n % 8192 = n by omega]
    simpa using hset
  obtain ⟨s₁, hloop, hstored⟩ := @allocLoop_found (s.supers sb).imaps ib
    BLOCK_BITS imapOffset d.zones IMAP_NR 0 0 n ⟨dev, 0⟩ s le_rfl (by decide)
    (fun j _ hj => hmaps j (by omega)) (by decide) (by omega) (by decide)
    (fun j _ hj => by obtain rfl : j = 0 := (by omega); decide) (by omega) hblock hclear
    (bits_below (by omega) (fun j hj => used_below hn hj))
    (by unfold imapOffset; omega)
  rw [show imapOffset 0 + n = n by unfold imapOffset; omega] at hloop
  obtain ⟨s₂, hwrite, himg, hio, -⟩ := run_bwrite (ib 0) s₁
  refine ⟨s₂, ?_, hstored.of_img himg hio⟩
  have heof : n ≠ EOF := by
    rintro rfl
    exact absurd hblock (by decide)
  unfold ialloc
  rw [run_bind _ (run_theSuper hfind), run_bind _ (run_gets _ s), run_bind _ (run_gets _ s),
    hdesc, run_bind _ hloop]
  simp only
  rw [if_neg heof, run_bind _ hwrite]
  rfl

/-- A full block 0 takes the search out of the block. -/
theorem run_ialloc_of_full (h : InodeMap dev d k ib s)
    (hfull : ∀ j < BLOCK_BITS, j ∈ inodeBits k ib s) : (ialloc dev).run s = .error .wild := by
  obtain ⟨hk, -⟩ := h.number
  obtain ⟨sb, hfind, hdesc, hmaps, -, -⟩ := h.super
  have hloop := @allocLoop_wild (s.supers sb).imaps ib BLOCK_BITS imapOffset d.zones 7 0 ⟨dev, 0⟩ s
    (hmaps 0 hk) (by decide) (by decide) (by decide) (bits_below le_rfl hfull)
  unfold ialloc
  rw [run_bind _ (run_theSuper hfind), run_bind _ (run_gets _ s), run_bind _ (run_gets _ s),
    hdesc]
  exact run_bind_error _ hloop

/-- A clear number in block 0 that is not below `zones` fails the assertion on it. -/
theorem run_ialloc_of_beyond (h : InodeMap dev d k ib s)
    (hn : IsLeast (inodeRange k \ inodeBits k ib s) n) (hblock : n < BLOCK_BITS)
    (hzones : d.zones ≤ n) : (ialloc dev).run s = .error .assertion := by
  have hblock' : n < 8192 := hblock
  obtain ⟨hk, -⟩ := h.number
  obtain ⟨sb, hfind, hdesc, hmaps, -, -⟩ := h.super
  have hclear : bitAt (s.data (ib 0)) n = false := by
    by_contra hset
    refine hn.1.2 (mem_inodeBits.mpr ⟨by omega, ?_⟩)
    rw [show n / 8192 = 0 by omega, show n % 8192 = n by omega]
    simpa using hset
  have hloop := @allocLoop_beyond (s.supers sb).imaps ib BLOCK_BITS imapOffset d.zones 7 0 n
    ⟨dev, 0⟩ s (hmaps 0 hk) (by decide) (by decide) (by decide) hblock hclear
    (bits_below (by omega) (fun j hj => used_below hn hj)) (by unfold imapOffset; omega)
  unfold ialloc
  rw [run_bind _ (run_theSuper hfind), run_bind _ (run_gets _ s), run_bind _ (run_gets _ s),
    hdesc]
  exact run_bind_error _ hloop

theorem run_ifree (h : InodeMap dev d k ib s) (hgood : InodeGood d (.alloc n))
    (hused : n ∈ inodeBits k ib s) :
    ∃ s', (ifree dev n).run s = .ok ((), s', []) ∧
      Stored s (ib 0) (putBit (s.data (ib 0)) n false) s' := by
  obtain ⟨hblock, hzones⟩ := hgood
  have hblock' : n < 8192 := hblock
  obtain ⟨hk, -⟩ := h.number
  obtain ⟨sb, hfind, hdesc, hmaps, -, -⟩ := h.super
  have hbit := (mem_inodeBits.mp hused).2
  rw [show n / 8192 = 0 by omega, show n % 8192 = n by omega] at hbit
  have hoff : n - imapOffset 0 = n := by
    unfold imapOffset
    omega
  have hsize : BLOCK_SIZE = 1024 := rfl
  obtain ⟨s', hrun, hstored⟩ :=
    @freeLoop_one (s.supers sb).imaps BLOCK_BITS imapOffset n 0 s _ (by omega) (hmaps 0 hk)
    (by unfold imapOffset; omega) (by rw [hoff, BLOCK_BITS_eq]; omega) (by rw [hoff]; omega)
    (by rwa [hoff])
  rw [hoff] at hstored
  refine ⟨s', ?_, hstored⟩
  unfold ifree
  rw [run_bind _ (run_theSuper hfind), run_bind _ (run_gets _ s), hdesc,
    run_bind _ (run_check_pos hzones s), run_bind _ (run_gets _ s),
    freeLoop_eq (t := 0) le_rfl (by decide) (by omega) (by omega)]
  exact hrun

end InodeMap

/-! ## Traces -/

def InodeCall (dev : ℤ) : ℕ → (ℕ → BufRef) → Fs → Call → Fs → Prop :=
  MapCall (ialloc dev) (ifree dev)

/-- What is kept between two calls, as long as all of them are good. -/
structure InodeState (dev : ℤ) (d : SuperDesc) (k : ℕ) (ib : ℕ → BufRef) (s : Fs)
    (held : List ℕ) : Prop where
  map : InodeMap dev d k ib s
  holding : Holding (inodeRange k) (inodeBits k ib s) held
  good : ∀ n ∈ held, InodeGood d (.alloc n)

section Traces

variable {dev : ℤ} {d : SuperDesc} {k : ℕ} {ib : ℕ → BufRef} {s s' : Fs} {held : List ℕ}
  {c : Call}

/-- A number in block 0, read as a number in the blocks. -/
private theorem stored_block {n : ℕ} {v : Bool} (hn : n < BLOCK_BITS)
    (h : Stored s (ib 0) (putBit (s.data (ib 0)) n v) s') :
    Stored s (ib ((n - 0) / BLOCK_BITS))
      (putBit (s.data (ib ((n - 0) / BLOCK_BITS))) ((n - 0) % BLOCK_BITS) v) s' := by
  rwa [Nat.sub_zero, Nat.div_eq_of_lt hn, Nat.mod_eq_of_lt hn]

private theorem inodeCall_forward (h : InodeState dev d k ib s held)
    (hc : Enabled (inodeRange k) (inodeBits k ib s) held c) (hgood : InodeGood d c) :
    ∃ s' m, InodeCall dev k ib s c s' ∧ inodeBits k ib s' = effect (inodeBits k ib s) c ∧
      Stored s (ib 0) m s' := by
  obtain ⟨hk, -⟩ := h.map.number
  cases c with
  | full => exact hgood.elim
  | alloc n =>
      have hrange : n < k * BLOCK_BITS := hc.1.1
      obtain ⟨s', hrun, hstored⟩ := run_ialloc h.map hc hgood
      refine ⟨s', _, ⟨hrun, fun b hb => ?_⟩, ?_, hstored⟩
      · rw [hstored.data, if_neg (hb 0 hk)]
      · exact usedBits_alloc h.map (Nat.zero_le n) (by omega) (stored_block hgood.1 hstored)
  | free n =>
      have hrange : n < k * BLOCK_BITS := h.holding.range n hc
      obtain ⟨s', hrun, hstored⟩ := run_ifree h.map (h.good n hc) (h.holding.used n hc)
      refine ⟨s', _, ⟨hrun, fun b hb => ?_⟩, ?_, hstored⟩
      · rw [hstored.data, if_neg (hb 0 hk)]
      · exact usedBits_free h.map (Nat.zero_le n) (by omega) (stored_block (h.good n hc).1 hstored)

/-- A call that the code answers as it should is good. -/
private theorem inodeGood_of_call (h : InodeState dev d k ib s held)
    (hc : Enabled (inodeRange k) (inodeBits k ib s) held c) (hcall : InodeCall dev k ib s c s') :
    InodeGood d c := by
  obtain ⟨hk, -⟩ := h.map.number
  have hmul : BLOCK_BITS ≤ k * BLOCK_BITS := Nat.le_mul_of_pos_left _ hk
  cases c with
  | free n => trivial
  | full =>
      have herror := run_ialloc_of_full h.map (fun j hj => hc (lt_of_lt_of_le hj hmul))
      have hrun := hcall.1
      simp only [herror] at hrun
      cases hrun
  | alloc n =>
      have hrun := hcall.1
      by_contra hbad
      by_cases hblock : n < BLOCK_BITS
      · have herror := run_ialloc_of_beyond h.map hc hblock
          (not_lt.mp fun hzones => hbad ⟨hblock, hzones⟩)
        simp only [herror] at hrun
        cases hrun
      · have herror := run_ialloc_of_full h.map
          (fun j hj => used_below hc (lt_of_lt_of_le hj (not_lt.mp hblock)))
        simp only [herror] at hrun
        cases hrun

private theorem inodeCall_backward (h : InodeState dev d k ib s held)
    (hc : Enabled (inodeRange k) (inodeBits k ib s) held c) (hcall : InodeCall dev k ib s c s')
    (hbits : inodeBits k ib s' = effect (inodeBits k ib s) c) :
    InodeGood d c ∧ InodeState dev d k ib s' (holds held c) := by
  have hgood := inodeGood_of_call h hc hcall
  refine ⟨hgood, ?_⟩
  obtain ⟨s₁, m, hcall', -, hstored⟩ := inodeCall_forward h hc hgood
  obtain rfl := MapCall.unique hcall' hcall
  obtain ⟨hk, -⟩ := h.map.number
  refine ⟨h.map.stored hk hstored, ?_, ?_⟩
  · rw [hbits]
    exact h.holding.step hc
  · intro n hn
    cases c with
    | alloc m =>
        rcases List.mem_cons.mp hn with rfl | hn
        · exact hgood
        · exact h.good n hn
    | full => exact h.good n hn
    | free m => exact h.good n (List.mem_of_mem_erase hn)

end Traces

/-! ## A device with one free number -/

/-- 10000 zones and two inode-bitmap blocks. -/
def oneNumberDesc : SuperDesc := ⟨0, 10000, 2, 0, 0⟩

/-- The blocks of the inode bitmap of `oneNumberDesc`. -/
def oneNumberBlock (i : ℕ) : BufRef := ⟨1, 2 + i⟩

/-- A mounted device with the super block `oneNumberDesc` and number `q` free. -/
def oneFreeNumber (q : ℕ) : Fs where
  img _ blk :=
    if blk = 1 then (Bytes.write 2 (fun _ => 0) 2 10000).write 2 4 2
    else if blk = 2 + q / 8192 then putBit (fun _ => 0xFF) (q % 8192) false
    else fun _ => 0xFF
  disk _ _ _ := 0
  dirty _ := false
  refs _ := 0
  inodes _ := ⟨-1, 0, 0, 0, ⟨0, 0⟩, 0, false, 0, 0⟩
  supers i := ⟨⟨1, 1⟩, fun i => if i < 2 then some ⟨1, 2 + i⟩ else none, fun _ => none,
    if i = 0 then 1 else -1, 1, [], none, none⟩
  task := ⟨0, 0, 0, 0, 0, [47]⟩
  now := 0
  sectors _ := 20000

section OneFreeNumber

variable {n q : ℕ}

private theorem oneFreeNumber_map (q : ℕ) :
    InodeMap 1 oneNumberDesc 2 oneNumberBlock (oneFreeNumber q) where
  super := by
    refine ⟨0, rfl, ?_, ?_, ?_, ?_⟩
    · change SuperDesc.ofBytes ((Bytes.write 2 (fun _ => 0) 2 10000).write 2 4 2) =
        ⟨0, 10000, 2, 0, 0⟩
      simp [SuperDesc.ofBytes, Bytes.read_write_same, Bytes.read_write_ne, Bytes.read_eq_zero]
    · intro i hi
      exact if_pos hi
    · intro i hi
      exact if_neg (by omega)
    · intro i _ h
      injection h with _ h
      change 2 + i = 1 at h
      omega
  distinct i hi j hj h := by
    injection h
    omega
  number := by decide

private theorem mem_oneFreeNumber :
    n ∈ inodeBits 2 oneNumberBlock (oneFreeNumber q) ↔ n < 16384 ∧ n ≠ q := by
  rw [mem_inodeBits]
  have hdata : (oneFreeNumber q).data (oneNumberBlock (n / 8192)) =
      if 2 + n / 8192 = 1 then (Bytes.write 2 (fun _ => 0) 2 10000).write 2 4 2
      else if 2 + n / 8192 = 2 + q / 8192 then putBit (fun _ => 0xFF) (q % 8192) false
      else fun _ => 0xFF := rfl
  rw [hdata, if_neg (by omega)]
  by_cases hblock : 2 + n / 8192 = 2 + q / 8192
  · rw [if_pos hblock, bitAt_putBit, bitAt_ones]
    split
    · simp
      omega
    · simp
      omega
  · rw [if_neg hblock, bitAt_ones]
    simp
    omega

private theorem oneFreeNumber_least (hq : q < 16384) :
    IsLeast (inodeRange 2 \ inodeBits 2 oneNumberBlock (oneFreeNumber q)) q := by
  refine ⟨⟨hq, ?_⟩, ?_⟩
  · rw [mem_oneFreeNumber]
    omega
  · rintro n ⟨hn, hfree⟩
    rw [mem_oneFreeNumber] at hfree
    have h : n < 16384 := hn
    omega

end OneFreeNumber

/-- With number 8192 free and everything before it in use, `ialloc` leaves block 0. -/
theorem inodes_not_served :
    ∃ dev d k ib s cs, InodeMap dev d k ib s ∧
      Legal (inodeRange k) (inodeBits k ib s) [] cs ∧
      ¬Serves (InodeCall dev k ib) (inodeBits k ib) s cs := by
  have hmap := oneFreeNumber_map 8192
  have hleast := oneFreeNumber_least (q := 8192) (by decide)
  refine ⟨1, oneNumberDesc, 2, oneNumberBlock, oneFreeNumber 8192, [.alloc 8192], hmap,
    ⟨hleast, trivial⟩, ?_⟩
  rintro ⟨s₁, hcall, -⟩
  have hgood := inodeGood_of_call (c := .alloc 8192)
    ⟨hmap, holding_nil _ _, fun n hn => absurd hn List.not_mem_nil⟩ hleast hcall
  exact absurd hgood.1 (by decide)

/-- The code is a first-fit allocator on exactly the traces in which every number handed
out has its bit in block 0 and is below `zones`. -/
theorem inodes_served_iff {dev : ℤ} {d : SuperDesc} {k : ℕ} {ib : ℕ → BufRef} {s : Fs}
    {cs : List Call} (hmap : InodeMap dev d k ib s)
    (hlegal : Legal (inodeRange k) (inodeBits k ib s) [] cs) :
    Serves (InodeCall dev k ib) (inodeBits k ib) s cs ↔ ∀ c ∈ cs, InodeGood d c :=
  @serves_iff _ _ _ (inodeRange k) (fun _ => True) _ (InodeState dev d k ib)
    (fun s held c hinv hc _ hgood => by
      obtain ⟨s', -, hcall, hbits, -⟩ := inodeCall_forward hinv hc hgood
      exact ⟨s', hcall, hbits⟩)
    (fun s held c s' hinv hc _ hcall hbits => inodeCall_backward hinv hc hcall hbits)
    _ _ _ ⟨hmap, holding_nil _ _, fun n hn => absurd hn List.not_mem_nil⟩ hlegal
    (fun _ _ => trivial)

/-- Number 3 can be handed out, given back and handed out again. -/
theorem inodes_served_of_first :
    Serves (InodeCall 1 2 oneNumberBlock) (inodeBits 2 oneNumberBlock) (oneFreeNumber 3)
      [.alloc 3, .free 3, .alloc 3] := by
  have hleast := oneFreeNumber_least (q := 3) (by decide)
  have hagain : (insert 3 (inodeBits 2 oneNumberBlock (oneFreeNumber 3)) \ {3}) =
      inodeBits 2 oneNumberBlock (oneFreeNumber 3) := by
    rw [Set.insert_sdiff_self_of_notMem hleast.1.2]
  refine (inodes_served_iff (oneFreeNumber_map 3) ?_).mpr ?_
  · refine ⟨hleast, List.mem_singleton_self 3, ?_, trivial⟩
    change IsLeast (_ \ (insert 3 _ \ {3})) 3
    rwa [hagain]
  · intro c hc
    have hc' : c = .alloc 3 ∨ c = .free 3 := by
      simp only [List.mem_cons, List.not_mem_nil, or_false] at hc
      tauto
    rcases hc' with rfl | rfl
    · exact ⟨by decide, by decide⟩
    · trivial

end Ylos
