import Ylos.Verification.Alloc.Blocks

/-! # The zone allocator

`balloc` and `bfree` against a first-fit allocator of the data zones. The bit of zone
`z` is number `z + 1 - firstdatazone` of the bitmap; `bfree` looks for it in the block
with number `(z - 1) / BLOCK_BITS`. -/

namespace Ylos

open Exec Allocator

/-- The zones that `balloc` may hand out. -/
def zoneRange (d : SuperDesc) : Set ℕ := { z | d.firstdatazone ≤ z ∧ z < d.zones }

/-- The zones whose bit is set. -/
def zoneBits (d : SuperDesc) : ℕ → (ℕ → BufRef) → Fs → Set ℕ := usedBits (d.firstdatazone - 1)

/-- `dev` has a super block `d` with enough zone-bitmap blocks `zb` for its zones. -/
structure ZoneMap (dev : ℤ) (d : SuperDesc) (k : ℕ) (zb : ℕ → BufRef) (s : Fs) : Prop
    extends MapBlocks SuperBlock.zmaps dev d k zb s where
  first : 2 ≤ d.firstdatazone
  small : d.zones ≤ 65535
  enough : d.zones ≤ d.firstdatazone - 1 + k * BLOCK_BITS

/-- Bit 0 and the bits past the end are set. -/
structure Reserved (d : SuperDesc) (k : ℕ) (used : Set ℕ) : Prop where
  zero : d.firstdatazone - 1 ∈ used
  tail : ∀ z, d.zones ≤ z → d.firstdatazone - 1 ≤ z →
    z < d.firstdatazone - 1 + k * BLOCK_BITS → z ∈ used

/-- The block that `bfree` works on is the block that holds the bit of `z`. -/
def SameBlock (d : SuperDesc) (z : ℕ) : Prop :=
  (z - 1) / BLOCK_BITS = (z - (d.firstdatazone - 1)) / BLOCK_BITS

section ZoneMap

variable {dev : ℤ} {d : SuperDesc} {k : ℕ} {zb : ℕ → BufRef} {s s' : Fs} {z : ℕ}

theorem ZoneMap.first_lt (h : ZoneMap dev d k zb s) : d.firstdatazone < 65536 := by
  obtain ⟨sb, -, hdesc, -⟩ := h.super
  rw [← hdesc]
  exact Bytes.read_lt 2 _ _

theorem ZoneMap.zmapOffset_eq (h : ZoneMap dev d k zb s) {i : ℕ} (hi : i < ZMAP_NR) :
    zmapOffset d i = i * BLOCK_BITS + d.firstdatazone - 1 := by
  have hfirst := h.first
  have hlt := h.first_lt
  have hnr : ZMAP_NR = 8 := rfl
  unfold zmapOffset u32
  rw [BLOCK_BITS_eq]
  omega

theorem ZoneMap.stored' {t : ℕ} {m : Bytes} (h : ZoneMap dev d k zb s) (ht : t < k)
    (hs : Stored s (zb t) m s') : ZoneMap dev d k zb s' :=
  ⟨h.stored ht hs, h.first, h.small, h.enough⟩

theorem ZoneMap.covered (h : ZoneMap dev d k zb s) (hz : z ∈ zoneRange d) :
    d.firstdatazone - 1 ≤ z ∧ z < d.firstdatazone - 1 + k * BLOCK_BITS ∧
      (z - (d.firstdatazone - 1)) / BLOCK_BITS < k := by
  have henough := h.enough
  obtain ⟨hlo, hhi⟩ := hz
  rw [BLOCK_BITS_eq] at *
  omega

/-- `balloc` hands out the smallest free zone and stores into the block of its bit. -/
theorem run_balloc (h : ZoneMap dev d k zb s) (hres : Reserved d k (zoneBits d k zb s))
    (hz : IsLeast (zoneRange d \ zoneBits d k zb s) z) :
    ∃ s', (balloc dev).run s = .ok (z, s', []) ∧
      Stored s (zb ((z - (d.firstdatazone - 1)) / BLOCK_BITS))
        (putBit (s.data (zb ((z - (d.firstdatazone - 1)) / BLOCK_BITS)))
          ((z - (d.firstdatazone - 1)) % BLOCK_BITS) true) s' := by
  have hnr : ZMAP_NR = 8 := rfl
  have heof : EOF = 2 ^ 32 - 1 := rfl
  have hfirst := h.first
  have hlt := h.first_lt
  have hsmall := h.small
  have henough := h.enough
  have hk := h.number
  obtain ⟨⟨hzlo, hzhi⟩, hzfree⟩ := hz.1
  obtain ⟨sb, hfind, hdesc, hmaps, -, -⟩ := h.super
  simp only [BLOCK_BITS_eq] at *
  have ht : (z - (d.firstdatazone - 1)) / 8192 < k := by omega
  -- every bit before that of `z` is set, since `z` is the smallest free zone
  have hbefore : ∀ j b, b < 8192 →
      j * 8192 + b < z - (d.firstdatazone - 1) → bitAt (s.data (zb j)) b = true := by
    intro j b hb hjb
    have hused : d.firstdatazone - 1 + (j * 8192 + b) ∈ zoneBits d k zb s := by
      by_cases hfirstBit : j * 8192 + b = 0
      · rw [hfirstBit]
        exact hres.zero
      · by_contra hfree
        have hle := hz.2 ⟨⟨by omega, by omega⟩, hfree⟩
        omega
    have hbit := (mem_usedBits.mp hused).2.2
    rwa [Nat.add_sub_cancel_left, show (j * 8192 + b) / 8192 = j by omega,
      show (j * 8192 + b) % 8192 = b by omega] at hbit
  have hclear : bitAt (s.data (zb ((z - (d.firstdatazone - 1)) / 8192)))
      ((z - (d.firstdatazone - 1)) % 8192) = false := by
    by_contra hset
    exact hzfree (mem_usedBits.mpr ⟨by omega, by omega, by simpa using hset⟩)
  have hoffset := h.zmapOffset_eq (i := (z - (d.firstdatazone - 1)) / 8192) (by omega)
  rw [BLOCK_BITS_eq] at hoffset
  have hsum : zmapOffset d ((z - (d.firstdatazone - 1)) / 8192) +
      (z - (d.firstdatazone - 1)) % 8192 = z := by omega
  obtain ⟨s₁, hloop, hstored⟩ := @allocLoop_found (s.supers sb).zmaps zb
    BLOCK_SIZE (zmapOffset d) d.zones ZMAP_NR 0 ((z - (d.firstdatazone - 1)) / 8192)
    ((z - (d.firstdatazone - 1)) % 8192) ⟨dev, 0⟩ s (by omega) (by omega)
    (fun j _ hj => hmaps j (by omega)) le_rfl
    (fun _ => le_rfl) (by decide)
    (fun j _ hj => by rw [h.zmapOffset_eq (by omega), BLOCK_BITS_eq]; omega)
    (fun j _ hj b hb => hbefore j b hb (by rw [BLOCK_BITS_eq] at hb; omega))
    (by rw [BLOCK_BITS_eq]; omega) hclear
    (fun b hb => hbefore _ b (by omega) (by omega)) (by omega)
  rw [hsum] at hloop
  obtain ⟨s₂, hwrite, himg, hio, -⟩ := run_bwrite
    (zb ((z - (d.firstdatazone - 1)) / 8192)) s₁
  refine ⟨s₂, ?_, hstored.of_img himg hio⟩
  unfold balloc
  rw [run_bind _ (run_theSuper hfind), run_bind _ (run_gets _ s), run_bind _ (run_gets _ s),
    hdesc, run_bind _ hloop]
  simp only
  rw [if_neg (by omega), run_bind _ hwrite]
  rfl

/-- With fewer than `ZMAP_NR` blocks, all of them full, the search comes to one that is not there. -/
theorem run_balloc_of_full (h : ZoneMap dev d k zb s) (hk : k < ZMAP_NR)
    (hfull : ∀ z, d.firstdatazone - 1 ≤ z → z < d.firstdatazone - 1 + k * BLOCK_BITS →
      z ∈ zoneBits d k zb s) : (balloc dev).run s = .error .assertion := by
  have hnr : ZMAP_NR = 8 := rfl
  have heof : EOF = 2 ^ 32 - 1 := rfl
  have hlt := h.first_lt
  obtain ⟨sb, hfind, hdesc, hmaps, hnone, -⟩ := h.super
  have hloop := @allocLoop_full (s.supers sb).zmaps zb BLOCK_SIZE (zmapOffset d) d.zones ZMAP_NR 0
    k ⟨dev, 0⟩ s k.zero_le (by omega) (fun j _ hj => hmaps j hj) (hnone k le_rfl) le_rfl
    (fun j _ hj => by
      rw [h.zmapOffset_eq (by omega), BLOCK_BITS_eq]
      omega)
    (fun j _ hj b hb => by
      rw [BLOCK_BITS_eq] at hb
      have hbit := (hfull (d.firstdatazone - 1 + (j * 8192 + b)) (by omega)
        (by rw [BLOCK_BITS_eq]; omega)).2.2
      rwa [BLOCK_BITS_eq, Nat.add_sub_cancel_left, show (j * 8192 + b) / 8192 = j by omega,
        show (j * 8192 + b) % 8192 = b by omega] at hbit)
  unfold balloc
  rw [run_bind _ (run_theSuper hfind), run_bind _ (run_gets _ s), run_bind _ (run_gets _ s), hdesc]
  exact run_bind_error _ hloop

/-- `bfree` clears the bit of `z` when it looks in the right block. -/
theorem run_bfree (h : ZoneMap dev d k zb s) (hz : z ∈ zoneRange d)
    (hused : z ∈ zoneBits d k zb s) (hsame : SameBlock d z) :
    ∃ s', (bfree dev z).run s = .ok ((), s', []) ∧
      Stored s (zb ((z - (d.firstdatazone - 1)) / BLOCK_BITS))
        (putBit (s.data (zb ((z - (d.firstdatazone - 1)) / BLOCK_BITS)))
          ((z - (d.firstdatazone - 1)) % BLOCK_BITS) false) s' := by
  have hnr : ZMAP_NR = 8 := rfl
  have hsize : BLOCK_SIZE = 1024 := rfl
  have hfirst := h.first
  have hsmall := h.small
  have hk := h.number
  obtain ⟨hzlo, hzhi⟩ := hz
  obtain ⟨-, hzk, hbit⟩ := hused
  obtain ⟨sb, hfind, hdesc, hmaps, -, -⟩ := h.super
  simp only [SameBlock, BLOCK_BITS_eq] at *
  rw [← hsame] at hbit ⊢
  have hoffset := h.zmapOffset_eq (i := (z - 1) / 8192) (by omega)
  rw [BLOCK_BITS_eq] at hoffset
  have hidx : (z - (d.firstdatazone - 1)) % 8192 =
      z - zmapOffset d ((z - 1) / 8192) := by omega
  rw [hidx] at hbit ⊢
  obtain ⟨s', hrun, hstored⟩ := @freeLoop_one (s.supers sb).zmaps BLOCK_SIZE
    (zmapOffset d) z ((z - 1) / 8192) s _
    (by rw [BLOCK_BITS_eq]; omega) (hmaps _ (by omega)) (by omega) (by omega) (by omega) hbit
  refine ⟨s', ?_, hstored⟩
  unfold bfree
  rw [run_bind _ (run_theSuper hfind), run_bind _ (run_gets _ s), hdesc,
    run_bind _ (run_check_pos hzhi s), run_bind _ (run_gets _ s),
    freeLoop_eq (t := (z - 1) / 8192) (by omega) (by omega)
      (by rw [BLOCK_BITS_eq]; omega) (by rw [BLOCK_BITS_eq]; omega)]
  exact hrun

/-- In the wrong block the bit lies below the offset, and `bitmap_test` asserts. -/
theorem run_bfree_of_not_sameBlock (h : ZoneMap dev d k zb s) (hz : z ∈ zoneRange d)
    (hsame : ¬SameBlock d z) : (bfree dev z).run s = .error .assertion := by
  have hnr : ZMAP_NR = 8 := rfl
  have hfirst := h.first
  have hsmall := h.small
  obtain ⟨hzlo, hzhi⟩ := hz
  obtain ⟨sb, hfind, hdesc, -⟩ := h.super
  simp only [SameBlock, BLOCK_BITS_eq] at *
  have hoffset := h.zmapOffset_eq (i := (z - 1) / 8192) (by omega)
  rw [BLOCK_BITS_eq] at hoffset
  unfold bfree
  rw [run_bind _ (run_theSuper hfind), run_bind _ (run_gets _ s), hdesc,
    run_bind _ (run_check_pos hzhi s), run_bind _ (run_gets _ s),
    freeLoop_eq (t := (z - 1) / 8192) (by omega) (by omega)
      (by rw [BLOCK_BITS_eq]; omega) (by rw [BLOCK_BITS_eq]; omega)]
  exact freeLoop_below (by rw [BLOCK_BITS_eq]; omega) (by omega)

end ZoneMap

/-! ## Traces -/

def ZoneCall (dev : ℤ) : ℕ → (ℕ → BufRef) → Fs → Call → Fs → Prop :=
  MapCall (balloc dev) (bfree dev)

/-- What is kept between two calls. -/
structure ZoneState (dev : ℤ) (d : SuperDesc) (k : ℕ) (zb : ℕ → BufRef) (s : Fs)
    (held : List ℕ) : Prop where
  map : ZoneMap dev d k zb s
  reserved : Reserved d k (zoneBits d k zb s)
  holding : Holding (zoneRange d) (zoneBits d k zb s) held

section Traces

variable {dev : ℤ} {d : SuperDesc} {k : ℕ} {zb : ℕ → BufRef} {s s' : Fs} {held : List ℕ}
  {c : Call}

theorem Reserved.effect (h : Reserved d k (zoneBits d k zb s)) (hmap : ZoneMap dev d k zb s)
    (hholding : Holding (zoneRange d) (zoneBits d k zb s) held)
    (hc : Enabled (zoneRange d) (zoneBits d k zb s) held c) :
    Reserved d k (effect (zoneBits d k zb s) c) := by
  have hfirst := hmap.first
  cases c with
  | alloc z =>
      exact ⟨Set.mem_insert_of_mem _ h.zero,
        fun y h₁ h₂ h₃ => Set.mem_insert_of_mem _ (h.tail y h₁ h₂ h₃)⟩
  | full => exact h
  | free z =>
      obtain ⟨hlo, hhi⟩ := hholding.range z hc
      refine ⟨⟨h.zero, ?_⟩, fun y h₁ h₂ h₃ => ⟨h.tail y h₁ h₂ h₃, ?_⟩⟩
      · simp only [Set.mem_singleton_iff]
        omega
      · simp only [Set.mem_singleton_iff]
        omega

private theorem zoneCall_forward (h : ZoneState dev d k zb s held)
    (hc : Enabled (zoneRange d) (zoneBits d k zb s) held c) (hfull : c ≠ .full)
    (hgood : ∀ z, c = .free z → SameBlock d z) :
    ∃ s' t m, ZoneCall dev k zb s c s' ∧ zoneBits d k zb s' = effect (zoneBits d k zb s) c ∧
      t < k ∧ Stored s (zb t) m s' := by
  cases c with
  | full => exact absurd rfl hfull
  | alloc z =>
      obtain ⟨s', hrun, hstored⟩ := run_balloc h.map h.reserved hc
      obtain ⟨hlo, hhi, ht⟩ := h.map.covered hc.1.1
      refine ⟨s', _, _, ⟨hrun, fun b hb => ?_⟩, ?_, ht, hstored⟩
      · rw [hstored.data, if_neg (hb _ ht)]
      · exact usedBits_alloc h.map.toMapBlocks hlo hhi hstored
  | free z =>
      have hrange : z ∈ zoneRange d := h.holding.range z hc
      obtain ⟨s', hrun, hstored⟩ := run_bfree h.map hrange (h.holding.used z hc) (hgood z rfl)
      obtain ⟨hlo, hhi, ht⟩ := h.map.covered hrange
      refine ⟨s', _, _, ⟨hrun, fun b hb => ?_⟩, ?_, ht, hstored⟩
      · rw [hstored.data, if_neg (hb _ ht)]
      · exact usedBits_free h.map.toMapBlocks hlo hhi hstored

private theorem zoneCall_backward (h : ZoneState dev d k zb s held)
    (hc : Enabled (zoneRange d) (zoneBits d k zb s) held c) (hfull : c ≠ .full)
    (hcall : ZoneCall dev k zb s c s') (hbits : zoneBits d k zb s' = effect (zoneBits d k zb s) c) :
    (∀ z, c = .free z → SameBlock d z) ∧ ZoneState dev d k zb s' (holds held c) := by
  have hgood : ∀ z, c = .free z → SameBlock d z := by
    rintro z rfl
    by_contra hsame
    have herror := run_bfree_of_not_sameBlock h.map (h.holding.range z hc) hsame
    have hrun := hcall.1
    simp only [herror] at hrun
    cases hrun
  refine ⟨hgood, ?_⟩
  obtain ⟨s₁, t, m, hcall', -, ht, hstored⟩ := zoneCall_forward h hc hfull hgood
  obtain rfl := MapCall.unique hcall' hcall
  refine ⟨h.map.stored' ht hstored, ?_, ?_⟩
  · rw [hbits]
    exact h.reserved.effect h.map h.holding hc
  · rw [hbits]
    exact h.holding.step hc

end Traces

/-! ## A device with one free zone -/

/-- 8194 zones with data from zone 100 on: one zone-bitmap block is enough for them. -/
def oneZoneDesc : SuperDesc := ⟨0, 8194, 0, 1, 100⟩

/-- The block of the zone bitmap of `oneZoneDesc`. -/
def oneZoneBlock (_ : ℕ) : BufRef := ⟨1, 3⟩

/-- A mounted device with the super block `oneZoneDesc` and zone `z` free. -/
def oneFreeZone (z : ℕ) : Fs where
  img _ blk :=
    if blk = 1 then ((Bytes.write 2 (fun _ => 0) 2 8194).write 2 6 1).write 2 8 100
    else putBit (fun _ => 0xFF) (z - 99) false
  disk _ _ _ := 0
  dirty _ := false
  refs _ := 0
  inodes _ := ⟨-1, 0, 0, 0, ⟨0, 0⟩, 0, false, 0, 0⟩
  supers i := ⟨⟨1, 1⟩, fun _ => none, fun i => if i = 0 then some ⟨1, 3⟩ else none,
    if i = 0 then 1 else -1, 1, [], none, none⟩
  task := ⟨0, 0, 0, 0, 0, [47]⟩
  now := 0
  sectors _ := 16388

section OneFreeZone

variable {y z : ℕ}

private theorem oneFreeZone_desc (z : ℕ) : (oneFreeZone z).superDesc 0 = oneZoneDesc := by
  change SuperDesc.ofBytes
    (((Bytes.write 2 (fun _ => 0) 2 8194).write 2 6 1).write 2 8 100) = ⟨0, 8194, 0, 1, 100⟩
  simp [SuperDesc.ofBytes, Bytes.read_write_same, Bytes.read_write_ne, Bytes.read_eq_zero]

private theorem oneFreeZone_map (z : ℕ) :
    ZoneMap 1 oneZoneDesc 1 oneZoneBlock (oneFreeZone z) where
  super := by
    refine ⟨0, rfl, oneFreeZone_desc z, ?_, ?_, ?_⟩
    · intro i hi
      exact if_pos (by omega)
    · intro i hi
      exact if_neg (by omega)
    · intro i _ h
      cases h
  distinct i hi j hj _ := by omega
  first := by decide
  small := by decide
  number := ⟨le_rfl, by decide⟩
  enough := by change 8194 ≤ 99 + 1 * 8192; omega

private theorem mem_oneFreeZone :
    y ∈ zoneBits oneZoneDesc 1 oneZoneBlock (oneFreeZone z) ↔
      99 ≤ y ∧ y < 8291 ∧ y - 99 ≠ z - 99 := by
  have hdata : (oneFreeZone z).data (oneZoneBlock ((y - 99) / 8192)) =
      putBit (fun _ => 0xFF) (z - 99) false := rfl
  change y ∈ usedBits 99 1 oneZoneBlock (oneFreeZone z) ↔ _
  rw [mem_usedBits, hdata, bitAt_putBit, bitAt_ones]
  split
  · simp
    omega
  · simp
    omega

private theorem oneFreeZone_reserved (hz : 100 ≤ z) (hz' : z < 8194) :
    Reserved oneZoneDesc 1 (zoneBits oneZoneDesc 1 oneZoneBlock (oneFreeZone z)) where
  zero := mem_oneFreeZone.mpr (by change 99 ≤ 99 ∧ 99 < 8291 ∧ 99 - 99 ≠ z - 99; omega)
  tail y hy hy' hy'' := by
    have h : 8194 ≤ y := hy
    have h' : y < 99 + 1 * 8192 := hy''
    exact mem_oneFreeZone.mpr (by omega)

private theorem oneFreeZone_least (hz : 100 ≤ z) (hz' : z < 8194) :
    IsLeast (zoneRange oneZoneDesc \ zoneBits oneZoneDesc 1 oneZoneBlock (oneFreeZone z)) z := by
  refine ⟨⟨⟨hz, hz'⟩, ?_⟩, ?_⟩
  · rw [mem_oneFreeZone]
    omega
  · rintro y ⟨⟨hy, hy'⟩, hfree⟩
    rw [mem_oneFreeZone] at hfree
    have h : 100 ≤ y := hy
    have h' : y < 8194 := hy'
    omega

end OneFreeZone

/-- Zone 8193 has its bit in block 0 of the bitmap, and `bfree` looks in block 1. -/
theorem zones_not_served :
    ∃ dev d k zb s cs, ZoneMap dev d k zb s ∧ Reserved d k (zoneBits d k zb s) ∧
      Legal (zoneRange d) (zoneBits d k zb s) [] cs ∧ .full ∉ cs ∧
      ¬Serves (ZoneCall dev k zb) (zoneBits d k zb) s cs := by
  have hmap := oneFreeZone_map 8193
  have hres := oneFreeZone_reserved (z := 8193) (by decide) (by decide)
  have hleast := oneFreeZone_least (z := 8193) (by decide) (by decide)
  refine ⟨1, oneZoneDesc, 1, oneZoneBlock, oneFreeZone 8193, [.alloc 8193, .free 8193], hmap, hres,
    ⟨hleast, List.mem_singleton_self 8193, trivial⟩, by decide, ?_⟩
  rintro ⟨s₁, hcall₁, hbits₁, s₂, hcall₂, -⟩
  have hstate := (zoneCall_backward (c := .alloc 8193) ⟨hmap, hres, holding_nil _ _⟩ hleast
    (by decide) hcall₁ hbits₁).2
  have hfree := run_bfree_of_not_sameBlock hstate.map hleast.1.1
    (by unfold SameBlock; decide)
  have hrun := hcall₂.1
  simp only [hfree] at hrun
  cases hrun

/-- As long as free zones last, the code is a first-fit allocator on exactly the traces
in which `bfree` looks for every freed zone in the block that holds its bit. -/
theorem zones_served_iff {dev : ℤ} {d : SuperDesc} {k : ℕ} {zb : ℕ → BufRef} {s : Fs}
    {cs : List Call} (hmap : ZoneMap dev d k zb s)
    (hres : Reserved d k (zoneBits d k zb s))
    (hlegal : Legal (zoneRange d) (zoneBits d k zb s) [] cs) (hfree : .full ∉ cs) :
    Serves (ZoneCall dev k zb) (zoneBits d k zb) s cs ↔
      ∀ z, .free z ∈ cs → SameBlock d z := by
  have hserves := @serves_iff _ (ZoneCall dev k zb) (zoneBits d k zb)
    (zoneRange d) (fun c => c ≠ .full)
    (fun c => ∀ z, c = .free z → SameBlock d z) (ZoneState dev d k zb)
    (fun s held c hinv hc hfull hgood => by
      obtain ⟨s', -, -, hcall, hbits, -⟩ := zoneCall_forward hinv hc hfull hgood
      exact ⟨s', hcall, hbits⟩)
    (fun s held c s' hinv hc hfull hcall hbits => zoneCall_backward hinv hc hfull hcall hbits)
    _ _ _ ⟨hmap, hres, holding_nil _ _⟩ hlegal (fun c hc hfull => hfree (hfull ▸ hc))
  rw [hserves]
  constructor
  · intro h z hz
    exact h _ hz z rfl
  · rintro h c hc z rfl
    exact h z hc

/-- Zone 100 can be handed out, given back and handed out again. -/
theorem zones_served_of_first :
    Serves (ZoneCall 1 1 oneZoneBlock) (zoneBits oneZoneDesc 1 oneZoneBlock) (oneFreeZone 100)
      [.alloc 100, .free 100, .alloc 100] := by
  have hleast := oneFreeZone_least (z := 100) (by decide) (by decide)
  have hagain : (insert 100 (zoneBits oneZoneDesc 1 oneZoneBlock (oneFreeZone 100)) \ {100}) =
      zoneBits oneZoneDesc 1 oneZoneBlock (oneFreeZone 100) := by
    rw [Set.insert_sdiff_self_of_notMem hleast.1.2]
  refine (zones_served_iff (oneFreeZone_map 100)
    (oneFreeZone_reserved (by decide) (by decide)) ?_ (by decide)).mpr ?_
  · refine ⟨hleast, List.mem_singleton_self 100, ?_, trivial⟩
    change IsLeast (_ \ (insert 100 _ \ {100})) 100
    rwa [hagain]
  · intro z hz
    have hz' : z = 100 := by simpa using hz
    subst z
    unfold SameBlock
    decide

end Ylos
