import Ylos.Lib.Allocator
import Ylos.Verification.Bitmap.FirstFit
import Ylos.Verification.Fs.Equations

/-! # The searches over the bitmap blocks -/

namespace Ylos

open Exec Allocator

/-! ## The bits of several blocks -/

/-- `dev` has a super block `d` with `k` bitmap buffers `blocks`, `maps` of the super block. -/
structure MapBlocks (maps : SuperBlock → ℕ → Option BufRef) (dev : ℤ) (d : SuperDesc) (k : ℕ)
    (blocks : ℕ → BufRef) (s : Fs) : Prop where
  super : ∃ sb, (List.range SUPER_NR).find? (fun i => (s.supers i).dev = dev) = some sb ∧
    s.superDesc sb = d ∧ (∀ i < k, maps (s.supers sb) i = some (blocks i)) ∧
    (∀ i, k ≤ i → maps (s.supers sb) i = none) ∧ ∀ i < k, blocks i ≠ (s.supers sb).buf
  distinct : ∀ i < k, ∀ j < k, blocks i = blocks j → i = j
  number : 1 ≤ k ∧ k ≤ 8

/-- The numbers whose bit is set, over everything the `k` blocks have a bit for; the first
bit of block 0 is that of `base`. -/
def usedBits (base k : ℕ) (blocks : ℕ → BufRef) (s : Fs) : Set ℕ :=
  { n | base ≤ n ∧ n < base + k * BLOCK_BITS ∧
    bitAt (s.data (blocks ((n - base) / BLOCK_BITS))) ((n - base) % BLOCK_BITS) = true }

/-- A call of an allocator with its answer; no block but the bitmap changes. -/
def MapCall (alloc : K ℕ) (free : ℕ → K Unit) (k : ℕ) (blocks : ℕ → BufRef) (s : Fs) (c : Call)
    (s' : Fs) : Prop :=
  (match c with
    | .alloc n => alloc.run s = .ok (n, s', [])
    | .full => alloc.run s = .ok (EOF, s', [.full])
    | .free n => (free n).run s = .ok ((), s', [])) ∧
  ∀ b, (∀ i < k, b ≠ blocks i) → s'.data b = s.data b

section MapBlocks

variable {maps : SuperBlock → ℕ → Option BufRef} {dev : ℤ} {d : SuperDesc} {k : ℕ}
  {blocks : ℕ → BufRef} {s s' : Fs} {base n : ℕ}

/-- Storing into a bitmap block keeps the super block. -/
theorem MapBlocks.stored {t : ℕ} {m : Bytes} (h : MapBlocks maps dev d k blocks s) (ht : t < k)
    (hs : Stored s (blocks t) m s') : MapBlocks maps dev d k blocks s' := by
  obtain ⟨sb, hfind, hdesc, hmaps, hnone, hbuf⟩ := h.super
  have hsupers := hs.io.supers
  refine ⟨⟨sb, ?_, ?_, ?_, ?_, ?_⟩, h.distinct, h.number⟩
  · rwa [hsupers]
  · rw [Fs.superDesc_congr hsupers, hdesc]
    rw [hs.data, if_neg (hbuf t ht).symm]
  · rwa [hsupers]
  · rwa [hsupers]
  · rwa [hsupers]

theorem mem_usedBits : n ∈ usedBits base k blocks s ↔
    base ≤ n ∧ n < base + k * 8192 ∧
      bitAt (s.data (blocks ((n - base) / 8192))) ((n - base) % 8192) = true := Iff.rfl

/-- The effect of one stored bit. -/
theorem mem_usedBits_stored {v : Bool} {j : ℕ} (h : MapBlocks maps dev d k blocks s)
    (hn : base ≤ n) (hnk : n < base + k * BLOCK_BITS)
    (hs : Stored s (blocks ((n - base) / BLOCK_BITS))
      (putBit (s.data (blocks ((n - base) / BLOCK_BITS))) ((n - base) % BLOCK_BITS) v) s') :
    j ∈ usedBits base k blocks s' ↔
      if j = n then v = true else j ∈ usedBits base k blocks s := by
  simp only [mem_usedBits, BLOCK_BITS_eq] at *
  by_cases hrange : base ≤ j ∧ j < base + k * 8192
  · have ht : (n - base) / 8192 < k := by omega
    have htj : (j - base) / 8192 < k := by omega
    rw [hs.data]
    by_cases hblock : (j - base) / 8192 = (n - base) / 8192
    · rw [hblock, if_pos rfl, bitAt_putBit]
      have hiff : (j - base) % 8192 = (n - base) % 8192 ↔ j = n := by omega
      simp only [hiff]
      split
      · simp [hrange]
      · simp
    · have hne : blocks ((j - base) / 8192) ≠ blocks ((n - base) / 8192) :=
        fun heq => hblock (h.distinct _ htj _ ht heq)
      have hjn : j ≠ n := by
        rintro rfl
        exact hblock rfl
      rw [if_neg hne, if_neg hjn]
  · have hjn : j ≠ n := by
      rintro rfl
      exact hrange ⟨hn, hnk⟩
    rw [if_neg hjn]
    constructor
    · rintro ⟨h₁, h₂, -⟩
      exact absurd ⟨h₁, h₂⟩ hrange
    · rintro ⟨h₁, h₂, -⟩
      exact absurd ⟨h₁, h₂⟩ hrange

theorem usedBits_alloc (h : MapBlocks maps dev d k blocks s)
    (hn : base ≤ n) (hnk : n < base + k * BLOCK_BITS)
    (hs : Stored s (blocks ((n - base) / BLOCK_BITS))
      (putBit (s.data (blocks ((n - base) / BLOCK_BITS))) ((n - base) % BLOCK_BITS) true) s') :
    usedBits base k blocks s' = effect (usedBits base k blocks s) (.alloc n) := by
  ext j
  rw [mem_usedBits_stored h hn hnk hs]
  simp only [effect, Set.mem_insert_iff]
  split <;> simp [*]

theorem usedBits_free (h : MapBlocks maps dev d k blocks s)
    (hn : base ≤ n) (hnk : n < base + k * BLOCK_BITS)
    (hs : Stored s (blocks ((n - base) / BLOCK_BITS))
      (putBit (s.data (blocks ((n - base) / BLOCK_BITS))) ((n - base) % BLOCK_BITS) false) s') :
    usedBits base k blocks s' = effect (usedBits base k blocks s) (.free n) := by
  ext j
  rw [mem_usedBits_stored h hn hnk hs]
  simp only [effect, Set.mem_sdiff, Set.mem_singleton_iff]
  split <;> simp [*]

/-- Calls are deterministic. -/
theorem MapCall.unique {alloc : K ℕ} {free : ℕ → K Unit} {c : Call} {s'' : Fs}
    (h : MapCall alloc free k blocks s c s') (h' : MapCall alloc free k blocks s c s'') :
    s'' = s' := by
  cases c with
  | alloc n =>
      have heq := h.1.symm.trans h'.1
      injection heq with heq
      exact (congrArg (fun p => p.2.1) heq).symm
  | full =>
      have heq := h.1.symm.trans h'.1
      injection heq with heq
      exact (congrArg (fun p => p.2.1) heq).symm
  | free n =>
      have heq := h.1.symm.trans h'.1
      injection heq with heq
      exact (congrArg (fun p => p.2.1) heq).symm

end MapBlocks

/-! ## Allocation -/

section AllocLoop

variable {maps : ℕ → Option BufRef} {zb : ℕ → BufRef} {length : ℕ} {offset : ℕ → ℕ}
  {zones n i t b : ℕ} {last : BufRef} {s : Fs}

/-- The search passes over full blocks and takes the first clear bit of the next. -/
theorem allocLoop_found (hi : i ≤ t) (ht : t < i + n)
    (hmaps : ∀ j, i ≤ j → j ≤ t → maps j = some (zb j))
    (hlen : BLOCK_SIZE ≤ length) (hlen' : i < t → length ≤ BLOCK_SIZE)
    (hwords : 8 * length < 2 ^ 32)
    (hoff : ∀ j, i ≤ j → j ≤ t → offset j + BLOCK_BITS ≤ EOF)
    (hfull : ∀ j, i ≤ j → j < t → ∀ k < BLOCK_BITS, bitAt (s.data (zb j)) k = true)
    (hb : b < BLOCK_BITS) (hclear : bitAt (s.data (zb t)) b = false)
    (hused : ∀ k < b, bitAt (s.data (zb t)) k = true) (hz : offset t + b < zones) :
    ∃ s', (allocLoop maps length offset zones n i last).run s =
        .ok ((zb t, offset t + b), s', []) ∧
      Stored s (zb t) (putBit (s.data (zb t)) b true) s' := by
  have hbits : BLOCK_BITS = 8 * BLOCK_SIZE := rfl
  have heof : EOF = 2 ^ 32 - 1 := rfl
  induction n generalizing i last with
  | zero => omega
  | succ n ih =>
      have hoffi := hoff i le_rfl hi
      simp only [allocLoop, hmaps i le_rfl hi]
      rw [run_bind _ (run_get s)]
      by_cases hit : i = t
      · subst i
        have hscan : bitmapScan (bitmapOf s (zb t) length (offset t)) 1 =
            .ok (offset t + b, { bitmapOf s (zb t) length (offset t) with
              bits := putBit (s.data (zb t)) b true }) := by
          apply bitmapScan_one
          · change b < 8 * length
            omega
          · change b < 8 * BLOCK_SIZE
            omega
          · exact hwords
          · change offset t + b < 2 ^ 32
            omega
          · exact hclear
          · exact hused
        rw [hscan, run_bind _ (run_lift_ok _ s)]
        simp only
        rw [if_pos (by omega), run_bind _ (run_setData _ _ s), run_bind _ (run_check_pos hz _),
          run_bind _ (run_setDirty _ _)]
        refine ⟨_, rfl, ?_, ⟨rfl, rfl, rfl, rfl, rfl⟩⟩
        intro c
        exact Fs.data_setImg s (zb t) c _
      · have hlt : i < t := by omega
        have hle := hlen' hlt
        have hscan : bitmapScan (bitmapOf s (zb i) length (offset i)) 1 =
            .ok (EOF, bitmapOf s (zb i) length (offset i)) := by
          apply bitmapScan_one_full
          · exact hle
          · exact hwords
          · change offset i + 8 * length ≤ 2 ^ 32
            omega
          · intro k hk
            have hk' : k < 8 * length := hk
            exact hfull i le_rfl hlt k (by omega)
        rw [hscan, run_bind _ (run_lift_ok _ s)]
        simp only [ne_eq, not_true_eq_false, if_false]
        exact ih (by omega) (by omega) (fun j hj hjt => hmaps j (by omega) hjt)
          (fun h => hle) (fun j hj hjt => hoff j (by omega) hjt)
          (fun j hj hjt => hfull j (by omega) hjt)

/-- The search passes over full blocks and asserts that there is a next one. -/
theorem allocLoop_full (hi : i ≤ t) (ht : t < i + n)
    (hmaps : ∀ j, i ≤ j → j < t → maps j = some (zb j)) (hnone : maps t = none)
    (hlen : length ≤ BLOCK_SIZE)
    (hoff : ∀ j, i ≤ j → j < t → offset j + BLOCK_BITS ≤ EOF)
    (hfull : ∀ j, i ≤ j → j < t → ∀ k < BLOCK_BITS, bitAt (s.data (zb j)) k = true) :
    (allocLoop maps length offset zones n i last).run s = .error .assertion := by
  have hbits : BLOCK_BITS = 8 * BLOCK_SIZE := rfl
  have heof : EOF = 2 ^ 32 - 1 := rfl
  have hsize : BLOCK_SIZE = 1024 := rfl
  induction n generalizing i last with
  | zero => omega
  | succ n ih =>
      by_cases hit : i = t
      · subst i
        simp only [allocLoop, hnone]
        rfl
      · have hlt : i < t := by omega
        have hoffi := hoff i le_rfl hlt
        have hscan : bitmapScan (bitmapOf s (zb i) length (offset i)) 1 =
            .ok (EOF, bitmapOf s (zb i) length (offset i)) := by
          apply bitmapScan_one_full
          · exact hlen
          · change 8 * length < 2 ^ 32
            omega
          · change offset i + 8 * length ≤ 2 ^ 32
            omega
          · intro k hk
            have hk' : k < 8 * length := hk
            exact hfull i le_rfl hlt k (by omega)
        simp only [allocLoop, hmaps i le_rfl hlt]
        rw [run_bind _ (run_get s), hscan, run_bind _ (run_lift_ok _ s)]
        simp only [ne_eq, not_true_eq_false, if_false]
        exact ih (by omega) (by omega) (fun j hj hjt => hmaps j (by omega) hjt)
          (fun j hj hjt => hoff j (by omega) hjt) (fun j hj hjt => hfull j (by omega) hjt)

/-- With a length beyond the block, a full first block makes the search leave it. -/
theorem allocLoop_wild (hmaps : maps i = some (zb i)) (hlen : BLOCK_SIZE < length)
    (hwords : 8 * length < 2 ^ 32) (hoff : offset i + BLOCK_BITS < 2 ^ 32)
    (hfull : ∀ k < BLOCK_BITS, bitAt (s.data (zb i)) k = true) :
    (allocLoop maps length offset zones (n + 1) i last).run s = .error .wild := by
  have hscan : bitmapScan (bitmapOf s (zb i) length (offset i)) 1 = .error .wild :=
    bitmapScan_one_wild hlen hwords hoff hfull
  simp only [allocLoop, hmaps]
  rw [run_bind _ (run_get s), hscan, run_bind_error _ (run_lift_error _ s)]

/-- The assertion on the number found fails before the block is marked dirty. -/
theorem allocLoop_beyond (hmaps : maps i = some (zb i)) (hlen : BLOCK_SIZE ≤ length)
    (hwords : 8 * length < 2 ^ 32) (hoff : offset i + BLOCK_BITS ≤ EOF) (hb : b < BLOCK_BITS)
    (hclear : bitAt (s.data (zb i)) b = false)
    (hused : ∀ k < b, bitAt (s.data (zb i)) k = true) (hz : zones ≤ offset i + b) :
    (allocLoop maps length offset zones (n + 1) i last).run s = .error .assertion := by
  have hbits : BLOCK_BITS = 8 * BLOCK_SIZE := rfl
  have heof : EOF = 2 ^ 32 - 1 := rfl
  have hscan : bitmapScan (bitmapOf s (zb i) length (offset i)) 1 =
      .ok (offset i + b, { bitmapOf s (zb i) length (offset i) with
        bits := putBit (s.data (zb i)) b true }) := by
    apply bitmapScan_one
    · change b < 8 * length
      omega
    · change b < 8 * BLOCK_SIZE
      omega
    · exact hwords
    · change offset i + b < 2 ^ 32
      omega
    · exact hclear
    · exact hused
  simp only [allocLoop, hmaps]
  rw [run_bind _ (run_get s), hscan, run_bind _ (run_lift_ok _ s)]
  simp only
  rw [if_pos (by omega), run_bind _ (run_setData _ _ s)]
  exact run_bind_error _ (run_check_neg (by omega) _)

end AllocLoop

/-! ## Release -/

section FreeLoop

variable {maps : ℕ → Option BufRef} {length : ℕ} {offset : ℕ → ℕ} {idx n i t : ℕ} {s : Fs}

/-- The release works on block `t` when `idx` lies in `(t * BLOCK_BITS, (t + 1) * BLOCK_BITS]`,
or `t` is the first block. -/
theorem freeLoop_eq (hi : i ≤ t) (ht : t < i + n) (hle : idx ≤ BLOCK_BITS * (t + 1))
    (hgt : i < t → BLOCK_BITS * t < idx) :
    (freeLoop maps length offset idx n i).run s =
      (freeLoop maps length offset idx 1 t).run s := by
  induction n generalizing i with
  | zero => omega
  | succ n ih =>
      by_cases hit : i = t
      · subst i
        simp only [freeLoop]
        rw [if_neg (by omega), if_neg (by omega)]
      · have hmul : BLOCK_BITS * (i + 1) ≤ BLOCK_BITS * t := Nat.mul_le_mul_left _ (by omega)
        have hidx := hgt (by omega)
        rw [freeLoop, if_pos (by omega)]
        exact ih (by omega) (by omega) (fun _ => hidx)

theorem freeLoop_one {buf : BufRef} (hle : idx ≤ BLOCK_BITS * (t + 1))
    (hmaps : maps t = some buf) (hoff : offset t ≤ idx) (hlen : (idx - offset t) / 8 < length)
    (hin : (idx - offset t) / 8 < BLOCK_SIZE) (hbit : bitAt (s.data buf) (idx - offset t) = true) :
    ∃ s', (freeLoop maps length offset idx 1 t).run s = .ok ((), s', []) ∧
      Stored s buf (putBit (s.data buf) (idx - offset t) false) s' := by
  have hidx : offset t + (idx - offset t) = idx := by omega
  have htest : bitmapTest (bitmapOf s buf length (offset t)) idx = .ok true := by
    have h := @bitmapTest_of_lt (bitmapOf s buf length (offset t)) _ hlen hin
    change bitmapTest _ (offset t + (idx - offset t)) = .ok (bitAt (s.data buf) _) at h
    rwa [hidx, hbit] at h
  have hset : bitmapSet (bitmapOf s buf length (offset t)) idx false =
      .ok { bitmapOf s buf length (offset t) with
        bits := putBit (s.data buf) (idx - offset t) false } := by
    have h := @bitmapSet_of_lt (bitmapOf s buf length (offset t)) _ false hin
    change bitmapSet _ (offset t + (idx - offset t)) false = _ at h
    rwa [hidx] at h
  simp only [freeLoop]
  rw [if_neg (by omega)]
  simp only [hmaps]
  rw [run_bind _ (run_gets _ s), htest, run_bind _ (run_lift_ok _ s)]
  rw [run_bind _ (run_check_pos rfl s), hset, run_bind _ (run_lift_ok _ s),
    run_bind _ (run_setData _ _ s), run_bind _ (run_setDirty _ _)]
  have hstored : Stored s buf (putBit (s.data buf) (idx - offset t) false)
      { s.setImg buf (putBit (s.data buf) (idx - offset t) false) with
        dirty := fun c => if c = buf then true else s.dirty c } :=
    ⟨fun c => Fs.data_setImg s buf c _, ⟨rfl, rfl, rfl, rfl, rfl⟩⟩
  obtain ⟨s', hrun, himg, hio, -⟩ := run_bwrite buf
    { s.setImg buf (putBit (s.data buf) (idx - offset t) false) with
      dirty := fun c => if c = buf then true else s.dirty c }
  exact ⟨s', hrun, hstored.of_img himg hio⟩

/-- An index below the offset of its block stops at the assertion of `bitmap_test`. -/
theorem freeLoop_below (hle : idx ≤ BLOCK_BITS * (t + 1)) (hoff : idx < offset t) :
    (freeLoop maps length offset idx 1 t).run s = .error .assertion := by
  simp only [freeLoop]
  rw [if_neg (by omega)]
  cases hmaps : maps t with
  | none => rfl
  | some buf =>
      have htest : bitmapTest (bitmapOf s buf length (offset t)) idx = .error .assertion :=
        bitmapTest_of_below hoff
      simp only
      rw [run_bind _ (run_gets _ s), htest]
      exact run_bind_error _ (run_lift_error _ s)

end FreeLoop

end Ylos
