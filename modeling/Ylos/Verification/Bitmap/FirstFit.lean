import Ylos.Model.Bitmap

/-! # Single bits and the first-fit scan -/

namespace Ylos

/-! ## One bit -/

private theorem toNat_bitMask {k : ℕ} (hk : k < 8) : (UInt8.ofNat (1 <<< k)).toNat = 2 ^ k := by
  have hlt : 2 ^ k < 2 ^ 8 := Nat.pow_lt_pow_right (by norm_num) hk
  simp only [UInt8.toNat_ofNat', Nat.shiftLeft_eq, one_mul]
  exact Nat.mod_eq_of_lt hlt

private theorem testBit_setMask (a : UInt8) {k : ℕ} (hk : k < 8) (l : ℕ) :
    (a ||| UInt8.ofNat (1 <<< k)).toNat.testBit l = (a.toNat.testBit l || decide (k = l)) := by
  rw [UInt8.toNat_or, Nat.testBit_or, toNat_bitMask hk, Nat.testBit_two_pow]

private theorem testBit_clearMask (a : UInt8) {k l : ℕ} (hk : k < 8) (hl : l < 8) :
    (a &&& ~~~ UInt8.ofNat (1 <<< k)).toNat.testBit l =
      (a.toNat.testBit l && !decide (k = l)) := by
  have hlt : 2 ^ k < 2 ^ 8 := Nat.pow_lt_pow_right (by norm_num) hk
  have hnot : (~~~ UInt8.ofNat (1 <<< k)).toNat = 2 ^ 8 - (2 ^ k + 1) := by
    rw [UInt8.toNat_not, toNat_bitMask hk, Nat.sub_sub, Nat.add_comm]
    norm_num [UInt8.size]
  rw [UInt8.toNat_and, Nat.testBit_and, hnot, Nat.testBit_two_pow_sub_succ hlt,
    Nat.testBit_two_pow, decide_eq_true hl, Bool.true_and]

theorem bitAt_putBit (m : Bytes) (i j : ℕ) (v : Bool) :
    bitAt (putBit m i v) j = if j = i then v else bitAt m j := by
  unfold bitAt putBit
  by_cases hbyte : j / 8 = i / 8
  · rw [if_pos hbyte]
    have hi : i % 8 < 8 := Nat.mod_lt _ (by norm_num)
    have hj : j % 8 < 8 := Nat.mod_lt _ (by norm_num)
    have hbit : i % 8 = j % 8 ↔ j = i := by omega
    cases v with
    | true =>
        simp only [if_true, testBit_setMask _ hi, hbit]
        split <;> simp_all
    | false =>
        simp only [Bool.false_eq_true, if_false, testBit_clearMask _ hi hj, hbit]
        split <;> simp_all
  · have hne : j ≠ i := by
      intro h
      exact hbyte (by rw [h])
    rw [if_neg hbyte, if_neg hne]

theorem putBit_apply_of_ne {m : Bytes} {i j : ℕ} {v : Bool} (h : j ≠ i / 8) :
    putBit m i v j = m j := by
  unfold putBit
  rw [if_neg h]

theorem bitAt_ones (i : ℕ) : bitAt (fun _ => 0xFF) i = true := by
  have h : ∀ k < 8, Nat.testBit 255 k = true := by decide
  exact h (i % 8) (Nat.mod_lt _ (by norm_num))

/-! ## Scanning for one bit -/

section Scan

variable {map : Bitmap} {n i s : ℕ}

theorem bitmapTest_of_lt {j : ℕ} (hlen : j / 8 < map.length) (hsize : j / 8 < map.size) :
    bitmapTest map (map.offset + j) = .ok (bitAt map.bits j) := by
  unfold bitmapTest
  rw [if_neg (by omega)]
  simp only [Nat.add_sub_cancel_left]
  rw [if_neg (by omega), if_neg (by omega)]

theorem bitmapSet_of_lt {j : ℕ} (v : Bool) (hsize : j / 8 < map.size) :
    bitmapSet map (map.offset + j) v = .ok { map with bits := putBit map.bits j v } := by
  unfold bitmapSet
  rw [if_neg (by omega)]
  simp only [Nat.add_sub_cancel_left]
  rw [if_neg (by omega)]

theorem bitmapSet_eq_ok {map' : Bitmap} {index : ℕ} {v : Bool}
    (h : bitmapSet map index v = .ok map') :
    map' = { map with bits := putBit map.bits (index - map.offset) v } := by
  unfold bitmapSet at h
  split at h
  · cases h
  · simp only at h
    split at h
    · cases h
    · cases h
      rfl

theorem bitmapTest_eq_ok {index : ℕ} {b : Bool} (h : bitmapTest map index = .ok b) :
    map.offset ≤ index ∧ (index - map.offset) / 8 < map.length := by
  unfold bitmapTest at h
  split at h
  · cases h
  · simp only at h
    split at h
    · cases h
    · omega

theorem bitmapTest_of_below {index : ℕ} (h : index < map.offset) :
    bitmapTest map index = .error .assertion := by
  unfold bitmapTest
  rw [if_pos h]

theorem bitmapTest_wild {j : ℕ} (hlen : j / 8 < map.length) (hsize : map.size ≤ j / 8) :
    bitmapTest map (map.offset + j) = .error .wild := by
  unfold bitmapTest
  rw [if_neg (by omega)]
  simp only [Nat.add_sub_cancel_left]
  rw [if_neg (by omega), if_pos hsize]

/-- The scan stops at the first clear bit. -/
theorem scanLoop_found (hi : i ≤ s) (hs : s < i + n) (hlen : s / 8 < map.length)
    (hsize : s / 8 < map.size) (hoff : map.offset + s < 2 ^ 32)
    (hclear : bitAt map.bits s = false) (hused : ∀ j, i ≤ j → j < s → bitAt map.bits j = true) :
    scanLoop map 1 n i 0 = .ok (some s) := by
  induction n generalizing i with
  | zero => omega
  | succ n ih =>
      have hdiv : i / 8 ≤ s / 8 := Nat.div_le_div_right hi
      have htest : bitmapTest map (u32 (map.offset + i)) = .ok (bitAt map.bits i) := by
        rw [u32, Nat.mod_eq_of_lt (by omega)]
        exact bitmapTest_of_lt (by omega) (by omega)
      simp only [scanLoop, htest]
      by_cases his : i = s
      · subst i
        simp [hclear]
      · have hbit := hused i le_rfl (by omega)
        simp only [hbit, if_true]
        rw [if_neg (by norm_num)]
        exact ih (by omega) (by omega) (fun j hj hjs => hused j (by omega) hjs)

/-- With every bit used, the scan finds nothing. -/
theorem scanLoop_none (hlen : i + n ≤ 8 * map.length) (hsize : i + n ≤ 8 * map.size)
    (hoff : map.offset + (i + n) ≤ 2 ^ 32)
    (hused : ∀ j, i ≤ j → j < i + n → bitAt map.bits j = true) :
    scanLoop map 1 n i 0 = .ok none := by
  induction n generalizing i with
  | zero => rfl
  | succ n ih =>
      have htest : bitmapTest map (u32 (map.offset + i)) = .ok (bitAt map.bits i) := by
        rw [u32, Nat.mod_eq_of_lt (by omega)]
        exact bitmapTest_of_lt (by omega) (by omega)
      have hbit := hused i le_rfl (by omega)
      simp only [scanLoop, htest, hbit, if_true]
      rw [if_neg (by norm_num)]
      exact ih (by omega) (by omega) (by omega) (fun j hj hjs => hused j (by omega) (by omega))

/-- With every bit of the object used and a length beyond it, the scan leaves it. -/
theorem scanLoop_wild (hi : i ≤ 8 * map.size) (hn : 8 * map.size < i + n)
    (hlen : map.size < map.length) (hoff : map.offset + 8 * map.size < 2 ^ 32)
    (hused : ∀ j, i ≤ j → j < 8 * map.size → bitAt map.bits j = true) :
    scanLoop map 1 n i 0 = .error .wild := by
  induction n generalizing i with
  | zero => omega
  | succ n ih =>
      have hoff' : u32 (map.offset + i) = map.offset + i := by
        rw [u32, Nat.mod_eq_of_lt (by omega)]
      by_cases hend : i = 8 * map.size
      · have htest : bitmapTest map (map.offset + i) = .error .wild :=
          bitmapTest_wild (by omega) (by omega)
        simp only [scanLoop, hoff', htest]
      · have htest : bitmapTest map (map.offset + i) = .ok (bitAt map.bits i) :=
          bitmapTest_of_lt (by omega) (by omega)
        have hbit := hused i le_rfl (by omega)
        simp only [scanLoop, hoff', htest, hbit, if_true]
        rw [if_neg (by norm_num)]
        exact ih (by omega) (by omega) (fun j hj hjs => hused j (by omega) hjs)

end Scan

/-! ## Scanning for a run of bits -/

theorem markLoop_eq_ok {map map' : Bitmap} {n i : ℕ} (h : markLoop n map i = .ok map') :
    map'.offset = map.offset ∧ map'.length = map.length ∧ map'.size = map.size := by
  induction n generalizing map i with
  | zero =>
      cases h
      exact ⟨rfl, rfl, rfl⟩
  | succ n ih =>
      unfold markLoop at h
      cases hset : bitmapSet map (u32 (map.offset + i)) true with
      | error e => simp [hset] at h
      | ok marked =>
          simp only [hset] at h
          have hrest := ih h
          rw [bitmapSet_eq_ok hset] at hrest
          exact hrest

/-- A scan changes bits only. -/
theorem bitmapScan_eq_ok {map map' : Bitmap} {n i : ℕ} (h : bitmapScan map n = .ok (i, map')) :
    map'.offset = map.offset ∧ map'.length = map.length ∧ map'.size = map.size := by
  unfold bitmapScan at h
  split at h
  · cases h
  · cases h
    exact ⟨rfl, rfl, rfl⟩
  · split at h
    · cases h
    · rename_i hmark
      cases h
      exact markLoop_eq_ok hmark

section BitmapScan

variable {map : Bitmap} {s : ℕ}

/-- `bitmap_scan(map, 1)` takes the first clear bit. -/
theorem bitmapScan_one (hs : s < 8 * map.length) (hsize : s < 8 * map.size)
    (hwords : 8 * map.length < 2 ^ 32) (hoff : map.offset + s < 2 ^ 32)
    (hclear : bitAt map.bits s = false) (hused : ∀ j < s, bitAt map.bits j = true) :
    bitmapScan map 1 =
      .ok (map.offset + s, { map with bits := putBit map.bits s true }) := by
  have hloop : scanLoop map 1 (u32 (map.length * 8)) 0 0 = .ok (some s) := by
    rw [u32, Nat.mod_eq_of_lt (by omega)]
    exact scanLoop_found (by omega) (by omega) (by omega) (by omega) hoff hclear
      (fun j _ hj => hused j hj)
  have hset : bitmapSet map (u32 (map.offset + s)) true =
      .ok { map with bits := putBit map.bits s true } := by
    rw [u32, Nat.mod_eq_of_lt hoff]
    exact bitmapSet_of_lt true (by omega)
  simp only [bitmapScan, hloop, markLoop, hset]
  rw [u32, Nat.add_comm, Nat.mod_eq_of_lt hoff]

theorem bitmapScan_one_full (hsize : map.length ≤ map.size) (hwords : 8 * map.length < 2 ^ 32)
    (hoff : map.offset + 8 * map.length ≤ 2 ^ 32)
    (hused : ∀ j < 8 * map.length, bitAt map.bits j = true) :
    bitmapScan map 1 = .ok (EOF, map) := by
  have hloop : scanLoop map 1 (u32 (map.length * 8)) 0 0 = .ok none := by
    rw [u32, Nat.mod_eq_of_lt (by omega)]
    exact scanLoop_none (by omega) (by omega) (by omega) (fun j _ hj => hused j (by omega))
  simp only [bitmapScan, hloop]

theorem bitmapScan_one_wild (hlen : map.size < map.length) (hwords : 8 * map.length < 2 ^ 32)
    (hoff : map.offset + 8 * map.size < 2 ^ 32)
    (hused : ∀ j < 8 * map.size, bitAt map.bits j = true) :
    bitmapScan map 1 = .error .wild := by
  have hloop : scanLoop map 1 (u32 (map.length * 8)) 0 0 = .error .wild := by
    rw [u32, Nat.mod_eq_of_lt (by omega)]
    exact scanLoop_wild (by omega) (by omega) hlen hoff (fun j _ hj => hused j hj)
  simp only [bitmapScan, hloop]

end BitmapScan

end Ylos
