import Ylos.Verification.Bitmap.FirstFit
import Mathlib.Order.Bounds.Basic

/-! # Scanning for a run of several bits -/

namespace Ylos

variable {map : Bitmap} {bits : Bytes} {count n i c s : ℕ}

/-- The `count` bits from `s` on are clear. -/
def Clear (bits : Bytes) (s count : ℕ) : Prop :=
  ∀ j, s ≤ j → j < s + count → bitAt bits j = false

/-- The search with the last `c` bits before `i` known to be clear. -/
theorem scanLoop_run (hlen : i + n ≤ 8 * map.length) (hsize : i + n ≤ 8 * map.size)
    (hoff : map.offset + (i + n) ≤ 2 ^ 32) (hc : c < count) (hci : c ≤ i)
    (hclear : Clear map.bits (i - c) c) :
    (∃ s, scanLoop map count n i c = .ok (some s) ∧ s + count ≤ i + n ∧
        Clear map.bits s count ∧ ∀ r, i - c ≤ r → r < s → ¬Clear map.bits r count) ∨
      (scanLoop map count n i c = .ok none ∧
        ∀ s, i - c ≤ s → s + count ≤ i + n → ¬Clear map.bits s count) := by
  induction n generalizing i c with
  | zero =>
      refine .inr ⟨rfl, fun s hs hend => ?_⟩
      omega
  | succ n ih =>
      have htest : bitmapTest map (u32 (map.offset + i)) = .ok (bitAt map.bits i) := by
        rw [u32, Nat.mod_eq_of_lt (by omega)]
        exact bitmapTest_of_lt (by omega) (by omega)
      simp only [scanLoop, htest]
      cases hbit : bitAt map.bits i with
      | true =>
          simp only [if_true]
          rw [if_neg (by omega)]
          -- A run that starts before `i` would have the used bit `i` in it.
          have hearly : ∀ r, i - c ≤ r → r ≤ i → ¬Clear map.bits r count := by
            intro r hr hri hrun
            have hused := hrun i hri (by omega)
            rw [hbit] at hused
            cases hused
          rcases ih (i := i + 1) (c := 0) (by omega) (by omega) (by omega) (by omega) (by omega)
              (fun j hj hj' => by omega) with ⟨s, hscan, hend, hs, hfirst⟩ | ⟨hscan, hnone⟩
          · refine .inl ⟨s, hscan, by omega, hs, fun r hr hrs hrun => ?_⟩
            by_cases hri : r ≤ i
            · exact hearly r hr hri hrun
            · exact hfirst r (by omega) hrs hrun
          · refine .inr ⟨hscan, fun s hs hend hrun => ?_⟩
            by_cases hsi : s ≤ i
            · exact hearly s hs hsi hrun
            · exact hnone s (by omega) (by omega) hrun
      | false =>
          simp only [Bool.false_eq_true, if_false]
          have hmore : Clear map.bits (i + 1 - (c + 1)) (c + 1) := by
            intro j hj hj'
            by_cases hji : j = i
            · rw [hji, hbit]
            · exact hclear j (by omega) (by omega)
          by_cases hfull : c + 1 = count
          · rw [if_pos hfull]
            refine .inl ⟨i + 1 - count, rfl, by omega, ?_, fun r hr hrs => by omega⟩
            rwa [hfull] at hmore
          · rw [if_neg hfull]
            rcases ih (by omega) (by omega) (by omega) (by omega) (by omega) hmore with
              ⟨s, hscan, hend, hs, hfirst⟩ | ⟨hscan, hnone⟩
            · exact .inl ⟨s, hscan, by omega, hs, fun r hr => hfirst r (by omega)⟩
            · exact .inr ⟨hscan, fun s hs hend => hnone s (by omega) (by omega)⟩

theorem markLoop_run (map : Bitmap) (hsize : i + n ≤ 8 * map.size)
    (hoff : map.offset + (i + n) ≤ 2 ^ 32) :
    ∃ bits, markLoop n map i = .ok { map with bits := bits } ∧
      ∀ j, bitAt bits j = (decide (i ≤ j ∧ j < i + n) || bitAt map.bits j) := by
  induction n generalizing i map with
  | zero =>
      refine ⟨map.bits, rfl, fun j => ?_⟩
      rw [decide_eq_false (by omega), Bool.false_or]
  | succ n ih =>
      have hset : bitmapSet map (u32 (map.offset + i)) true =
          .ok { map with bits := putBit map.bits i true } := by
        rw [u32, Nat.mod_eq_of_lt (by omega)]
        exact bitmapSet_of_lt true (by omega)
      obtain ⟨bits, hmark, hbits⟩ := ih (i := i + 1)
        { map with bits := putBit map.bits i true } (by dsimp only; omega) (by dsimp only; omega)
      refine ⟨bits, ?_, fun j => ?_⟩
      · simp only [markLoop, hset]
        exact hmark
      · rw [hbits j]
        dsimp only
        rw [bitAt_putBit]
        by_cases hji : j = i
        · rw [if_pos hji, decide_eq_true (p := i ≤ j ∧ j < i + (n + 1)) (by omega)]
          exact Bool.or_true _
        · rw [if_neg hji]
          congr 1
          exact decide_eq_decide.mpr (by omega)

/-- `bitmap_scan` marks the first run of clear bits, or there is none. -/
theorem bitmapScan_run (map : Bitmap) (hcount : 0 < count) (hsize : map.length ≤ map.size)
    (hwords : 8 * map.length < 2 ^ 32) (hoff : map.offset + 8 * map.length < 2 ^ 32) :
    (∃ s bits, bitmapScan map count = .ok (map.offset + s, { map with bits := bits }) ∧
        s + count ≤ 8 * map.length ∧ Clear map.bits s count ∧
        (∀ r < s, ¬Clear map.bits r count) ∧
        ∀ j, bitAt bits j = (decide (s ≤ j ∧ j < s + count) || bitAt map.bits j)) ∨
      (bitmapScan map count = .ok (EOF, map) ∧
        ∀ s, s + count ≤ 8 * map.length → ¬Clear map.bits s count) := by
  have hleft : u32 (map.length * 8) = 8 * map.length := by
    rw [u32, Nat.mod_eq_of_lt (by omega), Nat.mul_comm]
  have hzero : Clear map.bits (0 - 0) 0 := fun j hj hj' => by omega
  rcases scanLoop_run (n := 8 * map.length) (i := 0) (c := 0) (by omega) (by omega) (by omega)
      hcount le_rfl hzero with ⟨s, hscan, hend, hs, hfirst⟩ | ⟨hscan, hnone⟩
  · obtain ⟨bits, hmark, hbits⟩ := markLoop_run map (n := count) (i := s) (by omega)
      (by omega)
    refine .inl ⟨s, bits, ?_, by omega, hs, fun r hr => hfirst r (Nat.zero_le _) hr, hbits⟩
    simp only [bitmapScan, hleft, hscan, hmark]
    rw [u32, Nat.add_comm, Nat.mod_eq_of_lt (by omega)]
  · refine .inr ⟨?_, fun s hs => hnone s (by omega) (by omega)⟩
    simp only [bitmapScan, hleft, hscan]

/-! ## The memory behind a bitmap -/

section Grow

variable {size : ℕ}

/-- What is not wild does not become so with more memory there. -/
theorem bitmapTest_grow {b : Bool} (h : bitmapTest map i = .ok b) (hsize : map.size ≤ size) :
    bitmapTest { map with size := size } i = .ok b := by
  unfold bitmapTest at h ⊢
  dsimp only at h ⊢
  split at h
  · cases h
  · rename_i hoff
    rw [if_neg hoff]
    split at h
    · cases h
    · rename_i hlen
      rw [if_neg hlen]
      split at h
      · cases h
      · rw [if_neg (by omega)]
        exact h

theorem bitmapSet_grow {v : Bool} {map' : Bitmap} (h : bitmapSet map i v = .ok map')
    (hsize : map.size ≤ size) :
    bitmapSet { map with size := size } i v = .ok { map' with size := size } := by
  have hmap := bitmapSet_eq_ok h
  unfold bitmapSet at h ⊢
  dsimp only at h ⊢
  split at h
  · cases h
  · rename_i hoff
    rw [if_neg hoff]
    split at h
    · cases h
    · rw [if_neg (by omega), hmap]

theorem scanLoop_grow {r : Option ℕ} (h : scanLoop map count n i c = .ok r)
    (hsize : map.size ≤ size) : scanLoop { map with size := size } count n i c = .ok r := by
  induction n generalizing i c with
  | zero => exact h
  | succ n ih =>
      unfold scanLoop at h ⊢
      cases htest : bitmapTest map (u32 (map.offset + i)) with
      | error e => simp [htest] at h
      | ok used =>
          simp only [htest] at h
          simp only [bitmapTest_grow htest hsize]
          by_cases hfull : (if used then 0 else c + 1) = count
          · rw [if_pos hfull] at h ⊢
            exact h
          · rw [if_neg hfull] at h ⊢
            exact ih h

theorem markLoop_grow {map' : Bitmap} (h : markLoop n map i = .ok map') (hsize : map.size ≤ size) :
    markLoop n { map with size := size } i = .ok { map' with size := size } := by
  induction n generalizing map i with
  | zero =>
      cases h
      rfl
  | succ n ih =>
      unfold markLoop at h ⊢
      cases hset : bitmapSet map (u32 (map.offset + i)) true with
      | error e => simp [hset] at h
      | ok marked =>
          simp only [hset] at h
          simp only [bitmapSet_grow hset hsize]
          refine ih h ?_
          rw [bitmapSet_eq_ok hset]
          exact hsize

theorem bitmapScan_grow {r : ℕ} {map' : Bitmap} (h : bitmapScan map count = .ok (r, map'))
    (hsize : map.size ≤ size) :
    bitmapScan { map with size := size } count = .ok (r, { map' with size := size }) := by
  unfold bitmapScan at h ⊢
  dsimp only
  cases hscan : scanLoop map count (u32 (map.length * 8)) 0 0 with
  | error e => simp [hscan] at h
  | ok found =>
      simp only [hscan] at h
      simp only [scanLoop_grow hscan hsize]
      cases found with
      | none =>
          cases h
          rfl
      | some start =>
          dsimp only at h ⊢
          cases hmark : markLoop count map start with
          | error e => simp [hmark] at h
          | ok marked =>
              simp only [hmark] at h
              cases h
              simp only [markLoop_grow hmark hsize]

end Grow

/-! ## First fit -/

/-- `count` bits of the bitmap fit in at `s`. -/
def Fits (map : Bitmap) (count s : ℕ) : Prop := s + count ≤ 8 * map.length ∧ Clear map.bits s count

/-- `bitmap_scan` is first fit. It does not matter what lies behind the bitmap: even with nothing
there no access is wild, so no byte from `length` on is looked at. -/
theorem bitmapScan_first_fit (map : Bitmap) (hcount : 1 ≤ count)
    (hoff : 8 * map.length + map.offset < 2 ^ 31) :
    ∃ r bits, (∀ size, map.length ≤ size → bitmapScan { map with size := size } count =
        .ok (r, { map with size := size, bits := bits })) ∧
      (∀ s, IsLeast {s | Fits map count s} s → r = map.offset + s ∧
        ∀ j, bitAt bits j = (decide (s ≤ j ∧ j < s + count) || bitAt map.bits j)) ∧
      (r = EOF ↔ ∀ s, ¬Fits map count s) ∧ (r = EOF → bits = map.bits) := by
  have heof : EOF = 2 ^ 32 - 1 := rfl
  rcases bitmapScan_run { map with size := map.length } hcount le_rfl (by dsimp only; omega)
    (by dsimp only; omega) with ⟨s, bits, hscan, hend, hclear, hfirst, hbits⟩ | ⟨hscan, hnone⟩
  · have hfits : Fits map count s := ⟨hend, hclear⟩
    have hleast : IsLeast {s | Fits map count s} s :=
      ⟨hfits, fun r hr => not_lt.mp fun hlt => hfirst r hlt hr.2⟩
    have hne : map.offset + s ≠ EOF := by
      dsimp only at hend
      omega
    refine ⟨map.offset + s, bits, fun size hsize => ?_, fun r hr => ?_, ?_, fun h => absurd h hne⟩
    · have hgrown := bitmapScan_grow hscan hsize
      exact hgrown
    · rw [IsLeast.unique hr hleast]
      exact ⟨rfl, hbits⟩
    · exact iff_of_false hne fun h => h s hfits
  · refine ⟨EOF, map.bits, fun size hsize => ?_, fun s hs => ?_, ?_, fun _ => rfl⟩
    · have hgrown := bitmapScan_grow hscan hsize
      exact hgrown
    · exact absurd hs.1.2 (hnone s hs.1.1)
    · exact iff_of_true rfl fun s hs => hnone s hs.1 hs.2

/-- The first clear bit of `0b11101101` is bit 1. -/
theorem bitmapScan_first_fit_byte : ∃ r bits, r = 101 ∧ bitAt bits 1 = true ∧
    ∀ size, 1 ≤ size → bitmapScan ⟨fun _ => 0xED, size, 1, 100⟩ 1 = .ok (r, ⟨bits, size, 1, 100⟩) := by
  obtain ⟨r, bits, hscan, hleast, -⟩ :=
    bitmapScan_first_fit ⟨fun _ => 0xED, 1, 1, 100⟩ (le_refl 1) (by decide)
  have hone : IsLeast {s | Fits ⟨fun _ => 0xED, 1, 1, 100⟩ 1 s} 1 := by
    refine ⟨⟨by decide, fun j hj hj' => ?_⟩, fun s hs => ?_⟩
    · obtain rfl : j = 1 := by omega
      rfl
    · by_contra hlt
      obtain rfl : s = 0 := by omega
      have hzero := hs.2 0 le_rfl (by decide)
      cases hzero
  obtain ⟨hr, hbits⟩ := hleast 1 hone
  exact ⟨r, bits, hr, (hbits 1).trans rfl, hscan⟩

end Ylos
