import Ylos.Lib.Exec
import Ylos.Lib.Bytes

/-! # Bitmaps (`lib/bitmap.c`) -/

namespace Ylos

/-- `EOF`, read as the `u32` it is stored in. -/
def EOF : ℕ := 2 ^ 32 - 1

def u32 (n : ℕ) : ℕ := n % 2 ^ 32

/-- `bitmap_t`: `length` bytes of bits starting at `bits`, whose first bit has the
index `offset`. `size` is the number of bytes that really lie behind `bits`. -/
structure Bitmap where
  bits : Bytes
  size : ℕ
  length : ℕ
  offset : ℕ

/-- Bit `i` of the bytes `m`, counted from bit 0 of byte 0. -/
def bitAt (m : Bytes) (i : ℕ) : Bool := (m (i / 8)).toNat.testBit (i % 8)

/-- `m[i / 8] |= 1 << (i % 8)`, or `m[i / 8] &= ~(1 << (i % 8))`. -/
def putBit (m : Bytes) (i : ℕ) (value : Bool) : Bytes := fun j =>
  if j = i / 8 then
    if value then m j ||| UInt8.ofNat (1 <<< (i % 8))
    else m j &&& ~~~ UInt8.ofNat (1 <<< (i % 8))
  else m j

def bitmapTest (map : Bitmap) (index : ℕ) : Except Fault Bool :=
  if index < map.offset then .error .assertion
  else
    let idx := index - map.offset
    if map.length ≤ idx / 8 then .error .assertion
    else if map.size ≤ idx / 8 then .error .wild
    else .ok (bitAt map.bits idx)

/-- Unlike `bitmapTest` this has no check against `length`. -/
def bitmapSet (map : Bitmap) (index : ℕ) (value : Bool) : Except Fault Bitmap :=
  if index < map.offset then .error .assertion
  else
    let idx := index - map.offset
    if map.size ≤ idx / 8 then .error .wild
    else .ok { map with bits := putBit map.bits idx value }

/-- The search loop of `bitmap_scan`: the start of the run, or `none`. -/
def scanLoop (map : Bitmap) (count : ℕ) :
    (bitsLeft nextBit counter : ℕ) → Except Fault (Option ℕ)
  | 0, _, _ => .ok none
  | bitsLeft + 1, nextBit, counter =>
    match bitmapTest map (u32 (map.offset + nextBit)) with
    | .error e => .error e
    | .ok used =>
      let counter := if used then 0 else counter + 1
      let nextBit := nextBit + 1
      if counter = count then .ok (some (nextBit - count))
      else scanLoop map count bitsLeft nextBit counter

/-- The loop that marks the run found. -/
def markLoop : (bitsLeft : ℕ) → Bitmap → (nextBit : ℕ) → Except Fault Bitmap
  | 0, map, _ => .ok map
  | bitsLeft + 1, map, nextBit =>
    match bitmapSet map (u32 (map.offset + nextBit)) true with
    | .error e => .error e
    | .ok map => markLoop bitsLeft map (nextBit + 1)

def bitmapScan (map : Bitmap) (count : ℕ) : Except Fault (ℕ × Bitmap) :=
  match scanLoop map count (u32 (map.length * 8)) 0 0 with
  | .error e => .error e
  | .ok none => .ok (EOF, map)
  | .ok (some start) =>
    match markLoop count map start with
    | .error e => .error e
    | .ok marked => .ok (u32 (start + map.offset), marked)

end Ylos
