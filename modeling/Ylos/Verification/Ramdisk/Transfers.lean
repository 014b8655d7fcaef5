import Ylos.Verification.Ramdisk.Requests

/-! # Transfers through the device file of a RAM disk -/

namespace Ylos.Ramdisk

open Exec Memory Sched Ram

variable {disk : Disk} {k : Kernel} {s s' : State} {file : File} {i fd o n data buf p : ℕ}

/-- The bytes are in the memory, and not on the disk. -/
def Apart (disk : Disk) (p n : ℕ) : Prop :=
  p + n ≤ 2 ^ 32 ∧ (p + n ≤ disk.start ∨ disk.start + disk.size ≤ p)

/-- Where the driver finds offset `o`. -/
def place (o : ℕ) : ℕ := o / BLOCK_SIZE * SECTOR_SIZE

/-- How many bytes of `n` the driver moves. -/
def moved (n : ℕ) : ℕ := n / BLOCK_SIZE % 2 ^ 8 * SECTOR_SIZE

/-! ## Seeking -/

theorem OpenOn.withRam (h : OpenOn k s fd file disk) (m : Bytes) :
    OpenOn k (withRam s m) fd file disk := { h with found := h.found }

/-! ## One transfer -/

@[simp] theorem ramdisk_size (i : ℕ) : (ramdisk i).size = 2 ^ 20 := rfl

/-- A request that the file layer passes on. -/
structure Whole (i o n : ℕ) : Prop where
  disk : i < RAMDISK_NR
  offset : o % BLOCK_SIZE = 0
  count : n % BLOCK_SIZE = 0
  pos : 0 < n
  le : o + n ≤ (ramdisk i).size

theorem Whole.aligned (h : Whole i o n) (file : File) : Aligned { file with offset := o } n := by
  have hoffset := h.offset
  have hcount := h.count
  have hpos := h.pos
  unfold BLOCK_SIZE at hoffset hcount
  unfold Aligned BLOCK_SIZE
  rw [Int.tmod_eq_emod_of_nonneg (by omega), Int.tmod_eq_emod_of_nonneg (Int.natCast_nonneg o)]
  omega

/-- The request is inside the disk, at half its offset and of at most half its length. -/
theorem Whole.inside (h : Whole i o n) : place o + moved n ≤ 2 ^ 20 ∧ 2 * moved n ≤ n := by
  have hle := h.le
  have hsize := ramdisk_size i
  unfold place moved BLOCK_SIZE SECTOR_SIZE
  omega

/-- A memory with a 1 at address 512, in the second half of the data. -/
def marked : State := { mdState 0 with ram := fun a => if a = 512 then 1 else 0 }

end Ylos.Ramdisk
