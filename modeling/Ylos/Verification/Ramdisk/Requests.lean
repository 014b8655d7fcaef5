import Ylos.Model.Ramdisk
import Ylos.Verification.Ram.Copy

/-! # Where the requests to a RAM disk go -/

namespace Ylos.Ramdisk

open Exec Memory Sched Ram

variable {α : Type} {disk : Disk} {k : Kernel} {s : State} {file : File}
  {i fd buf count lba len p : ℕ} {n : ℤ}

/-! ## The disks -/

/-- The memory after `ramdisk_init` has been through `n` disks from disk `i` on. -/
theorem run_initLoop (n : ℕ) (h : i + n ≤ RAMDISK_NR) (s : State) : ∃ l, (initLoop i n).run s =
    .ok ((List.range' i n).map ramdisk,
      { s with ram := s.ram.copy (ramdisk i).start (n * diskSize) fun _ => 0 }, l) := by
  induction n generalizing i s with
  | zero =>
      refine ⟨[], ?_⟩
      rw [Nat.zero_mul, Bytes.copy_zero]
      rfl
  | succ n ih =>
      have hi : i < 4 := by
        unfold RAMDISK_NR at h
        omega
      have hend : (ramdisk i).start + (ramdisk i).size ≤ 2 ^ 32 := by
        simp only [ramdisk, diskSize, KERNEL_RAMDISK_MEM, KERNEL_BUFFER_MEM, KERNEL_BUFFER_SIZE,
          KERNEL_RAMDISK_SIZE, RAMDISK_NR]
        omega
      obtain ⟨l, hrest⟩ := ih (i := i + 1) (by omega)
        { s with ram := s.ram.copy (ramdisk i).start diskSize fun _ => 0 }
      have hjoin : Bytes.copy (s.ram.copy (ramdisk i).start diskSize fun _ => 0)
          (ramdisk (i + 1)).start (n * diskSize) (fun _ => 0) =
          s.ram.copy (ramdisk i).start ((n + 1) * diskSize) fun _ => 0 := by
        have hstart : (ramdisk (i + 1)).start = (ramdisk i).start + diskSize := by
          unfold ramdisk
          ring
        have hsize : (n + 1) * diskSize = diskSize + n * diskSize := by ring
        rw [hstart, hsize, Bytes.copy_append]
      rw [← hjoin, List.range'_succ]
      exact ⟨_, bind_eq_ok.mpr ⟨_, _, _, _, run_memset s hend,
        bind_eq_ok.mpr ⟨_, _, _, _, hrest, rfl, rfl⟩, rfl⟩⟩

theorem ramdiskInit_returns (s : State) : ∃ l, ramdiskInit.run s =
    .ok ((List.range RAMDISK_NR).map ramdisk,
      { s with ram := s.ram.copy KERNEL_RAMDISK_MEM KERNEL_RAMDISK_SIZE fun _ => 0 }, l) := by
  obtain ⟨l, hloop⟩ := run_initLoop RAMDISK_NR (i := 0) le_rfl s
  refine ⟨l, ?_⟩
  unfold ramdiskInit
  rw [run_bind _ (run_check_pos (by decide) s), hloop, List.range_eq_range']
  rfl

/-! ## One request -/

/-- The assertion of the driver. -/
def Accepted (disk : Disk) (count lba : ℕ) : Prop :=
  u32 (u32 (disk.start + lba * SECTOR_SIZE) + u8 count * SECTOR_SIZE) <
    KERNEL_RAMDISK_MEM + KERNEL_MEMORY_SIZE

instance : Decidable (Accepted disk count lba) := inferInstanceAs (Decidable (_ < _))

theorem run_ramdiskRead (disk : Disk) (buf count lba : ℕ) (s : State) :
    (ramdiskRead disk buf count lba).run s =
      if Accepted disk count lba then
        .ok (u8 count, withRam s (copied s.ram buf (u32 (disk.start + lba * SECTOR_SIZE))
          (u8 count * SECTOR_SIZE)),
          copyAccesses buf (u32 (disk.start + lba * SECTOR_SIZE)) (u8 count * SECTOR_SIZE))
      else .error .assertion := by
  change (check (Accepted disk count lba) >>= fun _ =>
    memcpy buf (u32 (disk.start + lba * SECTOR_SIZE)) (u8 count * SECTOR_SIZE) >>= fun _ =>
      pure (u8 count)).run s = _
  split
  · rename_i h
    rw [run_bind _ (run_check_pos h s), run_bind_ok _ (run_memcpy _ _ _ s)]
    simp only [run_pure, List.append_nil]
    rfl
  · rename_i h
    rw [run_bind_error _ (run_check_neg h s)]

theorem run_ramdiskWrite (disk : Disk) (buf count lba : ℕ) (s : State) :
    (ramdiskWrite disk buf count lba).run s =
      if Accepted disk count lba then
        .ok (u8 count, withRam s (copied s.ram (u32 (disk.start + lba * SECTOR_SIZE)) buf
          (u8 count * SECTOR_SIZE)),
          copyAccesses (u32 (disk.start + lba * SECTOR_SIZE)) buf (u8 count * SECTOR_SIZE))
      else .error .assertion := by
  change (check (Accepted disk count lba) >>= fun _ =>
    memcpy (u32 (disk.start + lba * SECTOR_SIZE)) buf (u8 count * SECTOR_SIZE) >>= fun _ =>
      pure (u8 count)).run s = _
  split
  · rename_i h
    rw [run_bind _ (run_check_pos h s), run_bind_ok _ (run_memcpy _ _ _ s)]
    simp only [run_pure, List.append_nil]
    rfl
  · rename_i h
    rw [run_bind_error _ (run_check_neg h s)]

/-- The address is one of the disk's. -/
def Disk.Has (disk : Disk) (addr : ℕ) : Prop := disk.start ≤ addr ∧ addr < disk.start + disk.size

/-- If it returns, it has loaded from the disk only. -/
def LoadsFrom (disk : Disk) (x : M α) (s : State) : Prop :=
  after x (fun _ _ l => ∀ addr, .load addr ∈ l → disk.Has addr) s

/-- If it returns, it has stored to the disk only. -/
def StoresTo (disk : Disk) (x : M α) (s : State) : Prop :=
  after x (fun _ _ l => ∀ addr, .store addr ∈ l → disk.Has addr) s

/-- The request has no sectors, or all of them are on the disk, or the assertion stops it. Sector
numbers are equal modulo `2 ^ 23`. -/
def Fits (disk : Disk) (count lba : ℕ) : Prop :=
  u8 count = 0 ∨ lba % 2 ^ 23 + u8 count ≤ disk.size / SECTOR_SIZE ∨
    KERNEL_RAMDISK_MEM + KERNEL_MEMORY_SIZE ≤
      u32 (disk.start + (lba % 2 ^ 23 + u8 count) * SECTOR_SIZE)

instance : Decidable (Fits disk count lba) := inferInstanceAs (Decidable (_ ∨ _))

theorem fits_iff (hi : i < RAMDISK_NR) : Fits (ramdisk i) count lba ↔
    (Accepted (ramdisk i) count lba → ∀ j < u8 count * SECTOR_SIZE,
      (ramdisk i).Has (u32 (u32 ((ramdisk i).start + lba * SECTOR_SIZE) + j))) := by
  have hcount : u8 count < 256 := Nat.mod_lt _ (by decide)
  generalize hc : u8 count = c at hcount
  unfold Fits Accepted Disk.Has
  rw [hc]
  unfold RAMDISK_NR at hi
  simp only [ramdisk, diskSize, KERNEL_RAMDISK_MEM, KERNEL_BUFFER_MEM, KERNEL_BUFFER_SIZE,
    KERNEL_RAMDISK_SIZE, KERNEL_MEMORY_SIZE, RAMDISK_NR, SECTOR_SIZE, u32]
  constructor
  · intro h haccepted j hj
    omega
  · intro h
    by_contra hnot
    -- the first byte or, if that one is on the disk, the last
    have hends := h (by omega)
    have hfirst := hends 0 (by omega)
    have hlast := hends (c * 512 - 1) (by omega)
    omega

theorem addr_lt (n : ℕ) : u32 n < 2 ^ 32 := Nat.mod_lt _ (by decide)

theorem ramdiskRead_loads_iff (hi : i < RAMDISK_NR) :
    LoadsFrom (ramdisk i) (ramdiskRead (ramdisk i) buf count lba) s ↔
      Fits (ramdisk i) count lba := by
  rw [fits_iff hi]
  unfold LoadsFrom after
  rw [run_ramdiskRead]
  constructor
  · intro h haccepted j hj
    rw [if_pos haccepted] at h
    exact h _ _ _ rfl _ ((load_mem_copyAccesses (addr_lt _)).mpr ⟨j, hj, rfl⟩)
  · intro h r s' l hrun addr hmem
    split at hrun
    · rename_i haccepted
      cases hrun
      obtain ⟨j, hj, rfl⟩ := (load_mem_copyAccesses (addr_lt _)).mp hmem
      exact h haccepted j hj
    · cases hrun

theorem ramdiskWrite_stores_iff (hi : i < RAMDISK_NR) :
    StoresTo (ramdisk i) (ramdiskWrite (ramdisk i) buf count lba) s ↔
      Fits (ramdisk i) count lba := by
  rw [fits_iff hi]
  unfold StoresTo after
  rw [run_ramdiskWrite]
  constructor
  · intro h haccepted j hj
    rw [if_pos haccepted] at h
    exact h _ _ _ rfl _ ((store_mem_copyAccesses (addr_lt _)).mpr ⟨j, hj, rfl⟩)
  · intro h r s' l hrun addr hmem
    split at hrun
    · rename_i haccepted
      cases hrun
      obtain ⟨j, hj, rfl⟩ := (store_mem_copyAccesses (addr_lt _)).mp hmem
      exact h haccepted j hj
    · cases hrun

/-! ## Device files -/

def O_RDWR : ℕ := 0o2

/-- The descriptor is open on the disk's device file, to read and to write. -/
structure OpenOn (k : Kernel) (s : State) (fd : ℕ) (file : File) (disk : Disk) : Prop where
  found : s.files fd = some file
  flags : file.flags &&& O_ACCMODE = O_RDWR
  pipe : file.inode.pipe = false
  mode : isBlk file.inode.mode = true
  zone0 : file.inode.zone0 ≠ 0
  lt : file.inode.zone0 < DEVICE_NR
  device : k.devices file.inode.zone0 = ramdiskDevice disk

theorem OpenOn.targets (h : OpenOn k s fd file disk) :
    readTarget file.flags file.inode.pipe file.inode.mode = .blk ∧
      writeTarget file.flags file.inode.pipe file.inode.mode = .blk := by
  have hmode := h.mode
  have hchr : isChr file.inode.mode = false := by
    unfold isBlk at hmode
    unfold isChr
    rw [of_decide_eq_true hmode]
    decide
  simp [readTarget, writeTarget, targetOf, h.flags, h.pipe, hchr, hmode, O_WRONLY, O_RDONLY, O_RDWR]

/-- The sectors asked for, as the driver gets them. -/
def sectors (n : ℤ) : ℕ := (uint32 (n.tdiv BLOCK_SIZE)).toNat

/-- The bytes asked for are whole blocks. -/
def Aligned (file : File) (n : ℤ) : Prop :=
  0 < n ∧ n.tmod BLOCK_SIZE = 0 ∧ file.offset.tmod BLOCK_SIZE = 0

instance : Decidable (Aligned file n) := inferInstanceAs (Decidable (_ ∧ _))

theorem OpenOn.run_getFile (h : OpenOn k s fd file disk) :
    (getFile fd).run s = .ok (file, s, []) := by
  unfold getFile
  rw [run_bind _ (run_gets _ s), h.found]
  rfl

theorem OpenOn.run_deviceGet (h : OpenOn k s fd file disk) :
    (deviceGet k file.inode.zone0).run s = .ok (ramdiskDevice disk, s, []) := by
  have htype : (ramdiskDevice disk).type ≠ DEV_NULL := by simp [ramdiskDevice, DEV_BLOCK, DEV_NULL]
  unfold deviceGet
  rw [run_bind _ (run_check_pos h.lt s), h.device, run_bind _ (run_check_pos htype s)]
  rfl

theorem OpenOn.run_sysRead (h : OpenOn k s fd file disk) :
    (sysRead k fd buf n).run s =
      if Aligned file n then (ramdiskRead disk buf (sectors n) (sectors file.offset)).run s
      else .error .assertion := by
  unfold sysRead
  rw [run_bind _ h.run_getFile]
  by_cases hpos : 0 < n
  · rw [run_bind _ (run_check_pos hpos s), h.targets.1]
    simp only
    rw [run_bind _ (run_check_pos h.zone0 s), run_bind _ h.run_deviceGet]
    by_cases hoffset : file.offset.tmod BLOCK_SIZE = 0
    · rw [run_bind _ (run_check_pos hoffset s)]
      by_cases hcount : n.tmod BLOCK_SIZE = 0
      · rw [run_bind _ (run_check_pos hcount s), if_pos ⟨hpos, hcount, hoffset⟩]
        unfold deviceRead
        rw [run_bind _ h.run_deviceGet]
        rfl
      · rw [run_bind_error _ (run_check_neg hcount s), if_neg fun hn => hcount hn.2.1]
    · rw [run_bind_error _ (run_check_neg hoffset s), if_neg fun hn => hoffset hn.2.2]
  · rw [run_bind_error _ (run_check_neg hpos s), if_neg fun hn => hpos hn.1]

theorem OpenOn.run_sysWrite (h : OpenOn k s fd file disk) :
    (sysWrite k fd buf n).run s =
      if Aligned file n then (ramdiskWrite disk buf (sectors n) (sectors file.offset)).run s
      else .error .assertion := by
  unfold sysWrite
  rw [run_bind _ h.run_getFile]
  by_cases hpos : 0 < n
  · rw [run_bind _ (run_check_pos hpos s), h.targets.2]
    simp only
    rw [run_bind _ (run_check_pos h.zone0 s), run_bind _ h.run_deviceGet]
    by_cases hoffset : file.offset.tmod BLOCK_SIZE = 0
    · rw [run_bind _ (run_check_pos hoffset s)]
      by_cases hcount : n.tmod BLOCK_SIZE = 0
      · rw [run_bind _ (run_check_pos hcount s), if_pos ⟨hpos, hcount, hoffset⟩]
        unfold deviceWrite
        rw [run_bind _ h.run_deviceGet]
        rfl
      · rw [run_bind_error _ (run_check_neg hcount s), if_neg fun hn => hcount hn.2.1]
    · rw [run_bind_error _ (run_check_neg hoffset s), if_neg fun hn => hoffset hn.2.2]
  · rw [run_bind_error _ (run_check_neg hpos s), if_neg fun hn => hpos hn.1]

theorem loadsFrom_error {x : M α} (h : x.run s = .error .assertion) : LoadsFrom disk x s := by
  intro a s' l hrun
  cases h.symm.trans hrun

theorem storesTo_error {x : M α} (h : x.run s = .error .assertion) : StoresTo disk x s := by
  intro a s' l hrun
  cases h.symm.trans hrun

theorem OpenOn.sysRead_loads_iff (h : OpenOn k s fd file (ramdisk i)) (hi : i < RAMDISK_NR) :
    LoadsFrom (ramdisk i) (sysRead k fd buf n) s ↔
      (Aligned file n → Fits (ramdisk i) (sectors n) (sectors file.offset)) := by
  by_cases hn : Aligned file n
  · have hrun : (sysRead k fd buf n).run s = _ := h.run_sysRead
    rw [if_pos hn] at hrun
    have hrequest : LoadsFrom (ramdisk i)
        (ramdiskRead (ramdisk i) buf (sectors n) (sectors file.offset)) s ↔ _ :=
      ramdiskRead_loads_iff hi
    rw [← hrequest]
    simp only [LoadsFrom, after, hrun, hn, true_implies]
  · simp only [hn, false_implies, iff_true]
    apply loadsFrom_error
    rw [h.run_sysRead, if_neg hn]

theorem OpenOn.sysWrite_stores_iff (h : OpenOn k s fd file (ramdisk i)) (hi : i < RAMDISK_NR) :
    StoresTo (ramdisk i) (sysWrite k fd buf n) s ↔
      (Aligned file n → Fits (ramdisk i) (sectors n) (sectors file.offset)) := by
  by_cases hn : Aligned file n
  · have hrun : (sysWrite k fd buf n).run s = _ := h.run_sysWrite
    rw [if_pos hn] at hrun
    have hrequest : StoresTo (ramdisk i)
        (ramdiskWrite (ramdisk i) buf (sectors n) (sectors file.offset)) s ↔ _ :=
      ramdiskWrite_stores_iff hi
    rw [← hrequest]
    simp only [StoresTo, after, hrun, hn, true_implies]
  · simp only [hn, false_implies, iff_true]
    apply storesTo_error
    rw [h.run_sysWrite, if_neg hn]

/-- A request stays on its disk exactly if it fits, and a call on the device file does if the
request that it makes fits. -/
theorem request_stays_iff (hi : i < RAMDISK_NR) (s : State) (buf count lba : ℕ) :
    ((LoadsFrom (ramdisk i) (ramdiskRead (ramdisk i) buf count lba) s ↔
        Fits (ramdisk i) count lba) ∧
      (StoresTo (ramdisk i) (ramdiskWrite (ramdisk i) buf count lba) s ↔
        Fits (ramdisk i) count lba)) ∧
      ∀ k fd file, OpenOn k s fd file (ramdisk i) → ∀ n,
        (LoadsFrom (ramdisk i) (sysRead k fd buf n) s ↔
          (Aligned file n → Fits (ramdisk i) (sectors n) (sectors file.offset))) ∧
        (StoresTo (ramdisk i) (sysWrite k fd buf n) s ↔
          (Aligned file n → Fits (ramdisk i) (sectors n) (sectors file.offset))) :=
  ⟨⟨ramdiskRead_loads_iff hi, ramdiskWrite_stores_iff hi⟩,
    fun _ _ _ h _ => ⟨h.sysRead_loads_iff hi, h.sysWrite_stores_iff hi⟩⟩

/-- The device file of the first disk. -/
def mdFile (offset : ℤ) : File := ⟨⟨false, IFBLK, 3, 0⟩, offset, O_RDWR⟩

/-- Descriptor 3 is open on it. -/
def mdState (offset : ℤ) : State :=
  ⟨fun _ => 0, fun fd => if fd = 3 then some (mdFile offset) else none⟩

/-- The first disk is device 3, and there is no other. -/
def mdKernel : Kernel where
  devices dev := if dev = 3 then ramdiskDevice (ramdisk 0) else ⟨DEV_NULL, none, none⟩
  pipeRead _ _ _ := return EOF
  pipeWrite _ _ _ := return EOF
  inodeRead _ _ _ _ := return EOF
  inodeWrite _ _ _ _ := return EOF

theorem openOn_mdFile (offset : ℤ) :
    OpenOn mdKernel (mdState offset) 3 (mdFile offset) (ramdisk 0) where
  found := rfl
  flags := (by decide : O_RDWR &&& O_ACCMODE = O_RDWR)
  pipe := rfl
  mode := (by decide : isBlk IFBLK = true)
  zone0 := Nat.succ_ne_zero 2
  lt := (by decide : 3 < DEVICE_NR)
  device := rfl

theorem request_stays_iff_first :
    LoadsFrom (ramdisk 0) (sysRead mdKernel 3 0 1024) (mdState 0) ↔
      (Aligned (mdFile 0) 1024 → Fits (ramdisk 0) (sectors 1024) (sectors 0)) :=
  ((request_stays_iff (by decide) (mdState 0) 0 0 0).2 _ _ _ (openOn_mdFile 0) 1024).1

/-- The sector behind the first disk is read from the second. -/
theorem not_request_stays : ¬∀ i < RAMDISK_NR, ∀ s buf, ∀ count < 2 ^ 8, ∀ lba < 2 ^ 32,
    LoadsFrom (ramdisk i) (ramdiskRead (ramdisk i) buf count lba) s := by
  intro h
  have hfits : ¬Fits (ramdisk 0) 1 2048 := by decide
  exact hfits ((ramdiskRead_loads_iff (by decide)).mp
    (h 0 (by decide) (mdState 0) 0 1 (by decide) 2048 (by decide)))

end Ylos.Ramdisk
