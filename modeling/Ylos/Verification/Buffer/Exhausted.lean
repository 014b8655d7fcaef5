import Mathlib.Data.List.Nodup
import Ylos.Lib.Keeps
import Ylos.Verification.Buffer.Coherence

/-! # The buffer cache with its area used up

Every buffer is made, so `getblk` has to take one that was released, and a task that
finds none waits for the next release. -/

namespace Ylos.Cache

open Exec

variable {τ α : Type} [DecidableEq τ] {s s' : State τ α} {t : τ} {b : ℕ} {dev : ℤ} {block : ℕ}

section Updates

variable (s : State τ α) (t : τ) (p : Proc)

@[simp] theorem State.setProc_buffers : (s.setProc t p).buffers = s.buffers := rfl

@[simp] theorem State.setProc_bufferCount : (s.setProc t p).bufferCount = s.bufferCount := rfl

@[simp] theorem State.setProc_freeList : (s.setProc t p).freeList = s.freeList := rfl

@[simp] theorem State.setProc_waitList : (s.setProc t p).waitList = s.waitList := rfl

end Updates

/-! ## Taking a released buffer -/

section Recycling

variable [Fintype τ] {strict calm : Prop}

omit [Fintype τ] [DecidableEq τ] in
theorem run_getNewBuffer_full (hfull : ¬Room s.bufferCount) :
    (getNewBuffer : C τ α _).run s = .ok (none, s, []) := by
  unfold Room at hfull
  unfold getNewBuffer
  rw [run_bind _ (run_gets _ s), if_neg hfull, run_pure]

omit [DecidableEq τ] in
theorem run_getFromHashTable_none (h : Inv strict calm none s)
    (hmiss : ∀ b < s.bufferCount, (s.buffers b).dev = dev → (s.buffers b).block ≠ block) :
    (getFromHashTable dev block).run s = .ok (none, s, []) := by
  have hnone : (s.hashTable (hash dev block)).find? (fun b =>
      (s.buffers b).dev = dev ∧ (s.buffers b).block = block) = none := by
    apply List.find?_eq_none.mpr
    intro b hmem
    simpa using hmiss b ((h.chain _ b).mp hmem).1
  unfold getFromHashTable
  rw [run_bind _ (run_get s), hnone, run_pure]

omit [DecidableEq τ] in
/-- A buffer on the free list is in its chain, and the assertion of `hash_remove` is that
it is not. -/
theorem run_getblkFree_full (h : Inv strict calm none s) (hfull : ¬Room s.bufferCount)
    (hfree : s.freeList ≠ []) : (getblkFree t dev block).run s = .error .assertion := by
  have hlast : s.freeList.getLast? = some (s.freeList.getLast hfree) :=
    List.getLast?_eq_some_getLast hfree
  have hb := ((h.free _).mp (List.getLast_mem hfree)).1
  have hmem := (h.chain _ _).mpr ⟨hb, rfl⟩
  have hremove : (hashRemove (s.freeList.getLast hfree)).run
      { s with freeList := s.freeList.dropLast } = .error .assertion := by
    unfold hashRemove getBuf
    rw [run_bind _ (run_gets _ _), run_bind _ (run_gets _ _)]
    exact run_bind_error _ (run_check_neg (not_not.mpr hmem) _)
  have hget : (getFreeBuffer t : C τ α _).run s = .error .assertion := by
    unfold getFreeBuffer
    rw [run_bind _ (run_getNewBuffer_full hfull)]
    dsimp only
    rw [run_bind _ (run_gets _ s), hlast]
    dsimp only
    rw [run_bind _ (run_modify _ s)]
    exact run_bind_error _ hremove
  exact run_bind_error _ hget

/-- `getblk` takes the buffer that was released longest ago and gives it the new key; all
other buffers stay as they are. -/
def Recycles (s : State τ α) (t : τ) (dev : ℤ) (block : ℕ) : Prop :=
  ∃ b s', (getblk t dev block).run s = .ok (some b, s', []) ∧
    s.freeList = s'.freeList ++ [b] ∧
    (s'.buffers b).dev = dev ∧ (s'.buffers b).block = block ∧ (s'.buffers b).count = 1 ∧
    (s'.buffers b).valid = false ∧ (∀ h, b ∈ s'.hashTable h ↔ h = hash dev block) ∧
    ∀ c ≠ b, s'.buffers c = s.buffers c ∧ ∀ h, c ∈ s'.hashTable h ↔ c ∈ s.hashTable h

omit [DecidableEq τ] in
theorem run_getblk_full (h : Inv strict calm none s) (hfull : ¬Room s.bufferCount)
    (hfree : s.freeList ≠ [])
    (hmiss : ∀ b < s.bufferCount, (s.buffers b).dev = dev → (s.buffers b).block ≠ block) :
    (getblk t dev block).run s = .error .assertion := by
  unfold getblk
  rw [run_bind _ (run_getFromHashTable_none h hmiss)]
  exact run_getblkFree_full h hfull hfree

omit [DecidableEq τ] [Fintype τ] in
theorem not_recycles (h : (getblk t dev block).run s = .error .assertion) :
    ¬Recycles s t dev block := by
  rintro ⟨b, s', hok, -⟩
  rw [h] at hok
  cases hok

end Recycling

/-! ## Filling the cache -/

/-- The cache reports nothing, so code that returns has one outcome. -/
theorem step_of_returns {a : Action τ α} {Q : State τ α → Prop} (ha : a.Balanced s)
    (h : Returns a.code (fun _ => Q) s) : ∃ s', Step s a s' ∧ Q s' := by
  obtain ⟨_, s', l, hrun, hQ⟩ := h
  obtain rfl : l = [] := Subsingleton.elim _ _
  exact ⟨s', ⟨ha, hrun⟩, hQ⟩

omit [DecidableEq τ] in
/-- While there is room, a new buffer is made. -/
theorem returns_getblkFree [Fintype τ] {strict calm : Prop} (h : Inv strict calm none s)
    (hroom : Room s.bufferCount) :
    Returns (getblkFree t dev block)
      (fun o s' => o = some s.bufferCount ∧ s' = s.grow dev block) s := by
  have hnot : ∀ k, s.bufferCount ∉ s.hashTable k :=
    fun k hmem => absurd ((h.chain k _).mp hmem).1 (lt_irrefl _)
  have hreturns : Returns (getblkFree t dev block) (fun _ _ => True) s := by
    unfold getblkFree getFreeBuffer getNewBuffer
    apply returns_bind
    apply returns_bind
    apply returns_bind
    apply returns_gets
    apply returns_ite
    · intro _
      apply returns_bind
      apply returns_modify
      apply returns_bind
      apply returns_modify
      apply returns_pure
      apply returns_pure
      unfold getBuf hashLocate modifyBuf
      apply returns_bind
      apply returns_gets
      apply returns_bind
      apply returns_check (by simp)
      apply returns_bind
      apply returns_check (by simp)
      apply returns_bind
      apply returns_modify
      apply returns_bind
      apply returns_bind
      apply returns_gets
      apply returns_bind
      apply returns_gets
      apply returns_bind
      apply returns_check (by simpa using hnot _)
      apply returns_modify
      exact returns_pure trivial
    · exact fun hfull => absurd hroom hfull
  obtain ⟨o, s', l, hrun, -⟩ := hreturns
  refine ⟨o, s', l, hrun, ?_⟩
  obtain ⟨ho, -, hs⟩ | ⟨-, hfull, -⟩ := wp_getblkFree h o s' l hrun (by simp)
  · exact ⟨ho, hs⟩
  · exact absurd hroom hfull

/-- One task has asked for blocks `0` to `n - 1` and holds all their buffers. -/
structure Filled (n : ℕ) (s : State Bool ℕ) : Prop where
  run : Run Step (fun _ _ => True) emptyCache s
  size : s.bufferCount = n
  free : s.freeList = []
  wait : s.waitList = []
  idle : ∀ t, (s.procs t).point = .idle
  held : ∀ b < n, (s.procs true).held b = 1 ∧ (s.procs false).held b = 0
  keys : ∀ b < n, (s.buffers b).dev = 0 ∧ (s.buffers b).block = b ∧ (s.buffers b).dirty = false

theorem Filled.inv {n : ℕ} {s : State Bool ℕ} (h : Filled n s) : Inv False False none s :=
  inv_of_run emptyCache_initial (h.run.weaken (by simp))

theorem Filled.miss {n block : ℕ} {s : State Bool ℕ} (h : Filled n s) (hn : n ≤ block) :
    ∀ b < s.bufferCount, (s.buffers b).dev = 0 → (s.buffers b).block ≠ block := by
  intro b hb _ hblock
  rw [h.size] at hb
  rw [(h.keys b hb).2.1] at hblock
  omega

theorem emptyCache_filled : Filled 0 emptyCache :=
  ⟨.refl, rfl, rfl, rfl, fun _ => rfl, by simp, by simp⟩

/-- The task asks for another block. -/
theorem Filled.grow {n : ℕ} {s : State Bool ℕ} (h : Filled n s) (hroom : Room n) :
    ∃ s', Filled (n + 1) s' := by
  have hinv := h.inv
  have hnone : ∀ t, (s.procs t).held n = 0 := by
    intro t
    have hpos := mt (hinv.lt_of_held (t := t) (b := n)) (by rw [h.size]; exact lt_irrefl n)
    omega
  have hreturns : Returns (Action.code (.getblk true 0 n) : C Bool ℕ Unit) (fun _ s' =>
      s' = (s.grow 0 n).setProc true ⟨.idle, fun c =>
        if c = n then (s.procs true).held c + 1 else (s.procs true).held c⟩) s := by
    unfold Action.code getblk
    apply returns_bind
    apply returns_bind
    refine ⟨none, s, [], run_getFromHashTable_none hinv (h.miss le_rfl), ?_⟩
    refine returns_mono (returns_getblkFree hinv (by rwa [h.size])) ?_
    rintro o s' ⟨rfl, rfl⟩
    unfold gotBuffer getBuf handOut setHeld
    apply returns_bind
    apply returns_gets
    apply returns_ite (by simp)
    intro _
    apply returns_modify
    have hidle : ((s.grow 0 n).procs true).point = .idle := h.idle true
    simp only [hidle, h.size]
    congr 2
  obtain ⟨s', hstep, rfl⟩ := step_of_returns (a := .getblk true 0 n) (h.idle true) hreturns
  refine ⟨_, h.run.tail trivial hstep, ?_, h.free, h.wait, ?_, ?_, ?_⟩
  · exact congrArg (· + 1) h.size
  · intro t
    cases t
    · exact h.idle false
    · rfl
  · intro b hb
    change (if b = n then _ else _) = 1 ∧ _
    obtain rfl | hlt := Nat.eq_or_lt_of_le (Nat.le_of_lt_succ hb)
    · rw [if_pos rfl, hnone true]
      exact ⟨rfl, hnone false⟩
    · rw [if_neg hlt.ne]
      exact h.held b hlt
  · intro b hb
    change ((s.grow 0 n).buffers b).dev = 0 ∧ _
    obtain rfl | hlt := Nat.eq_or_lt_of_le (Nat.le_of_lt_succ hb)
    · simp [State.grow, State.setProc, h.size]
    · simpa [State.grow, State.setProc, h.size, hlt.ne] using h.keys b hlt

theorem exists_filled {n : ℕ} (hroom : ∀ m < n, Room m) : ∃ s, Filled n s := by
  induction n with
  | zero => exact ⟨emptyCache, emptyCache_filled⟩
  | succ n ih =>
      obtain ⟨s, hs⟩ := ih fun m hm => hroom m (by omega)
      exact hs.grow (hroom n (by omega))

/-- The area has room for this many buffers. -/
theorem exists_full : ∃ s, Filled 3855 s := by
  apply exists_filled
  intro m hm
  simp only [Room, bufferPtr, bufferData, KERNEL_BUFFER_MEM, KERNEL_BUFFER_SIZE, BUFFER_T_SIZE,
    BLOCK_SIZE]
  omega

theorem not_room_full : ¬Room 3855 := by
  simp only [Room, bufferPtr, bufferData, KERNEL_BUFFER_MEM, KERNEL_BUFFER_SIZE, BUFFER_T_SIZE,
    BLOCK_SIZE]
  omega

theorem Filled.count_zero {n : ℕ} {s : State Bool ℕ} (h : Filled n s) (hn : 0 < n) :
    (s.buffers 0).count = 1 := by
  obtain ⟨hheld, hother⟩ := h.held 0 hn
  rw [h.inv.count 0 (by rw [h.size]; exact hn)]
  simp [State.refs, Proc.refs, hheld, hother, h.idle, Point.used]

/-- The task releases its first buffer. -/
theorem Filled.release {n : ℕ} {s : State Bool ℕ} (h : Filled n s) (hn : 0 < n) :
    ∃ s', Run Step (fun _ _ => True) emptyCache s' ∧ s'.bufferCount = n ∧ s'.freeList = [0] ∧
      ∀ b < s'.bufferCount, (s'.buffers b).dev = 0 → (s'.buffers b).block ≠ n := by
  obtain ⟨hheld, hother⟩ := h.held 0 hn
  obtain ⟨hdev, hblock, hdirty⟩ := h.keys 0 hn
  have hcount := h.count_zero hn
  have hreturns : Returns (Action.code (.brelse true 0) : C Bool ℕ Unit) (fun _ s' =>
      s'.bufferCount = n ∧ s'.freeList = [0] ∧
        ∀ b < n, (s'.buffers b).dev = (s.buffers b).dev ∧
          (s'.buffers b).block = (s.buffers b).block) s := by
    unfold Action.code brelse setHeld putRef getBuf modifyBuf wakeWaiter
    apply returns_bind
    apply returns_modify
    apply returns_bind
    apply returns_gets
    apply returns_ite (by simp [hdirty])
    intro _
    apply returns_bind
    apply returns_modify
    apply returns_bind
    apply returns_gets
    apply returns_bind
    apply returns_check (by simp [hcount])
    apply returns_ite
    · intro _
      apply returns_bind
      apply returns_gets
      apply returns_bind
      apply returns_check (by simp [h.free])
      apply returns_bind
      apply returns_modify
      apply returns_bind
      apply returns_gets
      simp only [State.setBuf_waitList, State.setProc_waitList, h.wait]
      apply returns_pure
      refine ⟨h.size, ?_, ?_⟩
      · simp [h.free]
      · intro b _
        by_cases hb : b = 0
        · subst b
          exact ⟨rfl, rfl⟩
        · simp [State.setBuf, hb]
    · simp [hcount]
  obtain ⟨s', hstep, hsize, hfree, hkeys⟩ :=
    step_of_returns (a := .brelse true 0) ⟨h.idle true, by omega⟩ hreturns
  refine ⟨s', h.run.tail trivial hstep, hsize, hfree, ?_⟩
  intro b hb _ hblock'
  rw [hsize] at hb
  rw [(hkeys b hb).2, (h.keys b hb).2.1] at hblock'
  omega

section Recycled

variable [Fintype τ]

/-- No buffer is ever recycled: once the area is used up, `getblk` stops at an assertion
for every block that is not cached while a released buffer is there. -/
theorem getblk_never_recycles {s₀ : State τ α} (h₀ : Initial s₀)
    (hrun : Run Step (fun _ _ => True) s₀ s) (hfull : ¬Room s.bufferCount)
    (hfree : s.freeList ≠ [])
    (hmiss : ∀ b < s.bufferCount, (s.buffers b).dev = dev → (s.buffers b).block ≠ block) :
    (getblk t dev block).run s = .error .assertion ∧ ¬Recycles s t dev block := by
  have hinv : Inv False False none s := inv_of_run h₀ (hrun.weaken (by simp))
  have hfault := run_getblk_full (t := t) hinv hfull hfree hmiss
  exact ⟨hfault, not_recycles hfault⟩

/-- The cache is full and one buffer has been released. -/
theorem full_never_recycles : ∃ s, Run Step (fun _ _ => True) emptyCache s ∧
    s.freeList = [0] ∧ (getblk true 0 3855).run s = .error .assertion := by
  obtain ⟨s₁, h₁⟩ := exists_full
  obtain ⟨s, hrun, hsize, hfree, hmiss⟩ := h₁.release (by decide)
  have hfault := getblk_never_recycles (t := true) emptyCache_initial hrun
    (by rw [hsize]; exact not_room_full) (by rw [hfree]; decide) hmiss
  exact ⟨s, hrun, hfree, hfault.1⟩

/-- A task has got a buffer for each of the blocks `0` to `3854`, and has released the first.
It asks for block `3855`. -/
theorem exists_not_recycled : ∃ s, Run Step (fun _ _ => True) emptyCache s ∧
    ¬Room s.bufferCount ∧ s.freeList ≠ [] ∧
    (∀ b < s.bufferCount, (s.buffers b).dev = 0 → (s.buffers b).block ≠ 3855) ∧
    ¬Recycles s true 0 3855 := by
  obtain ⟨s₁, h₁⟩ := exists_full
  obtain ⟨s, hrun, hsize, hfree, hmiss⟩ := h₁.release (by decide)
  have hfull : ¬Room s.bufferCount := by
    rw [hsize]
    exact not_room_full
  have hsome : s.freeList ≠ [] := by simp [hfree]
  have hinv : Inv False False none s := inv_of_run emptyCache_initial (hrun.weaken (by simp))
  exact ⟨s, hrun, hfull, hsome, hmiss, not_recycles (run_getblk_full hinv hfull hsome hmiss)⟩

end Recycled

/-! ## Waking a task that waits -/

/-- The tasks on the waiting list wait in `get_free_buffer`, each once. -/
structure Waits (s : State τ α) : Prop where
  nodup : s.waitList.Nodup
  point : ∀ u ∈ s.waitList, ∃ dev block reads, (s.procs u).point = .free dev block reads

/-- The code of `t` leaves the other tasks alone, and adds nobody to the waiting list. -/
def Leaves (t : τ) (s s' : State τ α) : Prop :=
  s'.waitList.Sublist s.waitList ∧ ∀ u ≠ t, s'.procs u = s.procs u

instance (t : τ) : IsPreorder (State τ α) (Leaves t) where
  refl _ := ⟨.refl _, fun _ _ => rfl⟩
  trans _ _ _ h h' := ⟨h'.1.trans h.1, fun u hu => (h'.2 u hu).trans (h.2 u hu)⟩

omit [DecidableEq τ] in
theorem Waits.leaves (h : Waits s) (ht : t ∉ s.waitList) (hl : Leaves t s s') : Waits s' := by
  refine ⟨h.nodup.sublist hl.1, ?_⟩
  intro u hu
  have hmem := hl.1.subset hu
  have hne : u ≠ t := by
    rintro rfl
    exact ht hmem
  rw [hl.2 u hne]
  exact h.point u hmem

/-- The task ends up on the waiting list. -/
theorem Waits.join {reads : Bool} (h : Waits s) (ht : t ∉ s.waitList)
    (hwait : s'.waitList = t :: s.waitList) (hpoint : (s'.procs t).point = .free dev block reads)
    (hprocs : ∀ u ≠ t, s'.procs u = s.procs u) : Waits s' := by
  refine ⟨?_, ?_⟩
  · rw [hwait]
    exact List.nodup_cons.mpr ⟨ht, h.nodup⟩
  · intro u hu
    rw [hwait] at hu
    by_cases heq : u = t
    · rw [heq]
      exact ⟨dev, block, reads, hpoint⟩
    · rw [hprocs u heq]
      exact h.point u ((List.mem_cons.mp hu).resolve_left heq)

section LeavesOf

omit [DecidableEq τ] in
theorem leaves_modifyBuf (c : ℕ) (f : Buffer τ α → Buffer τ α) :
    Keeps (Leaves t) (modifyBuf c f) :=
  keeps_modify fun _ => ⟨.refl _, fun _ _ => rfl⟩

theorem leaves_setPoint (p : Point) : Keeps (Leaves (α := α) t) (setPoint t p) :=
  keeps_modify fun _ => ⟨.refl _, fun _ hu => if_neg hu⟩

theorem leaves_setHeld (f : ℕ → ℕ) : Keeps (Leaves (α := α) t) (setHeld t b f) :=
  keeps_modify fun _ => ⟨.refl _, fun _ hu => if_neg hu⟩

theorem leaves_lockAcquire : Keeps (Leaves (α := α) t) (lockAcquire t b) := by
  unfold lockAcquire
  apply (keeps_gets _).bind
  intro buf
  apply Keeps.ite
  · exact (leaves_modifyBuf _ _).bind fun _ => keeps_pure _
  · apply Keeps.ite
    · exact (keeps_check _).bind fun _ => (leaves_modifyBuf _ _).bind fun _ => keeps_pure _
    · exact keeps_pure _

theorem leaves_lockRelease : Keeps (Leaves (α := α) t) (lockRelease t b) := by
  unfold lockRelease
  apply (keeps_gets _).bind
  intro buf
  apply (keeps_check _).bind
  intro _
  apply Keeps.ite
  · exact leaves_modifyBuf _ _
  · exact (keeps_check _).bind fun _ => leaves_modifyBuf _ _

theorem leaves_breadLock : Keeps (Leaves (α := α) t) (breadLock t b) := by
  unfold breadLock breadLocked
  apply leaves_lockAcquire.bind
  intro ok
  apply Keeps.ite
  · apply (keeps_gets _).bind
    intro buf
    apply Keeps.ite
    · exact leaves_lockRelease.bind fun _ => leaves_setHeld _
    · exact leaves_setPoint _
  · exact leaves_setPoint _

theorem leaves_breadOn (n : ℕ) : Keeps (Leaves (α := α) t) (breadOn t b n) := by
  unfold breadOn
  apply (keeps_gets _).bind
  intro buf
  apply Keeps.ite
  · apply (keeps_gets _).bind
    intro sector
    exact (leaves_modifyBuf _ _).bind fun _ => leaves_setPoint _
  · apply (leaves_modifyBuf _ _).bind
    intro _
    exact leaves_lockRelease.bind fun _ => leaves_setHeld _

theorem leaves_wakeWaiter : Keeps (Leaves (α := α) t) wakeWaiter := by
  unfold wakeWaiter
  apply (keeps_gets _).bind
  intro list
  cases list.getLast? with
  | none => exact keeps_pure _
  | some u =>
      apply (keeps_modify fun s => ⟨s.waitList.dropLast_sublist, fun _ _ => rfl⟩).bind
      intro _
      apply (keeps_gets _).bind
      intro _
      apply (keeps_check _).bind
      intro _
      exact keeps_modify fun s => ⟨List.erase_sublist, fun _ _ => rfl⟩

theorem leaves_putRef : Keeps (Leaves (α := α) t) (putRef b) := by
  unfold putRef
  apply (leaves_modifyBuf _ _).bind
  intro _
  apply (keeps_gets _).bind
  intro buf
  apply (keeps_check _).bind
  intro _
  apply Keeps.ite
  · apply (keeps_gets _).bind
    intro _
    apply (keeps_check _).bind
    intro _
    apply (keeps_modify fun s => ⟨.refl _, fun _ _ => rfl⟩).bind
    intro _
    exact leaves_wakeWaiter
  · exact keeps_pure _

theorem leaves_bwriteOn (n : ℕ) (releases : Bool) :
    Keeps (Leaves (α := α) t) (bwriteOn t b n releases) := by
  unfold bwriteOn
  apply (keeps_gets _).bind
  intro buf
  apply Keeps.ite
  · apply (keeps_modify fun s => ⟨.refl _, fun _ _ => rfl⟩).bind
    intro _
    exact leaves_setPoint _
  · apply (leaves_modifyBuf _ _).bind
    intro _
    apply Keeps.ite
    · exact leaves_putRef
    · exact keeps_pure _

theorem leaves_brelse : Keeps (Leaves (α := α) t) (brelse t b) := by
  unfold brelse
  apply (leaves_setHeld _).bind
  intro _
  apply (keeps_gets _).bind
  intro buf
  apply Keeps.ite
  · exact leaves_setPoint _
  · exact leaves_putRef

theorem leaves_bwrite : Keeps (Leaves (α := α) t) (bwrite t b) := by
  unfold bwrite
  apply (keeps_gets _).bind
  intro buf
  apply Keeps.ite
  · exact leaves_setPoint _
  · exact keeps_pure _

theorem leaves_gotBuffer (dev : ℤ) (block : ℕ) (reads : Bool) :
    Keeps (Leaves (α := α) t) (gotBuffer t dev block reads (some b)) := by
  unfold gotBuffer
  apply (keeps_gets _).bind
  intro buf
  apply Keeps.ite
  · exact leaves_breadLock
  · exact leaves_setHeld _

end LeavesOf

section WaitsRun

variable [Fintype τ] {strict calm : Prop}

omit [Fintype τ] [DecidableEq τ] in
theorem Waits.not_mem_of_idle (h : Waits s) (hidle : (s.procs t).point = .idle) :
    t ∉ s.waitList := by
  intro hmem
  obtain ⟨dev, block, reads, hpoint⟩ := h.point t hmem
  rw [hidle] at hpoint
  cases hpoint

/-- The part of `getblk` that makes a buffer or waits for one. -/
theorem wp_waits_getblkFree {reads : Bool} (h : Inv strict calm none s) (hw : Waits s)
    (ht : t ∉ s.waitList) :
    wp (fun _ => True) (getblkFree t dev block >>= gotBuffer t dev block reads)
      (fun _ s' => Waits s') s := by
  rw [wp_bind]
  refine wp_mono (wp_getblkFree h) ?_
  rintro o s' (⟨rfl, -, rfl⟩ | ⟨rfl, -, rfl⟩)
  · have hgrow : Waits (s.grow dev block) := ⟨hw.nodup, hw.point⟩
    exact (leaves_gotBuffer dev block reads).wp fun _ s' => hgrow.leaves ht
  · unfold gotBuffer setPoint
    rw [wp_modify]
    have hpoint : ((({ s with waitList := t :: s.waitList } : State τ α).setProc t
        { s.procs t with point := .free dev block reads }).procs t).point =
        .free dev block reads := by simp [State.setProc]
    exact hw.join ht rfl hpoint fun u hu => if_neg hu

theorem wp_waits_getblk {reads : Bool} (h : Inv strict calm none s) (hw : Waits s)
    (ht : t ∉ s.waitList) :
    wp (fun _ => True) (getblk t dev block >>= gotBuffer t dev block reads)
      (fun _ s' => Waits s') s := by
  unfold getblk
  simp only [wp_bind]
  refine wp_mono (wp_getFromHashTable h) ?_
  rintro o s' (⟨b, rfl, -, rfl⟩ | ⟨rfl, rfl, -⟩)
  · simp only [modifyBuf, wp_bind, wp_modify, wp_pure]
    have hw' : Waits ({ s with freeList := s.freeList.erase b } : State τ α) :=
      ⟨hw.nodup, hw.point⟩
    exact (leaves_gotBuffer dev block reads).wp fun _ s' =>
      Waits.leaves (s := State.setBuf _ b _) ⟨hw.nodup, hw.point⟩ ht
  · rw [← wp_bind]
    exact wp_waits_getblkFree h hw ht

theorem wp_waits_code {a : Action τ α} (h : Inv strict calm none s) (hw : Waits s)
    (hbalanced : a.Balanced s) : wp (fun _ => True) a.code (fun _ s' => Waits s') s := by
  cases a with
  | getblk t dev block => exact wp_waits_getblk h hw (hw.not_mem_of_idle hbalanced)
  | bread t dev block => exact wp_waits_getblk h hw (hw.not_mem_of_idle hbalanced)
  | alter t b i v =>
      exact (leaves_modifyBuf b fun buf => { buf.setSector i v with dirty := true }).wp
        fun _ s' => hw.leaves (hw.not_mem_of_idle hbalanced.1)
  | bwrite t b => exact leaves_bwrite.wp fun _ s' => hw.leaves (hw.not_mem_of_idle hbalanced.1)
  | brelse t b => exact leaves_brelse.wp fun _ s' => hw.leaves (hw.not_mem_of_idle hbalanced.1)
  | resume t =>
      have ht : t ∉ s.waitList := by
        intro hmem
        obtain ⟨dev, block, reads, hpoint⟩ := hw.point t hmem
        exact hbalanced.2 dev block reads hpoint hmem
      have h' := h.unblock (t := t)
      have hw' : Waits (s.setProc t { s.procs t with point := .idle }) :=
        hw.leaves ht ⟨.refl _, fun u hu => if_neg hu⟩
      simp only [Action.code, setPoint, wp_bind, wp_gets, wp_modify]
      cases hp : (s.procs t).point with
      | idle => exact (keeps_pure ()).wp fun _ s' => hw'.leaves ht
      | free dev block reads =>
          rw [hp] at h'
          exact wp_waits_getblkFree h' hw' ht
      | lock b => exact leaves_breadLock.wp fun _ s' => hw'.leaves ht
      | read b n => exact (leaves_breadOn n).wp fun _ s' => hw'.leaves ht
      | write b n releases => exact (leaves_bwriteOn n releases).wp fun _ s' => hw'.leaves ht

theorem waits_of_run {s₀ : State τ α} (h₀ : Initial s₀)
    (hrun : Run Step (fun _ _ => True) s₀ s) : Inv False False none s ∧ Waits s := by
  refine hrun.invariant (P := fun s => Inv False False none s ∧ Waits s) ?_
    ⟨inv_initial h₀, by simp [h₀.wait], by simp [h₀.wait]⟩
  rintro s a s' ⟨h, hw⟩ - hstep
  exact ⟨wp_code h hstep.1 (by simp) (by simp) () s' [] hstep.2 (by simp),
    wp_waits_code h hw hstep.1 () s' [] hstep.2 (by simp)⟩

end WaitsRun

/-- The reference that `a` releases to `b` is the last one. -/
def Drops (s : State τ α) (b : ℕ) : Action τ α → Prop
  | .brelse _ c => c = b ∧ (s.buffers b).dirty = false ∧ (s.buffers b).count = 1
  | .resume t => (∃ n, (s.procs t).point = .write b n true ∧ BLOCK_SECS ≤ n) ∧
      (s.buffers b).count = 1
  | _ => False

/-- The buffer becomes free, and the task that has waited longest is taken from the
waiting list and may run. -/
def Wakes (s : State τ α) (a : Action τ α) (b : ℕ) : Prop :=
  ∃ u s', a.code.run s = .ok ((), s', []) ∧ s'.freeList = b :: s.freeList ∧
    s.waitList = s'.waitList ++ [u] ∧ u ∉ s'.waitList

/-- The waiter has been unlinked by `list_popback` when `task_unblock` looks for it. -/
theorem run_wakeWaiter_waiting (hnodup : s.waitList.Nodup) (hwait : s.waitList ≠ []) :
    (wakeWaiter : C τ α Unit).run s = .error .assertion := by
  have hlast : s.waitList.getLast? = some (s.waitList.getLast hwait) :=
    List.getLast?_eq_some_getLast hwait
  have hnot : s.waitList.getLast hwait ∉ s.waitList.dropLast := by
    have hsplit := List.dropLast_append_getLast hwait
    rw [← hsplit, List.nodup_append] at hnodup
    intro hmem
    exact hnodup.2.2 _ hmem _ (List.mem_singleton_self _) rfl
  unfold wakeWaiter
  rw [run_bind _ (run_gets _ s), hlast]
  dsimp only
  rw [run_bind _ (run_modify _ s), run_bind _ (run_gets _ _)]
  exact run_bind_error _ (run_check_neg hnot _)

theorem run_putRef_waiting (hcount : (s.buffers b).count = 1) (hfree : b ∉ s.freeList)
    (hnodup : s.waitList.Nodup) (hwait : s.waitList ≠ []) :
    (putRef b).run s = .error .assertion := by
  unfold putRef modifyBuf getBuf
  rw [run_bind _ (run_modify _ s), run_bind _ (run_gets _ _),
    run_bind _ (run_check_pos (by simp [hcount]) _), if_pos (by simp [hcount]),
    run_bind _ (run_gets _ _), run_bind _ (run_check_pos (by simpa using hfree) _),
    run_bind _ (run_modify _ _)]
  exact run_wakeWaiter_waiting hnodup hwait

theorem run_drops_waiting [Fintype τ] {strict calm : Prop} {a : Action τ α}
    (h : Inv strict calm none s) (hw : Waits s) (hwait : s.waitList ≠ []) (hdrops : Drops s b a) :
    a.code.run s = .error .assertion := by
  have hfree : (s.buffers b).count = 1 → b ∉ s.freeList := by
    intro hone hmem
    have hzero := ((h.free b).mp hmem).2
    omega
  cases a with
  | brelse t c =>
      obtain ⟨rfl, hdirty, hone⟩ := hdrops
      unfold Action.code brelse setHeld getBuf
      rw [run_bind _ (run_modify _ s), run_bind _ (run_gets _ _), if_neg (by simp [hdirty])]
      exact run_putRef_waiting hone (hfree hone) hw.nodup hwait
  | resume t =>
      obtain ⟨⟨n, hpoint, hn⟩, hone⟩ := hdrops
      unfold Action.code setPoint
      rw [run_bind _ (run_gets _ s), run_bind _ (run_modify _ s), hpoint]
      unfold resume bwriteOn getBuf modifyBuf
      rw [run_bind _ (run_gets _ _), if_neg (by omega), run_bind _ (run_modify _ _), if_pos rfl]
      exact run_putRef_waiting (by simp [hone]) (hfree hone) hw.nodup hwait
  | _ => exact hdrops.elim

theorem not_wakes {a : Action τ α} (h : a.code.run s = .error .assertion) : ¬Wakes s a b := by
  rintro ⟨u, s', hok, -⟩
  rw [h] at hok
  cases hok

/-- No waiting task is ever woken: while a task waits, the release that frees a buffer stops
at an assertion. -/
theorem release_never_wakes [Fintype τ] {s₀ : State τ α} (h₀ : Initial s₀)
    (hrun : Run Step (fun _ _ => True) s₀ s) (hwait : s.waitList ≠ []) {a : Action τ α}
    (hdrops : Drops s b a) : a.code.run s = .error .assertion ∧ ¬Wakes s a b := by
  obtain ⟨h, hw⟩ := waits_of_run h₀ hrun
  have hfault := run_drops_waiting h hw hwait hdrops
  exact ⟨hfault, not_wakes hfault⟩

/-- The other task asks for a block when every buffer is made and held. -/
theorem Filled.starve {n : ℕ} {s : State Bool ℕ} (h : Filled n s) (hfull : ¬Room n) (hn : 0 < n) :
    ∃ s', Run Step (fun _ _ => True) emptyCache s' ∧ s'.waitList = [false] ∧
      Action.Balanced s' (.brelse true 0) ∧ Drops s' 0 (.brelse true 0) := by
  have hreturns : Returns (Action.code (.getblk false 0 n) : C Bool ℕ Unit) (fun _ s' =>
      s'.waitList = [false] ∧ s'.buffers = s.buffers ∧ s'.procs true = s.procs true) s := by
    unfold Action.code getblk getblkFree getFreeBuffer
    apply returns_bind
    apply returns_bind
    refine ⟨none, s, [], run_getFromHashTable_none h.inv (h.miss le_rfl), ?_⟩
    apply returns_bind
    apply returns_bind
    refine ⟨none, s, [], run_getNewBuffer_full (by rw [h.size]; exact hfull), ?_⟩
    apply returns_bind
    apply returns_gets
    rw [h.free]
    apply returns_bind
    apply returns_modify
    apply returns_pure
    apply returns_pure
    apply returns_modify
    simp [h.wait, State.setProc]
  obtain ⟨s', hstep, hwait, hbuffers, hproc⟩ :=
    step_of_returns (a := .getblk false 0 n) (h.idle false) hreturns
  obtain ⟨hdev, hblock, hdirty⟩ := h.keys 0 hn
  refine ⟨s', h.run.tail trivial hstep, hwait, ⟨?_, ?_⟩, rfl, ?_, ?_⟩
  · rw [hproc, h.idle]
  · rw [hproc, (h.held 0 hn).1]
    exact Nat.one_pos
  · rw [hbuffers, hdirty]
  · rw [hbuffers, h.count_zero hn]

/-- The cache is full and a task waits for a buffer when another releases one. -/
theorem full_never_wakes : ∃ s, Run Step (fun _ _ => True) emptyCache s ∧
    s.waitList = [false] ∧ Drops s 0 (.brelse true 0) ∧
    (Action.code (.brelse true 0)).run s = .error .assertion := by
  obtain ⟨s₁, h₁⟩ := exists_full
  obtain ⟨s, hrun, hwait, -, hdrops⟩ := h₁.starve not_room_full (by decide)
  have hfault := release_never_wakes emptyCache_initial hrun (by rw [hwait]; decide) hdrops
  exact ⟨s, hrun, hwait, hdrops, hfault.1⟩

/-- A task has got a buffer for each of the blocks `0` to `3854`, another waits for a buffer
for block `3855`, and the first task releases the buffer of block `0`. -/
theorem exists_not_woken : ∃ s, Run Step (fun _ _ => True) emptyCache s ∧
    s.waitList = [false] ∧ Action.Balanced s (.brelse true 0) ∧ Drops s 0 (.brelse true 0) ∧
    ¬Wakes s (.brelse true 0) 0 := by
  obtain ⟨s₁, h₁⟩ := exists_full
  obtain ⟨s, hrun, hwait, hbalanced, hdrops⟩ := h₁.starve not_room_full (by decide)
  obtain ⟨h, hw⟩ := waits_of_run emptyCache_initial hrun
  have hfault := run_drops_waiting h hw (by rw [hwait]; decide) hdrops
  exact ⟨s, hrun, hwait, hbalanced, hdrops, not_wakes hfault⟩

end Ylos.Cache
