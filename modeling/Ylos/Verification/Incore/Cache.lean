import Ylos.Model.Incore
import Ylos.Verification.Buffer.Invariant

/-! # What the buffer cache promises to `iget`

A buffer keeps its block: one of the free list would have to leave the hash table, and
`hash_remove` asserts that it is not there. -/

namespace Ylos.Incore

open Exec Cache

variable {τ α : Type}

/-- Every buffer is found in the hash table, and valid data is that of the device. -/
structure Sound (c : Cache.State τ α) : Prop where
  chain : ∀ b < c.bufferCount, b ∈ c.hashTable (hash (c.buffers b).dev (c.buffers b).block)
  table : ∀ h, ∀ b ∈ c.hashTable h, b < c.bufferCount
  free : ∀ b ∈ c.freeList, b < c.bufferCount
  clean : ∀ b < c.bufferCount, (c.buffers b).dirty = false
  data : ∀ b < c.bufferCount, (c.buffers b).valid = true →
    (c.buffers b).data = c.disk (c.buffers b).dev (c.buffers b).block

/-- Buffer `b` is that of the block. -/
structure Caches (c : Cache.State τ α) (b : ℕ) (dev : ℤ) (block : ℕ) : Prop where
  lt : b < c.bufferCount
  dev : (c.buffers b).dev = dev
  block : (c.buffers b).block = block

/-- The cache has gone on: buffers keep their blocks, and stay valid. -/
structure Grown (c c' : Cache.State τ α) : Prop where
  count : c.bufferCount ≤ c'.bufferCount
  dev : ∀ b < c.bufferCount, (c'.buffers b).dev = (c.buffers b).dev
  block : ∀ b < c.bufferCount, (c'.buffers b).block = (c.buffers b).block
  valid : ∀ b < c.bufferCount, (c.buffers b).valid = true → (c'.buffers b).valid = true
  disk : c'.disk = c.disk

variable {c c' c'' : Cache.State τ α} {b block : ℕ} {dev : ℤ} {t : τ}

theorem Grown.refl (c : Cache.State τ α) : Grown c c :=
  ⟨le_rfl, fun _ _ => rfl, fun _ _ => rfl, fun _ _ h => h, rfl⟩

theorem Grown.trans (h : Grown c c') (h' : Grown c' c'') : Grown c c'' where
  count := h.count.trans h'.count
  dev b hb := (h'.dev b (hb.trans_le h.count)).trans (h.dev b hb)
  block b hb := (h'.block b (hb.trans_le h.count)).trans (h.block b hb)
  valid b hb hvalid := h'.valid b (hb.trans_le h.count) (h.valid b hb hvalid)
  disk := h'.disk.trans h.disk

theorem Caches.grown (h : Caches c b dev block) (hgrown : Grown c c') : Caches c' b dev block :=
  ⟨h.lt.trans_le hgrown.count, (hgrown.dev b h.lt).trans h.dev,
    (hgrown.block b h.lt).trans h.block⟩

/-! ## Buffers that stay -/

theorem setBuf_self (v : Buffer τ α) : (c.setBuf b v).buffers b = v := if_pos rfl

theorem setBuf_ne (v : Buffer τ α) {k : ℕ} (hk : k ≠ b) :
    (c.setBuf b v).buffers k = c.buffers k := if_neg hk

/-- A change of a buffer that keeps its block and what it has read. -/
theorem Sound.setBuf (h : Sound c) {v : Buffer τ α} (hdev : v.dev = (c.buffers b).dev)
    (hblock : v.block = (c.buffers b).block) (hdirty : v.dirty = false)
    (hvalid : v.valid = true → v.data = c.disk v.dev v.block) : Sound (c.setBuf b v) := by
  have hkeep : ∀ k, ((c.setBuf b v).buffers k).dev = (c.buffers k).dev ∧
      ((c.setBuf b v).buffers k).block = (c.buffers k).block := by
    intro k
    by_cases hk : k = b
    · rw [hk, setBuf_self]
      exact ⟨hdev, hblock⟩
    · rw [setBuf_ne v hk]
      exact ⟨rfl, rfl⟩
  refine ⟨fun k hk => ?_, h.table, h.free, fun k hk => ?_, fun k hk hkvalid => ?_⟩
  · rw [(hkeep k).1, (hkeep k).2]
    exact h.chain k hk
  · by_cases hkb : k = b
    · rw [hkb, setBuf_self]
      exact hdirty
    · rw [setBuf_ne v hkb]
      exact h.clean k hk
  · by_cases hkb : k = b
    · rw [hkb, setBuf_self] at hkvalid ⊢
      exact hvalid hkvalid
    · rw [setBuf_ne v hkb] at hkvalid ⊢
      exact h.data k hk hkvalid

theorem Grown.setBuf {v : Buffer τ α} (hdev : v.dev = (c.buffers b).dev)
    (hblock : v.block = (c.buffers b).block)
    (hvalid : (c.buffers b).valid = true → v.valid = true) : Grown c (c.setBuf b v) := by
  have hbuf : ∀ k, ((c.setBuf b v).buffers k).dev = (c.buffers k).dev ∧
      ((c.setBuf b v).buffers k).block = (c.buffers k).block ∧
      ((c.buffers k).valid = true → ((c.setBuf b v).buffers k).valid = true) := by
    intro k
    by_cases hk : k = b
    · rw [hk, setBuf_self]
      exact ⟨hdev, hblock, hvalid⟩
    · rw [setBuf_ne v hk]
      exact ⟨rfl, rfl, id⟩
  exact ⟨le_rfl, fun k _ => (hbuf k).1, fun k _ => (hbuf k).2.1, fun k _ => (hbuf k).2.2, rfl⟩

/-! ## `getblk` -/

/-- What `getblk` may answer. -/
structure Got (c : Cache.State τ α) (dev : ℤ) (block : ℕ) (r : Option ℕ)
    (c' : Cache.State τ α) : Prop where
  sound : Sound c'
  grown : Grown c c'
  caches : ∀ b, r = some b → Caches c' b dev block

/-- Other lists of free buffers and waiting tasks. -/
theorem Sound.setLists (h : Sound c) (hbuffers : c'.buffers = c.buffers)
    (hcount : c'.bufferCount = c.bufferCount) (htable : c'.hashTable = c.hashTable)
    (hdisk : c'.disk = c.disk) (hfree : ∀ b ∈ c'.freeList, b < c.bufferCount) :
    Sound c' ∧ Grown c c' := by
  refine ⟨⟨?_, ?_, ?_, ?_, ?_⟩, ⟨hcount.ge, fun b _ => by rw [hbuffers],
    fun b _ => by rw [hbuffers], fun b _ hb => by rwa [hbuffers], hdisk⟩⟩
  · rw [hbuffers, hcount, htable]
    exact h.chain
  · rw [hcount, htable]
    exact h.table
  · rw [hcount]
    exact hfree
  · rw [hbuffers, hcount]
    exact h.clean
  · rw [hbuffers, hcount, hdisk]
    exact h.data

/-- A new buffer, found in its chain. -/
theorem Sound.grow (h : Sound c) (dev : ℤ) (block : ℕ) :
    Got c dev block (some c.bufferCount) (c.grow dev block) := by
  have hnew : (c.grow dev block).buffers c.bufferCount =
      ⟨(c.buffers c.bufferCount).data, dev, block, 1, ⟨none, 0⟩, false, false⟩ := if_pos rfl
  have hold : ∀ b < c.bufferCount, (c.grow dev block).buffers b = c.buffers b :=
    fun b hb => if_neg hb.ne
  have hlt : ∀ {b}, b < c.bufferCount + 1 → b < c.bufferCount ∨ b = c.bufferCount :=
    fun hb => Nat.lt_succ_iff_lt_or_eq.mp hb
  refine ⟨⟨fun b hb => ?_, fun k b hb => ?_, fun b hb => Nat.lt_succ_of_lt (h.free b hb),
    fun b hb => ?_, fun b hb hvalid => ?_⟩,
    ⟨Nat.le_succ _, fun b hb => by rw [hold b hb], fun b hb => by rw [hold b hb],
      fun b hb hvalid => by rwa [hold b hb], rfl⟩, ?_⟩
  · change b ∈ if _ = hash dev block then _ else _
    rcases hlt hb with hb | rfl
    · rw [hold b hb]
      have hmem := h.chain b hb
      split
      · exact List.mem_cons_of_mem _ hmem
      · exact hmem
    · rw [hnew, if_pos rfl]
      exact List.mem_cons_self
  · change b ∈ (if k = hash dev block then _ else _ : List ℕ) at hb
    split at hb
    · rcases List.mem_cons.mp hb with rfl | hb
      · exact Nat.lt_succ_self _
      · exact Nat.lt_succ_of_lt (h.table k b hb)
    · exact Nat.lt_succ_of_lt (h.table k b hb)
  · rcases hlt hb with hb | rfl
    · rw [hold b hb]
      exact h.clean b hb
    · rw [hnew]
  · rcases hlt hb with hb | rfl
    · rw [hold b hb] at hvalid ⊢
      exact h.data b hb hvalid
    · rw [hnew] at hvalid
      cases hvalid
  · rintro _ ⟨⟩
    exact ⟨Nat.lt_succ_self _, by rw [hnew], by rw [hnew]⟩

/-- Only a new buffer comes out of `get_free_buffer`. -/
theorem wp_getblkFree (h : Sound c) :
    wp (fun _ => True) (getblkFree t dev block) (fun r c' => Got c dev block r c') c := by
  unfold getblkFree getFreeBuffer getNewBuffer hashLocate hashRemove modifyBuf getBuf
  simp only [wp_bind, wp_gets, wp_ite, wp_modify, wp_pure, wp_check]
  constructor
  · intro _
    rintro - - -
    have hgrow := h.grow dev block
    convert hgrow using 1
    simp only [State.setBuf, State.setChain, State.grow, if_true]
    congr
    · funext b
      split
      · rename_i heq
        rw [heq]
      · rfl
    · funext k
      by_cases hk : k = hash dev block
      · simp only [hk, if_true]
      · simp only [hk, if_false]
  · intro _
    cases hlast : c.freeList.getLast? with
    | none =>
        simp only [wp_bind, wp_modify]
        rw [wp_pure, wp_pure]
        obtain ⟨hsound, hgrown⟩ := @Sound.setLists _ _ _ { c with waitList := t :: c.waitList }
          h rfl rfl rfl rfl h.free
        exact ⟨hsound, hgrown, by simp⟩
    | some b =>
        have hmem := h.chain b (h.free b (List.mem_of_getLast? hlast))
        simp only [wp_bind, wp_modify, wp_gets, wp_check]
        exact fun hnot => absurd hmem hnot

theorem wp_getblk (h : Sound c) :
    wp (fun _ => True) (getblk t dev block) (fun r c' => Got c dev block r c') c := by
  unfold getblk getFromHashTable
  simp only [wp_bind, wp_get]
  cases hfind : (c.hashTable (hash dev block)).find? fun b =>
      (c.buffers b).dev = dev ∧ (c.buffers b).block = block with
  | none =>
      rw [wp_pure]
      exact wp_getblkFree h
  | some b =>
      have hkey := List.find?_some hfind
      simp only [decide_eq_true_eq] at hkey
      have hb : b < c.bufferCount := h.table _ b (List.mem_of_find?_eq_some hfind)
      have hgot : ∀ l : List ℕ, (∀ b ∈ l, b < c.bufferCount) → ∀ v : Buffer τ α,
          v = { c.buffers b with count := (c.buffers b).count + 1 } →
          Got c dev block (some b) (State.setBuf { c with freeList := l } b v) := by
        rintro l hl _ rfl
        obtain ⟨hsound, hgrown⟩ := @Sound.setLists _ _ _ { c with freeList := l } h rfl rfl rfl rfl hl
        refine ⟨hsound.setBuf rfl rfl (h.clean b hb) (h.data b hb),
          hgrown.trans (.setBuf rfl rfl id), ?_⟩
        rintro _ ⟨⟩
        exact ⟨hb, by rw [setBuf_self]; exact hkey.1, by rw [setBuf_self]; exact hkey.2⟩
      unfold modifyBuf
      simp only [wp_bind, wp_ite, wp_modify]
      refine ⟨fun _ => (wp_pure _).mpr ?_, fun _ => (wp_pure _).mpr ?_⟩
      · simp only [wp_bind, wp_modify]
        exact (wp_pure _).mpr (hgot _ (fun k hk => h.free k (List.mem_of_mem_erase hk)) _ rfl)
      · simp only [wp_bind, wp_modify]
        exact (wp_pure _).mpr (hgot _ h.free _ rfl)

/-! ## Locks and references -/

variable [DecidableEq τ]

theorem wp_lockAcquire (h : Sound c) (hb : b < c.bufferCount) :
    wp (fun _ => True) (lockAcquire t b) (fun _ c' => Sound c' ∧ Grown c c') c := by
  have hset : ∀ lock : Lock τ, Sound (c.setBuf b { c.buffers b with lock := lock }) ∧
      Grown c (c.setBuf b { c.buffers b with lock := lock }) := fun lock =>
    ⟨h.setBuf rfl rfl (h.clean b hb) (h.data b hb), .setBuf rfl rfl id⟩
  unfold lockAcquire getBuf modifyBuf
  simp only [wp_bind, wp_gets, wp_ite, wp_modify, wp_check]
  refine ⟨fun _ => (wp_pure _).mpr (hset _), fun _ => ⟨fun _ _ => (wp_pure _).mpr (hset _),
    fun _ => (wp_pure _).mpr ⟨h, .refl c⟩⟩⟩

theorem wp_lockRelease (h : Sound c) (hb : b < c.bufferCount) :
    wp (fun _ => True) (lockRelease t b) (fun _ c' => Sound c' ∧ Grown c c') c := by
  have hset : ∀ lock : Lock τ, Sound (c.setBuf b { c.buffers b with lock := lock }) ∧
      Grown c (c.setBuf b { c.buffers b with lock := lock }) := fun lock =>
    ⟨h.setBuf rfl rfl (h.clean b hb) (h.data b hb), .setBuf rfl rfl id⟩
  unfold lockRelease getBuf modifyBuf
  simp only [wp_bind, wp_gets, wp_ite, wp_modify, wp_check]
  exact fun _ => ⟨fun _ => hset _, fun _ _ => hset _⟩

theorem wp_putRef (h : Sound c) (hb : b < c.bufferCount) :
    wp (fun _ => True) (putRef b) (fun _ c' => Sound c' ∧ Grown c c') c := by
  have hset : ∀ n : ℤ, Sound (c.setBuf b { c.buffers b with count := n }) ∧
      Grown c (c.setBuf b { c.buffers b with count := n }) := fun n =>
    ⟨h.setBuf rfl rfl (h.clean b hb) (h.data b hb), .setBuf rfl rfl id⟩
  unfold putRef getBuf modifyBuf wakeWaiter
  simp only [wp_bind, wp_gets, wp_ite, wp_modify, wp_check]
  refine fun _ => ⟨fun _ _ => ?_, fun _ => (wp_pure _).mpr (hset _)⟩
  obtain ⟨hsound, hgrown⟩ := hset ((c.buffers b).count - 1)
  have hfree : ∀ k ∈ b :: c.freeList, k < c.bufferCount := by
    intro k hk
    rcases List.mem_cons.mp hk with rfl | hk
    · exact hb
    · exact h.free k hk
  have hlists : ∀ c', c'.buffers = (c.setBuf b { c.buffers b with
      count := (c.buffers b).count - 1 }).buffers → c'.bufferCount = c.bufferCount →
      c'.hashTable = c.hashTable → c'.disk = c.disk → c'.freeList = b :: c.freeList →
      Sound c' ∧ Grown c c' := by
    intro c' hbuffers hcount htable hdisk hlist
    obtain ⟨hsound', hgrown'⟩ := hsound.setLists hbuffers hcount htable hdisk (hlist ▸ hfree)
    exact ⟨hsound', hgrown.trans hgrown'⟩
  split
  · exact (wp_pure _).mpr (hlists _ rfl rfl rfl rfl rfl)
  · simp only [wp_bind, wp_modify, wp_gets, wp_check]
    exact fun _ => hlists _ rfl rfl rfl rfl rfl

end Ylos.Incore
