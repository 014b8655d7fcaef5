import Ylos.Verification.Arena.Malloc

/-! # `arena_init` -/

namespace Ylos.Heap

open Exec Function

variable {img : Image} {s : State} {c : Class} {mem : ℕ → ℕ}

/-- No arena, and no free block. -/
def Layout.nothing : Layout := ⟨fun _ => none, fun _ => [], fun _ => 0⟩

/-- The descriptor of a class without free blocks. -/
structure Ready (img : Image) (mem : ℕ → ℕ) (c : Class) : Prop where
  total : mem (img.desc c) = total c
  size : mem (img.desc c + 4) = blockSize c
  chain : Chain mem (img.list c) [] (img.list c + 8)

/-- The memory after a round of the loop. -/
def readied (mem : ℕ → ℕ) (desc bs n : ℕ) : ℕ → ℕ :=
  update (update (update (update (update (update mem (desc + 4) bs) desc n) (desc + 12) 0)
    (desc + 24) 0) (desc + 16) (desc + 20)) (desc + 20) (desc + 12)

theorem run_initRound (left : ℕ) :
    (initLoop img (left + 1) c (blockSize c)).run s =
      (initLoop img left (c + 1) (16 * 2 ^ (c.val + 1))).run
        { s with mem := readied s.mem (img.desc c) (blockSize c) (total c) } := by
  have hdouble : u32 (blockSize c * 2) = 16 * 2 ^ (c.val + 1) := by
    have hle := blockSize_le c
    unfold u32 blockSize at *
    omega
  have hinit : ∀ (list : ℕ) (s : State), (listInit list).run s =
      .ok ((), ⟨s.kernelMap, update (update (update (update s.mem list 0) (list + 12) 0) (list + 4)
        (list + 8)) (list + 8) list⟩, []) := fun _ _ => rfl
  change run (store _ _ >>= fun _ => store _ _ >>= fun _ => listInit _ >>= fun _ =>
    initLoop img left _ (u32 (blockSize c * 2))) s = _
  rw [hdouble, run_bind _ (run_store ..), run_bind _ (run_store ..), run_bind _ (hinit ..)]
  rfl

theorem ready_readied (mem : ℕ → ℕ) :
    Ready img (readied mem (img.desc c) (blockSize c) (total c)) c := by
  unfold readied
  constructor
  · rw [update_of_ne (by omega), update_of_ne (by omega), update_of_ne (by omega),
      update_of_ne (by omega), update_self]
  · rw [update_of_ne (by omega), update_of_ne (by omega), update_of_ne (by omega),
      update_of_ne (by omega), update_of_ne (by omega), update_self]
  · constructor
    · change update (update _ _ _) _ _ (img.desc c + 16) = _
      rw [update_of_ne (by omega), update_self]
      rfl
    · exact update_self ..

theorem Ready.readied {c' : Class} (h : Ready img mem c') (hne : c' ≠ c) (bs n : ℕ) :
    Ready img (readied mem (img.desc c) bs n) c' := by
  have hapart := img.desc_apart hne
  have hsame : ∀ i < 28, Heap.readied mem (img.desc c) bs n (img.desc c' + i) =
      mem (img.desc c' + i) := by
    intro i hi
    unfold Heap.readied
    rw [update_of_ne (by omega), update_of_ne (by omega), update_of_ne (by omega),
      update_of_ne (by omega), update_of_ne (by omega), update_of_ne (by omega)]
  refine ⟨(hsame 0 (by omega)).trans h.total, (hsame 4 (by omega)).trans h.size, ?_⟩
  exact h.chain.congr (hsame 16 (by omega)) (hsame 20 (by omega)) fun x hx =>
    absurd hx List.not_mem_nil

theorem run_initLoop (img : Image) {left i : ℕ} (hi : i + left = DESC_COUNT)
    (h : ∀ c : Class, c.val < i → Ready img s.mem c) :
    ∃ mem, (initLoop img left i (16 * 2 ^ i)).run s = .ok ((), { s with mem := mem }, []) ∧
      ∀ c, Ready img mem c := by
  induction left generalizing s i with
  | zero => exact ⟨s.mem, rfl, fun c => h c (by have hc := c.isLt; omega)⟩
  | succ left ih =>
      have hlt : i < DESC_COUNT := by omega
      let c₀ : Class := ⟨i, hlt⟩
      have hready : ∀ c : Class, c.val < i + 1 →
          Ready img (readied s.mem (img.desc c₀) (blockSize c₀) (total c₀)) c := by
        intro c hc
        by_cases hcc : c = c₀
        · rw [hcc]
          exact ready_readied s.mem
        · have hval : c.val ≠ i := fun heq => hcc (Fin.ext heq)
          exact (h c (by omega)).readied hcc _ _
      obtain ⟨mem, hrun, hall⟩ := ih (i := i + 1) (s := ⟨s.kernelMap, _⟩) (by omega) hready
      exact ⟨mem, (run_initRound (c := c₀) left).trans hrun, hall⟩

/-- After `arena_init` there is no arena and no free block. -/
theorem run_arenaInit (img : Image) (s : State) :
    ∃ mem, (arenaInit img).run s = .ok ((), { s with mem := mem }, []) ∧
      Stored img .nothing mem := by
  obtain ⟨mem, hrun, hready⟩ := run_initLoop img (s := s) (i := 0)
    (Nat.zero_add DESC_COUNT) fun c hc => absurd hc (Nat.not_lt_zero _)
  refine ⟨mem, hrun, fun c => (hready c).total, fun c => (hready c).size,
    fun c => (hready c).chain, ?_⟩
  rintro a k ⟨⟩

theorem inv_boot {pages : Set ℕ} (hmapped : Mapped s.kernelMap pages)
    (hstored : Stored img .nothing s.mem) : Inv img .nothing [] pages s := by
  have hcovered : Layout.nothing.covered = ∅ := by
    ext q
    constructor
    · rintro ⟨a, k, ⟨⟩, -⟩
    · rintro ⟨⟩
  refine ⟨?_, ?_, hstored, ⟨⟨?_, ?_, fun c => List.nodup_nil, ?_⟩, ?_, ?_, ?_, ?_, ?_,
    List.nodup_nil, ?_⟩, ?_⟩
  · rwa [hcovered, Set.union_empty]
  · rw [hcovered]
    exact Set.disjoint_empty _
  · rintro a k ⟨⟩
  · rintro a k ⟨⟩
  · exact fun c b hb => absurd hb List.not_mem_nil
  · rintro a k ⟨⟩
  · rintro a k a' k' ⟨⟩
  · rintro c b ⟨⟨⟩, -⟩
  · rintro a c ⟨⟩
  · rintro a n ⟨⟩
  · exact fun x hx => absurd hx List.not_mem_nil
  · rintro a k ⟨⟩

end Ylos.Heap
