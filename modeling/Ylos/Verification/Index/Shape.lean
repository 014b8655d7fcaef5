import Ylos.Verification.Dir.Reading

/-! # The index tree of an inode

The block numbers of a file hang off its descriptor: seven of them at once, the others below
one and two levels of index tables. -/

namespace Ylos.Index

open Dir

/-- A place in the tree: the indexes on the way to it, the last one first. -/
abbrev Place := List ℕ

/-- The place has a number, and `n` index tables lie between it and the data. -/
inductive Level : ℕ → Place → Prop
  | direct {k : ℕ} : k < DIRECT_BLOCK → Level 0 [k]
  | single : Level 1 [DIRECT_BLOCK]
  | double : Level 2 [DIRECT_BLOCK + 1]
  | down {n j : ℕ} {p : Place} : Level (n + 1) p → j < BLOCK_INDEXES → Level n (j :: p)

variable {s s' : Fs} {v : Site} {n m j block : ℕ} {p q : Place}

theorem Level.ne_nil (h : Level n p) : p ≠ [] := by
  cases h <;> exact List.cons_ne_nil _ _

theorem Level.top (h : Level n [j]) : j ≤ DIRECT_BLOCK + 1 := by
  cases h with
  | direct hk => exact (Nat.le_of_lt hk).trans (Nat.le_succ _)
  | single => exact Nat.le_succ _
  | double => exact le_rfl
  | down hp _ => exact absurd rfl hp.ne_nil

theorem Level.unique (h : Level n p) (h' : Level m p) : n = m := by
  induction h generalizing m with
  | direct hk =>
      cases h' with
      | direct _ => rfl
      | single => exact absurd hk (lt_irrefl _)
      | double => exact absurd hk (by decide)
      | down hp _ => exact absurd rfl hp.ne_nil
  | single =>
      cases h' with
      | direct hk => exact absurd hk (lt_irrefl _)
      | single => rfl
      | down hp _ => exact absurd rfl hp.ne_nil
  | double =>
      cases h' with
      | direct hk => exact absurd hk (by decide)
      | double => rfl
      | down hp _ => exact absurd rfl hp.ne_nil
  | down hp _ ih =>
      cases h' with
      | direct _ => exact absurd rfl hp.ne_nil
      | single => exact absurd rfl hp.ne_nil
      | double => exact absurd rfl hp.ne_nil
      | down hp' _ => exact Nat.succ_injective (ih hp')

theorem Level.tail (h : Level n (j :: p)) : p = [] ∨ Level (n + 1) p := by
  cases h with
  | direct _ => exact .inl rfl
  | single => exact .inl rfl
  | double => exact .inl rfl
  | down hp _ => exact .inr hp


/-- The byte of the descriptor where the numbers begin. -/
def zonesAt (v : Site) : ℕ := DESC_SIZE * v.slot + (Field.zone 0).offset

/-- The number at a place; 0 also where the way to it breaks off. -/
def ptr (s : Fs) (v : Site) : Place → ℕ
  | [] => 0
  | [k] => arrayAt s v.buf (zonesAt v) k
  | j :: i :: p => if ptr s v (i :: p) = 0 then 0 else arrayAt s ⟨v.dev, ptr s v (i :: p)⟩ 0 j

theorem ptr_below (h : Level (n + 1) p) (j : ℕ) : ptr s v (j :: p) =
    if ptr s v p = 0 then 0 else arrayAt s ⟨v.dev, ptr s v p⟩ 0 j := by
  cases p with
  | nil => exact absurd rfl h.ne_nil
  | cons i p => rfl

theorem ptr_below_ne (h : Level (n + 1) p) (hne : ptr s v (j :: p) ≠ 0) : ptr s v p ≠ 0 := by
  intro hzero
  rw [ptr_below h, if_pos hzero] at hne
  exact hne rfl

/-- Nothing hangs below a place without a number. -/
theorem ptr_under_zero (hzero : ptr s v p = 0) (hr : Level m q) (hpne : p ≠ []) (hpr : p <:+ q) :
    ptr s v q = 0 := by
  induction q generalizing m with
  | nil => exact absurd (List.suffix_nil.mp hpr) hpne
  | cons i q ih =>
      rcases List.suffix_cons_iff.mp hpr with rfl | hpr
      · exact hzero
      · have hqne : q ≠ [] := fun hnil => hpne (List.suffix_nil.mp (hnil ▸ hpr))
        have hr' := hr.tail.resolve_left hqne
        rw [ptr_below hr', ih hr' hpr, if_pos rfl]

theorem descOf_zone (s : Fs) (v : Site) (k : ℕ) : descOf s v (.zone k) = ptr s v [k] := by
  unfold descOf ptr arrayAt zonesAt
  congr 1
  change DESC_SIZE * v.slot + (14 + 2 * k) = DESC_SIZE * v.slot + (14 + 2 * 0) + 2 * k
  omega

/-- The place of the number of a block of the file. -/
def blockPlace (block : ℕ) : Place :=
  if block < DIRECT_BLOCK then [block]
  else if block - DIRECT_BLOCK < INDIRECT1_BLOCK then [block - DIRECT_BLOCK, DIRECT_BLOCK]
  else [(block - DIRECT_BLOCK - INDIRECT1_BLOCK) % BLOCK_INDEXES,
    (block - DIRECT_BLOCK - INDIRECT1_BLOCK) / BLOCK_INDEXES, DIRECT_BLOCK + 1]

theorem blockPlace_level (h : block < TOTAL_BLOCK) : Level 0 (blockPlace block) := by
  have hindexes : BLOCK_INDEXES = 512 := rfl
  have htotal : TOTAL_BLOCK = 262663 := rfl
  have hsingle : INDIRECT1_BLOCK = 512 := rfl
  have hdirect : DIRECT_BLOCK = 7 := rfl
  unfold blockPlace
  split
  · exact .direct ‹_›
  · split
    · exact .down .single ‹_›
    · refine .down (.down .double ?_) (Nat.mod_lt _ (by decide))
      rw [hindexes]
      omega

theorem blockPlace_injective {b b' : ℕ} (h : blockPlace b = blockPlace b') : b = b' := by
  have hindexes : BLOCK_INDEXES = 512 := rfl
  have hdirect : DIRECT_BLOCK = 7 := rfl
  unfold blockPlace at h
  split_ifs at h
  · simpa using h
  · simp at h
  · simp at h
  · simp at h
  · simp only [List.cons.injEq, and_true] at h
    omega
  · simp at h
  · simp at h
  · simp at h
  · simp only [List.cons.injEq, and_true] at h
    have hdivision := Nat.div_add_mod (b - DIRECT_BLOCK - INDIRECT1_BLOCK) BLOCK_INDEXES
    have hdivision' := Nat.div_add_mod (b' - DIRECT_BLOCK - INDIRECT1_BLOCK) BLOCK_INDEXES
    rw [h.1, h.2, hdivision'] at hdivision
    omega

theorem zoneVia_zero {dev : ℤ} {b : BufRef} {base index divider : ℕ} :
    zoneVia s dev 0 b base index block divider = arrayAt s b base index := rfl

/-- `bmap` finds the number at the place of the block. -/
theorem fileZone_eq (h : block < TOTAL_BLOCK) : fileZone s v block = ptr s v (blockPlace block) := by
  have hindexes : BLOCK_INDEXES = 512 := rfl
  have htotal : TOTAL_BLOCK = 262663 := rfl
  have hsingle : INDIRECT1_BLOCK = 512 := rfl
  have hdirect : DIRECT_BLOCK = 7 := rfl
  have hself : BLOCK_INDEXES / BLOCK_INDEXES = 1 := rfl
  unfold fileZone blockPlace
  dsimp only
  split_ifs with hlow hmid
  · rfl
  · rw [ptr_below .single, zoneVia, zoneVia, Nat.div_one, Nat.mod_eq_of_lt (by omega)]
    rfl
  · have hdiv : (block - DIRECT_BLOCK - INDIRECT1_BLOCK) / BLOCK_INDEXES < BLOCK_INDEXES := by
      rw [hindexes]
      omega
    have hmod : (block - DIRECT_BLOCK - INDIRECT1_BLOCK) % BLOCK_INDEXES < 2 ^ 16 :=
      (Nat.mod_lt _ (by decide)).trans (by decide)
    rw [ptr_below (.down .double hdiv), ptr_below .double, zoneVia, zoneVia, zoneVia, hself,
      Nat.div_one, Nat.mod_eq_of_lt (hdiv.trans (by decide)), Nat.mod_eq_of_lt hmod]
    change (if ptr s v [DIRECT_BLOCK + 1] = 0 then 0 else _) = _
    by_cases htop : ptr s v [DIRECT_BLOCK + 1] = 0
    · rw [if_pos htop, if_pos htop, if_pos rfl]
    · rw [if_neg htop, if_neg htop]
      rfl

/-- The buffer and the byte there of the array below a place; the first array is in the
descriptor. -/
def arrayOf (s : Fs) (v : Site) : Place → BufRef × ℕ
  | [] => (v.buf, zonesAt v)
  | i :: p => (⟨v.dev, ptr s v (i :: p)⟩, 0)

theorem arrayOf_congr (h : p = [] ∨ ptr s' v p = ptr s v p) : arrayOf s' v p = arrayOf s v p := by
  cases p with
  | nil => rfl
  | cons i p =>
      change (BufRef.mk v.dev (ptr s' v (i :: p)), 0) = (BufRef.mk v.dev (ptr s v (i :: p)), 0)
      rw [h.resolve_left (List.cons_ne_nil i p)]

/-- The way to the place is there. -/
def Open (s : Fs) (v : Site) (p : Place) : Prop := p = [] ∨ ptr s v p ≠ 0

theorem ptr_cons (h : Open s v p) (j : ℕ) :
    ptr s v (j :: p) = arrayAt s (arrayOf s v p).1 (arrayOf s v p).2 j := by
  cases p with
  | nil => rfl
  | cons i p => exact if_neg (h.resolve_left (List.cons_ne_nil i p))

/-! ## What the numbers depend on -/

/-- The numbers of the inode are where they were, and the same. -/
structure SameTree (s s' : Fs) (v : Site) : Prop where
  top : ∀ k ≤ DIRECT_BLOCK + 1, ptr s' v [k] = ptr s v [k]
  table : ∀ n p, Level (n + 1) p → ptr s v p ≠ 0 → ∀ j < BLOCK_INDEXES,
    arrayAt s' ⟨v.dev, ptr s v p⟩ 0 j = arrayAt s ⟨v.dev, ptr s v p⟩ 0 j

theorem SameTree.ptr (h : SameTree s s' v) (hp : Level n p) : ptr s' v p = ptr s v p := by
  induction hp with
  | direct hk => exact h.top _ (by omega)
  | single => exact h.top _ (by omega)
  | double => exact h.top _ le_rfl
  | down hp hj ih =>
      rw [ptr_below hp, ptr_below hp, ih]
      split
      · rfl
      · exact h.table _ _ hp ‹_› _ hj

/-- No byte that the tree is read from has changed. -/
theorem SameTree.of_data (htop : ∀ o, zonesAt v ≤ o → o < zonesAt v + 18 →
      s'.data v.buf o = s.data v.buf o)
    (htable : ∀ n p, Level (n + 1) p → Index.ptr s v p ≠ 0 →
      s'.data ⟨v.dev, Index.ptr s v p⟩ = s.data ⟨v.dev, Index.ptr s v p⟩) : SameTree s s' v where
  top k hk := by
    have hdirect : DIRECT_BLOCK = 7 := rfl
    exact Bytes.read_congr fun o ho ho' => htop o (by omega) (by omega)
  table n p hp hne j _ := by
    unfold arrayAt
    rw [htable n p hp hne]

end Ylos.Index
