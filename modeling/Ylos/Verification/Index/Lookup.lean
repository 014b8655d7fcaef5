import Ylos.Lib.Ghost
import Ylos.Verification.Index.Mapping

/-! # Looking a block up

`bmap` without `create` goes down one way of the index tree. It allocates nothing and stores
nothing; releasing a buffer may write it back. -/

namespace Ylos.Index

open Exec Dir

/-- A look at entry `index` of the array of block numbers at byte `base` of `buf`. -/
structure Visit where
  buf : BufRef
  base : ℕ
  index : ℕ

/-- `reckon` without `create`, with the entries it looks at; a division by zero traps. -/
def reckonVisits (dev : ℤ) :
    (level : ℕ) → (buf : BufRef) → (base index block divider : ℕ) → K (ℕ × List Visit)
  | 0, buf, base, index, _, _ => do
    return (← arrayZone dev false 0 buf base index, [⟨buf, base, index⟩])
  | level + 1, buf, base, index, block, divider => do
    let zone ← arrayZone dev false (level + 1) buf base index
    if zone = 0 then
      return (zone, [⟨buf, base, index⟩])
    else
      let table ← bread dev zone
      check (divider ≠ 0)
      let below ← reckonVisits dev level table 0 (block / divider % 2 ^ 16) (block % divider)
        (divider / BLOCK_INDEXES)
      return (below.1, ⟨buf, base, index⟩ :: below.2)

/-- `bmap` without `create`, with the entries it looks at. -/
def bmapVisits (i block : ℕ) : K (ℕ × List Visit) := do
  check (block < TOTAL_BLOCK)
  let inode ← gets (·.inodes i)
  addRef inode.buf 1
  let zones := DESC_SIZE * inode.slot + (Field.zone 0).offset
  if block < DIRECT_BLOCK then
    reckonVisits inode.dev 0 inode.buf zones block block 1
  else
    let block := block - DIRECT_BLOCK
    if block < INDIRECT1_BLOCK then
      reckonVisits inode.dev 1 inode.buf zones DIRECT_BLOCK block 1
    else
      let block := block - INDIRECT1_BLOCK
      check (block < INDIRECT2_BLOCK)
      reckonVisits inode.dev 2 inode.buf zones (DIRECT_BLOCK + 1) block BLOCK_INDEXES

/-- The entry is one of the nine in the descriptor, or one of those of an index block. -/
def Visit.InRange (v : Site) (a : Visit) : Prop :=
  (a.buf = v.buf ∧ a.base = zonesAt v ∧ a.index < 9) ∨ (a.base = 0 ∧ a.index < BLOCK_INDEXES)

/-- No two places of the tree have the same number, except 0. -/
def Distinct (s : Fs) (v : Site) : Prop :=
  ∀ n p m q, Level n p → Level m q → ptr s v p ≠ 0 → ptr s v p = ptr s v q → p = q

/-- The state is as before, but for buffers that have been written back. -/
structure WroteBack (s s' : Fs) : Prop where
  eq : s' = { s with disk := s'.disk, dirty := s'.dirty, refs := s'.refs }
  disk : ∀ b : BufRef, (s'.disk b.dev b.blk = s.disk b.dev b.blk ∧ s'.dirty b = s.dirty b) ∨
    (s'.disk b.dev b.blk = s.data b ∧ s.dirty b = true ∧ s'.dirty b = false)

variable {s s' : Fs} {v : Site} {dev : ℤ} {b : BufRef} {bufs : List BufRef}
  {i j level base index block divider : ℕ} {q : Place} {r : ℕ × List Visit} {l : List Event}

/-! ## The entries do not change the run -/

theorem erases_reckonVisits (dev : ℤ) (level : ℕ) (b : BufRef)
    (base index block divider : ℕ) :
    Erases Prod.fst (reckonVisits dev level b base index block divider)
      (reckon dev false level b base index block divider) := by
  induction level generalizing b base index block divider with
  | zero => exact erases_return erases_self fun _ => rfl
  | succ level ih =>
      refine erases_bind fun zone => erases_ite (erases_pure _) (erases_bind fun table => ?_)
      exact erases_check (erases_return (ih _ _ _ _ _) fun _ => rfl)

theorem erases_bmapVisits (i block : ℕ) :
    Erases Prod.fst (bmapVisits i block) (bmap i block false) := by
  refine erases_bind fun _ => erases_bind fun inode => erases_bind fun _ => ?_
  refine erases_ite (erases_reckonVisits _ _ _ _ _ _ _) ?_
  refine erases_ite (erases_reckonVisits _ _ _ _ _ _ _) (erases_bind fun _ => ?_)
  exact erases_reckonVisits _ _ _ _ _ _ _

/-! ## What the code leaves -/

theorem WroteBack.refl (s : Fs) : WroteBack s s := ⟨rfl, fun _ => .inl ⟨rfl, rfl⟩⟩

theorem WroteBack.data (h : WroteBack s s') (b : BufRef) : s'.data b = s.data b := by
  rw [h.eq]
  rfl

theorem WroteBack.trans {s'' : Fs} (h : WroteBack s s') (h' : WroteBack s' s'') :
    WroteBack s s'' where
  eq := by
    rw [h'.eq, h.eq]
  disk b := by
    rcases h'.disk b with ⟨hdisk', hdirty'⟩ | ⟨hdisk', hdirty', hclean'⟩
    · rw [hdisk', hdirty']
      exact h.disk b
    · rw [hdisk', h.data, hclean']
      refine .inr ⟨rfl, ?_, rfl⟩
      rcases h.disk b with ⟨-, hdirty⟩ | ⟨-, -, hclean⟩
      · exact hdirty.symm.trans hdirty'
      · exact absurd (hclean.symm.trans hdirty') Bool.false_ne_true

instance : IsPreorder Fs WroteBack where
  refl := WroteBack.refl
  trans _ _ _ := WroteBack.trans

theorem wroteBack_addRef (b : BufRef) (n : ℤ) : Keeps WroteBack (addRef b n) :=
  keeps_modify fun _ => ⟨rfl, fun _ => .inl ⟨rfl, rfl⟩⟩

theorem wroteBack_bread (dev : ℤ) (block : ℕ) : Keeps WroteBack (bread dev block) :=
  (wroteBack_addRef _ _).bind fun _ => keeps_pure _

theorem wroteBack_bwrite (b : BufRef) : Keeps WroteBack (bwrite b) := by
  intro s
  unfold bwrite
  rw [wp_bind, wp_gets, wp_ite]
  refine ⟨fun hdirty => (wp_modify _).mpr ⟨rfl, fun c => ?_⟩, fun _ => (wp_pure _).mpr (.refl s)⟩
  by_cases hc : c = b
  · subst hc
    exact .inr ⟨if_pos ⟨rfl, rfl⟩, hdirty, if_pos rfl⟩
  · refine .inl ⟨if_neg fun heq => hc ?_, if_neg hc⟩
    cases b
    cases c
    simpa using heq

theorem wroteBack_brelse (b : BufRef) : Keeps WroteBack (brelse (some b)) :=
  (wroteBack_bwrite b).bind fun _ => (wroteBack_addRef b (-1)).bind fun _ =>
    (keeps_gets _).bind fun _ => keeps_check _

theorem wroteBack_arrayZone (dev : ℤ) (level : ℕ) (b : BufRef) (base index : ℕ) :
    Keeps WroteBack (arrayZone dev false level b base index) := by
  refine (keeps_gets _).bind fun _ => ?_
  rw [if_neg (by simp)]
  exact (wroteBack_brelse b).bind fun _ => keeps_gets _

theorem wroteBack_reckon (dev : ℤ) (level : ℕ) (b : BufRef) (base index block divider : ℕ) :
    Keeps WroteBack (reckon dev false level b base index block divider) := by
  induction level generalizing b base index block divider with
  | zero => exact wroteBack_arrayZone _ _ _ _ _
  | succ level ih =>
      refine (wroteBack_arrayZone _ _ _ _ _).bind fun zone => Keeps.ite (keeps_pure _) ?_
      exact (wroteBack_bread dev zone).bind fun _ => ih _ _ _ _ _

theorem wroteBack_bmap (i block : ℕ) : Keeps WroteBack (bmap i block false) := by
  refine (keeps_check _).bind fun _ => (keeps_gets _).bind fun inode => ?_
  refine (wroteBack_addRef _ _).bind fun _ => Keeps.ite (wroteBack_reckon _ _ _ _ _ _ _) ?_
  refine Keeps.ite (wroteBack_reckon _ _ _ _ _ _ _) ((keeps_check _).bind fun _ => ?_)
  exact wroteBack_reckon _ _ _ _ _ _ _

/-! ## The way down -/

theorem arrayOf_img (himg : s'.img = s.img) (p : Place) : arrayOf s' v p = arrayOf s v p :=
  arrayOf_congr (.inr (ptr_img himg p))

/-- Entry `j` of the array below an open place. -/
def visitAt (s : Fs) (v : Site) (q : Place) (j : ℕ) : Visit :=
  ⟨(arrayOf s v q).1, (arrayOf s v q).2, j⟩

theorem inRange_visitAt {n : ℕ} (h : Level n (j :: q)) : (visitAt s v q j).InRange v := by
  cases q with
  | nil => exact .inl ⟨rfl, rfl, Nat.lt_succ_of_le h.top⟩
  | cons k q =>
      refine .inr ⟨rfl, ?_⟩
      cases h with
      | down _ hj => exact hj

theorem answers_visit {n : ℕ} (hopen : Open s v q)
    (howned : Owned ((arrayOf s v q).1 :: bufs) s) :
    Answers ((arrayOf s v q).1 :: bufs)
      (arrayZone v.dev false n (arrayOf s v q).1 (arrayOf s v q).2 j) s bufs
      (ptr s v (j :: q)) := by
  rw [ptr_cons hopen]
  exact answers_arrayZone howned

/-- The number at the entry. -/
def Visit.zone (s : Fs) (a : Visit) : ℕ := arrayAt s a.buf a.base a.index

theorem zone_img (himg : s'.img = s.img) (a : Visit) : a.zone s' = a.zone s := by
  unfold Visit.zone arrayAt Fs.data
  rw [himg]

theorem zone_visitAt (hopen : Open s v q) : (visitAt s v q j).zone s = ptr s v (j :: q) :=
  (ptr_cons hopen j).symm

/-- The entries looked at are those on the way from `q` down, as far as it goes. -/
theorem answers_reckonVisits (hleaf : Level 0 (descend level (j :: q) block divider))
    (hopen : Open s v q) (hdivider : level ≠ 0 → divider = BLOCK_INDEXES ^ (level - 1))
    (howned : Owned ((arrayOf s v q).1 :: bufs) s) :
    ∃ visits, Answers ((arrayOf s v q).1 :: bufs)
        (reckonVisits v.dev level (arrayOf s v q).1 (arrayOf s v q).2 j block divider) s bufs
        (ptr s v (descend level (j :: q) block divider), visits) ∧
      (∀ a ∈ visits, a.InRange v) ∧
      (∃ a, visits.getLast? = some a ∧ a.zone s = ptr s v (descend level (j :: q) block divider)) ∧
      ∃ p, p ++ q <:+ descend level (j :: q) block divider ∧
        visits.map Visit.index = p.reverse ∧
        (p ++ q = descend level (j :: q) block divider ∨ ptr s v (p ++ q) = 0) := by
  induction level generalizing q j s block divider with
  | zero =>
      refine ⟨[visitAt s v q j], (answers_visit hopen howned).bind fun _ _ => answers_pure _, ?_,
        ⟨visitAt s v q j, rfl, zone_visitAt hopen⟩, [j], List.suffix_rfl, rfl, .inl rfl⟩
      intro a ha
      rw [List.mem_singleton.mp ha]
      exact inRange_visitAt hleaf
  | succ level ih =>
      have hlevel := descend_level (List.cons_ne_nil j q) hleaf
      have hsuffix := suffix_descend (level + 1) (j :: q) block divider
      by_cases hzero : ptr s v (j :: q) = 0
      · -- the table is missing
        have hend := ptr_under_zero hzero hleaf (List.cons_ne_nil j q) hsuffix
        refine ⟨[visitAt s v q j], (answers_visit hopen howned).bind fun s₁ _ => ?_, ?_,
          ⟨visitAt s v q j, rfl, ?_⟩, [j], hsuffix, rfl, .inr hzero⟩
        · rw [if_pos hzero, hzero, hend]
          exact answers_pure _
        · intro a ha
          rw [List.mem_singleton.mp ha]
          exact inRange_visitAt hlevel
        · rw [zone_visitAt hopen, hzero, hend]
      · obtain ⟨s₁, hrun₁, h₁⟩ := answers_visit (n := level + 1) (j := j) hopen howned
        obtain ⟨s₂, hrun₂, h₂⟩ : Answers bufs (bread v.dev (ptr s v (j :: q))) s₁
          (⟨v.dev, ptr s v (j :: q)⟩ :: bufs) ⟨v.dev, ptr s v (j :: q)⟩ := answers_bread _ _
        have himg : s₂.img = s.img := h₂.img.trans h₁.img
        have hopen₂ : Open s₂ v (j :: q) := .inr (by rwa [ptr_img himg])
        have harray : arrayOf s₂ v (j :: q) = (⟨v.dev, ptr s v (j :: q)⟩, 0) := arrayOf_img himg _
        have howned₂ := (howned.reads h₁).reads h₂
        have hbase : divider = BLOCK_INDEXES ^ level := hdivider (Nat.succ_ne_zero level)
        have hnext : level ≠ 0 → divider / BLOCK_INDEXES = BLOCK_INDEXES ^ (level - 1) := by
          intro hne
          rw [hbase]
          exact Nat.pow_div (Nat.one_le_iff_ne_zero.mpr hne) (by decide)
        obtain ⟨below, hbelow, hrange, ⟨a, hlast, hzone⟩, p, hp, hindex, hend⟩ := ih (q := j :: q)
          (s := s₂) hleaf hopen₂ hnext (by rwa [harray])
        simp only [harray, ptr_img himg, zone_img himg] at hbelow hend hzone
        refine ⟨visitAt s v q j :: below, ?_, ?_, ⟨a, ?_, hzone⟩, p ++ [j], ?_, ?_, ?_⟩
        · refine answers_bind_run hrun₁ h₁ ?_
          rw [if_neg hzero]
          have hne : divider ≠ 0 := by
            rw [hbase]
            exact pow_ne_zero level (by decide)
          refine answers_bind_run hrun₂ h₂ ?_
          refine answers_bind_run (run_check_pos hne s₂) (.refl _ s₂) ?_
          exact hbelow.bind fun _ _ => answers_pure _
        · intro a ha
          rcases List.mem_cons.mp ha with rfl | ha
          · exact inRange_visitAt hlevel
          · exact hrange a ha
        · rw [List.getLast?_cons, hlast]
          rfl
        · rw [List.append_assoc]
          exact hp
        · rw [List.map_cons, hindex, List.reverse_append]
          rfl
        · rw [List.append_assoc]
          exact hend

/-! ## `bmap` -/

theorem answers_bmapVisits (hblock : block < TOTAL_BLOCK) (h : Owned bufs s) :
    ∃ visits, Answers bufs (bmapVisits i block) s bufs
        (ptr s (siteAt s i) (blockPlace block), visits) ∧
      (∀ a ∈ visits, a.InRange (siteAt s i)) ∧
      (∃ a, visits.getLast? = some a ∧ a.zone s = ptr s (siteAt s i) (blockPlace block)) ∧
      ∃ p, p <:+ blockPlace block ∧ visits.map Visit.index = p.reverse ∧
        (p = blockPlace block ∨ ptr s (siteAt s i) p = 0) := by
  have hleaf := blockPlace_level hblock
  have hend := descend_beginning hblock
  have htotal : TOTAL_BLOCK = DIRECT_BLOCK + INDIRECT1_BLOCK + INDIRECT2_BLOCK := rfl
  obtain ⟨s₁, hrun₁, h₁⟩ : Answers bufs (addRef (s.inodes i).buf 1) s
    ((s.inodes i).buf :: bufs) () := answers_addRef _
  have howned := h.reads h₁
  have hsite := h₁.siteAt i
  have hdivider : (beginning block).1 ≠ 0 →
      (beginning block).2.2.2 = BLOCK_INDEXES ^ ((beginning block).1 - 1) := by
    unfold beginning
    split_ifs
    · exact fun hne => absurd rfl hne
    · exact fun _ => rfl
    · exact fun _ => rfl
  rw [← hend] at hleaf
  obtain ⟨visits, hanswers, hrange, ⟨a, hlast, hzone⟩, p, hp, hindex, hstop⟩ :=
    answers_reckonVisits (s := s₁) (v := siteAt s i) (q := []) hleaf (.inl rfl) hdivider howned
  rw [List.append_nil, hend, ptr_img h₁.img] at hstop
  rw [List.append_nil, hend] at hp
  rw [hend, ptr_img h₁.img] at hanswers hzone
  rw [zone_img h₁.img] at hzone
  refine ⟨visits, ?_, hrange, ⟨a, hlast, hzone⟩, p, hp, hindex, hstop⟩
  refine answers_bind_run (run_check_pos hblock s) (.refl _ s) ?_
  refine answers_bind_run (run_gets _ s) (.refl _ s) (answers_bind_run hrun₁ h₁ ?_)
  unfold beginning at hanswers
  dsimp only
  split_ifs at hanswers ⊢
  · exact hanswers
  · exact hanswers
  · exact answers_bind_run (run_check_pos (by omega) s₁) (.refl _ s₁) hanswers

theorem Distinct.zone_ne (h : Distinct s v) {c : ℕ} (hblock : block < TOTAL_BLOCK)
    (hc : c < TOTAL_BLOCK) (hne : c ≠ block) (hmapped : ptr s v (blockPlace block) ≠ 0) :
    ptr s v (blockPlace block) ≠ ptr s v (blockPlace c) := by
  intro heq
  have hplace := h _ _ _ _ (blockPlace_level hblock) (blockPlace_level hc) hmapped heq
  exact hne (blockPlace_injective hplace).symm

/-- Without `create`, `bmap` looks at the entries on the way to the place of the block, all in
range, and stops at a missing table. It answers with the last of them and leaves everything as
it is, but that buffers may be written back. No other block has this place, and none has this
zone if the numbers in the tree are distinct. -/
theorem bmap_lookup (s : Fs) (i block : ℕ) (hblock : block < TOTAL_BLOCK) (h : Owned [] s) :
    ∃ s' visits zone, (bmap i block false).run s = .ok (zone, s', []) ∧
      (bmapVisits i block).run s = .ok ((zone, visits), s', []) ∧
      WroteBack s s' ∧ s'.refs = s.refs ∧
      (∀ a ∈ visits, a.InRange (siteAt s i)) ∧
      (∃ a, visits.getLast? = some a ∧ a.zone s = zone) ∧
      (∃ p, p <:+ blockPlace block ∧ visits.map Visit.index = p.reverse ∧
        (p = blockPlace block ∨ ptr s (siteAt s i) p = 0 ∧ zone = 0)) ∧
      zone = ptr s (siteAt s i) (blockPlace block) ∧
      (∀ c < TOTAL_BLOCK, c ≠ block → blockPlace c ≠ blockPlace block) ∧
      (Distinct s (siteAt s i) → zone ≠ 0 → ∀ c < TOTAL_BLOCK, c ≠ block →
        zone ≠ ptr s (siteAt s i) (blockPlace c)) := by
  obtain ⟨visits, ⟨s', hrun, hreads⟩, hrange, hlast, p, hp, hindex, hstop⟩ :=
    answers_bmapVisits (i := i) hblock h
  have hbmap := erases_bmapVisits i block _ _ _ _ hrun
  have hback := wroteBack_bmap i block s _ _ _ hbmap fun _ _ => trivial
  refine ⟨s', visits, _, hbmap, hrun, hback, ?_, hrange, hlast, ⟨p, hp, hindex, ?_⟩, rfl,
    fun c _ hne heq => hne (blockPlace_injective heq),
    fun hdistinct hmapped c hc hne => hdistinct.zone_ne hblock hc hne hmapped⟩
  · funext c
    have hrefs := hreads.refs c
    rw [List.count_nil] at hrefs
    simpa using hrefs
  · refine hstop.imp_right fun hzero => ⟨hzero, ?_⟩
    refine ptr_under_zero hzero (blockPlace_level hblock) ?_ hp
    rintro rfl
    obtain ⟨a, ha, -⟩ := hlast
    rw [List.map_eq_nil_iff.mp hindex] at ha
    cases ha

/-! ## A file with one block below an index block -/

/-- Block 7 of the file is zone 6, found in zone 5. -/
def oneIndexed : Fs := (dusty [6, 0]).setImg ⟨1, 4⟩ fun o => if o = 28 then 5 else 0

theorem oneIndexed_ptr {n : ℕ} {p : Place} (hp : Level n p)
    (hne : ptr oneIndexed ⟨1, ⟨1, 4⟩, 0⟩ p ≠ 0) :
    (p = [7] ∧ ptr oneIndexed ⟨1, ⟨1, 4⟩, 0⟩ p = 5) ∨
      (p = [0, 7] ∧ ptr oneIndexed ⟨1, ⟨1, 4⟩, 0⟩ p = 6) := by
  induction hp with
  | @direct k hk =>
      have hdirect : ∀ k < 7, ptr oneIndexed ⟨1, ⟨1, 4⟩, 0⟩ [k] = 0 := by decide
      exact absurd (hdirect k hk) hne
  | single => exact .inl ⟨rfl, rfl⟩
  | double => exact absurd rfl hne
  | @down n j p hp hj ih =>
      rcases ih (ptr_below_ne hp hne) with ⟨rfl, hptr⟩ | ⟨rfl, -⟩
      · have hentry : ptr oneIndexed ⟨1, ⟨1, 4⟩, 0⟩ [j, 7] = arrayAt oneIndexed ⟨1, 5⟩ 0 j := rfl
        cases j with
        | zero => exact .inr ⟨rfl, rfl⟩
        | succ j =>
            refine absurd (hentry.trans (Bytes.read_eq_zero fun o ho _ => ?_)) hne
            change ([6, 0] : List UInt8).getD o 0 = 0
            have hlow : 2 ≤ o := by omega
            rw [List.getD_eq_getElem?_getD, List.getElem?_eq_none hlow]
            rfl
      · exact absurd (hp.unique (.down .single (by decide))) (Nat.succ_ne_zero n)

theorem oneIndexed_distinct : Distinct oneIndexed ⟨1, ⟨1, 4⟩, 0⟩ := by
  intro n p m q hp hq hne heq
  rcases oneIndexed_ptr hp hne with ⟨rfl, hp⟩ | ⟨rfl, hp⟩
  · rcases oneIndexed_ptr hq (heq ▸ hne) with ⟨rfl, -⟩ | ⟨rfl, hq⟩
    · rfl
    · exact absurd (hp.symm.trans (heq.trans hq)) (by decide)
  · rcases oneIndexed_ptr hq (heq ▸ hne) with ⟨rfl, hq⟩ | ⟨rfl, -⟩
    · exact absurd (hp.symm.trans (heq.trans hq)) (by decide)
    · rfl

theorem bmap_lookup_indexed : ∃ (s' : Fs) (visits : List Visit),
    (bmap 0 7 false).run oneIndexed = .ok (6, s', []) ∧
    visits.map Visit.index = [7, 0] ∧
    ∀ c < TOTAL_BLOCK, c ≠ 7 → 6 ≠ ptr oneIndexed ⟨1, ⟨1, 4⟩, 0⟩ (blockPlace c) := by
  obtain ⟨s', visits, zone, hrun, -, -, -, -, -, ⟨p, -, hindex, hend⟩, hzone, -, hother⟩ :=
    bmap_lookup oneIndexed 0 7 (by decide) fun _ => le_rfl
  obtain rfl : zone = 6 := hzone
  refine ⟨s', visits, hrun, ?_, hother oneIndexed_distinct (by decide)⟩
  obtain rfl := hend.resolve_right fun hmissing => absurd hmissing.2 (by decide)
  exact hindex

end Ylos.Index
