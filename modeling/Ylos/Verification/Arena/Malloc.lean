import Ylos.Verification.Arena.Owners

/-! # `kmalloc` hands out what nobody has -/

namespace Ylos.Heap

open Exec Function

variable {img : Image} {l : Layout} {live : List (ℕ × ℕ)} {pages : Set ℕ} {s : State}
  {a b d i size : ℕ} {c : Class} {xs : List ℕ}

/-- The heap in a state, with what is handed out and the pages of the other callers of
`alloc_kpage`. -/
structure Inv (img : Image) (l : Layout) (live : List (ℕ × ℕ)) (pages : Set ℕ) (s : State) :
    Prop where
  mapped : Mapped s.kernelMap (pages ∪ l.covered)
  foreign : Disjoint pages l.covered
  stored : Stored img l s.mem
  sound : Sound l live
  /-- No arena without a block that is handed out. -/
  fair : ∀ a k, l.kind a = some k → ∃ x ∈ live, x.1 / 4096 = a

/-! ## Descriptors and blocks -/

/-- The loop finds a class whose blocks are large enough. -/
theorem run_findDesc (descs : List ℕ) (size d : ℕ) (h : Stored img l s.mem)
    (hdescs : ∀ i ∈ descs, i < DESC_COUNT) (hlarge : ∃ i ∈ descs, size ≤ 16 * 2 ^ i) :
    ∃ c : Class, size ≤ blockSize c ∧
      (findDesc size (descs.map img.desc) d).run s = .ok (img.desc c, s, []) := by
  induction descs generalizing d with
  | nil =>
      obtain ⟨i, hi, -⟩ := hlarge
      exact absurd hi List.not_mem_nil
  | cons i rest ih =>
      have hi := hdescs i List.mem_cons_self
      have hload : s.mem (img.desc i + 4) = blockSize ⟨i, hi⟩ := h.size ⟨i, hi⟩
      rw [List.map_cons]
      unfold findDesc
      rw [run_bind _ (run_load _ s), hload]
      by_cases hsize : size ≤ blockSize ⟨i, hi⟩
      · rw [if_pos hsize]
        exact ⟨⟨i, hi⟩, hsize, rfl⟩
      · rw [if_neg hsize]
        refine ih _ (fun j hj => hdescs j (List.mem_cons_of_mem _ hj)) ?_
        obtain ⟨j, hj, hle⟩ := hlarge
        rcases List.mem_cons.mp hj with rfl | hj
        · exact absurd hle hsize
        · exact ⟨j, hj, hle⟩

theorem run_getArenaBlock (h : Stored img l s.mem) (hplaced : l.Placed)
    (hkind : l.kind a = some (.small c)) (hi : i < total c) :
    (getArenaBlock (a * 4096) i).run s = .ok (a * 4096 + 16 + i * blockSize c, s, []) := by
  have hhigh := hplaced.high a _ hkind
  have hslot := slot_le hi
  have hdesc := (h.header a _ hkind).desc c rfl
  unfold getArenaBlock
  rw [run_bind _ (run_load _ s), hdesc, run_bind _ (run_load _ s), h.total c,
    run_bind _ (run_check_pos hi s), run_bind _ (run_load _ s), h.size c, run_pure]
  have hgap : u32 (i * blockSize c) = i * blockSize c := Nat.mod_eq_of_lt (by omega)
  have haddr : u32 (a * 4096 + 16 + i * blockSize c) = a * 4096 + 16 + i * blockSize c :=
    Nat.mod_eq_of_lt (by omega)
  rw [hgap, haddr]

theorem Stored.list_eq {mem : ℕ → ℕ} (h : Stored img l mem) (hkind : l.kind a = some (.small c)) :
    mem (a * 4096) + 12 = img.list c := by
  rw [(h.header a _ hkind).desc c rfl]
  rfl

/-- The loop over the blocks of a new page puts them into the list. -/
theorem run_fillLoop (is : List ℕ) (h : Stored img l s.mem) (hplaced : l.Placed)
    (hkind : l.kind a = some (.small c)) (his : ∀ i ∈ is, i < total c) (hnodup : is.Nodup)
    (hnew : ∀ i ∈ is, a * 4096 + 16 + i * blockSize c ∉ l.free c) :
    ∃ mem, (fillLoop (a * 4096) is).run s = .ok ((), { s with mem := mem }, []) ∧
      Stored img (l.setFree c
        ((is.map fun i => a * 4096 + 16 + i * blockSize c).reverse ++ l.free c)) mem := by
  induction is generalizing s l with
  | nil =>
      refine ⟨s.mem, rfl, ?_⟩
      have hself : l.setFree c (l.free c) = l := by
        unfold Layout.setFree
        rw [update_eq_self]
      rwa [List.map_nil, List.reverse_nil, List.nil_append, hself]
  | cons i rest ih =>
      have hi := his i List.mem_cons_self
      have hfresh := hnew i List.mem_cons_self
      obtain ⟨hirest, hrest⟩ := List.nodup_cons.mp hnodup
      have hblock : l.Block c (a * 4096 + 16 + i * blockSize c) := by
        have hmem : a * 4096 + 16 + i * blockSize c ∈ blocks c a := mem_blocks.mpr ⟨i, hi, rfl⟩
        have hpage := (of_mem_blocks hmem).1
        exact ⟨by rw [hpage]; exact hkind, by rw [hpage]; exact hmem⟩
      obtain ⟨mem, hpush, hstored⟩ := h.run_push hplaced hblock hfresh
      have hplaced' : (l.setFree c ((a * 4096 + 16 + i * blockSize c) :: l.free c)).Placed := by
        refine hplaced.setFree (List.nodup_cons.mpr ⟨hfresh, hplaced.nodup c⟩) fun x hx => ?_
        rcases List.mem_cons.mp hx with rfl | hx
        · exact hblock
        · exact hplaced.block c x hx
      have hlist : s.mem (a * 4096) + 12 = img.list c := h.list_eq hkind
      have hlist' : mem (a * 4096) + 12 = img.list c := hstored.list_eq hkind
      obtain ⟨mem', hrun, hstored'⟩ := ih (s := { s with mem := mem }) hstored hplaced' hkind
        (fun j hj => his j (List.mem_cons_of_mem _ hj)) hrest (fun j hj => by
          rw [Layout.setFree_free_self, List.mem_cons, not_or]
          refine ⟨fun heq => ?_, hnew j (List.mem_cons_of_mem _ hj)⟩
          have hji := Nat.eq_of_mul_eq_mul_right (blockSize_pos c) (Nat.add_left_cancel heq)
          exact hirest (hji ▸ hj))
      refine ⟨mem', ?_, ?_⟩
      · have hsearch := hstored.run_search (s := { s with mem := mem }) (c := c)
          (n := a * 4096 + 16 + i * blockSize c) hplaced'
        rw [Layout.setFree_free_self, decide_eq_true List.mem_cons_self] at hsearch
        unfold fillLoop
        rw [run_bind _ (run_getArenaBlock h hplaced hkind hi), run_bind _ (run_load _ s), hlist,
          run_bind _ (h.run_search hplaced), decide_eq_false hfresh,
          run_bind _ (run_check_pos rfl s), run_bind _ (run_load _ s), hlist, run_bind _ hpush,
          run_bind _ (run_load _ _), hlist', run_bind _ hsearch, run_bind _ (run_check_pos rfl _)]
        exact hrun
      · rw [Layout.setFree_setFree, Layout.setFree_free_self] at hstored'
        rwa [List.map_cons, List.reverse_cons, List.append_assoc, List.singleton_append]

/-! ## New arenas -/

@[simp] theorem run_clear (addr count : ℕ) (s : State) :
    (clear addr count).run s = .ok ((), { s with mem := fun w =>
      if addr ≤ w ∧ w < addr + count then 0 else s.mem w }, []) := rfl

theorem fits_of_disjoint {k : Kind} (hlow : 256 ≤ a) (hhigh : a + k.span ≤ 4096) (hpos : 0 < k.span)
    (hdisj : Disjoint (Set.Ico a (a + k.span)) (pages ∪ l.covered)) : Fits l a k :=
  ⟨hlow, hhigh, hpos, (Set.disjoint_union_right.mp hdisj).2⟩

/-- A new page, with all of its blocks free. -/
theorem meets_openArena (hmapped : Mapped s.kernelMap (pages ∪ l.covered))
    (hstored : Stored img l s.mem) (hsound : Sound l live) (hempty : l.free c = []) :
    Meets (Room (pages ∪ l.covered) 1) (openArena (img.desc c)) (fun _ s' => ∃ a,
      Fits l a (.small c) ∧ Disjoint (Set.Ico a (a + 1)) pages ∧
      Mapped s'.kernelMap (pages ∪ l.covered ∪ Set.Ico a (a + 1)) ∧
      Stored img (((l.setKind a (some (.small c))).setCount a (total c)).setFree c
        (blocks c a).reverse) s'.mem) s := by
  unfold openArena
  refine meets_bind (meets_mono (meets_allocKpage hmapped) ?_)
  rintro addr s₁ ⟨a, map, rfl, rfl, -, hlow, hhigh, hdisj, -, hmapped'⟩
  have hfits : Fits l a (.small c) := fits_of_disjoint hlow hhigh Nat.one_pos hdisj
  have hdesc := img.desc_lt c
  let cleared : ℕ → ℕ := fun w => if a * 4096 ≤ w ∧ w < a * 4096 + PAGE_SIZE then 0 else s.mem w
  let counted := update cleared (img.desc c + 8) (u32 (cleared (img.desc c + 8) + 1))
  let small := update (update counted (a * 4096) (img.desc c)) (a * 4096 + 8) 0
  let written := update (update small (a * 4096 + 4) (total c)) (a * 4096 + 12) YLOS_MAGIC
  have hcleared : ∀ w, w < a * 4096 ∨ (a + 1) * 4096 ≤ w → cleared w = s.mem w := by
    intro w hw
    exact if_neg (by unfold PAGE_SIZE; omega)
  have hsmall : small (img.desc c) = total c := by
    change update (update (update cleared _ _) _ _) _ _ _ = _
    rw [update_of_ne (by omega), update_of_ne (by omega), update_of_ne (by omega),
      hcleared _ (by omega), hstored.total c]
  have hwritten : written (img.desc c) = total c := by
    change update (update small _ _) _ _ _ = _
    rw [update_of_ne (by omega), update_of_ne (by omega), hsmall]
  have hheader : Header img written a (.small c) (total c) := by
    constructor
    · rintro c' ⟨⟩
      change update (update (update (update counted _ _) _ _) _ _) _ _ _ = _
      rw [update_of_ne (by omega), update_of_ne (by omega), update_of_ne (by omega), update_self]
    · change update (update small _ _) _ _ _ = _
      rw [update_of_ne (by omega), update_self]
    · change update (update (update (update counted _ _) _ _) _ _) _ _ _ = _
      rw [update_of_ne (by omega), update_of_ne (by omega), update_self]
      rfl
    · exact update_self ..
  have hopened := hstored.opened hsound.placed hlow hheader
    (fun q hq hq' => hsound.fresh hfits.disjoint hq hq') fun w hw hne => by
      change update (update (update (update (update cleared _ _) _ _) _ _) _ _) _ _ _ = _
      change w < a * 4096 ∨ (a + 1) * 4096 ≤ w at hw
      rw [update_of_ne (by omega), update_of_ne (by omega), update_of_ne (by omega),
        update_of_ne (by omega), update_of_ne (hne c), hcleared w hw]
  have hplaced := (hsound.placed_open hfits).setCount a (total c)
  obtain ⟨mem, hfill, hfilled⟩ := run_fillLoop (s := ⟨map, written⟩) (List.range (total c))
    hopened hplaced (update_self ..) (fun i hi => List.mem_range.mp hi) List.nodup_range
    fun i _ hmem => by
      change _ ∈ l.free c at hmem
      rw [hempty] at hmem
      exact List.not_mem_nil hmem
  refine meets_bind (meets_of_run (run_clear ..) (meets_bind (meets_of_run (run_load ..) ?_)))
  refine meets_bind (meets_of_run (run_store ..) (meets_bind (meets_of_run (run_store ..) ?_)))
  refine meets_bind (meets_of_run (run_store ..) (meets_bind (meets_of_run (run_load ..) ?_)))
  change Meets _ (store _ (small (img.desc c)) >>= _) _ (⟨map, small⟩ : State)
  rw [hsmall]
  refine meets_bind (meets_of_run (run_store ..) (meets_bind (meets_of_run (run_store ..) ?_)))
  refine meets_bind (meets_of_run (run_load ..) ?_)
  change Meets _ (fillLoop _ (List.range (written (img.desc c)))) _ (⟨map, written⟩ : State)
  rw [hwritten]
  refine meets_of_run hfill ⟨a, hfits, (Set.disjoint_union_right.mp hdisj).1, hmapped', ?_⟩
  have hnil : ((l.setKind a (some (.small c))).setCount a (total c)).free c = [] := hempty
  rwa [hnil, List.append_nil] at hfilled

/-! ## Calls -/

theorem u32_pred {n : ℕ} (hpos : 0 < n) (hn : n < 2 ^ 32) : u32 (n + (2 ^ 32 - 1)) = n - 1 := by
  unfold u32
  omega

/-- The end of `kmalloc`: the first free block of the class is handed out. -/
theorem run_take (hmapped : Mapped s.kernelMap (pages ∪ l.covered))
    (hforeign : Disjoint pages l.covered) (hstored : Stored img l s.mem) (hsound : Sound l live)
    (hfree : l.free c = b :: xs) (hsize : size ≤ blockSize c)
    (hfair : ∀ a k, l.kind a = some k → (∃ x ∈ live, x.1 / 4096 = a) ∨ b / 4096 = a) :
    ∃ s', (do
        let block ← listPop (img.list c)
        let arena := getBlockArena block
        check ((← load (arena + 12)) = YLOS_MAGIC ∧ (← load (arena + 8)) = 0)
        store (arena + 4) (u32 ((← load (arena + 4)) + (2 ^ 32 - 1)))
        return block : M ℕ).run s = .ok (b, s', []) ∧
      ∃ l', Inv img l' ((b, size) :: live) pages s' := by
  have hplaced := hsound.placed
  have hmem : b ∈ l.free c := hfree ▸ List.mem_cons_self
  have hblock := hplaced.block c b hmem
  have hhigh := hplaced.high _ _ hblock.1
  obtain ⟨mem, hpop, hstored'⟩ := hstored.run_pop hplaced hfree
  have hnodup := hplaced.nodup c
  rw [hfree] at hnodup
  have hplaced' : (l.setFree c xs).Placed :=
    hplaced.setFree (List.nodup_cons.mp hnodup).2 fun x hx =>
      hplaced.block c x (hfree ▸ List.mem_cons_of_mem _ hx)
  obtain ⟨-, hcount, hlarge, hmagic⟩ := hstored'.header _ _ hblock.1
  have harena : getBlockArena b = b / 4096 * 4096 := getBlockArena_eq (by omega)
  have hvalue : u32 (l.count (b / 4096) + (2 ^ 32 - 1)) = l.count (b / 4096) - 1 := by
    have hcounted := hsound.count _ c hblock.1
    have hle := List.countP_le_length (p := (· / 4096 = b / 4096)) (l := l.free c)
    have hlt := hplaced.length_lt c
    rw [hfree] at hcounted hle hlt
    rw [countP_page_cons, if_pos rfl] at hcounted hle
    exact u32_pred (by omega) (by omega)
  have hfinal := hstored'.recount (n := l.count (b / 4096) - 1) hplaced' hblock.1
  refine ⟨⟨s.kernelMap, update mem (b / 4096 * 4096 + 4) (l.count (b / 4096) - 1)⟩, ?_,
    (l.setFree c xs).setCount (b / 4096) (l.count (b / 4096) - 1), hmapped, hforeign, hfinal,
    hsound.take hfree hsize, fun a k hk => ?_⟩
  · dsimp only
    rw [run_bind _ hpop, harena, run_bind _ (run_load ..), run_bind _ (run_load ..),
      run_bind _ (run_check_pos ⟨hmagic, hlarge⟩ _), run_bind _ (run_load ..)]
    change run (store _ (u32 (mem (b / 4096 * 4096 + 4) + _)) >>= _) (⟨_, mem⟩ : State) = _
    rw [hcount, Layout.setFree_count, hvalue, run_bind _ (run_store ..), run_pure]
  · rcases hfair a k hk with ⟨x, hx, hpage⟩ | hpage
    · exact ⟨x, List.mem_cons_of_mem _ hx, hpage⟩
    · exact ⟨(b, size), List.mem_cons_self, hpage⟩

/-- The number of pages that a block of `size` bytes may need. -/
def pagesFor (size : ℕ) : ℕ := if 1024 < size then (size + 16 + 4095) / 4096 else 1

theorem meets_kmallocLarge (h : Inv img l live pages s) (hlarge : 1024 < size)
    (hsize : size + 16 + 4095 < 2 ^ 32) :
    Meets (Room (pages ∪ l.covered) (pagesFor size)) (kmallocLarge size) (fun p s' =>
      ∃ l', Inv img l' ((p, size) :: live) pages s') s := by
  have hasize : u32 (size + 16) = size + 16 := Nat.mod_eq_of_lt (by omega)
  have hcount : divRoundUp (size + 16) PAGE_SIZE = (size + 16 + 4095) / 4096 := by
    unfold divRoundUp u32 PAGE_SIZE
    omega
  have hpages : pagesFor size = (size + 16 + 4095) / 4096 := if_pos hlarge
  unfold kmallocLarge
  simp only [hasize, hcount, hpages]
  generalize hn : (size + 16 + 4095) / 4096 = n
  refine meets_bind (meets_mono (meets_allocKpage h.mapped) ?_)
  rintro addr s₁ ⟨a, map, rfl, rfl, hpos, hlow, hhigh, hdisj, -, hmapped⟩
  have hfits : Fits l a (.large n) := fits_of_disjoint hlow hhigh hpos hdisj
  have hclear : u32 (n * PAGE_SIZE) = n * 4096 := Nat.mod_eq_of_lt (by unfold PAGE_SIZE; omega)
  have haddr : u32 (a * 4096 + 16) = a * 4096 + 16 := Nat.mod_eq_of_lt (by omega)
  rw [hclear, haddr]
  refine meets_bind (meets_of_run (run_clear ..) (meets_bind (meets_of_run (run_store ..) ?_)))
  refine meets_bind (meets_of_run (run_store ..) (meets_bind (meets_of_run (run_store ..) ?_)))
  refine meets_bind (meets_of_run (run_store ..) (meets_pure ?_))
  have hcovered := covered_setKind_some (hfits.fresh h.sound) (.large n) n
  obtain ⟨hout, hout'⟩ := Set.disjoint_union_right.mp hdisj
  refine ⟨(l.setKind a (some (.large n))).setCount a n, ?_, ?_, ?_,
    h.sound.openLarge hfits (by omega), fun a' k hk => ?_⟩
  · rwa [hcovered, ← Set.union_assoc]
  · rw [hcovered]
    exact Set.disjoint_union_right.mpr ⟨h.foreign, hout.symm⟩
  · refine h.stored.opened h.sound.placed hlow ⟨?_, ?_, ?_, ?_⟩
      (fun q hq hq' => h.sound.fresh hfits.disjoint hq hq') fun w hw _ => ?_
    · rintro c ⟨⟩
    · dsimp only
      rw [update_of_ne (by omega), update_of_ne (by omega), update_self]
    · dsimp only
      rw [update_of_ne (by omega), update_of_ne (by omega), update_of_ne (by omega), update_self]
      rfl
    · exact update_self ..
    · change w < a * 4096 ∨ (a + n) * 4096 ≤ w at hw
      dsimp only
      rw [update_of_ne (by omega), update_of_ne (by omega), update_of_ne (by omega),
        update_of_ne (by omega), if_neg (by omega)]
  · change update l.kind a _ a' = some k at hk
    by_cases ha : a' = a
    · exact ⟨_, List.mem_cons_self, by rw [ha]; omega⟩
    · rw [update_of_ne ha] at hk
      obtain ⟨x, hx, hpage⟩ := h.fair a' k hk
      exact ⟨x, List.mem_cons_of_mem _ hx, hpage⟩

theorem meets_kmalloc (h : Inv img l live pages s) (size : ℕ)
    (hsize : size + 16 + 4095 < 2 ^ 32) :
    Meets (Room (pages ∪ l.covered) (pagesFor size)) (kmalloc img size) (fun p s' =>
      ∃ l', Inv img l' ((p, size) :: live) pages s') s := by
  unfold kmalloc
  refine meets_ite (fun hlarge => meets_kmallocLarge h hlarge hsize) fun hsmall => ?_
  obtain ⟨c, hc, hfind⟩ := run_findDesc (List.range DESC_COUNT) size 0 h.stored
    (fun i hi => List.mem_range.mp hi) ⟨6, by decide, by omega⟩
  have hpos := img.desc_pos c
  rw [show pagesFor size = 1 from if_neg hsmall]
  refine meets_bind (meets_of_run hfind (meets_bind (meets_check (by omega) ?_)))
  refine meets_bind (meets_of_run (h.stored.run_empty h.sound.placed) ?_)
  cases hfree : l.free c with
  | nil =>
      simp only [decide_true, if_true]
      refine meets_bind (meets_mono (meets_openArena h.mapped h.stored h.sound hfree) ?_)
      rintro - s₁ ⟨a, hfits, hpages, hmapped, hstored⟩
      have hsound := h.sound.openSmall hfits hfree
      have hcovered := covered_setKind_some (hfits.fresh h.sound) (.small c) (total c)
      obtain ⟨b, xs, hblocks⟩ := List.exists_cons_of_ne_nil (l := (blocks c a).reverse) <| by
        intro hnil
        have hlength := length_blocks c a
        rw [← List.length_reverse, hnil, List.length_nil] at hlength
        have htotal := total_pos c
        omega
      have hpage : b / 4096 = a := by
        have hb : b ∈ blocks c a := List.mem_reverse.mp (hblocks ▸ List.mem_cons_self)
        exact (of_mem_blocks hb).1
      generalize hl₁ : ((l.setKind a (some (.small c))).setCount a (total c)).setFree c
        (blocks c a).reverse = l₁ at hstored hsound
      have hcovered₁ : l₁.covered = l.covered ∪ Set.Ico a (a + 1) := by
        rw [← hl₁, Layout.covered_setFree]
        exact hcovered
      have hfree₁ : l₁.free c = b :: xs := by rw [← hl₁, Layout.setFree_free_self, hblocks]
      have hfair₁ : ∀ a' k, l₁.kind a' = some k →
          (∃ x ∈ live, x.1 / 4096 = a') ∨ b / 4096 = a' := by
        intro a' k hk
        rw [← hl₁] at hk
        change update l.kind a _ a' = some k at hk
        by_cases ha : a' = a
        · exact .inr (hpage.trans ha.symm)
        · rw [update_of_ne ha] at hk
          exact .inl (h.fair a' k hk)
      rw [Set.union_assoc, ← hcovered₁] at hmapped
      have hforeign : Disjoint pages l₁.covered := by
        rw [hcovered₁]
        exact Set.disjoint_union_right.mpr ⟨h.foreign, hpages.symm⟩
      obtain ⟨s', hrun, l', hinv⟩ := run_take hmapped hforeign hstored hsound hfree₁ hc hfair₁
      exact meets_of_run hrun ⟨l', hinv⟩
  | cons b xs =>
      have hne : decide (b :: xs = []) = false := decide_eq_false (List.cons_ne_nil b xs)
      rw [hne]
      simp only [Bool.false_eq_true, if_false]
      obtain ⟨s', hrun, l', hinv⟩ := run_take h.mapped h.foreign h.stored h.sound hfree hc
        fun a k hk => .inl (h.fair a k hk)
      exact meets_of_run hrun ⟨l', hinv⟩

end Ylos.Heap
