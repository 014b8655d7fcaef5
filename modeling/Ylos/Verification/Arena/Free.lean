import Ylos.Verification.Arena.Malloc

/-! # `kfree` takes back what it is given -/

namespace Ylos.Heap

open Exec Function

variable {img : Image} {l : Layout} {live : List (ℕ × ℕ)} {pages : Set ℕ} {s : State}
  {a p : ℕ} {c : Class}

/-- The loop over the blocks of a page takes them out of the list. -/
theorem run_drainLoop (is : List ℕ) (h : Stored img l s.mem) (hplaced : l.Placed)
    (hkind : l.kind a = some (.small c)) (his : ∀ i ∈ is, i < total c) (hnodup : is.Nodup)
    (hfree : ∀ i ∈ is, a * 4096 + 16 + i * blockSize c ∈ l.free c) :
    ∃ mem, (drainLoop (a * 4096) is).run s = .ok ((), { s with mem := mem }, []) ∧
      Stored img (l.setFree c
        ((l.free c).filter (· ∉ is.map fun i => a * 4096 + 16 + i * blockSize c))) mem := by
  induction is generalizing s l with
  | nil =>
      refine ⟨s.mem, rfl, ?_⟩
      have hself : l.setFree c ((l.free c).filter (· ∉ [].map fun i =>
          a * 4096 + 16 + i * blockSize c)) = l := by
        unfold Layout.setFree
        rw [List.filter_eq_self.mpr (by simp), update_eq_self]
      rwa [hself]
  | cons i rest ih =>
      have hi := his i List.mem_cons_self
      obtain ⟨hirest, hrest⟩ := List.nodup_cons.mp hnodup
      obtain ⟨xs, ys, hsplit⟩ := List.append_of_mem (hfree i List.mem_cons_self)
      obtain ⟨mem, hremove, hstored⟩ := h.run_remove hplaced hsplit
      have hnodup' := hplaced.nodup c
      rw [hsplit] at hnodup'
      have hafter : xs ++ ys =
          (l.free c).filter (· ≠ a * 4096 + 16 + i * blockSize c) := by
        rw [hsplit, List.filter_append, List.filter_cons_of_neg (by simp)]
        obtain ⟨-, hys, hdisj⟩ := List.nodup_append.mp hnodup'
        rw [List.filter_eq_self.mpr fun b hb => decide_eq_true ?_,
          List.filter_eq_self.mpr fun b hb => decide_eq_true ?_]
        · rintro rfl
          exact (List.nodup_cons.mp hys).1 hb
        · exact hdisj b hb _ List.mem_cons_self
      rw [hafter] at hstored
      have hplaced' : (l.setFree c ((l.free c).filter
          (· ≠ a * 4096 + 16 + i * blockSize c))).Placed :=
        hplaced.setFree ((hplaced.nodup c).filter _) fun x hx =>
          hplaced.block c x (List.mem_of_mem_filter hx)
      have hlist : s.mem (a * 4096) + 12 = img.list c := h.list_eq hkind
      have hlist' : mem (a * 4096) + 12 = img.list c := hstored.list_eq hkind
      obtain ⟨mem', hrun, hstored'⟩ := ih (s := { s with mem := mem }) hstored hplaced' hkind
        (fun j hj => his j (List.mem_cons_of_mem _ hj)) hrest (fun j hj => by
          rw [Layout.setFree_free_self, List.mem_filter, decide_eq_true_iff]
          refine ⟨hfree j (List.mem_cons_of_mem _ hj), fun heq => ?_⟩
          have hji := Nat.eq_of_mul_eq_mul_right (blockSize_pos c) (Nat.add_left_cancel heq)
          exact hirest (hji ▸ hj))
      refine ⟨mem', ?_, ?_⟩
      · have hsearch := hstored.run_search (s := { s with mem := mem }) (c := c)
          (n := a * 4096 + 16 + i * blockSize c) hplaced'
        rw [Layout.setFree_free_self, decide_eq_false (by simp)] at hsearch
        unfold drainLoop
        rw [run_bind _ (run_getArenaBlock h hplaced hkind hi), run_bind _ (run_load _ s), hlist,
          run_bind _ (h.run_search hplaced), decide_eq_true (hfree i List.mem_cons_self),
          run_bind _ (run_check_pos rfl s), run_bind _ hremove, run_bind _ (run_load _ _), hlist',
          run_bind _ hsearch, run_bind _ (run_check_pos rfl _)]
        exact hrun
      · rw [Layout.setFree_setFree, Layout.setFree_free_self, List.filter_filter] at hstored'
        convert hstored' using 4 with b
        rw [← Bool.decide_and, decide_eq_decide, List.map_cons, List.mem_cons, not_or, and_comm]

/-- The pages of an arena. -/
theorem Layout.covered_of_kind {k : Kind} (hkind : l.kind a = some k) :
    Set.Ico a (a + k.span) ⊆ l.covered := fun _ hq => ⟨a, k, hkind, hq.1, hq.2⟩

/-- `free_kpage` on the pages of an arena. -/
theorem run_freeArena {k : Kind} (hmapped : Mapped s.kernelMap (pages ∪ l.covered))
    (hforeign : Disjoint pages l.covered) (hsound : Sound l live) (hkind : l.kind a = some k) :
    ∃ map, (freeKpage (a * 4096) k.span).run s = .ok ((), { s with kernelMap := map }, []) ∧
      Mapped map (pages ∪ (l.setKind a none).covered) ∧
      Disjoint pages (l.setKind a none).covered := by
  have hsub := Layout.covered_of_kind hkind
  obtain ⟨map, hfree, hmap⟩ := run_freeKpage hmapped (hsound.high a k hkind).1
    (hsub.trans Set.subset_union_right)
  rw [Set.union_sdiff_distrib, sdiff_eq_left.mpr (hforeign.mono_right hsub)] at hmap
  rw [hsound.covered_setKind_none hkind]
  exact ⟨map, hfree, hmap, hforeign.mono_right Set.sdiff_subset⟩

/-- The other arenas still have a block that is handed out. -/
theorem Inv.fair_drop (h : Inv img l live pages s) (hp : p / 4096 = a) {k : Kind} {a' : ℕ}
    (hk : (l.setKind a none).kind a' = some k) : ∃ x ∈ without live p, x.1 / 4096 = a' := by
  change update l.kind a none a' = some k at hk
  have hne : a' ≠ a := by
    rintro rfl
    rw [update_self] at hk
    cases hk
  rw [update_of_ne hne] at hk
  obtain ⟨x, hx, hpage⟩ := h.fair a' k hk
  refine ⟨x, mem_without.mpr ⟨hx, fun heq => ?_⟩, hpage⟩
  rw [heq, hp] at hpage
  exact hne hpage.symm

theorem run_kfree_large {n : ℕ} (h : Inv img l live pages s) (hkind : l.kind a = some (.large n)) :
    ∃ s', (kfree (a * 4096 + 16)).run s = .ok ((), s', []) ∧
      ∃ l', Inv img l' (without live (a * 4096 + 16)) pages s' := by
  obtain ⟨-, hcount, hlarge, hmagic⟩ := h.stored.header a _ hkind
  have hhigh := h.sound.placed.high a _ hkind
  have harena : getBlockArena (a * 4096 + 16) = a * 4096 := by
    rw [getBlockArena_eq (by omega)]
    omega
  obtain ⟨map, hfree, hmapped, hforeign⟩ := run_freeArena h.mapped h.foreign h.sound hkind
  refine ⟨{ s with kernelMap := map }, ?_, l.setKind a none, hmapped, hforeign, h.stored.dropped,
    h.sound.dropLarge hkind, fun a' k hk => h.fair_drop (by omega) hk⟩
  have hflag : s.mem (a * 4096 + 8) = 1 := hlarge
  have hvalue : s.mem (a * 4096 + 4) = n := hcount.trans (h.sound.large a n hkind)
  unfold kfree
  rw [run_bind _ (run_check_pos (by omega) s), harena, run_bind _ (run_load ..),
    run_bind _ (run_load ..), run_bind _ (run_check_pos (.inl hflag) s), run_bind _ (run_load ..),
    run_bind _ (run_check_pos hmagic s), run_bind _ (run_load ..), if_pos (by omega),
    run_bind _ (run_load ..), hvalue]
  exact hfree

theorem run_kfree_small (h : Inv img l live pages s) (hlive : p ∈ pointers live)
    (hblock : l.Block c p) :
    ∃ s', (kfree p).run s = .ok ((), s', []) ∧ ∃ l', Inv img l' (without live p) pages s' := by
  have hplaced := h.sound.placed
  obtain ⟨hlow, -, -⟩ := hblock.facts hplaced.low
  have hhigh := hplaced.high _ _ hblock.1
  have hnew : p ∉ l.free c := fun hin => (h.sound.free c p hblock).mp hin hlive
  generalize ha : p / 4096 = a at *
  have hkind : l.kind a = some (.small c) := ha ▸ hblock.1
  have harena : getBlockArena p = a * 4096 := by rw [getBlockArena_eq (by omega), ha]
  obtain ⟨-, -, hlarge, hmagic⟩ := h.stored.header a _ hkind
  -- The block goes back into the list, and is counted.
  obtain ⟨mem, hpush, hpushed⟩ := h.stored.run_push hplaced hblock hnew
  have hsound := h.sound.give hlive hblock
  rw [ha] at hsound
  have hplaced₁ : (l.setFree c (p :: l.free c)).Placed :=
    ⟨hsound.placed.low, hsound.placed.high, hsound.placed.nodup, hsound.placed.block⟩
  have hcounted := hpushed.recount (n := l.count a + 1) hplaced₁ hkind
  let l₂ := (l.setFree c (p :: l.free c)).setCount a (l.count a + 1)
  have hplaced₂ : l₂.Placed := hsound.placed
  have hcount₂ : l₂.count a = l.count a + 1 := update_self ..
  have hfree₂ : l₂.free c = p :: l.free c := update_self ..
  have hcount : mem (a * 4096 + 4) = l.count a := (hpushed.header a _ hkind).count
  have hvalue : u32 (l.count a + 1) = l.count a + 1 := by
    have hle := List.countP_le_length (p := (· / 4096 = a)) (l := p :: l.free c)
    have hlt := hplaced₁.length_lt c
    rw [Layout.setFree_free_self] at hlt
    rw [countP_page_cons, if_pos ha, ← h.sound.count a c hkind] at hle
    exact Nat.mod_eq_of_lt (by omega)
  have hlist : s.mem (a * 4096) + 12 = img.list c := h.stored.list_eq hkind
  set mem₂ := update mem (a * 4096 + 4) (l.count a + 1) with hmem₂
  have hdesc : mem₂ (a * 4096) = img.desc c := (hcounted.header a _ hkind).desc c rfl
  have htotal : mem₂ (img.desc c) = total c := hcounted.total c
  have hflag : s.mem (a * 4096 + 8) = 0 := hlarge
  have hhead : (kfree p).run s = ((do
      if l.count a + 1 = total c then
        drainLoop (a * 4096) (List.range (total c))
        freeKpage (a * 4096) 1) : M Unit).run { s with mem := mem₂ } := by
    unfold kfree
    rw [run_bind _ (run_check_pos (by omega) s), harena, run_bind _ (run_load ..),
      run_bind _ (run_load ..), run_bind _ (run_check_pos (.inr hflag) s),
      run_bind _ (run_load ..), run_bind _ (run_check_pos hmagic s), run_bind _ (run_load ..),
      if_neg (not_not.mpr hflag), run_bind _ (run_load ..), hlist, run_bind _ hpush,
      run_bind _ (run_load ..)]
    change run (store _ (u32 (mem (a * 4096 + 4) + 1)) >>= _) (⟨_, mem⟩ : State) = _
    rw [hcount, hvalue, run_bind _ (run_store ..), run_bind _ (run_load ..),
      run_bind _ (run_load ..), run_bind _ (run_load ..)]
    have hcounted₂ : mem₂ (a * 4096 + 4) = l.count a + 1 := update_self ..
    by_cases hfull : l.count a + 1 = total c
    · have hfull₂ : mem₂ (a * 4096 + 4) = mem₂ (mem₂ (a * 4096)) := by
        rw [hcounted₂, hdesc, htotal, hfull]
      rw [if_pos hfull, if_pos hfull₂, run_bind _ (run_load ..), run_bind _ (run_load ..)]
      change run (drainLoop _ (List.range (mem₂ (mem₂ (a * 4096)))) >>= _) _ = _
      rw [hdesc, htotal]
    · have hfull₂ : ¬mem₂ (a * 4096 + 4) = mem₂ (mem₂ (a * 4096)) := by
        rwa [hcounted₂, hdesc, htotal]
      rw [if_neg hfull, if_neg hfull₂]
  rw [hhead]
  by_cases hfull : l.count a + 1 = total c
  · -- The last block that was handed out: the page is given back.
    have hcounted₂ : l₂.count a = total c := hcount₂.trans hfull
    have hall := (hsound.full_iff hkind).mp hcounted₂
    obtain ⟨mem₃, hdrain, hdrained⟩ := run_drainLoop (s := { s with mem := mem₂ })
      (List.range (total c)) hcounted hplaced₂ hkind (fun i hi => List.mem_range.mp hi)
      List.nodup_range fun i hi => hall _ (mem_blocks.mpr ⟨i, List.mem_range.mp hi, rfl⟩)
    obtain ⟨map, hfree, hmapped, hforeign⟩ := run_freeArena (s := ⟨s.kernelMap, mem₃⟩)
      h.mapped h.foreign h.sound hkind
    refine ⟨⟨map, mem₃⟩, ?_, ((l₂.setFree c ((l₂.free c).filter (· / 4096 ≠ a))).setKind a none),
      hmapped, hforeign, ?_, hsound.dropSmall hkind hcounted₂, fun a' k hk => h.fair_drop ha hk⟩
    · rw [if_pos hfull, run_bind _ hdrain]
      exact hfree
    · refine Stored.dropped ?_
      convert hdrained using 2
      refine List.filter_congr fun b hb => decide_eq_decide.mpr (not_congr ?_)
      change b / 4096 = a ↔ b ∈ blocks c a
      constructor
      · rintro rfl
        exact (hplaced₂.block c b hb).2
      · exact fun hmem => (of_mem_blocks hmem).1
  · -- Some other block of the page is handed out.
    refine ⟨⟨s.kernelMap, mem₂⟩, by rw [if_neg hfull, run_pure], l₂, h.mapped, h.foreign, hcounted,
      hsound, fun a' k hk => ?_⟩
    by_cases hne : a' = a
    · have hnot : ¬∀ b ∈ blocks c a, b ∈ p :: l.free c := fun hall => by
        have hin : l₂.count a = total c := (hsound.full_iff hkind).mpr fun b hb => by
          rw [hfree₂]
          exact hall b hb
        exact hfull (hcount₂.symm.trans hin)
      obtain ⟨b, hb, hused⟩ := not_forall₂.mp hnot
      have hpage := (of_mem_blocks hb).1
      have hlive' : b ∈ pointers (without live p) := by
        by_contra hout
        refine hused ?_
        have hin := (hsound.free c b ⟨hpage ▸ hkind, hpage ▸ hb⟩).mpr hout
        rwa [hfree₂] at hin
      obtain ⟨x, hx, rfl⟩ := List.mem_map.mp hlive'
      exact ⟨x, hx, hpage.trans hne.symm⟩
    · obtain ⟨x, hx, hpage⟩ := h.fair a' k hk
      exact ⟨x, mem_without.mpr ⟨hx, fun heq => hne (hpage.symm.trans (heq ▸ ha))⟩, hpage⟩

/-- `kfree` of a pointer that is handed out. -/
theorem run_kfree {size : ℕ} (h : Inv img l live pages s) (hlive : (p, size) ∈ live) :
    ∃ s', (kfree p).run s = .ok ((), s', []) ∧ ∃ l', Inv img l' (without live p) pages s' := by
  rcases h.sound.held _ hlive with ⟨c, hblock, -⟩ | ⟨n, hkind, hoff, -⟩
  · exact run_kfree_small h (List.mem_map_of_mem hlive) hblock
  · have hp : p = p / 4096 * 4096 + 16 := by omega
    rw [hp]
    exact run_kfree_large h hkind

end Ylos.Heap
