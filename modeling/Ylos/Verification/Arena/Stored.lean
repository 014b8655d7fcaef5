import Ylos.Verification.Arena.Layout

/-! # Memory holds a layout -/

namespace Ylos.Heap

open Function

variable {img : Image} {l : Layout} {mem mem' : ℕ → ℕ} {a b n w : ℕ} {c c' : Class} {k : Kind}
  {xs ys nodes : List ℕ}

/-- `&descriptors[c].free_list`. -/
def Image.list (img : Image) (c : ℕ) : ℕ := img.desc c + 12

/-- The `arena_t` of page `a`. -/
structure Header (img : Image) (mem : ℕ → ℕ) (a : ℕ) (k : Kind) (n : ℕ) : Prop where
  desc : ∀ c, k = .small c → mem (a * 4096) = img.desc c
  count : mem (a * 4096 + 4) = n
  large : mem (a * 4096 + 8) = k.flag
  magic : mem (a * 4096 + 12) = YLOS_MAGIC

theorem Header.congr (h : Header img mem a k n)
    (hsame : ∀ w, a * 4096 ≤ w → w < a * 4096 + 16 → mem' w = mem w) : Header img mem' a k n :=
  ⟨fun c hc => (hsame _ (by omega) (by omega)).trans (h.desc c hc),
    (hsame _ (by omega) (by omega)).trans h.count, (hsame _ (by omega) (by omega)).trans h.large,
    (hsame _ (by omega) (by omega)).trans h.magic⟩

structure Stored (img : Image) (l : Layout) (mem : ℕ → ℕ) : Prop where
  total : ∀ c : Class, mem (img.desc c) = total c
  size : ∀ c : Class, mem (img.desc c + 4) = blockSize c
  chain : ∀ c : Class, Chain mem (img.list c) (l.free c) (img.list c + 8)
  header : ∀ a k, l.kind a = some k → Header img mem a k (l.count a)

/-- The words that the heap reads. -/
def Guarded (img : Image) (l : Layout) (w : ℕ) : Prop :=
  (∃ c : Class, w = img.desc c ∨ w = img.desc c + 4 ∨ w = img.list c + 4 ∨ w = img.list c + 8) ∨
    (∃ a k, l.kind a = some k ∧ a * 4096 ≤ w ∧ w < a * 4096 + 16) ∨
    ∃ c, ∃ b ∈ l.free c, w = b ∨ w = b + 4

/-! ## Addresses -/

theorem Image.desc_lt (img : Image) (c : Class) : img.desc c + 28 ≤ 0x100000 := by
  have hbelow := img.below
  have hc := c.isLt
  unfold Image.desc DESC_COUNT at *
  omega

theorem Image.desc_pos (img : Image) (c : Class) : 0 < img.desc c := by
  have hpos := img.pos
  unfold Image.desc
  omega

theorem Image.desc_mod (img : Image) (c : Class) : img.desc c % 4 = 0 := by
  have haligned := img.aligned
  unfold Image.desc
  omega

theorem Image.desc_apart (img : Image) (h : c' ≠ c) :
    img.desc c' + 28 ≤ img.desc c ∨ img.desc c + 28 ≤ img.desc c' := by
  have hval : c'.val ≠ c.val := fun heq => h (Fin.ext heq)
  unfold Image.desc
  omega

theorem Layout.Block.facts (h : l.Block c b) (hlow : ∀ a k, l.kind a = some k → 256 ≤ a) :
    0x100000 ≤ b ∧ b % 16 = 0 ∧ 16 ≤ b % 4096 := by
  obtain ⟨-, hmod, hstart, hend⟩ := of_mem_blocks h.2
  have hpage := hlow _ _ h.1
  have hpos := blockSize_pos c
  omega

theorem Layout.Block.class_eq (h : l.Block c b) (h' : l.Block c' b) : c' = c := by
  have hkind := h.1.symm.trans h'.1
  cases hkind
  rfl

/-- The nodes of a free list do not overlap, nor the list itself. -/
theorem spread_list (img : Image) (c : Class) (hnodup : xs.Nodup)
    (hfacts : ∀ b ∈ xs, 0x100000 ≤ b ∧ b % 16 = 0) :
    Spread (img.list c :: (xs ++ [img.list c + 8])) := by
  have hdesc := img.desc_lt c
  have hlist : img.list c + 16 ≤ 0x100000 := by unfold Image.list; omega
  have hends : ∀ u ∈ img.list c :: (xs ++ [img.list c + 8]),
      u = img.list c ∨ u = img.list c + 8 ∨ (0x100000 ≤ u ∧ u % 16 = 0) := by
    intro u hu
    rcases List.mem_cons.mp hu with heq | hu
    · exact .inl heq
    · rcases List.mem_append.mp hu with hu | hu
      · exact .inr (.inr (hfacts u hu))
      · exact .inr (.inl (List.mem_singleton.mp hu))
  constructor
  · refine List.nodup_cons.mpr ⟨fun hmem => ?_, List.nodup_append.mpr ⟨hnodup,
      List.nodup_singleton _, fun u hu v hv heq => ?_⟩⟩
    · rcases List.mem_append.mp hmem with hmem | hmem
      · have hfact := hfacts _ hmem
        omega
      · have heq := List.mem_singleton.mp hmem
        omega
    · have hfact := hfacts u hu
      have hv := List.mem_singleton.mp hv
      omega
  · intro u hu v hv heq
    have hu := hends u hu
    have hv := hends v hv
    omega

theorem spread_push (img : Image) (c : Class) (hnodup : (n :: xs).Nodup)
    (hfacts : ∀ b ∈ n :: xs, 0x100000 ≤ b ∧ b % 16 = 0) :
    Spread (n :: img.list c :: (xs ++ [img.list c + 8])) :=
  (spread_list img c hnodup hfacts).perm (List.Perm.swap _ _ _)

namespace Stored

/-! ## What changes a layout -/

/-- Writes to other words. -/
theorem frame (h : Stored img l mem) (hsame : ∀ w, Guarded img l w → mem' w = mem w) :
    Stored img l mem' := by
  constructor
  · exact fun c => (hsame _ (.inl ⟨c, .inl rfl⟩)).trans (h.total c)
  · exact fun c => (hsame _ (.inl ⟨c, .inr (.inl rfl)⟩)).trans (h.size c)
  · intro c
    refine (h.chain c).congr (hsame _ (.inl ⟨c, .inr (.inr (.inl rfl))⟩))
      (hsame _ (.inl ⟨c, .inr (.inr (.inr rfl))⟩)) fun b hb => ?_
    exact ⟨hsame _ (.inr (.inr ⟨c, b, hb, .inl rfl⟩)), hsame _ (.inr (.inr ⟨c, b, hb, .inr rfl⟩))⟩
  · intro a k hk
    exact (h.header a k hk).congr fun w hw hw' => hsame w (.inr (.inl ⟨a, k, hk, hw, hw'⟩))

/-- Writes to the list of one class and to blocks of that class. -/
theorem relist (h : Stored img l mem) (hplaced : l.Placed) (hnodes : ∀ b ∈ nodes, l.Block c b)
    (hsame : ∀ w, w ≠ img.list c + 4 → w ≠ img.list c + 8 → (∀ b ∈ nodes, w ≠ b ∧ w ≠ b + 4) →
      mem' w = mem w)
    (hchain : Chain mem' (img.list c) xs (img.list c + 8)) : Stored img (l.setFree c xs) mem' := by
  have hfacts : ∀ b ∈ nodes, 0x100000 ≤ b ∧ b % 16 = 0 ∧ 16 ≤ b % 4096 :=
    fun b hb => (hnodes b hb).facts hplaced.low
  -- The words of the image that the other classes read.
  have himage : ∀ c' : Class, ∀ i, i < 8 ∨ c' ≠ c ∧ i < 28 →
      mem' (img.desc c' + i) = mem (img.desc c' + i) := by
    intro c' i hi
    have hlt := img.desc_lt c'
    have hend : i < 28 := hi.elim (fun hlt => by omega) And.right
    have hne : img.desc c' + i ≠ img.list c + 4 ∧ img.desc c' + i ≠ img.list c + 8 := by
      unfold Image.list
      by_cases hcc : c' = c
      · have hlow : i < 8 := hi.resolve_right fun hother => hother.1 hcc
        rw [hcc]
        omega
      · have hapart := img.desc_apart hcc
        omega
    refine hsame _ hne.1 hne.2 fun b hb => ?_
    have hfact := hfacts b hb
    omega
  constructor
  · exact fun c' => (himage c' 0 (.inl (by omega))).trans (h.total c')
  · exact fun c' => (himage c' 4 (.inl (by omega))).trans (h.size c')
  · intro c'
    by_cases hcc : c' = c
    · subst hcc
      rwa [Layout.setFree_free_self]
    · rw [Layout.setFree_free_of_ne _ hcc]
      refine (h.chain c').congr (himage c' 16 (.inr ⟨hcc, by omega⟩))
        (himage c' 20 (.inr ⟨hcc, by omega⟩)) fun b hb => ?_
      have hblock := hplaced.block c' b hb
      have hfact := hblock.facts hplaced.low
      have hlist := img.desc_lt c
      have hother : ∀ b' ∈ nodes, b ≠ b' := fun b' hb' heq =>
        hcc ((hnodes b' hb').class_eq (heq ▸ hblock))
      unfold Image.list at hsame
      constructor
      · refine hsame b (by omega) (by omega) fun b' hb' => ⟨hother b' hb', ?_⟩
        have hfact' := hfacts b' hb'
        omega
      · refine hsame (b + 4) (by omega) (by omega) fun b' hb' => ⟨?_, ?_⟩
        · have hfact' := hfacts b' hb'
          omega
        · exact fun heq => hother b' hb' (Nat.add_right_cancel heq)
  · intro a k hk
    have hlow := hplaced.low a k hk
    have hlist := img.desc_lt c
    refine (h.header a k hk).congr fun w hw hw' => ?_
    unfold Image.list at hsame
    refine hsame w (by omega) (by omega) fun b hb => ?_
    have hfact := hfacts b hb
    omega

/-- A block is put into its list. -/
theorem push (h : Stored img l mem) (hplaced : l.Placed) (hblock : l.Block c n)
    (hnew : n ∉ l.free c) :
    Stored img (l.setFree c (n :: l.free c)) (Chain.linked mem (img.list c) n) := by
  have hnodes : ∀ b ∈ n :: l.free c, l.Block c b := by
    intro b hb
    rcases List.mem_cons.mp hb with rfl | hb
    · exact hblock
    · exact hplaced.block c b hb
  have hspread := spread_push img c (List.nodup_cons.mpr ⟨hnew, hplaced.nodup c⟩) fun b hb =>
    ⟨((hnodes b hb).facts hplaced.low).1, ((hnodes b hb).facts hplaced.low).2.1⟩
  refine h.relist hplaced hnodes (fun w hw hw' hw'' => ?_) ((h.chain c).push hspread)
  obtain ⟨hn, hn'⟩ := hw'' n List.mem_cons_self
  refine Chain.linked_of_ne hn hn' (fun heq => ?_) hw
  rcases List.mem_append.mp (h.chain c).first_mem with hmem | hmem
  · exact (hw'' _ (List.mem_cons_of_mem _ hmem)).1 heq
  · exact hw' (heq.trans (List.mem_singleton.mp hmem))

/-- A block is taken out of its list. -/
theorem remove (h : Stored img l mem) (hplaced : l.Placed) (hfree : l.free c = xs ++ n :: ys) :
    Stored img (l.setFree c (xs ++ ys)) (Chain.unlinked mem n) := by
  have hfacts := fun b hb => (hplaced.block c b hb).facts hplaced.low
  have hspread := spread_list img c (hplaced.nodup c) fun b hb =>
    ⟨(hfacts b hb).1, (hfacts b hb).2.1⟩
  have hchain := h.chain c
  rw [hfree] at hspread hchain
  rw [List.append_assoc, List.cons_append] at hspread
  refine h.relist hplaced (hplaced.block c) (fun w hw hw' hw'' => ?_) (hchain.remove hspread)
  rw [hfree] at hw''
  obtain ⟨hn, hn'⟩ := hw'' n (List.mem_append_right _ List.mem_cons_self)
  refine Chain.unlinked_of_ne (fun heq => ?_) (fun heq => ?_) hn hn'
  · rcases List.mem_cons.mp hchain.prev_mem with hprev | hmem
    · exact hw (by rw [heq, hprev])
    · exact (hw'' _ (List.mem_append_left _ hmem)).2 heq
  · rcases List.mem_append.mp hchain.next_mem with hmem | hmem
    · exact (hw'' _ (List.mem_append_right _ (List.mem_cons_of_mem _ hmem))).1 heq
    · exact hw' (heq.trans (List.mem_singleton.mp hmem))

/-! ## The list functions on a layout -/

section Runs

open Exec

variable {s : State}

theorem facts_free (hplaced : l.Placed) : ∀ b ∈ l.free c, 0x100000 ≤ b ∧ b % 16 = 0 :=
  fun b hb =>
    have hfact := (hplaced.block c b hb).facts hplaced.low
    ⟨hfact.1, hfact.2.1⟩

theorem end_not_mem (hplaced : l.Placed) : img.list c + 8 ∉ l.free c := by
  intro hmem
  have hfact := facts_free hplaced _ hmem
  have hdesc := img.desc_lt c
  unfold Image.list at hfact
  omega

theorem run_search (h : Stored img l s.mem) (hplaced : l.Placed) :
    (listSearch (img.list c) n).run s = .ok (decide (n ∈ l.free c), s, []) :=
  run_listSearch (h.chain c) (end_not_mem hplaced) (hplaced.length_lt c)

theorem run_empty (h : Stored img l s.mem) (hplaced : l.Placed) :
    (listEmpty (img.list c)).run s = .ok (decide (l.free c = []), s, []) :=
  run_listEmpty (h.chain c) (end_not_mem hplaced)

theorem run_push (h : Stored img l s.mem) (hplaced : l.Placed) (hblock : l.Block c n)
    (hnew : n ∉ l.free c) :
    ∃ mem, (listPush (img.list c) n).run s = .ok ((), { s with mem := mem }, []) ∧
      Stored img (l.setFree c (n :: l.free c)) mem := by
  refine ⟨_, run_listPush (h.chain c) (hplaced.length_lt c) ?_, h.push hplaced hblock hnew⟩
  refine spread_push img c (List.nodup_cons.mpr ⟨hnew, hplaced.nodup c⟩) fun b hb => ?_
  rcases List.mem_cons.mp hb with rfl | hb
  · have hfact := hblock.facts hplaced.low
    exact ⟨hfact.1, hfact.2.1⟩
  · exact facts_free hplaced b hb

theorem pos_of_mem (img : Image) (hplaced : l.Placed) :
    ∀ u ∈ img.list c :: (l.free c ++ [img.list c + 8]), u ≠ 0 := by
  have hpos := img.desc_pos c
  intro u hu
  rcases List.mem_cons.mp hu with rfl | hu
  · unfold Image.list
    omega
  · rcases List.mem_append.mp hu with hu | hu
    · have hfact := facts_free hplaced u hu
      omega
    · rw [List.mem_singleton.mp hu]
      omega

theorem run_remove (h : Stored img l s.mem) (hplaced : l.Placed)
    (hfree : l.free c = xs ++ n :: ys) :
    ∃ mem, (listRemove n).run s = .ok ((), { s with mem := mem }, []) ∧
      Stored img (l.setFree c (xs ++ ys)) mem := by
  have hspread := spread_list img c (hplaced.nodup c) (facts_free hplaced)
  have hpos := pos_of_mem img (c := c) hplaced
  have hchain := h.chain c
  rw [hfree] at hspread hpos hchain
  rw [List.append_assoc, List.cons_append] at hspread hpos
  exact ⟨_, run_listRemove hchain hspread hpos, h.remove hplaced hfree⟩

theorem run_pop (h : Stored img l s.mem) (hplaced : l.Placed) (hfree : l.free c = n :: xs) :
    ∃ mem, (listPop (img.list c)).run s = .ok (n, { s with mem := mem }, []) ∧
      Stored img (l.setFree c xs) mem := by
  have hspread := spread_list img c (hplaced.nodup c) (facts_free hplaced)
  have hpos := pos_of_mem img (c := c) hplaced
  have hchain := h.chain c
  rw [hfree] at hspread hpos hchain
  have hfirst : l.free c = [] ++ n :: xs := hfree
  exact ⟨_, run_listPop hchain hspread hpos, h.remove hplaced hfirst⟩

end Runs

/-! ## Arenas are written -/

/-- The `arena_t` of page `a` is written. -/
theorem arena (h : Stored img l mem) (hplaced : l.Placed) (hlow : 256 ≤ a)
    (hheader : Header img mem' a k n)
    (hsame : ∀ w, Guarded img l w → w / 4096 ≠ a ∨ 16 ≤ w % 4096 → mem' w = mem w) :
    Stored img ((l.setKind a (some k)).setCount a n) mem' := by
  have himage : ∀ c : Class, ∀ w, w < img.desc c + 28 → Guarded img l w → mem' w = mem w := by
    intro c w hw hguarded
    have hlt := img.desc_lt c
    exact hsame w hguarded (.inl (by omega))
  constructor
  · exact fun c => (himage c _ (by omega) (.inl ⟨c, .inl rfl⟩)).trans (h.total c)
  · exact fun c => (himage c _ (by omega) (.inl ⟨c, .inr (.inl rfl)⟩)).trans (h.size c)
  · intro c
    refine (h.chain c).congr
      (himage c _ (by unfold Image.list; omega) (.inl ⟨c, .inr (.inr (.inl rfl))⟩))
      (himage c _ (by unfold Image.list; omega) (.inl ⟨c, .inr (.inr (.inr rfl))⟩)) fun b hb => ?_
    have hfact := (hplaced.block c b hb).facts hplaced.low
    exact ⟨hsame b (.inr (.inr ⟨c, b, hb, .inl rfl⟩)) (.inr hfact.2.2),
      hsame (b + 4) (.inr (.inr ⟨c, b, hb, .inr rfl⟩)) (.inr (by omega))⟩
  · intro a' k' hk'
    change update l.kind a (some k) a' = some k' at hk'
    change Header img mem' a' k' (update l.count a n a')
    by_cases heq : a' = a
    · subst heq
      rw [update_self] at hk'
      cases hk'
      rwa [update_self]
    · rw [update_of_ne heq] at hk'
      rw [update_of_ne heq]
      exact (h.header a' k' hk').congr fun w hw hw' =>
        hsame w (.inr (.inl ⟨a', k', hk', hw, hw'⟩)) (.inl (by omega))

/-- `arena->count` of page `a` is written. -/
theorem recount (h : Stored img l mem) (hplaced : l.Placed) (hkind : l.kind a = some k) :
    Stored img (l.setCount a n) (update mem (a * 4096 + 4) n) := by
  have hlow := hplaced.low a k hkind
  obtain ⟨hdesc, -, hlarge, hmagic⟩ := h.header a k hkind
  have hheader : Header img (update mem (a * 4096 + 4) n) a k n := by
    constructor
    · intro c hc
      rw [update_of_ne (by omega), hdesc c hc]
    · exact update_self ..
    · rw [update_of_ne (by omega), hlarge]
    · rw [update_of_ne (by omega), hmagic]
  have harena := h.arena hplaced hlow hheader fun w _ hw => update_of_ne (by omega) _ _
  have hself : l.setKind a (some k) = l := by
    unfold Layout.setKind
    rw [← hkind, update_eq_self]
  rwa [hself] at harena

/-- New pages are written, and the first words of them as an `arena_t`. -/
theorem opened (h : Stored img l mem) (hplaced : l.Placed) (hlow : 256 ≤ a)
    (hheader : Header img mem' a k n) (hfresh : ∀ q, a ≤ q → q < a + k.span → l.kind q = none)
    (hsame : ∀ w, w < a * 4096 ∨ (a + k.span) * 4096 ≤ w → (∀ c : Class, w ≠ img.desc c + 8) →
      mem' w = mem w) : Stored img ((l.setKind a (some k)).setCount a n) mem' := by
  refine h.arena hplaced hlow hheader fun w hw _ => ?_
  have hpage : ∀ k', l.kind (w / 4096) = some k' → w < a * 4096 ∨ (a + k.span) * 4096 ≤ w := by
    intro k' hk'
    by_contra hnot
    rw [hfresh (w / 4096) (by omega) (by omega)] at hk'
    cases hk'
  have hhigh : ∀ c : Class, 0x100000 ≤ w → w ≠ img.desc c + 8 := by
    intro c hw
    have hlt := img.desc_lt c
    omega
  rcases hw with ⟨c, hw⟩ | ⟨a', k', hk', hw, hw'⟩ | ⟨c, b, hb, hw⟩
  · have hlt := img.desc_lt c
    unfold Image.list at hw
    refine hsame w (.inl (by omega)) fun c' => ?_
    by_cases hcc : c' = c
    · rw [hcc]
      omega
    · have hapart := img.desc_apart hcc
      omega
  · have hlow' := hplaced.low a' k' hk'
    have hdiv : w / 4096 = a' := by omega
    exact hsame w (hpage k' (hdiv ▸ hk')) fun c => hhigh c (by omega)
  · have hblock := hplaced.block c b hb
    have hfact := hblock.facts hplaced.low
    have hdiv : w / 4096 = b / 4096 := by omega
    exact hsame w (hpage _ (hdiv ▸ hblock.1)) fun c => hhigh c (by omega)

/-- An arena is forgotten. -/
theorem dropped (h : Stored img l mem) : Stored img (l.setKind a none) mem := by
  refine ⟨h.total, h.size, h.chain, fun a' k hk => h.header a' k ?_⟩
  change update l.kind a none a' = some k at hk
  by_cases heq : a' = a
  · rw [heq, update_self] at hk
    cases hk
  · rwa [update_of_ne heq] at hk

end Stored

end Ylos.Heap
