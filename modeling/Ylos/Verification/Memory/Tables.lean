import Ylos.Verification.Memory.Frames

/-! # Writes to page tables -/

namespace Ylos.Memory

/-! ## Words of memory -/

namespace State

variable {s : State} {frame g i j : ℕ} {w : Word} {ws : ℕ → Word}

@[simp] theorem setWord_self : (s.setWord frame i w).mem frame i = w := if_pos ⟨rfl, rfl⟩

theorem setWord_frame (h : g ≠ frame) : (s.setWord frame i w).mem g j = s.mem g j :=
  if_neg fun hg => h hg.1

theorem setWord_word (h : j ≠ i) : (s.setWord frame i w).mem g j = s.mem g j :=
  if_neg fun hg => h hg.2

@[simp] theorem setFrame_self : (s.setFrame frame ws).mem frame = ws := if_pos rfl

theorem setFrame_frame (h : g ≠ frame) : (s.setFrame frame ws).mem g = s.mem g := if_neg h

end State

namespace Frames

variable {strict : Prop} {s s' : State} {S : Finset Slot} {extra e : ℕ → ℕ} {x y : Slot}
  {r r' : Slot × ℕ} {f i t table page : ℕ} {w : Word}

/-- The rest of memory does not matter. -/
theorem of_views (h : Frames strict s S extra)
    (hslot : ∀ x ∈ S, tableTarget s'.mem x = tableTarget s.mem x)
    (hentry : ∀ r ∈ entries S, entryAt s'.mem r = entryAt s.mem r)
    (hmap : s'.memoryMap = s.memoryMap) (htotal : s'.totalPages = s.totalPages) :
    Frames strict s' S extra where
  kernel := by
    rw [hmap]
    exact h.kernel
  small := by
    rw [hmap]
    exact h.small
  dir := h.dir
  table := by
    intro x hx f ht
    rw [hmap, htotal]
    exact h.table x hx f (hslot x hx ▸ ht)
  entry := by
    intro r hr w hw
    rw [htotal]
    exact h.entry r hr w (hentry r hr ▸ hw)
  count := by
    intro f hf hf'
    rw [hmap, references_congr hslot hentry]
    exact h.count f hf (htotal ▸ hf')
  cow := by
    intro hstrict r hr w hw hwrite hshared
    rw [hmap]
    exact h.cow hstrict r hr w (hentry r hr ▸ hw) hwrite hshared
  uniform := by
    intro hstrict r hr r' hr' w w' hw hw' hindex
    exact h.uniform hstrict r hr r' hr' w w' (hentry r hr ▸ hw) (hentry r' hr' ▸ hw') hindex

theorem other (h : Frames strict s S extra)
    (hslot : ∀ x ∈ S, s'.mem x.1 x.2 = s.mem x.1 x.2)
    (hword : ∀ x ∈ S, ∀ f, tableTarget s.mem x = some f → s'.mem f = s.mem f)
    (hmap : s'.memoryMap = s.memoryMap) (htotal : s'.totalPages = s.totalPages) :
    Frames strict s' S extra := by
  have hviews : ∀ x ∈ S, tableTarget s'.mem x = tableTarget s.mem x := by
    intro x hx
    rw [tableTarget, tableTarget, hslot x hx]
  refine h.of_views hviews ?_ hmap htotal
  intro r hr
  have hr' := (mem_entries.mp hr).1
  exact entryAt_congr (hviews _ hr') fun table ht => by rw [hword _ hr' table ht]

/-- A write to a frame that is neither a directory nor a page table. -/
theorem setWord_other (h : Frames strict s S extra)
    (hdir : ∀ x ∈ S, x.1 = f → x.2 ≠ i) (htable : ∀ x ∈ S, tableTarget s.mem x ≠ some f) :
    Frames strict (s.setWord f i w) S extra := by
  refine h.other ?_ ?_ rfl rfl
  · intro x hx
    by_cases hf : x.1 = f
    · exact State.setWord_word (hdir x hx hf)
    · exact State.setWord_frame hf
  · intro x hx g ht
    have hg : g ≠ f := fun hg => htable x hx (hg ▸ ht)
    funext j
    exact State.setWord_frame hg

theorem setFrame_other (h : Frames strict s S extra) (hdir : ∀ x ∈ S, x.1 ≠ f)
    (htable : ∀ x ∈ S, tableTarget s.mem x ≠ some f) {ws : ℕ → Word} :
    Frames strict (s.setFrame f ws) S extra := by
  refine h.other ?_ ?_ rfl rfl
  · intro x hx
    rw [State.setFrame_frame (hdir x hx)]
  · intro x hx g ht
    have hg : g ≠ f := fun hg => htable x hx (hg ▸ ht)
    exact State.setFrame_frame hg

theorem table_ne_kernel (h : Frames strict s S extra) (hf : f < KERNEL_PAGES) (hx : x ∈ S) :
    tableTarget s.mem x ≠ some f := by
  intro ht
  have hlow := (h.table x hx f ht).1
  omega

theorem dir_ne (h : Frames strict s S extra) (hf : KERNEL_PAGES ≤ f) (hx : x ∈ S) : x.1 ≠ f := by
  have hlow := (h.dir x hx).2
  omega

/-! ## Entries -/

section Overwritten

variable (h : Frames strict s S extra) (hx : x ∈ S) (htable : tableTarget s.mem x = some table)
include h hx htable

theorem tableTarget_setEntry : ∀ y ∈ S,
    tableTarget (s.setWord table t w).mem y = tableTarget s.mem y := by
  intro y hy
  rw [tableTarget, tableTarget, State.setWord_frame (h.dir_ne (h.table x hx table htable).1 hy)]

theorem entryAt_setEntry_self : entryAt (s.setWord table t w).mem (x, t) = w.seen := by
  rw [entryAt_of_table (r := (x, t)) ((h.tableTarget_setEntry hx htable x hx).trans htable),
    State.setWord_self]

theorem entryAt_setEntry_other : ∀ r ∈ entries S, r ≠ (x, t) →
    entryAt (s.setWord table t w).mem r = entryAt s.mem r := by
  intro r hr hne
  have hr' := (mem_entries.mp hr).1
  refine entryAt_congr (h.tableTarget_setEntry hx htable _ hr') fun table' ht' => ?_
  by_cases hsame : table' = table
  · subst table'
    have hrx : r.1 = x := h.table_unique hr' hx ht' htable
    refine State.setWord_word fun hrt => hne ?_
    rw [← hrx, ← hrt]
  · exact State.setWord_frame hsame

end Overwritten

/-- An entry is overwritten. The reference of the old entry comes into the hands of the
code, and the one of the new entry leaves them. -/
theorem setEntry (h : Frames strict s S extra) (hx : x ∈ S)
    (htable : tableTarget s.mem x = some table) (ht : t < 1024)
    (hextra : ∀ f, e f + hit w.target f = extra f + hit (s.mem table t).target f)
    (hrange : w.present = true → KERNEL_PAGES ≤ w.index ∧ w.index < s.totalPages)
    (hcow : strict → w.present = true → w.write = true → w.shared = false →
      s.memoryMap w.index ≤ 1)
    (huniform : strict → w.present = true → ∀ r ∈ entries S, r ≠ (x, t) → ∀ w',
      entryAt s.mem r = some w' → w'.index = w.index → w'.shared = w.shared) :
    Frames strict (s.setWord table t w) S e := by
  have hslot := h.tableTarget_setEntry (t := t) (w := w) hx htable
  have hself := h.entryAt_setEntry_self (t := t) (w := w) hx htable
  have hother := h.entryAt_setEntry_other (t := t) (w := w) hx htable
  have hold : entryTarget s.mem (x, t) = (s.mem table t).target :=
    entryTarget_of_table (r := (x, t)) htable
  have hnew : entryTarget (s.setWord table t w).mem (x, t) = w.target := by
    rw [entryTarget, hself, Word.target]
  have hin : (x, t) ∈ entries S := mem_entries.mpr ⟨hx, ht⟩
  have hpresent : ∀ v, w.seen = some v → w.present = true ∧ v = w :=
    fun v hv => ⟨(Word.seen_eq_some.mp hv).1, (Word.seen_eq_some.mp hv).2.symm⟩
  refine { h with table := ?_, entry := ?_, count := ?_, cow := ?_, uniform := ?_ }
  · intro y hy f hty
    exact h.table y hy f (hslot y hy ▸ hty)
  · intro r hr v hv
    by_cases hrx : r = (x, t)
    · subst r
      obtain ⟨hp, rfl⟩ := hpresent v (hself ▸ hv)
      exact hrange hp
    · exact h.entry r hr v (hother r hr hrx ▸ hv)
  · intro f hf hf'
    have hcount := h.count f hf hf'
    have hmoved := refCount_retarget (p := entryTarget s.mem)
      (q := entryTarget (s.setWord table t w).mem) (f := f) hin
      (fun r hr hne => by rw [entryTarget, entryTarget, hother r hr hne])
    rw [hold, hnew] at hmoved
    have hextra' := hextra f
    have htables := refCount_congr (f := f) hslot
    unfold references at hcount ⊢
    change s.memoryMap f = _
    omega
  · intro hstrict r hr v hv hwrite hshared
    by_cases hrx : r = (x, t)
    · subst r
      obtain ⟨hp, rfl⟩ := hpresent v (hself ▸ hv)
      exact hcow hstrict hp hwrite hshared
    · exact h.cow hstrict r hr v (hother r hr hrx ▸ hv) hwrite hshared
  · intro hstrict r hr r' hr' v v' hv hv' hindex
    by_cases hrx : r = (x, t) <;> by_cases hrx' : r' = (x, t)
    · subst r r'
      exact congrArg Word.shared (Option.some.inj (hv.symm.trans hv'))
    · subst r
      obtain ⟨hp, rfl⟩ := hpresent v (hself ▸ hv)
      exact (huniform hstrict hp r' hr' hrx' v' (hother r' hr' hrx' ▸ hv') hindex.symm).symm
    · subst r'
      obtain ⟨hp, rfl⟩ := hpresent v' (hself ▸ hv')
      exact huniform hstrict hp r hr hrx v (hother r hr hrx ▸ hv) hindex
    · exact h.uniform hstrict r hr r' hr' v v' (hother r hr hrx ▸ hv) (hother r' hr' hrx' ▸ hv')
        hindex

/-- An entry keeps its page, and whether it is shared. -/
theorem retouch (h : Frames strict s S extra) (hx : x ∈ S)
    (htable : tableTarget s.mem x = some table) (ht : t < 1024)
    (hpresent : w.present = (s.mem table t).present) (hindex : w.index = (s.mem table t).index)
    (hshared : strict → w.present = true → w.shared = (s.mem table t).shared ∨
      s.memoryMap w.index ≤ 1)
    (hcow : strict → w.present = true → w.write = true → w.shared = false →
      s.memoryMap w.index ≤ 1) :
    Frames strict (s.setWord table t w) S extra := by
  have htarget : w.target = (s.mem table t).target := Word.target_congr hpresent hindex
  have hin : (x, t) ∈ entries S := mem_entries.mpr ⟨hx, ht⟩
  have hold : w.present = true → entryAt s.mem (x, t) = some (s.mem table t) := by
    intro hp
    rw [entryAt_of_table (r := (x, t)) htable, Word.seen_of_present (hpresent ▸ hp)]
  refine h.setEntry hx htable ht (fun f => by rw [htarget]) ?_ hcow ?_
  · intro hp
    rw [hindex]
    exact h.entry _ hin _ (hold hp)
  · intro hstrict hp r hr hne w' hw' hsame
    rcases hshared hstrict hp with heq | hone
    · rw [heq]
      exact h.uniform hstrict r hr _ hin w' _ hw' (hold hp) (hsame.trans hindex)
    · have hrx : (x, t) = r := h.entry_unique hin hr (hold hp) hw' (hsame.trans hindex)
        (by rw [← hindex]; exact hone)
      exact absurd hrx.symm hne

end Frames

/-! ## Slots -/

/-- The number of references to `f` behind a slot. -/
def rowCount (mem : ℕ → ℕ → Word) (x : Slot) (f : ℕ) : ℕ :=
  refCount (fun t => entryTarget mem (x, t)) (Finset.range 1024) f

theorem rowCount_of_table {mem : ℕ → ℕ → Word} {x : Slot} {table : ℕ}
    (h : tableTarget mem x = some table) (f : ℕ) :
    rowCount mem x f = tableCount (mem table) f :=
  refCount_congr fun t _ => entryTarget_of_table (r := (x, t)) h

theorem rowCount_of_blank {mem : ℕ → ℕ → Word} {x : Slot} (h : tableTarget mem x = none)
    (f : ℕ) : rowCount mem x f = 0 :=
  refCount_eq_zero fun t _ => by simp [entryTarget_of_blank (r := (x, t)) h]

theorem references_insert {mem : ℕ → ℕ → Word} {S : Finset Slot} {x : Slot} (hx : x ∉ S)
    (f : ℕ) : references mem (insert x S) f =
      references mem S f + hit (tableTarget mem x) f + rowCount mem x f := by
  unfold references entries rowCount
  rw [refCount_insert hx, refCount_insert_row hx]
  omega

namespace Frames

variable {strict : Prop} {s s' : State} {S : Finset Slot} {extra e : ℕ → ℕ} {x y : Slot}
  {f page : ℕ}

section Hung

variable (h : Frames strict s S extra) (hlow : KERNEL_PAGES ≤ page)
  (hs' : (s.setWord x.1 x.2 (entryInit page)).setFrame page (fun _ => .zero) = s')
include h hlow hs'

theorem tableTarget_newTable_other : ∀ y ∈ S, y ≠ x →
    tableTarget s'.mem y = tableTarget s.mem y := by
  intro y hy hne
  rw [tableTarget, tableTarget, ← hs', State.setFrame_frame (h.dir_ne hlow hy)]
  refine congrArg Word.target (if_neg fun hyx => hne ?_)
  exact Prod.ext hyx.1 hyx.2

variable (hx : x ∈ S) (hblank : (s.mem x.1 x.2).present = false)
  (hunseen : ∀ y ∈ S, tableTarget s.mem y ≠ some page)
include hx

theorem tableTarget_newTable_self : tableTarget s'.mem x = some page := by
  rw [tableTarget, ← hs', State.setFrame_frame (h.dir_ne hlow hx), State.setWord_self]
  rfl

include hblank hunseen

theorem entryAt_newTable : ∀ r ∈ entries S, entryAt s'.mem r = entryAt s.mem r := by
  intro r hr
  have hr' := (mem_entries.mp hr).1
  by_cases hrx : r.1 = x
  · have hself : tableTarget s'.mem r.1 = some page :=
      hrx ▸ h.tableTarget_newTable_self hlow hs' hx
    have hnone : tableTarget s.mem r.1 = none := hrx ▸ Word.target_of_absent hblank
    rw [entryAt_of_table hself, entryAt_of_blank hnone, ← hs', State.setFrame_self]
    rfl
  · refine entryAt_congr (h.tableTarget_newTable_other hlow hs' _ hr' hrx) fun table ht => ?_
    have hne : table ≠ page := fun htp => hunseen _ hr' (htp ▸ ht)
    have hdir : table ≠ x.1 := (h.dir_ne (h.table _ hr' table ht).1 hx).symm
    rw [← hs', State.setFrame_frame hne, State.setWord_frame hdir]

end Hung

/-- `get_pte` hangs an empty page table into a slot. -/
theorem newTable (h : Frames strict s S extra) (hx : x ∈ S)
    (hblank : (s.mem x.1 x.2).present = false) (hlow : KERNEL_PAGES ≤ page)
    (hhigh : page < s.totalPages) (hone : s.memoryMap page = 1)
    (hextra : ∀ f, extra f = e f + hit (some page) f) :
    Frames strict ((s.setWord x.1 x.2 (entryInit page)).setFrame page fun _ => .zero)
      S e := by
  obtain ⟨htable, hentry⟩ := h.unseen hlow hhigh (by
    have hpage := hextra page
    rw [hit_self] at hpage
    omega)
  generalize hs' : (s.setWord x.1 x.2 (entryInit page)).setFrame page (fun _ => .zero) = s'
  have hmap : s'.memoryMap = s.memoryMap := by rw [← hs']; rfl
  have htotal : s'.totalPages = s.totalPages := by rw [← hs']; rfl
  have hself := h.tableTarget_newTable_self hlow hs' hx
  have hnone : tableTarget s.mem x = none := Word.target_of_absent hblank
  have hothers := h.tableTarget_newTable_other hlow hs'
  have hviews := h.entryAt_newTable hlow hs' hx hblank htable
  constructor
  · rw [hmap]
    exact h.kernel
  · rw [hmap]
    exact h.small
  · exact h.dir
  · intro y hy f ht
    rw [hmap, htotal]
    by_cases hyx : y = x
    · rw [hyx, hself] at ht
      cases ht
      exact ⟨hlow, hhigh, hone⟩
    · exact h.table y hy f (hothers y hy hyx ▸ ht)
  · intro r hr w hw
    rw [htotal]
    exact h.entry r hr w (hviews r hr ▸ hw)
  · intro f hf hf'
    have hcount := h.count f hf (htotal ▸ hf')
    have hmoved := refCount_retarget (p := tableTarget s.mem) (q := tableTarget s'.mem)
      (f := f) hx hothers
    have hrest : refCount (entryTarget s'.mem) (entries S) f =
        refCount (entryTarget s.mem) (entries S) f :=
      refCount_congr fun r hr => by rw [entryTarget, entryTarget, hviews r hr]
    rw [hself, hnone, hit_none] at hmoved
    have hpage := hextra f
    unfold references at hcount ⊢
    rw [hmap]
    omega
  · intro hstrict r hr w hw
    rw [hmap]
    exact h.cow hstrict r hr w (hviews r hr ▸ hw)
  · intro hstrict r hr r' hr' w w' hw hw'
    exact h.uniform hstrict r hr r' hr' w w' (hviews r hr ▸ hw) (hviews r' hr' ▸ hw')

/-- A slot is counted from now on. What is behind it is already mapped elsewhere. -/
theorem insertSlot (h : Frames strict s S extra) (hx : x ∉ S) (hdir : x.1 ≠ 2 ∧ x.1 < KERNEL_PAGES)
    (hextra : ∀ f, extra f = e f + hit (tableTarget s.mem x) f + rowCount s.mem x f)
    (htable : ∀ f, tableTarget s.mem x = some f →
      KERNEL_PAGES ≤ f ∧ f < s.totalPages ∧ s.memoryMap f = 1)
    (hcopy : ∀ t < 1024, ∀ w, entryAt s.mem (x, t) = some w →
      ∃ r ∈ entries S, entryAt s.mem r = some w) :
    Frames strict s (insert x S) e := by
  have hview : ∀ r ∈ entries (insert x S), ∀ w, entryAt s.mem r = some w →
      ∃ r' ∈ entries S, entryAt s.mem r' = some w := by
    rintro ⟨y, t⟩ hr w hw
    obtain ⟨hy, ht⟩ := mem_entries.mp hr
    rcases Finset.mem_insert.mp hy with rfl | hy
    · exact hcopy t ht w hw
    · exact ⟨(y, t), mem_entries.mpr ⟨hy, ht⟩, hw⟩
  refine { h with dir := ?_, table := ?_, entry := ?_, count := ?_, cow := ?_, uniform := ?_ }
  · intro y hy
    rcases Finset.mem_insert.mp hy with rfl | hy
    · exact hdir
    · exact h.dir y hy
  · intro y hy
    rcases Finset.mem_insert.mp hy with rfl | hy
    · exact htable
    · exact h.table y hy
  · intro r hr w hw
    obtain ⟨r', hr', hw'⟩ := hview r hr w hw
    exact h.entry r' hr' w hw'
  · intro f hf hf'
    rw [h.count f hf hf', references_insert hx, hextra f]
    omega
  · intro hstrict r hr w hw
    obtain ⟨r', hr', hw'⟩ := hview r hr w hw
    exact h.cow hstrict r' hr' w hw'
  · intro hstrict r hr r' hr' w w' hw hw'
    obtain ⟨q, hq, hqw⟩ := hview r hr w hw
    obtain ⟨q', hq', hqw'⟩ := hview r' hr' w' hw'
    exact h.uniform hstrict q hq q' hq' w w' hqw hqw'

/-- A slot is not counted any more; the references behind it come into the hands of the
code. -/
theorem forget (h : Frames strict s S extra) (hx : x ∈ S) :
    Frames strict s (S.erase x)
      (fun f => extra f + hit (tableTarget s.mem x) f + rowCount s.mem x f) := by
  have hsub : ∀ r ∈ entries (S.erase x), r ∈ entries S := fun r hr =>
    mem_entries.mpr ⟨Finset.mem_of_mem_erase (mem_entries.mp hr).1, (mem_entries.mp hr).2⟩
  refine { h with dir := ?_, table := ?_, entry := ?_, count := ?_, cow := ?_, uniform := ?_ }
  · exact fun y hy => h.dir y (Finset.mem_of_mem_erase hy)
  · exact fun y hy => h.table y (Finset.mem_of_mem_erase hy)
  · exact fun r hr => h.entry r (hsub r hr)
  · intro f hf hf'
    have hcount := h.count f hf hf'
    rw [← Finset.insert_erase hx, references_insert (S.notMem_erase x)] at hcount
    omega
  · exact fun hstrict r hr => h.cow hstrict r (hsub r hr)
  · exact fun hstrict r hr r' hr' => h.uniform hstrict r (hsub r hr) r' (hsub r' hr')

end Frames

end Ylos.Memory
