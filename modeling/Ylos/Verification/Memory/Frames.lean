import Ylos.Lib.RefCount
import Ylos.Model.Memory
import Mathlib.Algebra.Group.Pi.Basic
import Mathlib.Algebra.Order.Ring.Nat
import Mathlib.Order.Interval.Finset.Nat

/-! # Page frames and the references to them

A user slot of a page directory refers to a page table, and an entry of the table to a
page. The frames part of the invariant says that `memory_map` counts these references,
together with `extra`, the references that the running code holds in its variables. -/

namespace Ylos.Memory

/-- A user slot: a page directory and an index into it. -/
abbrev Slot := ℕ × ℕ

def Word.seen (w : Word) : Option Word := if w.present then some w else none

def Word.target (w : Word) : Option ℕ := w.seen.map (·.index)

/-- The frame of the page table behind a slot. -/
def tableTarget (mem : ℕ → ℕ → Word) (x : Slot) : Option ℕ := (mem x.1 x.2).target

/-- The entry that maps a page. -/
def entryAt (mem : ℕ → ℕ → Word) (r : Slot × ℕ) : Option Word :=
  (tableTarget mem r.1).bind fun table => (mem table r.2).seen

def entryTarget (mem : ℕ → ℕ → Word) (r : Slot × ℕ) : Option ℕ :=
  (entryAt mem r).map (·.index)

/-- The entries of the tables behind some slots. -/
def entries (S : Finset Slot) : Finset (Slot × ℕ) := S ×ˢ Finset.range 1024

/-- The number of references to the frame `f` through the slots `S`. -/
def references (mem : ℕ → ℕ → Word) (S : Finset Slot) (f : ℕ) : ℕ :=
  refCount (tableTarget mem) S f + refCount (entryTarget mem) (entries S) f

/-- The number of references to `f` in the words of a page table. -/
def tableCount (words : ℕ → Word) (f : ℕ) : ℕ :=
  refCount (fun t => (words t).target) (Finset.range 1024) f

theorem Word.seen_of_present {w : Word} (h : w.present = true) : w.seen = some w := if_pos h

theorem Word.target_of_present {w : Word} (h : w.present = true) : w.target = some w.index := by
  simp [target, seen_of_present h]

theorem Word.target_of_absent {w : Word} (h : w.present = false) : w.target = none := by
  simp [target, seen, h]

theorem Word.seen_of_absent {w : Word} (h : w.present = false) : w.seen = none := by
  simp [seen, h]

theorem Word.seen_eq_some {w v : Word} : w.seen = some v ↔ w.present = true ∧ w = v := by
  unfold seen
  split <;> simp_all

theorem Word.target_eq_some {w : Word} {f : ℕ} :
    w.target = some f ↔ w.present = true ∧ w.index = f := by
  simp only [target, Option.map_eq_some_iff, seen_eq_some]
  constructor
  · rintro ⟨_, ⟨hw, rfl⟩, rfl⟩
    exact ⟨hw, rfl⟩
  · rintro ⟨hw, rfl⟩
    exact ⟨w, ⟨hw, rfl⟩, rfl⟩

theorem Word.target_congr {w v : Word} (hp : w.present = v.present) (hi : w.index = v.index) :
    w.target = v.target := by
  unfold target seen
  rw [hp]
  split <;> simp [hi]

theorem mem_entries {S : Finset Slot} {r : Slot × ℕ} : r ∈ entries S ↔ r.1 ∈ S ∧ r.2 < 1024 := by
  simp [entries]

section Views

variable {mem mem' : ℕ → ℕ → Word} {x : Slot} {r : Slot × ℕ} {S : Finset Slot} {f table : ℕ}

theorem entryAt_of_table (h : tableTarget mem r.1 = some table) :
    entryAt mem r = (mem table r.2).seen := by
  simp [entryAt, h]

theorem entryAt_of_blank (h : tableTarget mem r.1 = none) : entryAt mem r = none := by
  simp [entryAt, h]

theorem entryTarget_of_table (h : tableTarget mem r.1 = some table) :
    entryTarget mem r = (mem table r.2).target := by
  rw [entryTarget, entryAt_of_table h, Word.target]

theorem entryTarget_of_blank (h : tableTarget mem r.1 = none) : entryTarget mem r = none := by
  rw [entryTarget, entryAt_of_blank h, Option.map_none]

theorem entryTarget_eq_some :
    entryTarget mem r = some f ↔ ∃ w, entryAt mem r = some w ∧ w.index = f := by
  simp [entryTarget]

/-- An entry depends on the slot and on its own word. -/
theorem entryAt_congr (hslot : tableTarget mem' r.1 = tableTarget mem r.1)
    (hword : ∀ table, tableTarget mem r.1 = some table → mem' table r.2 = mem table r.2) :
    entryAt mem' r = entryAt mem r := by
  unfold entryAt
  rw [hslot]
  cases h : tableTarget mem r.1 with
  | none => rfl
  | some table => simp only [Option.bind_some, hword table h]

theorem references_congr (hslot : ∀ x ∈ S, tableTarget mem' x = tableTarget mem x)
    (hentry : ∀ r ∈ entries S, entryAt mem' r = entryAt mem r) :
    references mem' S f = references mem S f := by
  unfold references
  rw [refCount_congr hslot, refCount_congr (R := entries S)]
  intro r hr
  rw [entryTarget, entryTarget, hentry r hr]

end Views

/-- The user slots of the page directories of live tasks. -/
def State.slots (s : State) : Finset Slot :=
  (s.live.image fun p => (s.procs p).pde) ×ˢ Finset.Ico KERNEL_SLOTS SELF_SLOT

/-- `memory_map` counts the references through `S` and the `extra` ones. With `strict`,
pages that several entries map are not writable unless all entries share them. -/
structure Frames (strict : Prop) (s : State) (S : Finset Slot) (extra : ℕ → ℕ) : Prop where
  kernel : ∀ f < KERNEL_PAGES, 1 ≤ s.memoryMap f
  small : ∀ f, s.memoryMap f < 255
  dir : ∀ x ∈ S, x.1 ≠ 2 ∧ x.1 < KERNEL_PAGES
  table : ∀ x ∈ S, ∀ f, tableTarget s.mem x = some f →
    KERNEL_PAGES ≤ f ∧ f < s.totalPages ∧ s.memoryMap f = 1
  entry : ∀ r ∈ entries S, ∀ w, entryAt s.mem r = some w →
    KERNEL_PAGES ≤ w.index ∧ w.index < s.totalPages
  count : ∀ f, KERNEL_PAGES ≤ f → f < s.totalPages →
    s.memoryMap f = references s.mem S f + extra f
  cow : strict → ∀ r ∈ entries S, ∀ w, entryAt s.mem r = some w → w.write = true →
    w.shared = false → s.memoryMap w.index ≤ 1
  uniform : strict → ∀ r ∈ entries S, ∀ r' ∈ entries S, ∀ w w', entryAt s.mem r = some w →
    entryAt s.mem r' = some w' → w.index = w'.index → w.shared = w'.shared

namespace Frames

variable {strict : Prop} {s s' : State} {S : Finset Slot} {extra e : ℕ → ℕ} {x y : Slot}
  {r r' : Slot × ℕ} {f i table : ℕ}

theorem congr (h : Frames strict s S extra) (hmem : s'.mem = s.mem)
    (hmap : s'.memoryMap = s.memoryMap) (htotal : s'.totalPages = s.totalPages) :
    Frames strict s' S extra := by
  obtain ⟨hkernel, hsmall, hdir, htable, hentry, hcount, hcow, huniform⟩ := h
  constructor <;> simpa only [hmem, hmap, htotal]

/-! ## What the counts say -/

/-- The frame of a page table has no other reference. -/
theorem table_count (h : Frames strict s S extra) (hx : x ∈ S)
    (ht : tableTarget s.mem x = some f) :
    refCount (tableTarget s.mem) S f = 1 ∧ refCount (entryTarget s.mem) (entries S) f = 0 ∧
      extra f = 0 := by
  obtain ⟨hlow, hhigh, hone⟩ := h.table x hx f ht
  have hcount := h.count f hlow hhigh
  have hpos : 1 ≤ refCount (tableTarget s.mem) S f := refCount_pos hx ht
  unfold references at hcount
  omega

theorem table_unique (h : Frames strict s S extra) (hx : x ∈ S) (hy : y ∈ S)
    (htx : tableTarget s.mem x = some f) (hty : tableTarget s.mem y = some f) : x = y :=
  eq_of_refCount_le_one (h.table_count hx htx).1.le hx hy htx hty

/-- No entry maps the frame of a page table. -/
theorem index_ne_table (h : Frames strict s S extra) (hx : x ∈ S)
    (ht : tableTarget s.mem x = some f) (hr : r ∈ entries S) {w : Word}
    (hw : entryAt s.mem r = some w) : w.index ≠ f := by
  intro hf
  exact not_target_of_refCount (h.table_count hx ht).2.1 hr (entryTarget_eq_some.mpr ⟨w, hw, hf⟩)

/-- A frame without references appears nowhere. -/
theorem unseen (h : Frames strict s S extra) (hlow : KERNEL_PAGES ≤ f) (hf : f < s.totalPages)
    (hcount : s.memoryMap f ≤ extra f) :
    (∀ x ∈ S, tableTarget s.mem x ≠ some f) ∧
      ∀ r ∈ entries S, ∀ w, entryAt s.mem r = some w → w.index ≠ f := by
  have hrefs := h.count f hlow hf
  unfold references at hrefs
  constructor
  · intro x hx
    exact not_target_of_refCount (by omega) hx
  · intro r hr w hw hindex
    exact not_target_of_refCount (p := entryTarget s.mem) (f := f) (by omega) hr
      (entryTarget_eq_some.mpr ⟨w, hw, hindex⟩)

/-- A frame with one reference is mapped by at most one entry. -/
theorem entry_unique (h : Frames strict s S extra) (hr : r ∈ entries S) (hr' : r' ∈ entries S)
    {w w' : Word} (hw : entryAt s.mem r = some w) (hw' : entryAt s.mem r' = some w')
    (hindex : w'.index = w.index) (hone : s.memoryMap w.index ≤ 1) : r = r' := by
  obtain ⟨hlow, hhigh⟩ := h.entry r hr w hw
  have hrefs := h.count w.index hlow hhigh
  unfold references at hrefs
  exact eq_of_refCount_le_one (p := entryTarget s.mem) (f := w.index) (by omega) hr hr'
    (entryTarget_eq_some.mpr ⟨w, hw, rfl⟩) (entryTarget_eq_some.mpr ⟨w', hw', hindex⟩)

/-- The frame of a mapped page is counted, and so it is not in the hands of anyone. -/
theorem entry_pos (h : Frames strict s S extra) (hr : r ∈ entries S) {w : Word}
    (hw : entryAt s.mem r = some w) : 1 + extra w.index ≤ s.memoryMap w.index := by
  obtain ⟨hlow, hhigh⟩ := h.entry r hr w hw
  have hrefs := h.count w.index hlow hhigh
  have hpos : 1 ≤ refCount (entryTarget s.mem) (entries S) w.index :=
    refCount_pos hr (entryTarget_eq_some.mpr ⟨w, hw, rfl⟩)
  unfold references at hrefs
  omega

/-! ## Counters -/

/-- `get_page` takes a frame without references. -/
theorem grab (h : Frames strict s S extra) (hlow : KERNEL_PAGES ≤ i) (hi : i < s.totalPages)
    (hfree : s.memoryMap i = 0) : Frames strict (s.setCount i 1) S (extra + hit (some i)) := by
  obtain ⟨htable, hentry⟩ := h.unseen hlow hi (by omega)
  have hsame : ∀ f, f ≠ i → (s.setCount i 1).memoryMap f = s.memoryMap f :=
    fun f hf => if_neg hf
  have hnew : (s.setCount i 1).memoryMap i = 1 := if_pos rfl
  refine { h with kernel := ?_, small := ?_, table := ?_, count := ?_, cow := ?_ }
  · intro f hf
    rw [hsame f (by omega)]
    exact h.kernel f hf
  · intro f
    by_cases hf : f = i
    · rw [hf, hnew]
      decide
    · rw [hsame f hf]
      exact h.small f
  · intro x hx f ht
    have hf : f ≠ i := fun hf => htable x hx (hf ▸ ht)
    rw [hsame f hf]
    exact h.table x hx f ht
  · intro f hf hf'
    have hcount := h.count f hf hf'
    by_cases hfi : f = i
    · rw [hfi] at hcount ⊢
      rw [hnew, Pi.add_apply, hit_self]
      change 1 = references s.mem S i + _
      omega
    · rw [hsame f hfi, Pi.add_apply, hit_of_ne (Ne.symm hfi)]
      exact hcount
  · intro hstrict r hr w hw hwrite hshared
    rw [hsame _ (hentry r hr w hw)]
    exact h.cow hstrict r hr w hw hwrite hshared

/-- A reference in hand is given up. -/
theorem drop (h : Frames strict s S extra) (hlow : KERNEL_PAGES ≤ i)
    (hextra : ∀ f, extra f = e f + hit (some i) f) (hpos : 1 ≤ s.memoryMap i) :
    Frames strict (s.setCount i (s.memoryMap i - 1)) S e := by
  have hsame : ∀ f, f ≠ i → (s.setCount i (s.memoryMap i - 1)).memoryMap f = s.memoryMap f :=
    fun f hf => if_neg hf
  have hnew : (s.setCount i (s.memoryMap i - 1)).memoryMap i = s.memoryMap i - 1 := if_pos rfl
  have hle : ∀ f, (s.setCount i (s.memoryMap i - 1)).memoryMap f ≤ s.memoryMap f := by
    intro f
    by_cases hf : f = i
    · rw [hf, hnew]
      omega
    · rw [hsame f hf]
  refine { h with kernel := ?_, small := ?_, table := ?_, count := ?_, cow := ?_ }
  · intro f hf
    rw [hsame f (by omega)]
    exact h.kernel f hf
  · exact fun f => (hle f).trans_lt (h.small f)
  · intro x hx f ht
    have hzero := (h.table_count hx ht).2.2
    have hf : f ≠ i := by
      rintro rfl
      have hextra' := hextra f
      rw [hit_self] at hextra'
      omega
    rw [hsame f hf]
    exact h.table x hx f ht
  · intro f hf hf'
    have hcount := h.count f hf hf'
    have hextra' := hextra f
    by_cases hfi : f = i
    · rw [hfi] at hcount hextra' ⊢
      rw [hit_self] at hextra'
      rw [hnew]
      change _ = references s.mem S i + _
      omega
    · rw [hit_of_ne (Ne.symm hfi)] at hextra'
      rw [hsame f hfi]
      change _ = references s.mem S f + _
      omega
  · intro hstrict r hr w hw hwrite hshared
    exact (hle _).trans (h.cow hstrict r hr w hw hwrite hshared)

/-- A mapped page gets one more reference. Its entry must not be writable, unless it is
shared. -/
theorem raise (h : Frames strict s S extra) (hr : r ∈ entries S) {w : Word}
    (hw : entryAt s.mem r = some w) (hcow : w.write = true → w.shared = true)
    (hsmall : s.memoryMap w.index + 1 < 255) :
    Frames strict (s.setCount w.index (s.memoryMap w.index + 1)) S
      (extra + hit (some w.index)) := by
  have hsame : ∀ f, f ≠ w.index →
      (s.setCount w.index (s.memoryMap w.index + 1)).memoryMap f = s.memoryMap f :=
    fun f hf => if_neg hf
  have hnew : (s.setCount w.index (s.memoryMap w.index + 1)).memoryMap w.index =
      s.memoryMap w.index + 1 := if_pos rfl
  have hpos := h.entry_pos hr hw
  refine { h with kernel := ?_, small := ?_, table := ?_, count := ?_, cow := ?_ }
  · intro f hf
    by_cases hfi : f = w.index
    · rw [hfi, hnew]
      omega
    · rw [hsame f hfi]
      exact h.kernel f hf
  · intro f
    by_cases hfi : f = w.index
    · rw [hfi, hnew]
      exact hsmall
    · rw [hsame f hfi]
      exact h.small f
  · intro x hx f ht
    rw [hsame f (h.index_ne_table hx ht hr hw).symm]
    exact h.table x hx f ht
  · intro f hf hf'
    have hcount := h.count f hf hf'
    by_cases hfi : f = w.index
    · rw [hfi] at hcount ⊢
      rw [hnew, Pi.add_apply, hit_self]
      change _ = references s.mem S w.index + _
      omega
    · rw [hsame f hfi, Pi.add_apply, hit_of_ne (Ne.symm hfi)]
      exact hcount
  · intro hstrict r' hr' w' hw' hwrite hshared
    have hone := h.cow hstrict r' hr' w' hw' hwrite hshared
    by_cases hindex : w'.index = w.index
    · have hrr : r' = r := h.entry_unique hr' hr hw' hw hindex.symm hone
      subst r'
      obtain rfl : w' = w := Option.some.inj (hw'.symm.trans hw)
      rw [hcow hwrite] at hshared
      cases hshared
    · rw [hsame _ hindex]
      exact hone

end Frames

end Ylos.Memory
