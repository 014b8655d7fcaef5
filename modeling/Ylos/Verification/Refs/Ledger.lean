import Ylos.Lib.RefCount
import Ylos.Model.Fs.Namei

/-! # References to inodes and buffers

What a running call holds is written down in two lists, of inodes in core and of
buffers, and the counters of a state are compared with those at the start of the call. -/

namespace Ylos.Refs

open Exec

/-- The buffer that a slot of `inode_table` holds a reference to. -/
def keeps (v : Inode) : Option BufRef := if v.count = 0 ∨ v.pipe = true then none else some v.buf

/-- How many inodes in core hold a reference to `b`. -/
def kept (s : Fs) (b : BufRef) : ℕ :=
  refCount (fun i => keeps (s.inodes i)) (Finset.range INODE_NR) b

def InCore (s : Fs) (i : ℕ) : Prop := (s.inodes i).count ≠ 0 ∧ (s.inodes i).pipe = false

/-- What a slot says besides its count, its descriptor and its times. -/
def label (v : Inode) : ℤ × ℕ × ℤ × BufRef × Bool := (v.dev, v.nr, v.mount, v.buf, v.pipe)

/-- What a super block says besides its list and its buffers. -/
def mounting (v : SuperBlock) : ℤ × Option ℕ × Option ℕ := (v.dev, v.iroot, v.imount)

/-- `inode_table` and the lists of the super blocks fit together. -/
structure Sound (s : Fs) : Prop where
  slot : ∀ i, (s.inodes i).count ≠ 0 → i < INODE_NR
  free : ∀ i, (s.inodes i).count = 0 → (s.inodes i).dev = NODEV ∧ (s.inodes i).pipe = false
  used : ∀ i, (s.inodes i).count ≠ 0 → (s.inodes i).dev ≠ NODEV ∧ (s.inodes i).mount ≠ NODEV
  nodup : ∀ k, (s.supers k).inodeList.Nodup
  listed : ∀ k, ∀ i ∈ (s.supers k).inodeList, InCore s i

/-- A state between two system calls, whatever is mounted. -/
structure WellFormed (s : Fs) : Prop where
  sound : Sound s
  /-- A free slot is no mount point. -/
  free : ∀ i, (s.inodes i).count = 0 → (s.inodes i).mount = 0
  /-- There are far fewer places for references than a count can count. -/
  few : ∀ i, (s.inodes i).count < 2 ^ 31
  iroot : ∀ k i, (s.supers k).dev ≠ NODEV → (s.supers k).iroot = some i → InCore s i
  imount : ∀ k i, (s.supers k).dev ≠ NODEV → (s.supers k).imount = some i → InCore s i
  /-- `sys_mount` refuses a directory in use, so the only root that something is mounted on
  is that of the root file system, mounted on itself. -/
  top : ∀ k i, (s.supers k).dev ≠ NODEV → (s.supers k).imount = some i →
    (s.inodes i).nr = 1 → ∀ l, (s.supers l).dev = (s.inodes i).dev → (s.supers l).imount = some i
  root : InCore s s.task.iroot
  pwd : InCore s s.task.ipwd

/-- From `s` to `s'` inodes enter and leave the lists of the super blocks as they enter and
leave core; a root enters a list that has none. -/
structure Listing (s s' : Fs) : Prop where
  supers : ∀ k, (s'.supers k).count = (s.supers k).count
  lists : ∀ k j, (s.inodes j).count ≠ 0 → (s'.inodes j).count ≠ 0 →
    (j ∈ (s'.supers k).inodeList ↔ j ∈ (s.supers k).inodeList)
  entered : ∀ k j, (s.inodes j).count = 0 → j ∈ (s'.supers k).inodeList →
    (s'.supers k).dev = (s'.inodes j).dev ∧
      ((s'.inodes j).nr = 1 → ∀ i ∈ (s.supers k).inodeList, (s.inodes i).nr ≠ 1)
  listed : ∀ j, (s.inodes j).count = 0 → (s'.inodes j).count ≠ 0 →
    ∃ k, j ∈ (s'.supers k).inodeList

/-- Counts change, and nothing else that matters here. -/
structure Moves (s : Fs) (c : ℕ → ℕ) (s' : Fs) : Prop where
  count : ∀ j, (s'.inodes j).count = c j
  ident : ∀ j, (s.inodes j).count ≠ 0 → c j ≠ 0 → label (s'.inodes j) = label (s.inodes j)
  mount : ∀ j, (s'.inodes j).mount = (s.inodes j).mount
  mounting : ∀ k, mounting (s'.supers k) = mounting (s.supers k)
  listing : Listing s s'
  task : s'.task = s.task
  refs : ∀ b, s'.refs b + kept s b = s.refs b + kept s' b

/-- The code runs since `s₀`, holds references to the inodes `held` and to the buffers
`bufs`, and owes none. -/
structure Ledger (s₀ : Fs) (held : List ℕ) (bufs : List BufRef) (s : Fs) : Prop where
  start : WellFormed s₀
  sound : Sound s
  count : ∀ i, (s.inodes i).count = (s₀.inodes i).count + held.count i
  ident : ∀ i, (s₀.inodes i).count ≠ 0 → label (s.inodes i) = label (s₀.inodes i)
  new : ∀ i, (s₀.inodes i).count = 0 → (s.inodes i).mount = 0
  core : ∀ i ∈ held, (s.inodes i).pipe = false
  few : held.length ≤ 8
  mounting : ∀ k, mounting (s.supers k) = mounting (s₀.supers k)
  listing : Listing s₀ s
  iroot : s.task.iroot = s₀.task.iroot
  ipwd : s.task.ipwd = s₀.task.ipwd
  refs : ∀ b, s.refs b + kept s₀ b = s₀.refs b + kept s b + bufs.count b

variable {s₀ s s' : Fs} {held : List ℕ} {bufs : List BufRef} {i n : ℕ} {b : BufRef}
  {good : Event → Prop}

theorem Listing.refl (h : Sound s) : Listing s s :=
  ⟨fun _ => rfl, fun _ _ _ _ => Iff.rfl, fun k j hj hmem => absurd hj (h.listed k j hmem).1,
    fun _ hj hj' => absurd hj hj'⟩

/-- The lists of `s` and `s'` are the same, and the inodes are but for some numbers. -/
theorem Listing.of_eq (h : Sound s)
    (hsupers : ∀ k, (s'.supers k).count = (s.supers k).count)
    (hlists : ∀ k, (s'.supers k).inodeList = (s.supers k).inodeList)
    (hcount : ∀ j, (s.inodes j).count = 0 → (s'.inodes j).count = 0) : Listing s s' := by
  refine ⟨hsupers, fun k j _ _ => by rw [hlists], fun k j hj hmem => ?_,
    fun j hj hj' => absurd (hcount j hj) hj'⟩
  rw [hlists] at hmem
  exact absurd hj (h.listed k j hmem).1

/-- `hlive`: what is in core in `s₀` is so in `s`, too. -/
theorem Listing.trans (h : Listing s₀ s) (h' : Listing s s') (h₀ : Sound s₀) (hsound' : Sound s')
    (hlive : ∀ j, (s₀.inodes j).count ≠ 0 → (s.inodes j).count ≠ 0)
    (hident₀ : ∀ j, (s₀.inodes j).count ≠ 0 → label (s.inodes j) = label (s₀.inodes j))
    (hident : ∀ j, (s.inodes j).count ≠ 0 → (s'.inodes j).count ≠ 0 →
      label (s'.inodes j) = label (s.inodes j))
    (hmounting : ∀ k, mounting (s'.supers k) = mounting (s.supers k)) : Listing s₀ s' := by
  have hlists : ∀ k j, (s₀.inodes j).count ≠ 0 → (s'.inodes j).count ≠ 0 →
      (j ∈ (s'.supers k).inodeList ↔ j ∈ (s₀.supers k).inodeList) := fun k j hj hj' =>
    (h'.lists k j (hlive j hj) hj').trans (h.lists k j hj (hlive j hj))
  refine ⟨fun k => (h'.supers k).trans (h.supers k), hlists, fun k j hj hmem => ?_,
    fun j hj hj' => ?_⟩
  · have hj' := (hsound'.listed k j hmem).1
    by_cases hnew : (s.inodes j).count = 0
    · obtain ⟨hdev, hroot⟩ := h'.entered k j hnew hmem
      refine ⟨hdev, fun hnr i hi hi' => ?_⟩
      have hcore := (h₀.listed k i hi).1
      refine hroot hnr i ((h.lists k i hcore (hlive i hcore)).mpr hi) ?_
      exact (congrArg (·.2.1) (hident₀ i hcore)).trans hi'
    · obtain ⟨hdev, hroot⟩ := h.entered k j hj ((h'.lists k j hnew hj').mp hmem)
      have hsame := hident j hnew hj'
      refine ⟨?_, fun hnr => hroot ((congrArg (·.2.1) hsame).symm.trans hnr)⟩
      exact ((congrArg (·.1) (hmounting k)).trans hdev).trans (congrArg (·.1) hsame).symm
  · by_cases hnew : (s.inodes j).count = 0
    · exact h'.listed j hnew hj'
    · obtain ⟨k, hk⟩ := h.listed j hj hnew
      exact ⟨k, (h'.lists k j hnew hj').mpr hk⟩

theorem WellFormed.ledger (h : WellFormed s) : Ledger s [] [] s where
  start := h
  sound := h.sound
  count i := by simp
  ident _ _ := rfl
  new i hi := h.free i hi
  core := nofun
  few := Nat.zero_le 8
  mounting _ := rfl
  listing := .refl h.sound
  iroot := rfl
  ipwd := rfl
  refs b := by simp

/-! ## Slots of `inode_table` -/

theorem kept_eq (h : ∀ j, j ≠ i → keeps (s'.inodes j) = keeps (s.inodes j)) (hi : i < INODE_NR)
    (b : BufRef) :
    kept s' b + hit (keeps (s.inodes i)) b = kept s b + hit (keeps (s'.inodes i)) b :=
  refCount_retarget (Finset.mem_range.mpr hi) fun j _ hj => h j hj

/-- The count of an inode in core changes. -/
theorem Sound.recount (h : Sound s) (hi : (s.inodes i).count ≠ 0) (hn : n ≠ 0)
    (hinodes : ∀ j, s'.inodes j = if j = i then { s.inodes i with count := n } else s.inodes j)
    (hsupers : s'.supers = s.supers) (htask : s'.task = s.task) (hrefs : s'.refs = s.refs) :
    Sound s' ∧ Moves s (fun j => if j = i then n else (s.inodes j).count) s' := by
  have hcount : ∀ j, (s'.inodes j).count = if j = i then n else (s.inodes j).count := by
    intro j
    rw [hinodes]
    split <;> rfl
  have hident : ∀ j, label (s'.inodes j) = label (s.inodes j) := by
    intro j
    rw [hinodes]
    split
    · rename_i hj
      rw [hj]
      rfl
    · rfl
  have hlive : ∀ j, (s'.inodes j).count ≠ 0 ↔ (s.inodes j).count ≠ 0 := by
    intro j
    rw [hcount]
    split
    · rename_i hj
      rw [hj]
      exact iff_of_true hn hi
    · rfl
  have hdev : ∀ j, (s'.inodes j).dev = (s.inodes j).dev := fun j => congrArg (·.1) (hident j)
  have hmount : ∀ j, (s'.inodes j).mount = (s.inodes j).mount :=
    fun j => congrArg (·.2.2.1) (hident j)
  have hpipe : ∀ j, (s'.inodes j).pipe = (s.inodes j).pipe :=
    fun j => congrArg (·.2.2.2.2) (hident j)
  have hbuf : ∀ j, (s'.inodes j).buf = (s.inodes j).buf := fun j => congrArg (·.2.2.2.1) (hident j)
  have hkept : ∀ b, kept s' b = kept s b := by
    intro b
    refine refCount_congr fun j _ => ?_
    unfold keeps
    simp only [hpipe, hbuf, not_iff_not.mp (hlive j)]
  refine ⟨⟨fun j hj => h.slot j ((hlive j).mp hj), fun j hj => ?_, fun j hj => ?_, fun k => ?_,
    fun k j hj => ?_⟩, hcount, fun j _ _ => hident j, hmount, fun k => by rw [hsupers],
    .of_eq h (fun k => by rw [hsupers]) (fun k => by rw [hsupers])
      (fun j hj => not_ne_iff.mp (mt (hlive j).mp (not_ne_iff.mpr hj))), htask,
    fun b => by rw [hrefs, hkept]⟩
  · rw [hdev, hpipe]
    exact h.free j (not_ne_iff.mp (mt (hlive j).mpr (not_ne_iff.mpr hj)))
  · rw [hdev, hmount]
    exact h.used j ((hlive j).mp hj)
  · rw [hsupers]
    exact h.nodup k
  · rw [hsupers] at hj
    obtain ⟨hcore, hnopipe⟩ := h.listed k j hj
    exact ⟨(hlive j).mpr hcore, (hpipe j).trans hnopipe⟩

/-- The last reference to an inode in core is gone. -/
theorem Sound.retire (h : Sound s) (hi : InCore s i)
    (hinodes : ∀ j, s'.inodes j =
      if j = i then { s.inodes i with count := 0, dev := NODEV } else s.inodes j)
    (hsupers : ∀ k, s'.supers k =
      { s.supers k with inodeList := (s.supers k).inodeList.erase i })
    (htask : s'.task = s.task)
    (hrefs : ∀ b, s'.refs b = if b = (s.inodes i).buf then s.refs b - 1 else s.refs b) :
    Sound s' ∧ Moves s (fun j => if j = i then 0 else (s.inodes j).count) s' := by
  have hself : s'.inodes i = { s.inodes i with count := 0, dev := NODEV } := by
    rw [hinodes, if_pos rfl]
  have hother : ∀ j, j ≠ i → s'.inodes j = s.inodes j := fun j hj => by rw [hinodes, if_neg hj]
  have hlive : ∀ j, (s'.inodes j).count ≠ 0 → j ≠ i := by
    rintro _ hj rfl
    rw [hself] at hj
    exact hj rfl
  have hkept : ∀ b, kept s' b + hit (some (s.inodes i).buf) b = kept s b := by
    intro b
    have hmoved := @kept_eq s s' i (fun j hj => by rw [hother j hj]) (h.slot i hi.1) b
    rw [hself] at hmoved
    simpa only [keeps, hi.1, hi.2, hit_none, add_zero, false_or, true_or, if_true, if_false,
      Bool.false_eq_true] using hmoved
  refine ⟨⟨fun j hj => ?_, fun j hj => ?_, fun j hj => ?_, fun k => ?_, fun k j hj => ?_⟩,
    fun j => ?_, fun j _ hj => ?_, fun j => ?_, fun k => ?_,
    ⟨fun k => by rw [hsupers], fun k j _ hj => ?_, fun k j hj hmem => ?_, fun j hj hj' => ?_⟩,
    htask, fun b => ?_⟩
  · rw [hother j (hlive j hj)] at hj
    exact h.slot j hj
  · by_cases hji : j = i
    · rw [hji, hself]
      exact ⟨rfl, hi.2⟩
    · rw [hother j hji] at hj ⊢
      exact h.free j hj
  · have hji := hlive j hj
    rw [hother j hji] at hj ⊢
    exact h.used j hj
  · rw [hsupers]
    exact (h.nodup k).erase i
  · rw [hsupers] at hj
    obtain ⟨hji, hmem⟩ := ((h.nodup k).mem_erase_iff).mp hj
    unfold InCore
    rw [hother j hji]
    exact h.listed k j hmem
  · by_cases hji : j = i
    · rw [hji, hself, if_pos rfl]
    · rw [hother j hji, if_neg hji]
  · rw [hother j fun hji => hj (if_pos hji)]
  · by_cases hji : j = i
    · rw [hji, hself]
    · rw [hother j hji]
  · rw [hsupers]
    rfl
  · rw [hsupers]
    exact List.mem_erase_of_ne (hlive j hj)
  · rw [hsupers] at hmem
    exact absurd hj (h.listed k j (List.mem_of_mem_erase hmem)).1
  · rw [hother j (hlive j hj')] at hj'
    exact absurd hj hj'
  · have hsum := hkept b
    rw [hrefs]
    by_cases hb : b = (s.inodes i).buf
    · rw [hb] at hsum ⊢
      rw [hit_self] at hsum
      rw [if_pos rfl]
      omega
    · rw [hit_of_ne (Ne.symm hb)] at hsum
      rw [if_neg hb]
      omega

/-- A free slot is filled. -/
theorem Sound.enter (h : Sound s) (hi : (s.inodes i).count = 0) (hlt : i < INODE_NR) {v : Inode}
    {m : ℕ} (hcount : v.count = 1) (hdev : v.dev ≠ NODEV)
    (hmount : v.mount = (s.inodes i).mount) (hpipe : v.pipe = false)
    (hfree : (s.inodes i).mount ≠ NODEV) (hlist : (s.supers m).dev = v.dev)
    (hroot : v.nr = 1 → ∀ j ∈ (s.supers m).inodeList, (s.inodes j).nr ≠ 1)
    (hinodes : ∀ j, s'.inodes j = if j = i then v else s.inodes j)
    (hsupers : ∀ k, s'.supers k = if k = m then
      { s.supers m with inodeList := i :: (s.supers m).inodeList } else s.supers k)
    (htask : s'.task = s.task)
    (hrefs : ∀ b, s'.refs b = if b = v.buf then s.refs b + 1 else s.refs b) :
    Sound s' ∧ Moves s (fun j => if j = i then 1 else (s.inodes j).count) s' := by
  have hself : s'.inodes i = v := by rw [hinodes, if_pos rfl]
  have hother : ∀ j, j ≠ i → s'.inodes j = s.inodes j := fun j hj => by rw [hinodes, if_neg hj]
  have hkept : ∀ b, kept s' b = kept s b + hit (some v.buf) b := by
    intro b
    have hmoved := @kept_eq s s' i (fun j hj => by rw [hother j hj]) hlt b
    rw [hself] at hmoved
    simpa only [keeps, hi, hcount, hpipe, hit_none, add_zero, one_ne_zero, true_or, or_self,
      if_true, if_false, Bool.false_eq_true] using hmoved
  have hcore : ∀ j, InCore s j → j ≠ i ∧ InCore s' j := by
    intro j hj
    have hji : j ≠ i := by
      rintro rfl
      exact hj.1 hi
    unfold InCore
    rw [hother j hji]
    exact ⟨hji, hj⟩
  refine ⟨⟨fun j hj => ?_, fun j hj => ?_, fun j hj => ?_, fun k => ?_, fun k j hj => ?_⟩,
    fun j => ?_, fun j hj _ => ?_, fun j => ?_, fun k => ?_,
    ⟨fun k => ?_, fun k j hj _ => ?_, fun k j hj hmem => ?_, fun j hj hj' => ⟨m, ?_⟩⟩,
    htask, fun b => ?_⟩
  · by_cases hji : j = i
    · rwa [hji]
    · rw [hother j hji] at hj
      exact h.slot j hj
  · by_cases hji : j = i
    · rw [hji, hself, hcount] at hj
      cases hj
    · rw [hother j hji] at hj ⊢
      exact h.free j hj
  · by_cases hji : j = i
    · rw [hji, hself]
      exact ⟨hdev, hmount ▸ hfree⟩
    · rw [hother j hji] at hj ⊢
      exact h.used j hj
  · rw [hsupers]
    split
    · exact List.nodup_cons.mpr ⟨fun hmem => (h.listed m i hmem).1 hi, h.nodup m⟩
    · exact h.nodup k
  · rw [hsupers] at hj
    split at hj
    · rcases List.mem_cons.mp hj with rfl | hj
      · unfold InCore
        rw [hself, hcount]
        exact ⟨one_ne_zero, hpipe⟩
      · exact (hcore j (h.listed m j hj)).2
    · exact (hcore j (h.listed k j hj)).2
  · by_cases hji : j = i
    · rw [hji, hself, if_pos rfl, hcount]
    · rw [hother j hji, if_neg hji]
  · have hji : j ≠ i := by
      rintro rfl
      exact hj hi
    rw [hother j hji]
  · by_cases hji : j = i
    · rw [hji, hself, hmount]
    · rw [hother j hji]
  · rw [hsupers]
    split
    · rename_i hk
      rw [hk]
      rfl
    · rfl
  · rw [hsupers]
    split
    · rename_i hk
      rw [hk]
    · rfl
  · have hji : j ≠ i := by
      rintro rfl
      exact hj hi
    rw [hsupers]
    split
    · rename_i hk
      rw [hk, List.mem_cons, or_iff_right hji]
    · rfl
  · rw [hsupers] at hmem ⊢
    split at hmem
    · rename_i hk
      rcases List.mem_cons.mp hmem with rfl | hmem
      · rw [if_pos hk, hself, hk]
        exact ⟨hlist, hroot⟩
      · exact absurd hj (h.listed m j hmem).1
    · exact absurd hj (h.listed k j hmem).1
  · obtain rfl : j = i := by
      by_contra hji
      rw [hother j hji] at hj'
      exact hj' hj
    rw [hsupers, if_pos rfl]
    exact List.mem_cons_self
  · rw [hrefs, hkept]
    by_cases hb : b = v.buf
    · rw [hb, hit_self, if_pos rfl]
      omega
    · rw [hit_of_ne (Ne.symm hb), if_neg hb]
      omega

/-! ## The ledger -/

theorem Ledger.lt (h : Ledger s₀ held bufs s) (i : ℕ) : (s.inodes i).count + 8 < 2 ^ 32 := by
  have hcount := h.count i
  have hfew := h.start.few i
  have hle := (List.count_le_length (a := i) (l := held)).trans h.few
  omega

theorem Ledger.inCore (h : Ledger s₀ held bufs s) (hi : InCore s₀ i) : InCore s i := by
  have hcount := h.count i
  have hpos := hi.1
  refine ⟨by omega, ?_⟩
  exact (congrArg (·.2.2.2.2) (h.ident i hpos)).trans hi.2

theorem Ledger.inCore_of_mem (h : Ledger s₀ held bufs s) (hi : i ∈ held) : InCore s i := by
  have hcount := h.count i
  have hpos := List.count_pos_iff.mpr hi
  exact ⟨by omega, h.core i hi⟩

/-- A reference is given back. -/
theorem Ledger.put (h : Ledger s₀ (i :: held) bufs s) (hsound : Sound s')
    (hmoves : Moves s (fun j => if j = i then (s.inodes i).count - 1 else (s.inodes j).count) s') :
    Ledger s₀ held bufs s' := by
  have hcount : ∀ j, (s'.inodes j).count = (s₀.inodes j).count + held.count j := by
    intro j
    have hj := h.count j
    rw [List.count_cons] at hj
    rw [hmoves.count]
    by_cases hji : j = i
    · rw [if_pos hji, ← hji]
      rw [if_pos (by simp [hji])] at hj
      omega
    · rw [if_neg hji]
      rw [if_neg (by simpa using Ne.symm hji)] at hj
      omega
  have hident : ∀ j, (s'.inodes j).count ≠ 0 → label (s'.inodes j) = label (s.inodes j) := by
    intro j hj
    refine hmoves.ident j ?_ ((hmoves.count j).symm ▸ hj)
    have hold := h.count j
    rw [List.count_cons] at hold
    rw [hcount j] at hj
    omega
  have hlisting : Listing s₀ s' := h.listing.trans hmoves.listing h.start.sound hsound
    (fun j hj => by rw [h.count]; omega) h.ident
    (fun j hj hj' => hmoves.ident j hj (hmoves.count j ▸ hj')) hmoves.mounting
  refine ⟨h.start, hsound, hcount, fun j hj => ?_, fun j hj => (hmoves.mount j).trans (h.new j hj),
    fun j hj => ?_, ?_, fun k => (hmoves.mounting k).trans (h.mounting k), hlisting, ?_, ?_,
    fun b => ?_⟩
  · exact (hident j (by rw [hcount]; omega)).trans (h.ident j hj)
  · have hpos := List.count_pos_iff.mpr hj
    have hpipe := congrArg (·.2.2.2.2) (hident j (by rw [hcount]; omega))
    exact hpipe.trans (h.core j (List.mem_cons_of_mem i hj))
  · have hfew := h.few
    rw [List.length_cons] at hfew
    omega
  · rw [hmoves.task, h.iroot]
  · rw [hmoves.task, h.ipwd]
  · have hrefs := hmoves.refs b
    have hbefore := h.refs b
    omega

/-- A reference is taken. -/
theorem Ledger.take (h : Ledger s₀ held bufs s) (hsound : Sound s')
    (hmoves : Moves s (fun j => if j = i then (s.inodes i).count + 1 else (s.inodes j).count) s')
    (hpipe : (s'.inodes i).pipe = false) (hfew : held.length < 8) :
    Ledger s₀ (i :: held) bufs s' := by
  have hcount : ∀ j, (s'.inodes j).count = (s₀.inodes j).count + (i :: held).count j := by
    intro j
    have hj := h.count j
    rw [List.count_cons, hmoves.count]
    by_cases hji : j = i
    · rw [if_pos hji, if_pos (by simp [hji]), ← hji]
      omega
    · rw [if_neg hji, if_neg (by simpa using Ne.symm hji)]
      omega
  have hident : ∀ j, (s.inodes j).count ≠ 0 → label (s'.inodes j) = label (s.inodes j) := by
    intro j hj
    refine hmoves.ident j hj ?_
    split
    · exact Nat.succ_ne_zero _
    · exact hj
  have hlisting : Listing s₀ s' := h.listing.trans hmoves.listing h.start.sound hsound
    (fun j hj => by rw [h.count]; omega) h.ident
    (fun j hj hj' => hmoves.ident j hj (hmoves.count j ▸ hj')) hmoves.mounting
  refine ⟨h.start, hsound, hcount, fun j hj => ?_, fun j hj => (hmoves.mount j).trans (h.new j hj),
    fun j hj => ?_, ?_, fun k => (hmoves.mounting k).trans (h.mounting k), hlisting, ?_, ?_,
    fun b => ?_⟩
  · have hold := h.count j
    exact (hident j (by omega)).trans (h.ident j hj)
  · rcases List.mem_cons.mp hj with rfl | hj
    · exact hpipe
    · have hlive := (h.inCore_of_mem hj).1
      exact (congrArg (·.2.2.2.2) (hident j hlive)).trans (h.core j hj)
  · rw [List.length_cons]
    omega
  · rw [hmoves.task, h.iroot]
  · rw [hmoves.task, h.ipwd]
  · have hrefs := hmoves.refs b
    have hbefore := h.refs b
    omega

theorem Ledger.perm {held' : List ℕ} (h : Ledger s₀ held bufs s) (hperm : held.Perm held') :
    Ledger s₀ held' bufs s :=
  { h with
    count := fun i => by rw [h.count, hperm.count_eq]
    core := fun i hi => h.core i (hperm.mem_iff.mpr hi)
    few := hperm.length_eq ▸ h.few }

/-- No inode is given back, and none is taken. -/
structure Quiet (s s' : Fs) : Prop where
  count : ∀ j, (s'.inodes j).count = (s.inodes j).count
  ident : ∀ j, label (s'.inodes j) = label (s.inodes j)
  supers : s'.supers = s.supers
  iroot : s'.task.iroot = s.task.iroot
  ipwd : s'.task.ipwd = s.task.ipwd

theorem Ledger.renumber {bufs' : List BufRef} (h : Ledger s₀ held bufs s)
    (hcount : ∀ j, (s'.inodes j).count = (s.inodes j).count)
    (hdev : ∀ j, (s'.inodes j).dev = (s.inodes j).dev)
    (hmount : ∀ j, (s'.inodes j).mount = (s.inodes j).mount)
    (hbuf : ∀ j, (s'.inodes j).buf = (s.inodes j).buf)
    (hpipe : ∀ j, (s'.inodes j).pipe = (s.inodes j).pipe)
    (hnr : ∀ j, (s₀.inodes j).count ≠ 0 → (s'.inodes j).nr = (s.inodes j).nr)
    (hroot : ∀ j, (s'.inodes j).nr = 1 → (s.inodes j).nr = 1)
    (hsupers : s'.supers = s.supers) (hiroot : s'.task.iroot = s.task.iroot)
    (hipwd : s'.task.ipwd = s.task.ipwd)
    (hrefs : ∀ b, s'.refs b + bufs.count b = s.refs b + bufs'.count b) :
    Ledger s₀ held bufs' s' := by
  have hkept : ∀ b, kept s' b = kept s b := by
    intro b
    refine refCount_congr fun j _ => ?_
    unfold keeps
    rw [hcount, hpipe, hbuf]
  refine ⟨h.start, ⟨fun j hj => ?_, fun j hj => ?_, fun j hj => ?_, fun k => ?_, fun k j hj => ?_⟩,
    fun j => ?_, fun j hj => ?_, fun j hj => (hmount j).trans (h.new j hj),
    fun j hj => (hpipe j).trans (h.core j hj), h.few, fun k => ?_,
    ⟨fun k => by rw [hsupers, h.listing.supers], fun k j hj hj' => ?_, fun k j hj hmem => ?_,
      fun j hj hj' => ?_⟩, hiroot.trans h.iroot, hipwd.trans h.ipwd, fun b => ?_⟩
  · exact h.sound.slot j (hcount j ▸ hj)
  · rw [hdev, hpipe]
    exact h.sound.free j (hcount j ▸ hj)
  · rw [hdev, hmount]
    exact h.sound.used j (hcount j ▸ hj)
  · rw [hsupers]
    exact h.sound.nodup k
  · rw [hsupers] at hj
    obtain ⟨hcore, hnopipe⟩ := h.sound.listed k j hj
    exact ⟨hcount j ▸ hcore, (hpipe j).trans hnopipe⟩
  · rw [hcount]
    exact h.count j
  · rw [← h.ident j hj]
    unfold label
    rw [hdev, hnr j hj, hmount, hbuf, hpipe]
  · rw [hsupers]
    exact h.mounting k
  · rw [hsupers]
    exact h.listing.lists k j hj (hcount j ▸ hj')
  · rw [hsupers] at hmem ⊢
    obtain ⟨hlist, hone⟩ := h.listing.entered k j hj hmem
    exact ⟨hlist.trans (hdev j).symm, fun hnr' => hone (hroot j hnr')⟩
  · rw [hsupers]
    exact h.listing.listed j hj (hcount j ▸ hj')
  · have hbefore := h.refs b
    have hafter := hrefs b
    rw [hkept]
    omega

theorem Ledger.quiet {bufs' : List BufRef} (h : Ledger s₀ held bufs s) (hquiet : Quiet s s')
    (hrefs : ∀ b, s'.refs b + bufs.count b = s.refs b + bufs'.count b) :
    Ledger s₀ held bufs' s' :=
  h.renumber hquiet.count (fun j => congrArg (·.1) (hquiet.ident j))
    (fun j => congrArg (·.2.2.1) (hquiet.ident j)) (fun j => congrArg (·.2.2.2.1) (hquiet.ident j))
    (fun j => congrArg (·.2.2.2.2) (hquiet.ident j))
    (fun j _ => congrArg (·.2.1) (hquiet.ident j))
    (fun j hj => (congrArg (·.2.1) (hquiet.ident j)).symm.trans hj) hquiet.supers hquiet.iroot
    hquiet.ipwd hrefs

end Ylos.Refs
