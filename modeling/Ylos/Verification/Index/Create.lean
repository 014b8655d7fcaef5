import Ylos.Verification.Index.Volume

/-! # `bmap` with `create` -/

namespace Ylos.Index

open Exec Dir Allocator

variable {dev : ℤ} {d : SuperDesc} {k : ℕ} {zb : ℕ → BufRef} {vs : Set Site} {s s' : Fs}
  {v : Site} {n m z j : ℕ} {p q : Place} {b : BufRef} {bufs : List BufRef}

/-- An index table that maps nothing. -/
def Blank (s : Fs) (dev : ℤ) (z : ℕ) : Prop := ∀ j < BLOCK_INDEXES, arrayAt s ⟨dev, z⟩ 0 j = 0

/-! ## One number is stored -/

/-- The zone `z` has been taken, and its number is entry `j` of the array at byte `base` of `b`. -/
structure Linked (d : SuperDesc) (k : ℕ) (zb : ℕ → BufRef) (z : ℕ) (b : BufRef) (base j : ℕ)
    (s s' : Fs) : Prop where
  bits : zoneBits d k zb s' = insert z (zoneBits d k zb s)
  data : ∀ c, (∀ i < k, c ≠ zb i) →
    s'.data c = if c = b then (s.data b).write 2 (base + 2 * j) z else s.data c
  supers : s'.supers = s.supers

theorem Linked.array_same {i base : ℕ} (hs : Linked d k zb z b base j s s')
    (hb : ∀ i < k, b ≠ zb i) (hz : z < 65536) :
    arrayAt s' b base i = if i = j then z else arrayAt s b base i := by
  unfold arrayAt
  rw [hs.data b hb, if_pos rfl]
  split
  · rename_i hi
    rw [hi, Bytes.read_write_same]
    exact Nat.mod_eq_of_lt hz
  · exact Bytes.read_write_ne (by omega)

theorem Linked.array_other {i base base' : ℕ} {c : BufRef} (hs : Linked d k zb z b base j s s')
    (hc : ∀ i < k, c ≠ zb i) (hne : c ≠ b) : arrayAt s' c base' i = arrayAt s c base' i := by
  unfold arrayAt
  rw [hs.data c hc, if_neg hne]

/-- The arrays of a tree are in the descriptor and in blocks of their own. -/
theorem Volume.array_ne (h : Volume dev d k zb vs s) (hv : v ∈ vs) (hq : q = [] ∨ Level (n + 1) q)
    (hopen : Open s v q) (hp : Level (m + 1) p) (hne : ptr s v p ≠ 0) (hpq : p ≠ q) :
    (⟨v.dev, ptr s v p⟩ : BufRef) ≠ (arrayOf s v q).1 := by
  cases q with
  | nil => exact h.ptr_ne hv hp hne (h.home v hv)
  | cons i q =>
      intro heq
      have hq := hq.resolve_left (List.cons_ne_nil i q)
      exact hpq (h.distinct v hv v hv _ _ _ _ hp hq hne (BufRef.mk.inj heq).2).2

theorem Volume.array_early (h : Volume dev d k zb vs s) (hv : v ∈ vs)
    (hq : q = [] ∨ Level (n + 1) q) (hopen : Open s v q) (hb : Early dev d b)
    (hhome : v.buf ≠ b) : (arrayOf s v q).1 ≠ b := by
  cases q with
  | nil => exact hhome
  | cons i q =>
      have hne := hopen.resolve_left (List.cons_ne_nil i q)
      exact h.ptr_ne hv (hq.resolve_left (List.cons_ne_nil i q)) hne hb

section Link

variable (h : Volume dev d k zb vs s) (hv : v ∈ vs) (hp : Level n (j :: q)) (hopen : Open s v q)
  (hzero : ptr s v (j :: q) = 0) (hz : z ∈ freeZones d k zb s) (hblank : n ≠ 0 → Blank s dev z)
  (hs : Linked d k zb z (arrayOf s v q).1 (arrayOf s v q).2 j s s')

include h hv hp hopen hz hs

omit hz hs in
/-- The array is not in the bitmap. -/
theorem array_offMap : ∀ i < k, (arrayOf s v q).1 ≠ zb i := fun i hi =>
  h.array_early hv hp.tail hopen (h.maps i hi) (h.offMap v hv i hi)

include hzero

/-- A zone is hung in at a place where there was none. What is below it is as before if the
zone is blank. -/
theorem ptr_linked_of {r : Place} (hr : Level m r)
    (hblank : r.length ≤ q.length + 1 ∨ (n ≠ 0 → Blank s dev z)) :
    ptr s' v r = if r = j :: q then z else ptr s v r := by
  have hsmall : z < 65536 := lt_of_lt_of_le hz.1.2 (h.map.small.trans (by decide))
  have hq := hp.tail
  have hcell : ∀ i < k, (arrayOf s v q).1 ≠ zb i := array_offMap h hv hp hopen
  have htop : ∀ i, ptr s' v [i] = if [i] = j :: q then z else ptr s v [i] := by
    intro i
    change arrayAt s' v.buf (zonesAt v) i = _
    cases q with
    | nil =>
        refine (hs.array_same hcell hsmall).trans ?_
        simp only [List.cons.injEq, and_true]
        rfl
    | cons a q =>
        rw [if_neg (by simp)]
        refine hs.array_other (h.offMap v hv) fun heq => ?_
        refine h.ptr_ne hv (hq.resolve_left (List.cons_ne_nil a q)) ?_ (h.home v hv) heq.symm
        exact hopen.resolve_left (List.cons_ne_nil a q)
  induction hr with
  | direct hk => exact htop _
  | single => exact htop _
  | double => exact htop _
  | @down m i r hr hi ih =>
      rw [ptr_below hr, ptr_below hr, ih (hblank.imp_left (Nat.le_of_succ_le ·))]
      by_cases hrp : r = j :: q
      · subst hrp
        have hblank := hblank.resolve_left (by simp)
        have hlevel : n ≠ 0 := by
          rw [hp.unique hr]
          exact Nat.succ_ne_zero _
        have hzne : z ≠ 0 := by
          have hfirst := h.map.first
          have hlo := hz.1.1
          omega
        have harray : (⟨dev, z⟩ : BufRef) ≠ (arrayOf s v q).1 := by
          cases q with
          | nil => exact (h.home v hv).zone_ne hz.1.1
          | cons a q =>
              intro heq
              exact h.ptr_ne_free hv (hq.resolve_left (List.cons_ne_nil a q)) hz
                (BufRef.mk.inj heq).2.symm
        rw [if_pos rfl, if_neg hzne, if_neg (List.cons_ne_self i (j :: q)), if_pos hzero,
          h.onDev v hv, hs.array_other (fun i hi => (h.maps i hi).zone_ne hz.1.1) harray]
        exact hblank hlevel i hi
      · rw [if_neg hrp]
        by_cases hrzero : ptr s v r = 0
        · have hne : i :: r ≠ j :: q := by
            intro heq
            obtain ⟨-, rfl⟩ := List.cons.inj heq
            exact hr.ne_nil (hopen.resolve_right (not_not.mpr hrzero))
          rw [if_pos hrzero, if_neg hne, if_pos hrzero]
        · rw [if_neg hrzero, if_neg hrzero]
          by_cases hrq : r = q
          · subst hrq
            have harray : arrayOf s v r = (⟨v.dev, ptr s v r⟩, 0) := by
              cases r with
              | nil => exact absurd rfl hr.ne_nil
              | cons a r => rfl
            rw [harray] at hs hcell
            rw [hs.array_same hcell hsmall]
            simp only [List.cons.injEq, and_true]
          · have hoff : ∀ i < k, (⟨v.dev, ptr s v r⟩ : BufRef) ≠ zb i := fun i hi =>
              h.ptr_ne hv hr hrzero (h.maps i hi)
            rw [hs.array_other hoff (h.array_ne hv hq hopen hr hrzero hrq), if_neg]
            exact fun heq => hrq (List.cons.inj heq).2

include hblank

theorem ptr_linked {r : Place} (hr : Level m r) :
    ptr s' v r = if r = j :: q then z else ptr s v r :=
  ptr_linked_of h hv hp hopen hzero hz hs hr (.inr hblank)

omit hz hzero hblank in
/-- The other inodes keep their trees. -/
theorem sameTree_linked {v' : Site} (hv' : v' ∈ vs) (hne : v' ≠ v) : SameTree s s' v' := by
  have hq := hp.tail
  refine .of_data (fun o ho ho' => ?_) fun m r hr hrne => ?_
  · rw [hs.data _ (h.offMap v' hv')]
    split
    · rename_i hbuf
      cases q with
      | cons a q =>
          refine absurd hbuf.symm (h.ptr_ne hv (hq.resolve_left (List.cons_ne_nil a q)) ?_
            (h.home v' hv'))
          exact hopen.resolve_left (List.cons_ne_nil a q)
      | nil =>
          have hslot : v'.slot ≠ v.slot := by
            intro hslot
            refine hne ?_
            cases v
            cases v'
            simp only [Site.mk.injEq]
            exact ⟨(h.onDev _ hv').trans (h.onDev _ hv).symm, hbuf, hslot⟩
          have hj := hp.top
          have hdirect : DIRECT_BLOCK = 7 := rfl
          have hsize : DESC_SIZE = 32 := rfl
          rw [hbuf]
          change (s.data v.buf).write 2 (zonesAt v + 2 * j) z o = s.data v.buf o
          unfold zonesAt at ho ho' ⊢
          rw [hsize] at ho ho' ⊢
          exact Bytes.write_apply_of_lt (by omega)
    · rfl
  · rw [hs.data _ fun i hi => h.ptr_ne hv' hr hrne (h.maps i hi), if_neg]
    intro heq
    cases q with
    | nil => exact h.ptr_ne hv' hr hrne (h.home v hv) heq
    | cons a q =>
        have hsame := (h.distinct v' hv' v hv _ _ _ _ hr
          (hq.resolve_left (List.cons_ne_nil a q)) hrne (BufRef.mk.inj heq).2).1
        exact hne hsame

theorem volume_linked : Volume dev d k zb vs s' := by
  have hq := hp.tail
  have hsupers := hs.supers
  have hfresh : ∀ v ∈ vs, ∀ m r, Level m r → ptr s v r ≠ z := fun v hv m r hr =>
    h.ptr_ne_free hv hr hz
  have hhead : ∀ i, (s.supers i).dev = dev → s'.data (s.supers i).buf = s.data (s.supers i).buf :=
    fun i hi => by
      rw [hs.data _ (h.head i hi).2,
        if_neg (h.array_early hv hq hopen (h.head i hi).1 (h.offHead v hv i hi)).symm]
  have hself : ∀ m r, Level m r → ptr s' v r = if r = j :: q then z else ptr s v r :=
    fun m r hr => ptr_linked h hv hp hopen hzero hz hblank hs hr
  have hother : ∀ v' ∈ vs, v' ≠ v → ∀ m r, Level m r → ptr s' v' r = ptr s v' r :=
    fun v' hv' hne m r hr => (sameTree_linked h hv hp hopen hs hv' hne).ptr hr
  refine ⟨zoneMap_congr h.map hsupers hhead, ?_, hsupers ▸ h.head, h.maps, h.onDev,
    h.home, h.offMap, hsupers ▸ h.offHead, fun v' hv' m r hr hrne => ?_,
    fun v' hv' v'' hv'' m r m' r' hr hr' hrne heq => ?_⟩
  · rw [hs.bits]
    exact ⟨Set.mem_insert_of_mem _ h.reserved.zero, fun y h₁ h₂ h₃ =>
      Set.mem_insert_of_mem _ (h.reserved.tail y h₁ h₂ h₃)⟩
  · have hold : ∀ u ∈ vs, ptr s u r ≠ 0 → ptr s u r ∈ zoneRange d ∩ insert z (zoneBits d k zb s) :=
      fun u hu hne => (h.used u hu m r hr hne).imp_right (Set.mem_insert_of_mem z)
    rw [hs.bits]
    by_cases hvv : v' = v
    · subst hvv
      rw [hself m r hr] at hrne ⊢
      split
      · exact ⟨hz.1, Set.mem_insert z _⟩
      · rename_i hno
        rw [if_neg hno] at hrne
        exact hold v' hv' hrne
    · rw [hother v' hv' hvv m r hr] at hrne ⊢
      exact hold v' hv' hrne
  · -- the new number is at one place only, and the others are as before
    have hvalue : ∀ u ∈ vs, ∀ m r, Level m r → (u = v ∧ r = j :: q ∧ ptr s' u r = z) ∨
        (ptr s' u r = ptr s u r ∧ ptr s u r ≠ z) := by
      intro u hu m r hr
      by_cases huv : u = v
      · subst huv
        rw [hself m r hr]
        by_cases hrp : r = j :: q
        · exact .inl ⟨rfl, hrp, if_pos hrp⟩
        · exact .inr ⟨if_neg hrp, hfresh u hu m r hr⟩
      · exact .inr ⟨hother u hu huv m r hr, hfresh u hu m r hr⟩
    rcases hvalue v' hv' m r hr with ⟨rfl, rfl, hone⟩ | ⟨hold, hnez⟩
    · rcases hvalue v'' hv'' m' r' hr' with ⟨rfl, rfl, -⟩ | ⟨hold', hnez'⟩
      · exact ⟨rfl, rfl⟩
      · exact absurd (hold'.symm.trans (heq.symm.trans hone)) hnez'
    · rcases hvalue v'' hv'' m' r' hr' with ⟨rfl, rfl, hone'⟩ | ⟨hold', -⟩
      · exact absurd (hold.symm.trans (heq.trans hone')) hnez
      · rw [hold] at hrne heq
        exact h.distinct v' hv' v'' hv'' m r m' r' hr hr' hrne (heq.trans hold')

end Link

/-! ## One round of `bmap` -/

/-- A zone is taken and hung in, whatever is in it. -/
theorem does_link {Q : ℕ → Fs → Prop} {level : ℕ} (h : Volume dev d k zb vs s) (hv : v ∈ vs)
    (hp : Level n (j :: q)) (hopen : Open s v q) (hzero : ptr s v (j :: q) = 0)
    (hz : IsLeast (freeZones d k zb s) z) (howned : Owned ((arrayOf s v q).1 :: bufs) s)
    (hQ : ∀ s', Linked d k zb z (arrayOf s v q).1 (arrayOf s v q).2 j s s' → Q z s') :
    Does ((arrayOf s v q).1 :: bufs)
      (arrayZone dev true level (arrayOf s v q).1 (arrayOf s v q).2 j) s bufs Q := by
  have hcell : ∀ i < k, (arrayOf s v q).1 ≠ zb i := fun i hi =>
    h.array_early hv hp.tail hopen (h.maps i hi) (h.offMap v hv i hi)
  have hsmall : z < 65536 := lt_of_lt_of_le hz.1.1.2 (h.map.small.trans (by decide))
  have hrest : ∀ s₁, Bits d k zb (insert z (zoneBits d k zb s)) s s₁ → Owned ((arrayOf s v q).1 ::
      bufs) s₁ → Does ((arrayOf s v q).1 :: bufs) (do
        putU16 (arrayOf s v q).1 (arrayOf s v q).2 j z
        setDirty (arrayOf s v q).1
        brelse (some (arrayOf s v q).1)
        getU16 (arrayOf s v q).1 (arrayOf s v q).2 j) s₁ bufs Q := by
    intro s₁ hbits howned₁
    refine Does.bind (Q := fun _ s' => Stored s₁ (arrayOf s v q).1
      ((s₁.data (arrayOf s v q).1).write 2 ((arrayOf s v q).2 + 2 * j) z) s')
      (does_setData fun s' hs => hs) fun _ s₂ hacts₂ hs => ?_
    have howned₂ := howned₁.acts hacts₂
    refine Does.bind (Q := fun _ s' => s'.img = s₂.img ∧ s'.supers = s₂.supers)
      (does_setDirty fun s' himg hio => ⟨himg, hio.supers⟩) fun _ s₃ hacts₃ ⟨himg₃, hsupers₃⟩ => ?_
    refine Does.bind (Q := fun _ s' => Reads ((arrayOf s v q).1 :: bufs) bufs s₃ s')
      ((answers_brelse (howned₂.acts hacts₃)).does fun s' hreads => hreads)
      fun _ s₄ _ hreads₄ => does_gets ?_
    have hdata : ∀ c, s₄.data c = s₂.data c := fun c => by
      unfold Fs.data
      rw [hreads₄.img, himg₃]
    have hlinked : Linked d k zb z (arrayOf s v q).1 (arrayOf s v q).2 j s s₄ := by
      refine ⟨?_, fun c hc => ?_, ?_⟩
      · rw [← hbits.bits]
        refine zoneBits_congr fun i hi => ?_
        rw [hdata, hs.data, if_neg (hcell i hi).symm]
      · rw [hdata, hs.data, hbits.data c hc, hbits.data _ hcell]
      · rw [hreads₄.supers, hsupers₃, hs.io.supers, (hbits.acts []).supers]
    have hvalue := hlinked.array_same (i := j) hcell hsmall
    rw [if_pos rfl] at hvalue
    change Q (arrayAt s₄ _ _ j) s₄
    rw [hvalue]
    exact hQ s₄ hlinked
  have hread : (s.data (arrayOf s v q).1).read 2 ((arrayOf s v q).2 + 2 * j) = 0 :=
    (ptr_cons hopen j).symm.trans hzero
  unfold arrayZone
  refine Does.bind (Q := fun zone s' => zone = 0 ∧ s' = s) (does_gets ⟨hread, rfl⟩)
    fun zone s₁ _ ⟨hzone, hs₁⟩ => ?_
  subst hzone hs₁
  rw [if_pos ⟨rfl, rfl⟩]
  refine Does.bind (Q := fun r s' => r = z ∧ Bits d k zb (insert z (zoneBits d k zb s₁)) s₁ s')
    (does_balloc h hz fun s' hbits => ⟨rfl, hbits⟩) fun r s₂ hacts₂ ⟨hr, hbits⟩ => ?_
  subst hr
  have howned₂ := howned.acts hacts₂
  split
  · refine Does.bind (Q := fun _ s' => s' = s₂) (does_gets rfl) fun img s₃ _ hs₃ => ?_
    subst hs₃
    refine Does.bind (Q := fun _ s' => s' = s₃) (does_note rfl) fun _ s₄ _ hs₄ => ?_
    subst hs₄
    exact hrest _ hbits howned₂
  · exact hrest _ hbits howned₂

theorem answers_arrayZone_set {base index level : ℕ} (h : Owned (b :: bufs) s)
    (hne : arrayAt s b base index ≠ 0) :
    Answers (b :: bufs) (arrayZone dev true level b base index) s bufs
      (arrayAt s b base index) := by
  unfold arrayZone
  refine (answers_getU16 b base index).bind fun s₁ h₁ => ?_
  rw [if_neg fun hzero : Bytes.read 2 (s.data b) (base + 2 * index) = 0 ∧ _ => hne hzero.1]
  refine (answers_brelse (h.reads h₁)).bind fun s₂ h₂ => ?_
  have hdata : (s₂.data b).read 2 (base + 2 * index) = arrayAt s b base index := by
    rw [(h₁.trans h₂).data b]
    rfl
  exact hdata ▸ answers_getU16 b base index

/-! ## The way down -/

/-- Where the loop of `bmap` ends, from `p` on. -/
def descend : (level : ℕ) → Place → (block divider : ℕ) → Place
  | 0, p, _, _ => p
  | level + 1, p, block, divider =>
    descend level (block / divider % 2 ^ 16 :: p) (block % divider) (divider / BLOCK_INDEXES)

theorem descend_level {level block divider : ℕ} (hp : p ≠ [])
    (h : Level 0 (descend level p block divider)) : Level level p := by
  induction level generalizing p block divider with
  | zero => exact h
  | succ level ih => exact (ih (List.cons_ne_nil _ _) h).tail.resolve_left hp

theorem suffix_descend (level : ℕ) (p : Place) (block divider : ℕ) :
    p <:+ descend level p block divider := by
  induction level generalizing p block divider with
  | zero => exact List.suffix_rfl
  | succ level ih => exact (List.suffix_cons _ p).trans (ih _ _ _)

/-- The number of zones that the loop has to take, from `p` on. -/
def wanting (s : Fs) (v : Site) : (level : ℕ) → Place → (block divider : ℕ) → ℕ
  | 0, p, _, _ => if ptr s v p = 0 then 1 else 0
  | level + 1, p, block, divider =>
    if ptr s v p = 0 then level + 2
    else wanting s v level (block / divider % 2 ^ 16 :: p) (block % divider)
      (divider / BLOCK_INDEXES)

theorem wanting_zero {level block divider : ℕ} (h : ptr s v p = 0) :
    wanting s v level p block divider = level + 1 := by
  cases level with
  | zero => exact if_pos h
  | succ level => exact if_pos h

/-- There are `m` free zones, and the first `m - 1` of them are blank. -/
def Supply (dev : ℤ) (d : SuperDesc) (k : ℕ) (zb : ℕ → BufRef) (m : ℕ) (s : Fs) : Prop :=
  m ≤ (freeZones d k zb s).ncard ∧
    ∀ z ∈ freeZones d k zb s, (freeZones d k zb s ∩ Set.Iio z).ncard + 1 < m → Blank s dev z

theorem freeZones_finite (s : Fs) : (freeZones d k zb s).Finite :=
  (Finset.range d.zones).finite_toSet.subset fun _ hz => Finset.mem_range.mpr hz.1.2

theorem Supply.least (h : Supply dev d k zb (m + 1) s) : ∃ z, IsLeast (freeZones d k zb s) z ∧
    (m ≠ 0 → Blank s dev z) := by
  have hne : (freeZones d k zb s).Nonempty := by
    rw [Set.nonempty_iff_ne_empty]
    intro hempty
    have hcard := h.1
    rw [hempty, Set.ncard_empty] at hcard
    omega
  classical
  have hleast : IsLeast (freeZones d k zb s) (Nat.find hne) :=
    ⟨Nat.find_spec hne, fun y hy => Nat.find_min' hne hy⟩
  refine ⟨_, hleast, fun hm => h.2 _ hleast.1 ?_⟩
  have hbelow : freeZones d k zb s ∩ Set.Iio (Nat.find hne) = ∅ := by
    ext y
    simp only [Set.mem_inter_iff, Set.mem_Iio, Set.mem_empty_iff_false, iff_false, not_and, not_lt]
    exact fun hy => hleast.2 hy
  rw [hbelow, Set.ncard_empty]
  omega

/-- The smallest free zone has been taken. -/
theorem Supply.taken (h : Supply dev d k zb (m + 1) s) (hz : IsLeast (freeZones d k zb s) z)
    (hbits : zoneBits d k zb s' = insert z (zoneBits d k zb s))
    (hdata : ∀ y ∈ freeZones d k zb s, s'.data ⟨dev, y⟩ = s.data ⟨dev, y⟩) :
    Supply dev d k zb m s' := by
  have hfree : freeZones d k zb s' = freeZones d k zb s \ {z} := by
    unfold freeZones
    rw [hbits]
    ext y
    simp only [Set.mem_sdiff, Set.mem_insert_iff, Set.mem_singleton_iff]
    tauto
  have hcard := Set.ncard_sdiff_singleton_add_one hz.1 (freeZones_finite s)
  refine ⟨?_, fun y hy hlt j hj => ?_⟩
  · rw [hfree]
    have hmany := h.1
    omega
  · rw [hfree] at hy hlt
    have hzy : z < y := lt_of_le_of_ne (hz.2 hy.1) (Ne.symm hy.2)
    have hbelow : (freeZones d k zb s \ {z}) ∩ Set.Iio y =
        (freeZones d k zb s ∩ Set.Iio y) \ {z} := by
      ext x
      simp only [Set.mem_sdiff, Set.mem_inter_iff, Set.mem_singleton_iff]
      tauto
    have hcard' := Set.ncard_sdiff_singleton_add_one (s := freeZones d k zb s ∩ Set.Iio y)
      ⟨hz.1, hzy⟩ ((freeZones_finite s).inter_of_left _)
    rw [hbelow] at hlt
    unfold arrayAt
    rw [hdata y hy.1]
    exact h.2 y hy.1 (by omega) j hj

/-- The number at `p` is `z`, and the others are as before. -/
structure Stage (dev : ℤ) (d : SuperDesc) (k : ℕ) (zb : ℕ → BufRef) (vs : Set Site) (v : Site)
    (p : Place) (z : ℕ) (s s' : Fs) : Prop where
  volume : Volume dev d k zb vs s'
  ne : z ≠ 0
  self : ptr s' v p = z
  rest : ∀ m r, Level m r → r ≠ p → ptr s' v r = ptr s v r
  other : ∀ v' ∈ vs, v' ≠ v → ∀ m r, Level m r → ptr s' v' r = ptr s v' r

theorem sameTree_img (himg : s'.img = s.img) (v : Site) : SameTree s s' v := by
  have hdata : ∀ b, s'.data b = s.data b := fun b => by
    unfold Fs.data
    rw [himg]
  exact .of_data (fun o _ _ => by rw [hdata]) fun _ _ _ _ => hdata _

theorem Volume.stage (h : Volume dev d k zb vs s) (hp : Level n p) (hne : ptr s v p ≠ 0)
    (hsupers : s'.supers = s.supers) (himg : s'.img = s.img) :
    Stage dev d k zb vs v p (ptr s v p) s s' where
  volume := h.img hsupers himg
  ne := hne
  self := (sameTree_img himg v).ptr hp
  rest _ _ hr _ := (sameTree_img himg v).ptr hr
  other v' _ _ _ _ hr := (sameTree_img himg v').ptr hr

/-- The code reaches a number at `j :: q`, which it takes a zone for if there is none. -/
theorem does_stage {level : ℕ} (h : Volume dev d k zb vs s) (hv : v ∈ vs)
    (hp : Level n (j :: q)) (hopen : Open s v q)
    (hsupply : ptr s v (j :: q) = 0 → Supply dev d k zb (n + 1) s)
    (howned : Owned ((arrayOf s v q).1 :: bufs) s) :
    Does ((arrayOf s v q).1 :: bufs)
      (arrayZone dev true level (arrayOf s v q).1 (arrayOf s v q).2 j) s bufs
      (fun z s' => Stage dev d k zb vs v (j :: q) z s s' ∧
        (ptr s v (j :: q) = 0 → Supply dev d k zb n s') ∧
        (ptr s v (j :: q) ≠ 0 → s'.img = s.img)) := by
  by_cases hzero : ptr s v (j :: q) = 0
  · obtain ⟨z, hz, hblank⟩ := (hsupply hzero).least
    refine does_link h hv hp hopen hzero hz howned fun s' hs => ?_
    have hstage : Stage dev d k zb vs v (j :: q) z s s' := by
      have hself : ∀ m r, Level m r → ptr s' v r = if r = j :: q then z else ptr s v r :=
        fun m r hr => ptr_linked h hv hp hopen hzero hz.1 hblank hs hr
      refine ⟨volume_linked h hv hp hopen hzero hz.1 hblank hs, ?_, ?_, fun m r hr hne => ?_,
        fun v' hv' hne m r hr => (sameTree_linked h hv hp hopen hs hv' hne).ptr hr⟩
      · have hfirst := h.map.first
        have hlo := hz.1.1.1
        omega
      · rw [hself n _ hp, if_pos rfl]
      · rw [hself m r hr, if_neg hne]
    refine ⟨hstage, fun _ => ?_, fun hne => absurd hzero hne⟩
    refine (hsupply hzero).taken hz hs.bits fun y hy => ?_
    rw [hs.data _ fun i hi => (h.maps i hi).zone_ne hy.1.1, if_neg]
    cases q with
    | nil => exact (h.home v hv).zone_ne hy.1.1
    | cons i q =>
        intro heq
        refine h.ptr_ne_free hv (hp.tail.resolve_left (List.cons_ne_nil i q)) hy ?_
        exact (BufRef.mk.inj heq).2.symm
  · rw [ptr_cons hopen] at hzero
    refine (answers_arrayZone_set howned hzero).does fun s' hreads => ?_
    rw [← ptr_cons hopen] at hzero ⊢
    exact ⟨h.stage hp hzero hreads.supers hreads.img, fun hno => absurd hno hzero,
      fun _ => hreads.img⟩

theorem freeZones_img (himg : s'.img = s.img) : freeZones d k zb s' = freeZones d k zb s := by
  unfold freeZones
  rw [zoneBits_congr fun i _ => ?_]
  unfold Fs.data
  rw [himg]

theorem Supply.img (h : Supply dev d k zb m s) (himg : s'.img = s.img) :
    Supply dev d k zb m s' := by
  unfold Supply Blank at *
  rw [freeZones_img himg]
  refine ⟨h.1, fun z hz hlt j hj => ?_⟩
  unfold arrayAt Fs.data
  rw [himg]
  exact h.2 z hz hlt j hj

theorem wanting_congr {level block divider : ℕ} (h : ∀ p, ptr s' v p = ptr s v p) :
    wanting s' v level p block divider = wanting s v level p block divider := by
  induction level generalizing p block divider with
  | zero => rw [wanting, wanting, h]
  | succ level ih => rw [wanting, wanting, h, ih]

theorem ptr_img (himg : s'.img = s.img) (p : Place) : ptr s' v p = ptr s v p := by
  have harray : ∀ b base i, arrayAt s' b base i = arrayAt s b base i := fun b base i => by
    unfold arrayAt Fs.data
    rw [himg]
  induction p with
  | nil => rfl
  | cons i p ih =>
      cases p with
      | nil => exact harray _ _ _
      | cons l p => rw [ptr, ptr, ih, harray]

theorem does_reckon {level block divider : ℕ} (h : Volume dev d k zb vs s) (hv : v ∈ vs)
    (hopen : Open s v q) (hleaf : Level 0 (descend level (j :: q) block divider))
    (hsupply : Supply dev d k zb (wanting s v level (j :: q) block divider) s)
    (howned : Owned ((arrayOf s v q).1 :: bufs) s) :
    Does ((arrayOf s v q).1 :: bufs)
      (reckon dev true level (arrayOf s v q).1 (arrayOf s v q).2 j block divider) s bufs
      (fun z s' => z ≠ 0 ∧ Volume dev d k zb vs s' ∧
        ptr s' v (descend level (j :: q) block divider) = z ∧
        (∀ r, Level 0 r → r ≠ descend level (j :: q) block divider → ptr s' v r = ptr s v r) ∧
        ∀ v' ∈ vs, v' ≠ v → ∀ m r, Level m r → ptr s' v' r = ptr s v' r) := by
  induction level generalizing q j s block divider with
  | zero =>
      refine (does_stage h hv hleaf hopen (fun hzero => ?_) howned).mono fun z s' _ hdone => ?_
      · rwa [wanting_zero hzero] at hsupply
      · have hstage := hdone.1
        exact ⟨hstage.ne, hstage.volume, hstage.self, hstage.rest 0, hstage.other⟩
  | succ level ih =>
      have hp := descend_level (List.cons_ne_nil j q) hleaf
      unfold reckon
      refine (does_stage (n := level + 1) h hv hp hopen (fun hzero => ?_) howned).bind
        fun z s₁ hacts₁ hdone => ?_
      · rwa [wanting_zero hzero] at hsupply
      obtain ⟨hstage, hnew, hold⟩ := hdone
      rw [if_neg hstage.ne]
      have hread : Does bufs (bread dev z) s₁ (⟨dev, z⟩ :: bufs)
          (fun b s' => b = ⟨dev, z⟩ ∧ s'.img = s₁.img ∧ s'.supers = s₁.supers) :=
        (answers_bread dev z).does fun s' hreads => ⟨rfl, hreads.img, hreads.supers⟩
      refine hread.bind fun b s₂ hacts₂ hread₂ => ?_
      obtain ⟨hb, himg₂, hsupers₂⟩ := hread₂
      subst hb
      have hptr : ∀ p, ptr s₂ v p = ptr s₁ v p := ptr_img himg₂
      have hcell : (⟨dev, z⟩ : BufRef) = (arrayOf s₂ v (j :: q)).1 := by
        change _ = BufRef.mk v.dev (ptr s₂ v (j :: q))
        rw [hptr, hstage.self, h.onDev v hv]
      have howned₂ := ((howned.acts hacts₁).acts hacts₂)
      rw [hcell] at howned₂ ⊢
      have hsupply₂ : Supply dev d k zb (wanting s₂ v level (block / divider % 2 ^ 16 :: j :: q)
          (block % divider) (divider / BLOCK_INDEXES)) s₂ := by
        rw [wanting_congr hptr]
        refine Supply.img ?_ himg₂
        have hnext : Level level (block / divider % 2 ^ 16 :: j :: q) :=
          descend_level (List.cons_ne_nil _ _) hleaf
        by_cases hzero : ptr s v (j :: q) = 0
        · have hmissing : ptr s₁ v (block / divider % 2 ^ 16 :: j :: q) = 0 := by
            rw [hstage.rest _ _ hnext (List.cons_ne_self _ _), ptr_below hp, if_pos hzero]
          rw [wanting_zero hmissing]
          exact hnew hzero
        · rw [wanting, if_neg hzero] at hsupply
          have himg := hold hzero
          rw [wanting_congr (ptr_img himg)]
          exact hsupply.img himg
      refine (ih (hstage.volume.img hsupers₂ himg₂) (.inr ?_) hleaf hsupply₂ howned₂).mono
        fun y s' _ hbelow => ?_
      · rw [hptr, hstage.self]
        exact hstage.ne
      · obtain ⟨hne, hvol, hself, hrest, hother⟩ := hbelow
        refine ⟨hne, hvol, hself, fun r hr hrne => ?_, fun v' hv' hvne m r hr => ?_⟩
        · rw [hrest r hr hrne, hptr]
          refine hstage.rest 0 r hr fun heq => ?_
          rw [heq] at hr
          exact absurd (hp.unique hr) (Nat.succ_ne_zero _)
        · rw [hother v' hv' hvne m r hr, ptr_img himg₂, hstage.other v' hv' hvne m r hr]

/-! ## `bmap` -/

/-- Where the loop of `bmap` begins: the tables on the way, the entry in the descriptor, the block
counted from there and the divider. -/
def beginning (block : ℕ) : ℕ × ℕ × ℕ × ℕ :=
  if block < DIRECT_BLOCK then (0, block, block, 1)
  else if block - DIRECT_BLOCK < INDIRECT1_BLOCK then (1, DIRECT_BLOCK, block - DIRECT_BLOCK, 1)
  else (2, DIRECT_BLOCK + 1, block - DIRECT_BLOCK - INDIRECT1_BLOCK, BLOCK_INDEXES)

/-- The zones that `bmap` has to take for a block. -/
def wanted (s : Fs) (v : Site) (block : ℕ) : ℕ :=
  wanting s v (beginning block).1 [(beginning block).2.1] (beginning block).2.2.1
    (beginning block).2.2.2

theorem descend_beginning {block : ℕ} (h : block < TOTAL_BLOCK) :
    descend (beginning block).1 [(beginning block).2.1] (beginning block).2.2.1
      (beginning block).2.2.2 = blockPlace block := by
  have hindexes : BLOCK_INDEXES = 512 := rfl
  have hself : BLOCK_INDEXES / BLOCK_INDEXES = 1 := rfl
  have htotal : TOTAL_BLOCK = DIRECT_BLOCK + INDIRECT1_BLOCK + INDIRECT2_BLOCK := rfl
  have hdouble : INDIRECT2_BLOCK = 262144 := rfl
  have hsingle : INDIRECT1_BLOCK = 512 := rfl
  unfold beginning blockPlace
  split_ifs with hlow hmid
  · rfl
  · simp only [descend]
    rw [Nat.div_one, Nat.mod_eq_of_lt (hmid.trans (by decide))]
  · have hdiv : (block - DIRECT_BLOCK - INDIRECT1_BLOCK) / BLOCK_INDEXES < 2 ^ 16 := by
      rw [hindexes]
      omega
    have hmod : (block - DIRECT_BLOCK - INDIRECT1_BLOCK) % BLOCK_INDEXES < 2 ^ 16 :=
      (Nat.mod_lt _ (by decide)).trans (by decide)
    simp only [descend]
    rw [hself, Nat.div_one, Nat.mod_eq_of_lt hdiv, Nat.mod_eq_of_lt hmod]

/-- `bmap` begins in the descriptor. -/
theorem does_begin {Q : ℕ → Fs → Prop} {i block : ℕ} {create : Bool} (hblock : block < TOTAL_BLOCK)
    (hround : ∀ s₁, Reads bufs ((siteAt s i).buf :: bufs) s s₁ →
      Does ((siteAt s i).buf :: bufs) (reckon (siteAt s i).dev create (beginning block).1
        (siteAt s i).buf (zonesAt (siteAt s i)) (beginning block).2.1 (beginning block).2.2.1
        (beginning block).2.2.2) s₁ bufs Q) :
    Does bufs (bmap i block create) s bufs Q := by
  have htotal : TOTAL_BLOCK = DIRECT_BLOCK + INDIRECT1_BLOCK + INDIRECT2_BLOCK := rfl
  unfold bmap
  refine Does.bind (Q := fun _ s' => s' = s) (does_check hblock rfl) fun _ s₁ _ hs₁ => ?_
  subst hs₁
  refine Does.bind (Q := fun inode s' => inode = s₁.inodes i ∧ s' = s₁) (does_gets ⟨rfl, rfl⟩)
    fun inode s₂ _ ⟨hinode, hs₂⟩ => ?_
  subst hinode hs₂
  refine Does.bind (Q := fun _ s' => Reads bufs ((s₂.inodes i).buf :: bufs) s₂ s')
    ((answers_addRef _).does fun s' hreads => hreads) fun _ s₃ hacts₃ hreads => ?_
  unfold beginning at hround
  dsimp only
  split_ifs at hround ⊢ with hlow hmid
  · exact hround s₃ hreads
  · exact hround s₃ hreads
  · refine Does.bind (Q := fun _ s' => s' = s₃) (does_check (by omega) rfl) fun _ s₄ _ hs₄ => ?_
    subst hs₄
    exact hround _ hreads

theorem does_bmap {i block : ℕ} (h : Volume dev d k zb vs s) (hv : siteAt s i ∈ vs)
    (hblock : block < TOTAL_BLOCK) (hsupply : Supply dev d k zb (wanted s (siteAt s i) block) s)
    (howned : Owned bufs s) :
    Does bufs (bmap i block true) s bufs (fun z s' => z ≠ 0 ∧ Volume dev d k zb vs s' ∧
      fileZone s' (siteAt s i) block = z ∧
      (∀ b < TOTAL_BLOCK, b ≠ block → fileZone s' (siteAt s i) b = fileZone s (siteAt s i) b) ∧
      ∀ v ∈ vs, v ≠ siteAt s i → ∀ b < TOTAL_BLOCK, fileZone s' v b = fileZone s v b) := by
  have hleaf := blockPlace_level hblock
  have hend := descend_beginning hblock
  refine does_begin hblock fun s₁ hreads => ?_
  have himg := hreads.img
  rw [← hend] at hleaf
  unfold wanted at hsupply
  rw [← wanting_congr (ptr_img himg)] at hsupply
  rw [h.onDev _ hv]
  refine (does_reckon (q := []) (h.img hreads.supers himg) hv (.inl rfl) hleaf (hsupply.img himg)
    (howned.reads hreads)).mono fun z s' _ ⟨hne, hvol, hself, hrest, hother⟩ => ?_
  rw [hend] at hself hrest
  refine ⟨hne, hvol, (fileZone_eq hblock).trans hself, fun b hb hbne => ?_, fun v hv hvne b hb => ?_⟩
  · rw [fileZone_eq hb, fileZone_eq hb, ← ptr_img himg]
    exact hrest _ (blockPlace_level hb) fun heq => hbne (blockPlace_injective heq)
  · rw [fileZone_eq hb, fileZone_eq hb, ← ptr_img himg]
    exact hother v hv hvne _ _ (blockPlace_level hb)

end Ylos.Index
