import Ylos.Verification.Index.Create

/-! # When `bmap` with `create` changes one mapping only -/

namespace Ylos.Index

open Exec Dir Allocator

variable {dev : ℤ} {d : SuperDesc} {k : ℕ} {zb : ℕ → BufRef} {vs : Set Site} {s s' : Fs}
  {v : Site} {n m z i j block : ℕ} {p q : Place} {b : BufRef} {bufs : List BufRef}

/-- `bmap` finds `z` for a block without creating anything. -/
def Finds (s : Fs) (i block z : ℕ) : Prop := Returns (bmap i block false) (fun r _ => r = z) s

theorem finds_iff (hblock : block < TOTAL_BLOCK) (h : Owned [] s) :
    Finds s i block z ↔ fileZone s (siteAt s i) block = z := by
  obtain ⟨s', hrun, -⟩ := answers_bmap (i := i) hblock h
  constructor
  · rintro ⟨r, s'', l, hrun', rfl⟩
    rw [hrun] at hrun'
    cases hrun'
    rfl
  · rintro rfl
    exact ⟨_, s', [], hrun, rfl⟩

/-- A zone is found for the block afterwards, and for every other block what was found before. -/
def CreatesOne (s : Fs) (i block : ℕ) : Prop :=
  Returns (bmap i block true) (fun z s' => z ≠ 0 ∧ Finds s' i block z ∧
    ∀ b < TOTAL_BLOCK, b ≠ block → ∀ r, Finds s i b r → Finds s' i b r) s

theorem creates_one (h : Volume dev d k zb vs s) (hv : siteAt s i ∈ vs) (howned : Owned [] s)
    (hblock : block < TOTAL_BLOCK) (hsupply : Supply dev d k zb (wanted s (siteAt s i) block) s) :
    CreatesOne s i block := by
  obtain ⟨z, s', l, hrun, hacts, hne, -, hself, hrest, -⟩ := does_bmap h hv hblock hsupply howned
  have howned' := howned.acts hacts
  refine ⟨z, s', l, hrun, hne, ?_, fun b hb hbne r hr => ?_⟩
  · rw [finds_iff hblock howned', hacts.siteAt, hself]
  · rw [finds_iff hb howned] at hr
    rw [finds_iff hb howned', hacts.siteAt, hrest b hb hbne, hr]

/-! ## Tables that are not blank -/

/-- Every entry of the zone is its own number. -/
def Looped (s : Fs) (dev : ℤ) (z : ℕ) : Prop := ∀ j, arrayAt s ⟨dev, z⟩ 0 j = z

theorem does_looped {level index block divider : ℕ} (hz : z ≠ 0) (h : Looped s dev z)
    (howned : Owned (⟨dev, z⟩ :: bufs) s) :
    Does (⟨dev, z⟩ :: bufs) (reckon dev true level ⟨dev, z⟩ 0 index block divider) s bufs
      (fun _ s' => s'.img = s.img) := by
  have hentry : arrayAt s ⟨dev, z⟩ 0 index ≠ 0 := by rwa [h index]
  induction level generalizing s index block divider with
  | zero => exact (answers_arrayZone_set howned hentry).does fun s' hreads => hreads.img
  | succ level ih =>
      unfold reckon
      refine Does.bind (Q := fun r s' => r = z ∧ Reads (⟨dev, z⟩ :: bufs) bufs s s')
        ((answers_arrayZone_set howned hentry).does fun s' hreads => ⟨h index, hreads⟩)
        fun r s₁ hacts₁ hread₁ => ?_
      obtain ⟨hr, hreads₁⟩ := hread₁
      subst hr
      rw [if_neg hz]
      refine Does.bind (Q := fun b s' => b = ⟨dev, r⟩ ∧ Reads bufs (⟨dev, r⟩ :: bufs) s₁ s')
        ((answers_bread dev r).does fun s' hreads => ⟨rfl, hreads⟩)
        fun b s₂ hacts₂ hread₂ => ?_
      obtain ⟨hb, hreads₂⟩ := hread₂
      subst hb
      have himg : s₂.img = s.img := hreads₂.img.trans hreads₁.img
      have hlooped : Looped s₂ dev r := fun j => by
        unfold arrayAt Fs.data
        rw [himg]
        exact h j
      exact (ih hlooped ((howned.acts hacts₁).acts hacts₂) (by rwa [hlooped])).mono
        fun _ s' _ himg' => himg'.trans himg

theorem ptr_looped (hz : z ≠ 0) (h : Looped s v.dev z) (hp : ptr s v p = z) {r : Place}
    (hr : Level m r) (hpne : p ≠ []) (hpr : p <:+ r) : ptr s v r = z := by
  induction r generalizing m with
  | nil => exact absurd (List.suffix_nil.mp hpr) hpne
  | cons i r ih =>
      rcases List.suffix_cons_iff.mp hpr with rfl | hpr
      · exact hp
      · have hrne : r ≠ [] := fun hnil => hpne (List.suffix_nil.mp (hnil ▸ hpr))
        have hr' := hr.tail.resolve_left hrne
        rw [ptr_below hr', ih hr' hpr, if_neg hz, h i]

theorem suffix_tail {r : Place} (h : i :: p <:+ r) : p <:+ r.tail := by
  cases r with
  | nil => exact absurd (List.suffix_nil.mp h) (List.cons_ne_nil i p)
  | cons a r =>
      rcases List.suffix_cons_iff.mp h with heq | h
      · rw [(List.cons.inj heq).2]
        exact List.suffix_rfl
      · exact (List.suffix_cons i p).trans h

/-- When a table is missing and the next zone is looped, then blocks beside the one asked for get a
mapping as well. -/
theorem does_reckon_looped {level block divider : ℕ} (h : Volume dev d k zb vs s) (hv : v ∈ vs)
    (hopen : Open s v q) (hleaf : Level 0 (descend level (j :: q) block divider))
    (hwant : 2 ≤ wanting s v level (j :: q) block divider)
    (hz : IsLeast (freeZones d k zb s) z) (hlooped : Looped s dev z)
    (howned : Owned ((arrayOf s v q).1 :: bufs) s) :
    Does ((arrayOf s v q).1 :: bufs)
      (reckon dev true level (arrayOf s v q).1 (arrayOf s v q).2 j block divider) s bufs
      (fun _ s' => ∀ l, Level 0 (l :: (descend level (j :: q) block divider).tail) →
        ptr s v (l :: (descend level (j :: q) block divider).tail) = 0 ∧
        ptr s' v (l :: (descend level (j :: q) block divider).tail) = z) := by
  have hzne : z ≠ 0 := by
    have hfirst := h.map.first
    have hlo := hz.1.1.1
    omega
  induction level generalizing q j s block divider with
  | zero =>
      unfold wanting at hwant
      split at hwant <;> omega
  | succ level ih =>
      have hp := descend_level (List.cons_ne_nil j q) hleaf
      have hpne := List.cons_ne_nil j q
      unfold reckon
      by_cases hzero : ptr s v (j :: q) = 0
      · refine Does.bind (Q := fun r s' => r = z ∧
          Linked d k zb z (arrayOf s v q).1 (arrayOf s v q).2 j s s')
          (does_link h hv hp hopen hzero hz howned fun s' hs => ⟨rfl, hs⟩)
          fun r s₁ hacts₁ hlink => ?_
        obtain ⟨hr, hs⟩ := hlink
        subst hr
        rw [if_neg hzne]
        refine Does.bind (Q := fun b s' => b = ⟨dev, r⟩ ∧ Reads bufs (⟨dev, r⟩ :: bufs) s₁ s')
          ((answers_bread dev r).does fun s' hreads => ⟨rfl, hreads⟩)
          fun b s₂ hacts₂ hread₂ => ?_
        obtain ⟨hb, hreads₂⟩ := hread₂
        subst hb
        have hoff : ∀ i < k, (⟨dev, r⟩ : BufRef) ≠ zb i := fun i hi =>
          (h.maps i hi).zone_ne hz.1.1.1
        have harray : (⟨dev, r⟩ : BufRef) ≠ (arrayOf s v q).1 := by
          cases q with
          | nil => exact (h.home v hv).zone_ne hz.1.1.1
          | cons a q =>
              intro heq
              exact h.ptr_ne_free hv (hp.tail.resolve_left (List.cons_ne_nil a q)) hz.1
                (BufRef.mk.inj heq).2.symm
        have hlooped₂ : Looped s₂ dev r := fun l => by
          unfold arrayAt Fs.data
          rw [hreads₂.img]
          exact (hs.array_other hoff harray).trans (hlooped l)
        refine (does_looped hzne hlooped₂ ((howned.acts hacts₁).acts hacts₂)).mono
          fun _ s' _ himg l hl => ?_
        have hsuffix : j :: q <:+ (descend (level + 1) (j :: q) block divider).tail :=
          suffix_tail (suffix_descend level (block / divider % 2 ^ 16 :: j :: q) (block % divider)
            (divider / BLOCK_INDEXES))
        have hunder := hsuffix.trans (List.suffix_cons l _)
        refine ⟨ptr_under_zero hzero hl hpne hunder, ?_⟩
        have himg' : s'.img = s₁.img := himg.trans hreads₂.img
        rw [ptr_img himg']
        refine ptr_looped hzne ?_ ?_ hl hpne hunder
        · rw [h.onDev v hv]
          exact fun l => (hs.array_other hoff harray).trans (hlooped l)
        · have hself := ptr_linked_of h hv hp hopen hzero hz.1 hs hp (.inl le_rfl)
          rwa [if_pos rfl] at hself
      · rw [wanting, if_neg hzero] at hwant
        have hentry : arrayAt s (arrayOf s v q).1 (arrayOf s v q).2 j ≠ 0 := by
          rwa [← ptr_cons hopen]
        refine Does.bind (Q := fun r s' => r = ptr s v (j :: q) ∧
          Reads ((arrayOf s v q).1 :: bufs) bufs s s')
          ((answers_arrayZone_set howned hentry).does fun s' hreads => ⟨(ptr_cons hopen j).symm, hreads⟩)
          fun r s₁ hacts₁ hread₁ => ?_
        obtain ⟨hr, hreads₁⟩ := hread₁
        subst hr
        rw [if_neg hzero]
        refine Does.bind (Q := fun b s' => b = ⟨dev, ptr s v (j :: q)⟩ ∧
          Reads bufs (⟨dev, ptr s v (j :: q)⟩ :: bufs) s₁ s')
          ((answers_bread dev _).does fun s' hreads => ⟨rfl, hreads⟩)
          fun b s₂ hacts₂ hread₂ => ?_
        obtain ⟨hb, hreads₂⟩ := hread₂
        subst hb
        have himg : s₂.img = s.img := hreads₂.img.trans hreads₁.img
        have hptr : ∀ p, ptr s₂ v p = ptr s v p := ptr_img himg
        have hcell : (⟨dev, ptr s v (j :: q)⟩ : BufRef) = (arrayOf s₂ v (j :: q)).1 := by
          change _ = BufRef.mk v.dev (ptr s₂ v (j :: q))
          rw [hptr, h.onDev v hv]
        have howned₂ := (howned.acts hacts₁).acts hacts₂
        rw [hcell] at howned₂ ⊢
        have hlooped₂ : Looped s₂ dev z := fun l => by
          unfold arrayAt Fs.data
          rw [himg]
          exact hlooped l
        refine (ih (h.img (hreads₂.supers.trans hreads₁.supers) himg) (.inr ?_) hleaf ?_ ?_
          hlooped₂ howned₂).mono fun _ s' _ hbeside l hl => ?_
        · rwa [hptr]
        · rwa [wanting_congr hptr]
        · rwa [freeZones_img himg]
        · rw [← hptr]
          exact hbeside l hl

/-! ## Exactly when -/

/-- Only the contents of the free zones of the device are other ones. -/
structure Refilled (dev : ℤ) (d : SuperDesc) (k : ℕ) (zb : ℕ → BufRef) (s s' : Fs) : Prop where
  acts : Acts [] [] s s'
  data : ∀ b, (b.dev = dev → b.blk ∉ freeZones d k zb s) → s'.data b = s.data b

theorem Refilled.early (h : Refilled dev d k zb s s') (hb : Early dev d b) :
    s'.data b = s.data b :=
  h.data b fun _ hfree => absurd hb.2 (not_lt.mpr hfree.1.1)

theorem Refilled.freeZones (h : Refilled dev d k zb s s') (hvol : Volume dev d k zb vs s) :
    freeZones d k zb s' = Index.freeZones d k zb s := by
  unfold Index.freeZones
  rw [zoneBits_congr fun i hi => h.early (hvol.maps i hi)]

theorem Refilled.sameTree (h : Refilled dev d k zb s s') (hvol : Volume dev d k zb vs s)
    (hv : v ∈ vs) : SameTree s s' v := by
  refine .of_data (fun o _ _ => by rw [h.early (hvol.home v hv)]) fun n p hp hne => ?_
  exact h.data _ fun _ hfree => hvol.ptr_ne_free hv hp hfree rfl

theorem Refilled.volume (h : Refilled dev d k zb s s') (hvol : Volume dev d k zb vs s) :
    Volume dev d k zb vs s' :=
  hvol.congr h.acts.supers (fun i hi => h.early (hvol.head i hi).1)
    (zoneBits_congr fun i hi => h.early (hvol.maps i hi)) fun _ hv => h.sameTree hvol hv

/-- The way is as long as the places on it have a number. -/
theorem wanting_same {level block divider : ℕ} (h : SameTree s s' v) (hpne : p ≠ [])
    (hleaf : Level 0 (descend level p block divider)) :
    wanting s' v level p block divider = wanting s v level p block divider := by
  induction level generalizing p block divider with
  | zero =>
      change Level 0 p at hleaf
      rw [wanting, wanting, h.ptr hleaf]
  | succ level ih =>
      rw [wanting, wanting, h.ptr (descend_level hpne hleaf), ih (List.cons_ne_nil _ _) hleaf]

theorem wanted_same (h : SameTree s s' v) (hblock : block < TOTAL_BLOCK) :
    wanted s' v block = wanted s v block := by
  refine wanting_same h (List.cons_ne_nil _ _) ?_
  rw [descend_beginning hblock]
  exact blockPlace_level hblock

/-- Beside a block that needs a table there is another one. -/
theorem exists_beside (hblock : block < TOTAL_BLOCK) (hwant : 2 ≤ wanted s v block) :
    ∃ b < TOTAL_BLOCK, b ≠ block ∧ ∃ l, blockPlace b = l :: (blockPlace block).tail := by
  have hindexes : BLOCK_INDEXES = 512 := rfl
  have htotal : TOTAL_BLOCK = 262663 := rfl
  have hsingle : INDIRECT1_BLOCK = 512 := rfl
  have hdirect : DIRECT_BLOCK = 7 := rfl
  have hlow : DIRECT_BLOCK ≤ block := by
    by_contra hlow
    unfold wanted beginning at hwant
    rw [if_pos (not_le.mp hlow)] at hwant
    unfold wanting at hwant
    dsimp only at hwant
    split at hwant <;> omega
  -- two blocks with the same table differ in the lowest bit of their number there
  by_cases hmid : block - DIRECT_BLOCK < INDIRECT1_BLOCK
  · have hplace : ∀ b, DIRECT_BLOCK ≤ b → b - DIRECT_BLOCK < INDIRECT1_BLOCK →
        blockPlace b = [b - DIRECT_BLOCK, DIRECT_BLOCK] := fun b hb hb' => by
      unfold blockPlace
      rw [if_neg (not_lt.mpr hb), if_pos hb']
    rw [hplace block hlow hmid]
    refine ⟨if (block - DIRECT_BLOCK) % 2 = 0 then block + 1 else block - 1, ?_, ?_, _,
      hplace _ ?_ ?_⟩
    all_goals split <;> omega
  · have hplace : ∀ b, DIRECT_BLOCK ≤ b → ¬b - DIRECT_BLOCK < INDIRECT1_BLOCK →
        blockPlace b = [(b - DIRECT_BLOCK - INDIRECT1_BLOCK) % BLOCK_INDEXES,
          (b - DIRECT_BLOCK - INDIRECT1_BLOCK) / BLOCK_INDEXES, DIRECT_BLOCK + 1] :=
      fun b hb hb' => by
        unfold blockPlace
        rw [if_neg (not_lt.mpr hb), if_neg hb']
    obtain ⟨b, hb, hne, hb', hb'', hdiv⟩ : ∃ b < TOTAL_BLOCK, b ≠ block ∧ DIRECT_BLOCK ≤ b ∧
        ¬b - DIRECT_BLOCK < INDIRECT1_BLOCK ∧
        (b - DIRECT_BLOCK - INDIRECT1_BLOCK) / BLOCK_INDEXES =
          (block - DIRECT_BLOCK - INDIRECT1_BLOCK) / BLOCK_INDEXES := by
      rw [hindexes]
      refine ⟨if (block - DIRECT_BLOCK - INDIRECT1_BLOCK) % 2 = 0 then block + 1 else block - 1,
        ?_, ?_, ?_, ?_, ?_⟩
      all_goals split <;> omega
    refine ⟨b, hb, hne, (b - DIRECT_BLOCK - INDIRECT1_BLOCK) % BLOCK_INDEXES, ?_⟩
    rw [hplace b hb' hb'', hplace block hlow hmid, hdiv]
    rfl

/-- A block whose contents are the same 16-bit number over and over. -/
def filled (z : ℕ) : Bytes := fun o => if o % 2 = 0 then UInt8.ofNat z else UInt8.ofNat (z / 256)

theorem read_filled (hz : z < 65536) (j : ℕ) : (filled z).read 2 (0 + 2 * j) = z := by
  have heven : (0 + 2 * j) % 2 = 0 := by omega
  have hodd : ¬(0 + 2 * j + 1) % 2 = 0 := by omega
  simp only [Bytes.read, filled, heven, hodd, if_true, if_false, UInt8.toNat_ofNat']
  omega

/-- Every free zone is filled with the number `z`. -/
noncomputable def refill (dev : ℤ) (d : SuperDesc) (k : ℕ) (zb : ℕ → BufRef) (z : ℕ) (s : Fs) :
    Fs :=
  open Classical in
  { s with img := fun e y => if e = dev ∧ y ∈ freeZones d k zb s then filled z else s.img e y }

theorem refilled_refill (z : ℕ) : Refilled dev d k zb s (refill dev d k zb z s) where
  acts := ⟨rfl, rfl, rfl, rfl, fun _ => rfl⟩
  data _ hb := if_neg fun h => hb h.1 h.2

theorem looped_refill {y : ℕ} (hy : y ∈ freeZones d k zb s) (hz : y < 65536) :
    Looped (refill dev d k zb y s) dev y := by
  intro j
  have hdata : (refill dev d k zb y s).data ⟨dev, y⟩ = filled y := if_pos ⟨rfl, hy⟩
  unfold arrayAt
  rw [hdata]
  exact read_filled hz j

/-- Where a table is missing, contents of the free zones spoil it. -/
theorem not_creates_one (h : Volume dev d k zb vs s) (hv : siteAt s i ∈ vs) (howned : Owned [] s)
    (hblock : block < TOTAL_BLOCK) (hwant : 2 ≤ wanted s (siteAt s i) block)
    (hz : IsLeast (freeZones d k zb s) z) (hlooped : Looped s dev z) : ¬CreatesOne s i block := by
  have hend := descend_beginning hblock
  have hleaf := blockPlace_level hblock
  have hdoes : Does [] (bmap i block true) s [] (fun _ s' => ∀ l,
      Level 0 (l :: (blockPlace block).tail) →
        ptr s (siteAt s i) (l :: (blockPlace block).tail) = 0 ∧
        ptr s' (siteAt s i) (l :: (blockPlace block).tail) = z) := by
    refine does_begin hblock fun s₁ hreads => ?_
    have himg := hreads.img
    have hlooped₁ : Looped s₁ dev z := fun j => by
      unfold arrayAt Fs.data
      rw [himg]
      exact hlooped j
    rw [← hend] at hleaf ⊢
    unfold wanted at hwant
    rw [← wanting_congr (ptr_img himg)] at hwant
    rw [h.onDev _ hv]
    refine (does_reckon_looped (q := []) (h.img hreads.supers himg) hv (.inl rfl) hleaf hwant ?_
      hlooped₁ (howned.reads hreads)).mono fun _ s' _ hbeside l hl => ?_
    · rwa [freeZones_img himg]
    · rw [← ptr_img himg]
      exact hbeside l hl
  obtain ⟨z', s', l, hrun, hacts, hbeside⟩ := hdoes
  rintro ⟨z'', s'', l'', hrun', -, -, hframe⟩
  rw [hrun] at hrun'
  cases hrun'
  obtain ⟨b, hb, hbne, l, hl⟩ := exists_beside hblock hwant
  obtain ⟨hbefore, hafter⟩ := hbeside l (hl ▸ blockPlace_level hb)
  rw [← hl, ← fileZone_eq hb] at hbefore hafter
  have hsame := hframe b hb hbne 0 ((finds_iff hb howned).mpr hbefore)
  rw [finds_iff hb (howned.acts hacts), hacts.siteAt, hafter] at hsame
  have hfirst := h.map.first
  have hlo := hz.1.1.1
  omega

/-- With blank zones for the tables, `bmap` changes one mapping only. It does so with any contents
of the free zones just if no table is missing. -/
theorem bmap_creates_one (h : Volume dev d k zb {siteAt s i} s) (howned : Owned [] s)
    (hblock : block < TOTAL_BLOCK)
    (havailable : wanted s (siteAt s i) block ≤ (freeZones d k zb s).ncard) :
    ((∀ z ∈ freeZones d k zb s, (freeZones d k zb s ∩ Set.Iio z).ncard + 1 <
        wanted s (siteAt s i) block → Blank s dev z) → CreatesOne s i block) ∧
      ((∀ s', Refilled dev d k zb s s' → CreatesOne s' i block) ↔
        wanted s (siteAt s i) block ≤ 1) := by
  have hv : siteAt s i ∈ ({siteAt s i} : Set Site) := rfl
  refine ⟨fun hblank => creates_one h hv howned hblock ⟨havailable, hblank⟩, fun hall => ?_,
    fun hfew s' hs' => ?_⟩
  · by_contra hmany
    rw [not_le] at hmany
    have hne : (freeZones d k zb s).Nonempty := by
      rw [Set.nonempty_iff_ne_empty]
      intro hempty
      rw [hempty, Set.ncard_empty] at havailable
      omega
    classical
    have hz : IsLeast (freeZones d k zb s) (Nat.find hne) :=
      ⟨Nat.find_spec hne, fun y hy => Nat.find_min' hne hy⟩
    have hs' := @refilled_refill dev d k zb s (Nat.find hne)
    have hsite := hs'.acts.siteAt i
    refine not_creates_one (z := Nat.find hne) (hs'.volume h) (hsite ▸ hv)
      (howned.acts hs'.acts) hblock ?_ ?_ ?_
      (hall _ hs')
    · rw [hsite, wanted_same (hs'.sameTree h hv) hblock]
      exact hmany
    · rw [hs'.freeZones h]
      exact hz
    · exact looped_refill hz.1 (lt_of_lt_of_le hz.1.1.2 (h.map.small.trans (by decide)))
  · have hsite := hs'.acts.siteAt i
    refine creates_one (hs'.volume h) (hsite ▸ hv) (howned.acts hs'.acts) hblock ?_
    rw [hsite, wanted_same (hs'.sameTree h hv) hblock]
    refine ⟨?_, fun z _ hlt => absurd hlt (by omega)⟩
    rwa [hs'.freeZones h]

/-! ## A file without blocks on a small device -/

/-- 16 zones, of which those from zone 5 on hold data. -/
def smallDesc : SuperDesc := ⟨8, 16, 1, 1, 5⟩

/-- The device with the data zones free; zone 5 holds what it was last used for. -/
def dusty (dust : List UInt8) : Fs where
  img _ blk o :=
    if blk = 1 then [8, 0, 16, 0, 1, 0, 1, 0, 5, 0].getD o 0
    else if blk = 3 then if o = 0 then 1 else if o = 1 then 0xF0 else 0xFF
    else if blk = 4 then [164, 129].getD o 0
    else if blk = 5 then dust.getD o 0
    else 0
  disk _ _ _ := 0
  dirty _ := false
  refs _ := 0
  inodes _ := ⟨1, 1, 1, 0, ⟨1, 4⟩, 0, false, 0, 0⟩
  supers i := ⟨⟨1, 1⟩, fun _ => none, fun i => if i = 0 then some ⟨1, 3⟩ else none,
    if i = 0 then 1 else -1, 1, [], none, none⟩
  task := ⟨0, 0, 0, 0, 0, [47]⟩
  now := 0
  sectors _ := 32

section Dusty

variable {dust : List UInt8}

theorem dusty_desc (i : ℕ) : (dusty dust).superDesc i = smallDesc := rfl

theorem dusty_ptr (hp : Level n p) : ptr (dusty dust) ⟨1, ⟨1, 4⟩, 0⟩ p = 0 := by
  induction hp with
  | @direct k hk =>
      refine Bytes.read_eq_zero fun o ho ho' => ?_
      have hlow : ([164, 129] : List UInt8).length ≤ o := by
        change 2 ≤ o
        have hbase : zonesAt ⟨1, ⟨1, 4⟩, 0⟩ = 14 := rfl
        omega
      change ([164, 129] : List UInt8).getD o 0 = 0
      rw [List.getD_eq_getElem?_getD, List.getElem?_eq_none hlow]
      rfl
  | single => rfl
  | double => rfl
  | down hp _ ih => rw [ptr_below hp, ih, if_pos rfl]

theorem dusty_bit {j : ℕ} : bitAt ((dusty dust).data ⟨1, 3⟩) j =
    if j / 8 = 0 then (1 : UInt8).toNat.testBit (j % 8)
    else if j / 8 = 1 then (0xF0 : UInt8).toNat.testBit (j % 8)
    else (0xFF : UInt8).toNat.testBit (j % 8) := by
  have hdata : (dusty dust).data ⟨1, 3⟩ (j / 8) =
      if j / 8 = 0 then 1 else if j / 8 = 1 then 0xF0 else 0xFF := rfl
  unfold bitAt
  rw [hdata]
  split_ifs <;> rfl

theorem dusty_volume : Volume 1 smallDesc 1 (fun _ => ⟨1, 3⟩) {⟨1, ⟨1, 4⟩, 0⟩} (dusty dust) where
  map := by
    refine ⟨⟨⟨0, rfl, rfl, ?_, ?_, ?_⟩, fun i hi j hj _ => ?_, le_rfl, by decide⟩, by decide,
      by decide, by decide⟩
    · intro i hi
      exact if_pos (by omega)
    · intro i hi
      exact if_neg (by omega)
    · exact fun i _ h => by cases h
    · omega
  reserved := by
    have hhigh : ∀ r < 8, 4 ≤ r → (0xF0 : UInt8).toNat.testBit r = true := by decide
    have hall : ∀ r < 8, (0xFF : UInt8).toNat.testBit r = true := by decide
    refine ⟨mem_usedBits.mpr ⟨le_rfl, by decide, ?_⟩, fun z hz hz' hz'' => mem_usedBits.mpr
      ⟨hz', hz'', ?_⟩⟩
    · exact dusty_bit
    · change bitAt ((dusty dust).data ⟨1, 3⟩) ((z - 4) % 8192) = true
      have hrange : z < 4 + 1 * 8192 := hz''
      have hlow : 16 ≤ z := hz
      rw [dusty_bit, Nat.mod_eq_of_lt (by omega), if_neg (by omega)]
      split
      · exact hhigh _ (Nat.mod_lt _ (by decide)) (by omega)
      · exact hall _ (Nat.mod_lt _ (by decide))
  head i _ := ⟨⟨rfl, by change 1 < 5; decide⟩, fun j _ h => by cases h⟩
  maps i _ := ⟨rfl, by change 3 < 5; decide⟩
  onDev := by
    rintro v rfl
    rfl
  home := by
    rintro v rfl
    exact ⟨rfl, by change 4 < 5; decide⟩
  offMap := by
    rintro v rfl i _ h
    cases h
  offHead := by
    rintro v rfl i _ h
    cases h
  used := by
    rintro v rfl n p hp hne
    exact absurd (dusty_ptr hp) hne
  distinct := by
    rintro v rfl v' rfl n p n' p' hp hp' hne
    exact absurd (dusty_ptr hp) hne

theorem dusty_free {z : ℕ} (hz : 5 ≤ z) (hz' : z < 16) :
    z ∈ freeZones smallDesc 1 (fun _ => ⟨1, 3⟩) (dusty dust) := by
  refine ⟨⟨hz, hz'⟩, fun hused => ?_⟩
  have hbit := (mem_usedBits.mp hused).2.2
  change bitAt ((dusty dust).data ⟨1, 3⟩) ((z - 4) % 8192) = true at hbit
  have hclear : ∀ z < 16, 5 ≤ z → bitAt ((dusty []).data ⟨1, 3⟩) ((z - 4) % 8192) = false := by
    decide
  exact absurd (hbit.symm.trans (hclear z hz' hz)) (by decide)

end Dusty

theorem dusty_blank {z : ℕ} (hz : 5 ≤ z) : Blank (dusty []) 1 z := fun j _ => by
  refine Bytes.read_eq_zero fun o _ _ => ?_
  change (if z = 1 then _ else if z = 3 then _ else if z = 4 then _ else if z = 5 then _ else 0) =
    (0 : UInt8)
  rw [if_neg (by omega), if_neg (by omega), if_neg (by omega)]
  split <;> rfl

theorem dusty_wanted : wanted (dusty []) ⟨1, ⟨1, 4⟩, 0⟩ 7 = 2 := by decide

theorem dusty_enough :
    2 ≤ (freeZones smallDesc 1 (fun _ => ⟨1, 3⟩) (dusty [])).ncard := by
  have hfree : ({5, 6} : Set ℕ) ⊆ freeZones smallDesc 1 (fun _ => ⟨1, 3⟩) (dusty []) := by
    rintro z (rfl | rfl)
    · exact dusty_free le_rfl (by decide)
    · exact dusty_free (by decide) (by decide)
  rw [← Set.ncard_pair (show (5 : ℕ) ≠ 6 by decide)]
  exact Set.ncard_le_ncard hfree (freeZones_finite _)

theorem desc_of_run {x : K ℕ} {f : Field} {a y : ℕ} {l : List Event}
    (hrun : x.run s = .ok (a, s', l)) (hboth : returnsBool (do
      let _ ← x
      getField i f) (fun r _ => r = y) s = true) : s'.desc i f = y := by
  obtain ⟨r, s₂, l₂, hrun', hr⟩ := returns_of_bool hboth
  obtain ⟨a', s₁, l₁, l₃, hfirst, hsecond, -⟩ := bind_eq_ok.mp hrun'
  rw [hrun] at hfirst
  cases hfirst
  cases hsecond
  exact of_decide_eq_true hr

/-- Block 7 is the first that needs an index table, and zone 5 is blank. -/
theorem clean_creates_one : CreatesOne (dusty []) 0 7 := by
  have hvolume : Volume 1 smallDesc 1 (fun _ => ⟨1, 3⟩) {siteAt (dusty []) 0} (dusty []) :=
    dusty_volume
  exact (bmap_creates_one hvolume (fun _ => le_rfl) (by decide)
    (dusty_wanted.trans_le dusty_enough)).1 fun z hz _ => dusty_blank hz.1.1

/-- Zone 5 has 9 as its second number: then block 8, which has no zone, gets zone 9. -/
theorem dusty_creates_two : ¬CreatesOne (dusty [0, 0, 9, 0]) 0 7 := by
  have hbefore : Finds (dusty [0, 0, 9, 0]) 0 8 0 := by
    have hrun : returnsBool (bmap 0 8 false) (fun r _ => r = 0) (dusty [0, 0, 9, 0]) = true := by
      decide
    exact returns_mono (returns_of_bool hrun) fun _ _ h => of_decide_eq_true h
  have hafter : returnsBool (do
      let _ ← bmap 0 7 true
      bmap 0 8 false) (fun r _ => r = 9) (dusty [0, 0, 9, 0]) = true := by decide +kernel
  obtain ⟨r, s₂, l, hrun, hr⟩ := returns_of_bool hafter
  obtain ⟨z, s₁, l₁, l₂, hfirst, hsecond, -⟩ := bind_eq_ok.mp hrun
  rintro ⟨z', s₁', l₁', hfirst', -, -, hframe⟩
  rw [hfirst] at hfirst'
  cases hfirst'
  obtain ⟨r', s₂', l₂', hsecond', rfl⟩ := hframe 8 (by decide) (by decide) 0 hbefore
  rw [hsecond] at hsecond'
  cases hsecond'
  cases hr

end Ylos.Index
