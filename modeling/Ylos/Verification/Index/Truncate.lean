import Ylos.Verification.Index.Mapping
import Mathlib.Order.CompletePartialOrder

/-! # Truncation frees the zones of a file -/

namespace Ylos.Index

open Exec Dir Allocator

variable {dev : ℤ} {d : SuperDesc} {k : ℕ} {zb : ℕ → BufRef} {vs : Set Site} {s t t' : Fs}
  {v : Site} {n m z i j base : ℕ} {p q r : Place} {b : BufRef} {bufs : List BufRef} {S T : Set ℕ}

/-! ## The zones below a place -/

/-- The zones at a place and below it. -/
def under (s : Fs) (v : Site) (p : Place) : Set ℕ :=
  { z | z ≠ 0 ∧ ∃ m r, Level m r ∧ p <:+ r ∧ ptr s v r = z }

theorem under_zero (hpne : p ≠ []) (hzero : ptr s v p = 0) : under s v p = ∅ := by
  ext z
  simp only [under, Set.mem_ofPred_eq, Set.mem_empty_iff_false, iff_false, not_and]
  rintro hz ⟨m, r, hr, hpr, rfl⟩
  exact hz (ptr_under_zero hzero hr hpne hpr)

/-- A place below another one is as many levels lower as it has indexes more. -/
theorem Level.lower (hp : Level n p) (hr : Level m r) (hpr : p <:+ r) (hne : r ≠ p) : m < n := by
  induction r generalizing m with
  | nil => exact absurd (List.suffix_nil.mp hpr) hp.ne_nil
  | cons i r ih =>
      rcases List.suffix_cons_iff.mp hpr with rfl | hpr
      · exact absurd rfl hne
      · have hrne : r ≠ [] := fun hnil => hp.ne_nil (List.suffix_nil.mp (hnil ▸ hpr))
        have hr' := hr.tail.resolve_left hrne
        by_cases heq : r = p
        · subst heq
          rw [hp.unique hr']
          exact Nat.lt_succ_self m
        · exact (Nat.lt_succ_self m).trans (ih hr' hpr heq)

theorem under_leaf (hp : Level 0 p) (hne : ptr s v p ≠ 0) : under s v p = {ptr s v p} := by
  ext z
  simp only [under, Set.mem_ofPred_eq, Set.mem_singleton_iff]
  constructor
  · rintro ⟨-, m, r, hr, hpr, rfl⟩
    by_contra hno
    exact absurd (hp.lower hr hpr fun heq => hno (by rw [heq])) (Nat.not_lt_zero m)
  · rintro rfl
    exact ⟨hne, 0, p, hp, List.suffix_rfl, rfl⟩

/-- The zones below the first `n` entries of a table. -/
def underFirst (s : Fs) (v : Site) (p : Place) (n : ℕ) : Set ℕ :=
  { z | ∃ j < n, z ∈ under s v (j :: p) }

theorem underFirst_succ (s : Fs) (v : Site) (p : Place) (n : ℕ) :
    underFirst s v p (n + 1) = underFirst s v p n ∪ under s v (n :: p) := by
  ext z
  simp only [underFirst, Set.mem_ofPred_eq, Set.mem_union]
  constructor
  · rintro ⟨j, hj, hz⟩
    rcases Nat.lt_succ_iff_lt_or_eq.mp hj with hj | rfl
    · exact .inl ⟨j, hj, hz⟩
    · exact .inr hz
  · rintro (⟨j, hj, hz⟩ | hz)
    · exact ⟨j, Nat.lt_succ_of_lt hj, hz⟩
    · exact ⟨n, Nat.lt_succ_self n, hz⟩

theorem under_table (hp : Level (n + 1) p) (hne : ptr s v p ≠ 0) :
    under s v p = underFirst s v p BLOCK_INDEXES ∪ {ptr s v p} := by
  ext z
  simp only [underFirst, Set.mem_ofPred_eq, Set.mem_union, Set.mem_singleton_iff]
  constructor
  · rintro ⟨hz, m, r, hr, hpr, rfl⟩
    by_cases heq : r = p
    · exact .inr (by rw [heq])
    · -- the index that follows on `p`
      have hnext : ∃ l < BLOCK_INDEXES, l :: p <:+ r := by
        clear hz
        induction r generalizing m with
        | nil => exact absurd (List.suffix_nil.mp hpr) hp.ne_nil
        | cons i r ih =>
            rcases List.suffix_cons_iff.mp hpr with rfl | hpr
            · exact absurd rfl heq
            · have hrne : r ≠ [] := fun hnil => hp.ne_nil (List.suffix_nil.mp (hnil ▸ hpr))
              by_cases hrp : r = p
              · subst hrp
                cases hr with
                | direct _ => exact absurd rfl hrne
                | single => exact absurd rfl hrne
                | double => exact absurd rfl hrne
                | down _ hi => exact ⟨i, hi, List.suffix_rfl⟩
              · obtain ⟨l, hl, hsuffix⟩ := ih _ (hr.tail.resolve_left hrne) hpr hrp
                exact ⟨l, hl, hsuffix.trans (List.suffix_cons i r)⟩
      obtain ⟨l, hl, hsuffix⟩ := hnext
      exact .inl ⟨l, hl, hz, m, r, hr, hsuffix, rfl⟩
  · rintro (⟨l, -, hz, m, r, hr, hpr, rfl⟩ | rfl)
    · exact ⟨hz, m, r, hr, (List.suffix_cons l p).trans hpr, rfl⟩
    · exact ⟨hne, _, p, hp, List.suffix_rfl, rfl⟩

/-- Nothing is below two places of which neither is below the other. -/
theorem Volume.under_disjoint (h : Volume dev d k zb vs s) (hv : v ∈ vs)
    (hpq : ∀ r, p <:+ r → q <:+ r → False) : Disjoint (under s v p) (under s v q) := by
  rw [Set.disjoint_left]
  rintro z ⟨hz, m, r, hr, hpr, rfl⟩ ⟨-, m', r', hr', hqr, heq⟩
  obtain ⟨-, rfl⟩ := h.distinct v hv v hv m r m' r' hr hr' hz heq.symm
  exact hpq r hpr hqr

theorem Volume.under_used (h : Volume dev d k zb vs s) (hv : v ∈ vs) (hz : z ∈ under s v p) :
    z ∈ zoneRange d ∩ zoneBits d k zb s := by
  obtain ⟨hz, m, r, hr, -, rfl⟩ := hz
  exact h.used v hv m r hr hz

theorem Volume.underFirst_disjoint (h : Volume dev d k zb vs s) (hv : v ∈ vs) (p : Place) (l : ℕ) :
    Disjoint (underFirst s v p l) (under s v (l :: p)) := by
  rw [Set.disjoint_left]
  rintro z ⟨j, hj, hz⟩ hz'
  refine Set.disjoint_left.mp (h.under_disjoint hv fun r hjr hlr => ?_) hz hz'
  have heq := (List.suffix_of_suffix_length_le hjr hlr le_rfl).eq_of_length rfl
  exact hj.ne (List.cons.inj heq).1

theorem Volume.not_underFirst (h : Volume dev d k zb vs s) (hv : v ∈ vs) (hp : Level n p)
    (hne : ptr s v p ≠ 0) (l : ℕ) : ptr s v p ∉ underFirst s v p l := by
  rintro ⟨j, -, -, m, r, hr, hjr, heq⟩
  obtain ⟨-, rfl⟩ := h.distinct v hv v hv _ _ _ _ hp hr hne heq.symm
  exact absurd hjr.length_le (by simp)

/-! ## Releasing -/

/-- The zones `S` have been released since `s`; only the descriptor of `v` may have changed. -/
structure Freed (d : SuperDesc) (k : ℕ) (zb : ℕ → BufRef) (v : Site) (S : Set ℕ)
    (s t : Fs) : Prop where
  bits : zoneBits d k zb t = zoneBits d k zb s \ S
  data : ∀ b, (∀ i < k, b ≠ zb i) → b ≠ v.buf → t.data b = s.data b
  supers : t.supers = s.supers

/-- No block but those of the bitmap has changed. -/
def OffMap (k : ℕ) (zb : ℕ → BufRef) (t t' : Fs) : Prop :=
  ∀ b, (∀ i < k, b ≠ zb i) → t'.data b = t.data b

theorem OffMap.trans {t'' : Fs} (h : OffMap k zb t t') (h' : OffMap k zb t' t'') :
    OffMap k zb t t'' := fun b hb => (h' b hb).trans (h b hb)

theorem offMap_img (h : t'.img = t.img) : OffMap k zb t t' := fun b _ => by
  unfold Fs.data
  rw [h]

theorem Freed.img (h : Freed d k zb v S s t) (himg : t'.img = t.img)
    (hsupers : t'.supers = t.supers) : Freed d k zb v S s t' where
  bits := by
    rw [← h.bits]
    refine zoneBits_congr fun i _ => ?_
    unfold Fs.data
    rw [himg]
  data b hb hbv := (offMap_img himg b hb).trans (h.data b hb hbv)
  supers := hsupers.trans h.supers

theorem Freed.map (h : Freed d k zb v S s t) (hvol : Volume dev d k zb vs s) (hv : v ∈ vs) :
    ZoneMap dev d k zb t :=
  zoneMap_congr hvol.map h.supers fun i hi =>
    h.data _ (hvol.head i hi).2 (hvol.offHead v hv i hi).symm

theorem sameBlock_small (hsmall : d.zones ≤ 8192) (hz : z ∈ zoneRange d) : SameBlock d z := by
  obtain ⟨-, hlt⟩ := hz
  unfold SameBlock
  rw [BLOCK_BITS_eq, Nat.div_eq_of_lt (by omega), Nat.div_eq_of_lt (by omega)]

theorem does_bfree (hvol : Volume dev d k zb vs s) (hv : v ∈ vs) (hsmall : d.zones ≤ 8192)
    (h : Freed d k zb v S s t) (hz : z ∈ zoneRange d ∩ zoneBits d k zb s) (hzS : z ∉ S) :
    Does bufs (bfree dev z) t bufs (fun _ t' => Freed d k zb v (S ∪ {z}) s t' ∧
      OffMap k zb t t') := by
  have hmap := h.map hvol hv
  have hused : z ∈ zoneBits d k zb t := by
    rw [h.bits]
    exact ⟨hz.2, hzS⟩
  obtain ⟨t', hrun, hstored⟩ := run_bfree hmap hz.1 hused (sameBlock_small hsmall hz.1)
  have hrefs : t'.refs = t.refs := sameRefs_bfree dev z t () t' [] hrun fun _ _ => trivial
  obtain ⟨hlo, hhi, ht⟩ := hmap.covered hz.1
  have hoff : OffMap k zb t t' := fun b hb => by rw [hstored.data, if_neg (hb _ ht)]
  refine ⟨(), t', [], hrun, .of_io hstored.io hrefs, ⟨?_, fun b hb hbv => ?_, ?_⟩, hoff⟩
  · have hbits := usedBits_free hmap.toMapBlocks hlo hhi hstored
    change zoneBits d k zb t' = zoneBits d k zb t \ {z} at hbits
    rw [hbits, h.bits, Set.sdiff_sdiff]
  · rw [hoff b hb, h.data b hb hbv]
  · exact hstored.io.supers.trans h.supers

/-- A zone whose bit is clear is not released again: `bfree` asserts that the bit is set. -/
theorem run_bfree_of_free (h : ZoneMap dev d k zb t) (hsmall : d.zones ≤ 8192)
    (hz : z ∈ zoneRange d) (hfree : z ∉ zoneBits d k zb t) :
    (bfree dev z).run t = .error .assertion := by
  have hnr : ZMAP_NR = 8 := rfl
  have hsize : BLOCK_SIZE = 1024 := rfl
  have hfirst := h.first
  obtain ⟨hlo, hhi⟩ := hz
  obtain ⟨sb, hfind, hdesc, hmaps, -⟩ := h.super
  have hoffset := h.zmapOffset_eq (i := 0) (by decide)
  have hk := h.number
  have hclear : bitAt (t.data (zb 0)) (z - zmapOffset d 0) = false := by
    by_contra hset
    have henough := h.enough
    refine hfree (mem_usedBits.mpr ⟨by omega, ?_, ?_⟩)
    · rw [BLOCK_BITS_eq] at henough
      omega
    · rw [Nat.div_eq_of_lt (by omega), Nat.mod_eq_of_lt (by omega),
        show z - (d.firstdatazone - 1) = z - zmapOffset d 0 by omega]
      simpa using hset
  have htest : bitmapTest (bitmapOf t (zb 0) BLOCK_SIZE (zmapOffset d 0)) z = .ok false := by
    unfold bitmapTest bitmapOf
    dsimp only
    rw [if_neg (by omega), if_neg (by omega), if_neg (by omega), hclear]
  unfold bfree
  rw [run_bind _ (run_theSuper hfind), run_bind _ (run_gets _ t), hdesc,
    run_bind _ (run_check_pos hhi t), run_bind _ (run_gets _ t)]
  unfold ZMAP_NR freeLoop
  rw [if_neg (by rw [BLOCK_BITS_eq]; omega), hmaps 0 (by omega)]
  dsimp only
  rw [run_bind _ (run_gets _ t), htest, run_bind _ (run_lift_ok _ t)]
  exact run_bind_error _ (run_check_neg Bool.false_ne_true t)

theorem does_forUpTo {f : ℕ → K Unit} {P : ℕ → Fs → Prop} (n : ℕ) (hzero : P 0 t)
    (howned : Owned bufs t)
    (hstep : ∀ j < n, ∀ t', P j t' → Owned bufs t' → Does bufs (f j) t' bufs (fun _ => P (j + 1))) :
    Does bufs (forUpTo f n) t bufs (fun _ => P n) := by
  induction n with
  | zero => exact does_pure hzero
  | succ n ih =>
      refine (ih fun j hj => hstep j (Nat.lt_succ_of_lt hj)).bind fun _ t₁ hacts h₁ => ?_
      exact hstep n (Nat.lt_succ_self n) t₁ h₁ (howned.acts hacts)

/-- `inode_bfree` releases what hangs off one entry of an array, the children first. -/
theorem does_inodeBfree {level : ℕ} (hvol : Volume dev d k zb vs s) (hv : v ∈ vs)
    (hsmall : d.zones ≤ 8192) (hp : Level level (j :: q)) (hb : ∀ i < k, b ≠ zb i)
    (hentry : arrayAt t b base j = ptr s v (j :: q)) (h : Freed d k zb v S s t)
    (hS : Disjoint S (under s v (j :: q))) (howned : Owned bufs t) :
    Does bufs (inodeBfree dev level b base j) t bufs (fun _ t' =>
      Freed d k zb v (S ∪ under s v (j :: q)) s t' ∧ OffMap k zb t t') := by
  have hpne := List.cons_ne_nil j q
  induction level generalizing q j b base t S bufs with
  | zero =>
      unfold inodeBfree
      refine Does.bind (Q := fun zone t' => zone = ptr s v (j :: q) ∧ t' = t)
        (does_gets ⟨hentry, rfl⟩) fun zone t₁ _ ⟨hzone, ht₁⟩ => ?_
      subst hzone ht₁
      by_cases hzero : ptr s v (j :: q) = 0
      · rw [if_pos hzero, under_zero hpne hzero, Set.union_empty]
        exact does_pure ⟨h, fun _ _ => rfl⟩
      · rw [if_neg hzero, under_leaf hp hzero]
        rw [under_leaf hp hzero, Set.disjoint_singleton_right] at hS
        exact does_bfree hvol hv hsmall h (hvol.used v hv 0 _ hp hzero) hS
  | succ level ih =>
      unfold inodeBfree
      refine Does.bind (Q := fun zone t' => zone = ptr s v (j :: q) ∧ t' = t)
        (does_gets ⟨hentry, rfl⟩) fun zone t₁ _ ⟨hzone, ht₁⟩ => ?_
      subst hzone ht₁
      by_cases hzero : ptr s v (j :: q) = 0
      · rw [if_pos hzero, under_zero hpne hzero, Set.union_empty]
        exact does_pure ⟨h, fun _ _ => rfl⟩
      · rw [if_neg hzero]
        rw [under_table hp hzero] at hS ⊢
        have hdev := hvol.onDev v hv
        have hused := hvol.used v hv _ _ hp hzero
        have htable : ∀ i < k, (⟨dev, ptr s v (j :: q)⟩ : BufRef) ≠ zb i := fun i hi =>
          (hvol.maps i hi).zone_ne hused.1.1
        refine Does.bind (Q := fun c t' => c = ⟨dev, ptr s v (j :: q)⟩ ∧
          Reads bufs (⟨dev, ptr s v (j :: q)⟩ :: bufs) t₁ t')
          ((answers_bread dev _).does fun t' hreads => ⟨rfl, hreads⟩)
          fun c t₂ hacts₂ ⟨hc, hreads₂⟩ => ?_
        subst hc
        have howned₂ := howned.acts hacts₂
        refine Does.bind (does_forUpTo (P := fun n t' =>
          Freed d k zb v (S ∪ underFirst s v (j :: q) n) s t' ∧ OffMap k zb t₁ t') BLOCK_INDEXES
          ⟨?_, offMap_img hreads₂.img⟩ howned₂ fun l hl t' ⟨hfreed, hoff⟩ howned' => ?_)
          fun _ t₃ hacts₃ ⟨hfreed₃, hoff₃⟩ => ?_
        · have hnone : underFirst s v (j :: q) 0 = ∅ := by
            ext z
            simp [underFirst]
          rw [hnone, Set.union_empty]
          exact h.img hreads₂.img hreads₂.supers
        · rw [underFirst_succ, ← Set.union_assoc]
          refine (ih (.down hp hl) htable ?_ hfreed ?_ howned' (List.cons_ne_nil _ _)).mono
            fun _ t'' _ ⟨hfreed', hoff'⟩ => ⟨hfreed', hoff.trans hoff'⟩
          · rw [ptr_below hp, if_neg hzero, hdev]
            unfold arrayAt
            rw [hoff _ htable, h.data _ htable]
            exact (hvol.home v hv).zone_ne hused.1.1
          · refine Set.disjoint_union_left.mpr ⟨?_, hvol.underFirst_disjoint hv _ l⟩
            refine hS.mono_right (Set.subset_union_of_subset_left ?_ _)
            exact fun z hz => ⟨l, hl, hz⟩
        · refine Does.bind (Q := fun _ t' => Reads (⟨dev, ptr s v (j :: q)⟩ :: bufs) bufs t₃ t')
            ((answers_brelse (howned₂.acts hacts₃)).does fun t' hreads => hreads)
            fun _ t₄ _ hreads₄ => ?_
          have hoff₄ := hoff₃.trans (offMap_img hreads₄.img)
          refine Does.bind (Q := fun zone t' => zone = ptr s v (j :: q) ∧ t' = t₄)
            (does_gets ⟨?_, rfl⟩) fun zone t₅ _ ⟨hzone, ht₅⟩ => ?_
          · rw [hoff₄ b hb]
            exact hentry
          subst hzone ht₅
          rw [← Set.union_assoc]
          refine (does_bfree hvol hv hsmall (hfreed₃.img hreads₄.img hreads₄.supers) hused ?_).mono
            fun _ t' _ ⟨hfreed, hoff⟩ => ⟨hfreed, hoff₄.trans hoff⟩
          rw [Set.mem_union, not_or]
          refine ⟨fun hin => Set.disjoint_left.mp hS hin (.inr rfl), ?_⟩
          exact hvol.not_underFirst hv hp hzero _

/-! ## The descriptor -/

/-- The first `n` entries of the descriptor of `v` are given up. -/
structure Dropped (d : SuperDesc) (k : ℕ) (zb : ℕ → BufRef) (v : Site) (n : ℕ) (s t : Fs) :
    Prop where
  freed : Freed d k zb v (underFirst s v [] n) s t
  inodes : t.inodes = s.inodes
  zero : ∀ l < n, arrayAt t v.buf (zonesAt v) l = 0
  rest : ∀ o, o < zonesAt v ∨ zonesAt v + 2 * n ≤ o → t.data v.buf o = s.data v.buf o

theorem does_setField {Q : Unit → Fs → Prop} {f : Field} {x : ℕ}
    (hQ : ∀ s', Stored s (siteAt s i).buf ((s.data (siteAt s i).buf).write f.width
      (DESC_SIZE * (siteAt s i).slot + f.offset) x) s' → Q () s') :
    Does bufs (setField i f x) s bufs Q :=
  ⟨(), _, [], rfl, .of_io ⟨rfl, rfl, rfl, rfl, rfl⟩ rfl,
    hQ _ ⟨fun c => Fs.data_setImg s _ c _, ⟨rfl, rfl, rfl, rfl, rfl⟩⟩⟩

theorem does_dirtyInode {Q : Unit → Fs → Prop} (hQ : ∀ s', s'.img = s.img → OnlyIo s s' → Q () s') :
    Does bufs (dirtyInode i) s bufs Q :=
  Does.bind (Q := fun _ s' => s' = s) (does_gets rfl) fun _ _ _ hs' =>
    does_setDirty (hs' ▸ hQ)

theorem does_bwriteInode {Q : Unit → Fs → Prop}
    (hQ : ∀ s', s'.img = s.img → OnlyIo s s' → Q () s') :
    Does bufs (do bwrite (← gets fun s => (s.inodes i).buf)) s bufs Q :=
  Does.bind (Q := fun _ s' => s' = s) (does_gets rfl) fun _ _ _ hs' =>
    does_bwrite (hs' ▸ hQ)

theorem does_dropZone {level : ℕ} (hvol : Volume dev d k zb vs s) (hv : siteAt s i ∈ vs)
    (hsmall : d.zones ≤ 8192) (hp : Level level [n]) (h : Dropped d k zb (siteAt s i) n s t)
    (howned : Owned bufs t) :
    Does bufs (dropZone i level n) t bufs (fun _ => Dropped d k zb (siteAt s i) (n + 1) s) := by
  have hsite : siteAt t i = siteAt s i := by
    unfold siteAt
    rw [h.inodes]
  have hentry : arrayAt t (siteAt s i).buf (zonesAt (siteAt s i)) n = ptr s (siteAt s i) [n] := by
    refine Bytes.read_congr fun o ho _ => h.rest o (.inr ?_)
    omega
  unfold dropZone
  refine Does.bind (Q := fun inode t' => inode = t.inodes i ∧ t' = t) (does_gets ⟨rfl, rfl⟩)
    fun inode t₁ _ ⟨hinode, ht₁⟩ => ?_
  subst hinode ht₁
  have hdev : (t₁.inodes i).dev = dev := (congrArg Site.dev hsite).trans (hvol.onDev _ hv)
  have hfree := does_inodeBfree hvol hv hsmall hp (hvol.offMap _ hv) hentry h.freed
    (hvol.underFirst_disjoint hv [] n) howned
  rw [← underFirst_succ, ← hsite] at hfree
  rw [hdev]
  refine Does.bind hfree fun _ t₂ hacts₂ ⟨hfreed₂, hoff₂⟩ => does_setField fun t₃ hs => ?_
  rw [hacts₂.siteAt, hsite] at hs
  rw [hsite] at hfreed₂
  have hself : ∀ o, t₂.data (siteAt s i).buf o = t₁.data (siteAt s i).buf o := fun o => by
    rw [hoff₂ _ (hvol.offMap _ hv)]
  have hat : DESC_SIZE * (siteAt s i).slot + (Field.zone n).offset = zonesAt (siteAt s i) + 2 * n := by
    change _ + (14 + 2 * n) = _ + (14 + 2 * 0) + 2 * n
    omega
  have hdata : t₃.data (siteAt s i).buf =
      (t₂.data (siteAt s i).buf).write 2 (zonesAt (siteAt s i) + 2 * n) 0 := by
    rw [hs.data, if_pos rfl, hat]
    rfl
  refine ⟨⟨?_, fun b hb hbv => ?_, ?_⟩, ?_, fun l hl => ?_, fun o ho => ?_⟩
  · rw [← hfreed₂.bits]
    refine zoneBits_congr fun l hl => ?_
    rw [hs.data, if_neg (hvol.offMap _ hv l hl).symm]
  · rw [hs.data, if_neg hbv, hfreed₂.data b hb hbv]
  · rw [hs.io.supers, hfreed₂.supers]
  · rw [hs.io.inodes, hacts₂.inodes, h.inodes]
  · unfold arrayAt
    rw [hdata]
    rcases Nat.lt_succ_iff_lt_or_eq.mp hl with hl | rfl
    · rw [Bytes.read_write_ne (by omega)]
      refine (Bytes.read_congr fun o _ _ => hself o).trans (h.zero l hl)
    · rw [Bytes.read_write_same, Nat.zero_mod]
  · rw [hdata, Bytes.write_apply_of_lt (by omega), hself, h.rest o (by omega)]

/-- The zones of a file: its data, its index tables. -/
def zonesOf (s : Fs) (v : Site) : Set ℕ := { z | z ≠ 0 ∧ ∃ n p, Level n p ∧ ptr s v p = z }

theorem Level.under_top (h : Level n p) : ∃ l < DIRECT_BLOCK + 2, [l] <:+ p := by
  induction h with
  | direct hk => exact ⟨_, hk.trans (by decide), List.suffix_rfl⟩
  | single => exact ⟨_, by decide, List.suffix_rfl⟩
  | double => exact ⟨_, by decide, List.suffix_rfl⟩
  | down _ _ ih =>
      obtain ⟨l, hl, hsuffix⟩ := ih
      exact ⟨l, hl, hsuffix.trans (List.suffix_cons _ _)⟩

theorem underFirst_all (s : Fs) (v : Site) : underFirst s v [] (DIRECT_BLOCK + 2) = zonesOf s v := by
  ext z
  constructor
  · rintro ⟨l, -, hz, m, r, hr, -, heq⟩
    exact ⟨hz, m, r, hr, heq⟩
  · rintro ⟨hz, m, r, hr, heq⟩
    obtain ⟨l, hl, hsuffix⟩ := hr.under_top
    exact ⟨l, hl, hz, m, r, hr, hsuffix, heq⟩

/-- All that hangs off the descriptor is released, and the numbers there are cleared. -/
theorem does_dropAll {rest : K Unit} {Q : Unit → Fs → Prop} (hvol : Volume dev d k zb vs s)
    (hv : siteAt s i ∈ vs) (hsmall : d.zones ≤ 8192) (howned : Owned bufs s)
    (hrest : ∀ t, Acts bufs bufs s t → Dropped d k zb (siteAt s i) (DIRECT_BLOCK + 2) s t →
      Does bufs rest t bufs Q) :
    Does bufs (do
      forUpTo (fun z => dropZone i 0 z) DIRECT_BLOCK
      dropZone i 1 DIRECT_BLOCK
      dropZone i 2 (DIRECT_BLOCK + 1)
      rest) s bufs Q := by
  have hbegin : Dropped d k zb (siteAt s i) 0 s s := by
    have hnone : underFirst s (siteAt s i) [] 0 = ∅ := by
      ext z
      simp [underFirst]
    refine ⟨⟨?_, fun _ _ _ => rfl, rfl⟩, rfl, fun l hl => absurd hl (Nat.not_lt_zero l),
      fun _ _ => rfl⟩
    rw [hnone, Set.sdiff_empty]
  refine Does.bind (does_forUpTo DIRECT_BLOCK hbegin howned fun l hl t' h' howned' =>
    does_dropZone hvol hv hsmall (.direct hl) h' howned') fun _ t₁ hacts₁ h₁ => ?_
  have howned₁ := howned.acts hacts₁
  refine Does.bind (does_dropZone hvol hv hsmall .single h₁ howned₁) fun _ t₂ hacts₂ h₂ => ?_
  refine Does.bind (does_dropZone hvol hv hsmall .double h₂ (howned₁.acts hacts₂))
    fun _ t₃ hacts₃ h₃ => ?_
  exact hrest t₃ ((hacts₁.trans hacts₂).trans hacts₃) h₃

/-! ## `inode_truncate` -/

/-- The inode `i` has lost its zones since `s`, and they are the only ones released. -/
structure Emptied (dev : ℤ) (d : SuperDesc) (k : ℕ) (zb : ℕ → BufRef) (vs : Set Site) (i : ℕ)
    (s t : Fs) : Prop where
  volume : Volume dev d k zb vs t
  bits : zoneBits d k zb t = zoneBits d k zb s \ zonesOf s (siteAt s i)
  once : ∀ z ∈ zonesOf s (siteAt s i), z ∈ zoneBits d k zb s ∧
    (bfree dev z).run t = .error .assertion
  size : t.desc i .size = 0
  unmapped : ∀ b < TOTAL_BLOCK, Finds t i b 0
  others : ∀ v ∈ vs, v ≠ siteAt s i → SameTree s t v
  data : ∀ b, (∀ j < k, b ≠ zb j) → b ≠ (siteAt s i).buf → t.data b = s.data b
  rest : ∀ o, o < DESC_SIZE * (siteAt s i).slot + 4 ∨
    DESC_SIZE * (siteAt s i).slot + 12 ≤ o ∧ o < zonesAt (siteAt s i) ∨
    DESC_SIZE * ((siteAt s i).slot + 1) ≤ o → t.data (siteAt s i).buf o = s.data (siteAt s i).buf o
  inodes : t.inodes = s.inodes
  supers : t.supers = s.supers

theorem Emptied.of_zero (h : Volume dev d k zb vs s) (hv : siteAt s i ∈ vs)
    (hsmall : d.zones ≤ 8192) (howned : Owned [] t)
    (hfreed : Freed d k zb (siteAt s i) (zonesOf s (siteAt s i)) s t)
    (hzero : ∀ l ≤ DIRECT_BLOCK + 1, ptr t (siteAt s i) [l] = 0)
    (hsize : t.desc i .size = 0) (hinodes : t.inodes = s.inodes)
    (hrest : ∀ o, o < DESC_SIZE * (siteAt s i).slot + 4 ∨
      DESC_SIZE * (siteAt s i).slot + 12 ≤ o ∧ o < zonesAt (siteAt s i) ∨
      DESC_SIZE * ((siteAt s i).slot + 1) ≤ o →
        t.data (siteAt s i).buf o = s.data (siteAt s i).buf o) :
    Emptied dev d k zb vs i s t := by
  have hdesc : DESC_SIZE = 32 := rfl
  have hbase : ∀ v, zonesAt v = DESC_SIZE * v.slot + 14 := fun _ => rfl
  have hnone : ∀ n p, Level n p → ptr t (siteAt s i) p = 0 := fun n p hp => by
    obtain ⟨l, hl, hsuffix⟩ := hp.under_top
    exact ptr_under_zero (hzero l (Nat.lt_succ_iff.mp hl)) hp (List.cons_ne_nil _ _) hsuffix
  have hother : ∀ v ∈ vs, v ≠ siteAt s i → SameTree s t v := fun v hv' hne => by
    refine .of_data (fun o ho ho' => ?_) fun n p hp hpne => ?_
    · by_cases hbuf : v.buf = (siteAt s i).buf
      · have hslot : v.slot ≠ (siteAt s i).slot := h.slot_ne hv' hv hne hbuf
        rw [hbuf]
        refine hrest o ?_
        rw [hbase] at ho ho' ⊢
        rw [hdesc] at ho ho' ⊢
        omega
      · rw [hfreed.data _ (h.offMap v hv') hbuf]
    · exact hfreed.data _ (fun j hj => h.ptr_ne hv' hp hpne (h.maps j hj))
        (h.ptr_ne hv' hp hpne (h.home _ hv))
  have hkeep : ∀ v ∈ vs, ∀ n p, Level n p → ptr t v p ≠ 0 →
      v ≠ siteAt s i ∧ ptr t v p = ptr s v p := fun v hv' n p hp hne => by
    have hvne : v ≠ siteAt s i := by
      rintro rfl
      exact hne (hnone n p hp)
    exact ⟨hvne, (hother v hv' hvne).ptr hp⟩
  have hvolume : Volume dev d k zb vs t := by
    refine ⟨hfreed.map h hv, ?_, hfreed.supers ▸ h.head, h.maps, h.onDev, h.home, h.offMap,
      hfreed.supers ▸ h.offHead, fun v hv' n p hp hne => ?_, fun v hv' v' hv'' n p n' p' hp hp' hne heq => ?_⟩
    · rw [hfreed.bits]
      have hfirst := h.map.first
      have hrange : ∀ z ∈ zonesOf s (siteAt s i), z ∈ zoneRange d := by
        rintro z ⟨hz, n, p, hp, rfl⟩
        exact (h.used _ hv n p hp hz).1
      exact ⟨⟨h.reserved.zero, fun hin => by have hlo := (hrange _ hin).1; omega⟩,
        fun z h₁ h₂ h₃ => ⟨h.reserved.tail z h₁ h₂ h₃, fun hin => by
          have hhi := (hrange _ hin).2
          omega⟩⟩
    · obtain ⟨hvne, hsame⟩ := hkeep v hv' n p hp hne
      rw [hsame] at hne ⊢
      obtain ⟨hrange, hused⟩ := h.used v hv' n p hp hne
      rw [hfreed.bits]
      refine ⟨hrange, hused, ?_⟩
      rintro ⟨-, m, q, hq, heq⟩
      exact hvne (h.distinct v hv' _ hv n p m q hp hq hne heq.symm).1
    · obtain ⟨-, hsame⟩ := hkeep v hv' n p hp hne
      obtain ⟨-, hsame'⟩ := hkeep v' hv'' n' p' hp' (heq ▸ hne)
      rw [hsame] at hne heq
      rw [hsame'] at heq
      exact h.distinct v hv' v' hv'' n p n' p' hp hp' hne heq
  refine ⟨hvolume, hfreed.bits, ?_, hsize, fun b hb => ?_, hother, hfreed.data, hrest, hinodes,
    hfreed.supers⟩
  · rintro z ⟨hz, n, p, hp, rfl⟩
    obtain ⟨hrange, hused⟩ := h.used _ hv n p hp hz
    refine ⟨hused, run_bfree_of_free hvolume.map hsmall hrange ?_⟩
    rw [hfreed.bits]
    exact fun hin => hin.2 ⟨hz, n, p, hp, rfl⟩
  · rw [finds_iff hb howned, fileZone_eq hb]
    have hsite : siteAt t i = siteAt s i := by
      unfold siteAt
      rw [hinodes]
    rw [hsite]
    exact hnone 0 _ (blockPlace_level hb)

theorem does_inodeTruncate (h : Volume dev d k zb vs s) (hv : siteAt s i ∈ vs)
    (hsmall : d.zones ≤ 8192) (hmode : isReg (s.desc i .mode) ∨ isDir (s.desc i .mode))
    (howned : Owned [] s) : Does [] (inodeTruncate i) s []
      (fun _ t => Owned [] t → Emptied dev d k zb vs i s t) := by
  have hdesc : DESC_SIZE = 32 := rfl
  have hbase : ∀ v, zonesAt v = DESC_SIZE * v.slot + 14 := fun _ => rfl
  have hsizeAt : Field.size.offset = 4 := rfl
  have hmtimeAt : Field.mtime.offset = 8 := rfl
  have hsizeWidth : Field.size.width = 4 := rfl
  have hmtimeWidth : Field.mtime.width = 4 := rfl
  unfold inodeTruncate
  refine Does.bind (Q := fun mode t => mode = s.desc i .mode ∧ t = s) (does_gets ⟨rfl, rfl⟩)
    fun mode t₀ _ ⟨hmode₀, ht₀⟩ => ?_
  subst hmode₀ ht₀
  rw [if_neg (by rcases hmode with hmode | hmode <;> simp [hmode])]
  refine does_dropAll h hv hsmall howned fun t₁ hacts₁ hdropped => ?_
  have hsite₁ : siteAt t₁ i = siteAt t₀ i := hacts₁.siteAt i
  refine Does.bind (Q := fun _ t' => Stored t₁ (siteAt t₁ i).buf ((t₁.data (siteAt t₁ i).buf).write
    4 (DESC_SIZE * (siteAt t₁ i).slot + 4) 0) t') (does_setField fun _ hs => hs)
    fun _ t₂ hacts₂ hs₂ => ?_
  refine Does.bind (Q := fun _ t' => t'.img = t₂.img) (does_dirtyInode fun _ himg _ => himg)
    fun _ t₃ hacts₃ himg₃ => ?_
  refine Does.bind (Q := fun now t => now = t₃.now ∧ t = t₃) (does_gets ⟨rfl, rfl⟩)
    fun now t₄ _ ⟨hnow, ht₄⟩ => ?_
  subst hnow ht₄
  refine Does.bind (Q := fun _ t' => Stored t₄ (siteAt t₄ i).buf ((t₄.data (siteAt t₄ i).buf).write
    4 (DESC_SIZE * (siteAt t₄ i).slot + 8) t₄.now) t') (does_setField fun _ hs => hs)
    fun _ t₅ hacts₅ hs₅ => does_bwriteInode fun t₆ himg₆ hio₆ => ?_
  have hacts := ((hacts₁.trans hacts₂).trans hacts₃).trans hacts₅
  have hsite₄ : siteAt t₄ i = siteAt t₀ i := ((hacts₁.trans hacts₂).trans hacts₃).siteAt i
  rw [hsite₁] at hs₂
  rw [hsite₄] at hs₅
  have hsame₃ : ∀ b, t₄.data b = t₂.data b := fun b => by
    unfold Fs.data
    rw [himg₃]
  have hsame₆ : ∀ b, t₆.data b = t₅.data b := fun b => by
    unfold Fs.data
    rw [himg₆]
  have hdata : ∀ b, b ≠ (siteAt t₀ i).buf → t₆.data b = t₁.data b := fun b hb => by
    rw [hsame₆, hs₅.data, if_neg hb, hsame₃, hs₂.data, if_neg hb]
  have hself : t₆.data (siteAt t₀ i).buf = ((t₁.data (siteAt t₀ i).buf).write
      4 (DESC_SIZE * (siteAt t₀ i).slot + 4) 0).write 4 (DESC_SIZE * (siteAt t₀ i).slot + 8) t₄.now := by
    rw [hsame₆, hs₅.data, if_pos rfl, hsame₃, hs₂.data, if_pos rfl]
  have hinodes : t₆.inodes = t₀.inodes := hio₆.inodes.trans hacts.inodes
  refine fun howned₆ => .of_zero h hv hsmall howned₆ ⟨?_, fun b hb hbv => ?_, ?_⟩ (fun l hl => ?_)
    ?_ hinodes fun o ho => ?_
  · rw [← underFirst_all, ← hdropped.freed.bits]
    exact zoneBits_congr fun l hl => hdata _ (h.offMap _ hv l hl).symm
  · rw [hdata b hbv, hdropped.freed.data b hb hbv]
  · rw [hio₆.supers, hacts.supers]
  · change arrayAt t₆ (siteAt t₀ i).buf (zonesAt (siteAt t₀ i)) l = 0
    unfold arrayAt
    rw [hself, Bytes.read_write_ne (by rw [hbase]; omega), Bytes.read_write_ne (by rw [hbase]; omega)]
    exact hdropped.zero l (Nat.lt_succ_of_le hl)
  · change Bytes.read 4 (t₆.data (siteAt t₆ i).buf) (DESC_SIZE * (siteAt t₆ i).slot + 4) = 0
    have hsite₆ : siteAt t₆ i = siteAt t₀ i := by
      unfold siteAt
      rw [hinodes]
    rw [hsite₆, hself, Bytes.read_write_ne (by omega), Bytes.read_write_same, Nat.zero_mod]
  · have hend : DIRECT_BLOCK + 2 = 9 := rfl
    rw [hself, Bytes.write_apply_of_lt (by rw [hbase, hdesc] at ho; rw [hdesc]; omega),
      Bytes.write_apply_of_lt (by rw [hbase, hdesc] at ho; rw [hdesc]; omega)]
    exact hdropped.rest o (by rw [hbase, hdesc] at ho ⊢; omega)

/-- `inode_truncate` releases what hangs off the inode and nothing else. -/
theorem truncate_frees (h : Volume dev d k zb vs s) (hv : siteAt s i ∈ vs)
    (hsmall : d.zones ≤ 8192) (hmode : isReg (s.desc i .mode) ∨ isDir (s.desc i .mode))
    (howned : Owned [] s) :
    Returns (inodeTruncate i) (fun _ => Emptied dev d k zb vs i s) s :=
  ((does_inodeTruncate h hv hsmall hmode howned).mono fun _ _ hacts hemptied =>
    hemptied (howned.acts hacts)).returns

/-- A file whose block 7 is mapped: zone 5 is the index table, zone 6 holds the data. -/
theorem truncate_frees_indirect : ∃ s, zonesOf s (siteAt s 0) ≠ ∅ ∧
    Returns (inodeTruncate 0) (fun _ =>
      Emptied 1 smallDesc 1 (fun _ => ⟨1, 3⟩) {⟨1, ⟨1, 4⟩, 0⟩} 0 s) s := by
  have howned : Owned [] (dusty []) := fun _ => le_rfl
  obtain ⟨z, s, l, hrun, hacts, hz, hvol, hzone, -⟩ := does_bmap (i := 0)
    dusty_volume rfl (show 7 < TOTAL_BLOCK by decide) ⟨dusty_wanted.trans_le dusty_enough, fun z hz _ =>
      dusty_blank hz.1.1⟩ howned
  have hsite : siteAt s 0 = ⟨1, ⟨1, 4⟩, 0⟩ := hacts.siteAt 0
  have hmode : s.desc 0 .mode = 0o100644 := desc_of_run hrun (by decide)
  refine ⟨s, fun hnone => ?_, truncate_frees hvol hsite (by decide) (.inl ?_) (howned.acts hacts)⟩
  · have hblock : 7 < TOTAL_BLOCK := by decide
    rw [fileZone_eq hblock] at hzone
    have hin : z ∈ zonesOf s (siteAt s 0) :=
      ⟨hz, 0, _, blockPlace_level hblock, hsite ▸ hzone⟩
    rw [hnone] at hin
    exact hin
  · rw [hmode]
    rfl

end Ylos.Index
