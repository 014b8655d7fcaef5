import Mathlib.Data.Set.Card
import Ylos.Lib.Keeps
import Ylos.Verification.Alloc.Zones
import Ylos.Verification.Fs.Acts
import Ylos.Verification.Index.Shape

/-! # A volume: inodes and the zone bitmap

Each number in the tree of an inode is that of a zone of its own, and the zone is in use. -/

namespace Ylos.Index

open Exec Dir Allocator

variable {dev : ℤ} {d : SuperDesc} {k : ℕ} {zb : ℕ → BufRef} {vs : Set Site} {s s' : Fs}
  {v : Site} {n z : ℕ} {p : Place} {b : BufRef} {bufs : List BufRef}

/-- A block of the device before the data zones. -/
def Early (dev : ℤ) (d : SuperDesc) (b : BufRef) : Prop := b.dev = dev ∧ b.blk < d.firstdatazone

/-- `dev` has a zone bitmap and the inodes `vs`. -/
structure Volume (dev : ℤ) (d : SuperDesc) (k : ℕ) (zb : ℕ → BufRef) (vs : Set Site)
    (s : Fs) : Prop where
  map : ZoneMap dev d k zb s
  reserved : Reserved d k (zoneBits d k zb s)
  head : ∀ i, (s.supers i).dev = dev →
    Early dev d (s.supers i).buf ∧ ∀ j < k, (s.supers i).buf ≠ zb j
  maps : ∀ i < k, Early dev d (zb i)
  onDev : ∀ v ∈ vs, v.dev = dev
  home : ∀ v ∈ vs, Early dev d v.buf
  offMap : ∀ v ∈ vs, ∀ i < k, v.buf ≠ zb i
  offHead : ∀ v ∈ vs, ∀ i, (s.supers i).dev = dev → v.buf ≠ (s.supers i).buf
  used : ∀ v ∈ vs, ∀ n p, Level n p → ptr s v p ≠ 0 →
    ptr s v p ∈ zoneRange d ∩ zoneBits d k zb s
  distinct : ∀ v ∈ vs, ∀ v' ∈ vs, ∀ n p n' p', Level n p → Level n' p' → ptr s v p ≠ 0 →
    ptr s v p = ptr s v' p' → v = v' ∧ p = p'

/-- The zones that can be handed out. -/
def freeZones (d : SuperDesc) (k : ℕ) (zb : ℕ → BufRef) (s : Fs) : Set ℕ :=
  zoneRange d \ zoneBits d k zb s

theorem Early.zone_ne (hb : Early dev d b) (hz : d.firstdatazone ≤ z) : (⟨dev, z⟩ : BufRef) ≠ b := by
  rintro rfl
  exact absurd hb.2 (not_lt.mpr hz)

/-- The block behind a number of the tree is not one of those before the data zones. -/
theorem Volume.ptr_ne (h : Volume dev d k zb vs s) (hv : v ∈ vs) (hp : Level n p)
    (hne : ptr s v p ≠ 0) (hb : Early dev d b) : (⟨v.dev, ptr s v p⟩ : BufRef) ≠ b := by
  rw [h.onDev v hv]
  exact hb.zone_ne (h.used v hv n p hp hne).1.1

/-- Two inodes with their descriptors in one block have different slots there. -/
theorem Volume.slot_ne {w : Site} (h : Volume dev d k zb vs s) (hv : v ∈ vs) (hw : w ∈ vs)
    (hne : v ≠ w) (hbuf : v.buf = w.buf) : v.slot ≠ w.slot := fun hslot => hne <| by
  have hdev := (h.onDev v hv).trans (h.onDev w hw).symm
  cases v
  cases w
  simp_all only

/-- Nothing hangs off a free zone. -/
theorem Volume.ptr_ne_free (h : Volume dev d k zb vs s) (hv : v ∈ vs) (hp : Level n p)
    (hz : z ∈ freeZones d k zb s) : ptr s v p ≠ z := by
  rintro rfl
  have hfirst := h.map.first
  have hne : ptr s v p ≠ 0 := by
    have hlo := hz.1.1
    omega
  exact hz.2 (h.used v hv n p hp hne).2

/-- The zone map is the same as long as the super block and the bitmap are. -/
theorem zoneMap_congr (h : ZoneMap dev d k zb s) (hsupers : s'.supers = s.supers)
    (hdata : ∀ i, (s.supers i).dev = dev → s'.data (s.supers i).buf = s.data (s.supers i).buf) :
    ZoneMap dev d k zb s' := by
  obtain ⟨sb, hfind, hdesc, hmaps, hnone, hbuf⟩ := h.super
  have hdev : (s.supers sb).dev = dev := by simpa using List.find?_some hfind
  refine ⟨⟨⟨sb, ?_, ?_, ?_, ?_, ?_⟩, h.distinct, h.number⟩, h.first, h.small, h.enough⟩
  · rwa [hsupers]
  · rw [Fs.superDesc_congr hsupers (hdata sb hdev), hdesc]
  · rwa [hsupers]
  · rwa [hsupers]
  · rwa [hsupers]

theorem zoneBits_congr (h : ∀ i < k, s'.data (zb i) = s.data (zb i)) :
    zoneBits d k zb s' = zoneBits d k zb s := by
  ext z
  unfold zoneBits
  rw [mem_usedBits, mem_usedBits]
  refine and_congr_right fun hlo => and_congr_right fun hhi => ?_
  rw [h _ (by omega)]

/-- A change that leaves everything before the data zones alone, and the trees. -/
theorem Volume.congr (h : Volume dev d k zb vs s) (hsupers : s'.supers = s.supers)
    (hhead : ∀ i, (s.supers i).dev = dev → s'.data (s.supers i).buf = s.data (s.supers i).buf)
    (hbits : zoneBits d k zb s' = zoneBits d k zb s)
    (htree : ∀ v ∈ vs, SameTree s s' v) : Volume dev d k zb vs s' where
  map := zoneMap_congr h.map hsupers hhead
  reserved := hbits ▸ h.reserved
  head := hsupers ▸ h.head
  maps := h.maps
  onDev := h.onDev
  home := h.home
  offMap := h.offMap
  offHead := hsupers ▸ h.offHead
  used v hv n p hp := by
    rw [(htree v hv).ptr hp, hbits]
    exact h.used v hv n p hp
  distinct v hv v' hv' n p n' p' hp hp' := by
    rw [(htree v hv).ptr hp, (htree v' hv').ptr hp']
    exact h.distinct v hv v' hv' n p n' p' hp hp'

theorem Volume.img (h : Volume dev d k zb vs s) (hsupers : s'.supers = s.supers)
    (himg : s'.img = s.img) : Volume dev d k zb vs s' := by
  have hdata : ∀ b, s'.data b = s.data b := fun b => by
    unfold Fs.data
    rw [himg]
  exact h.congr hsupers (fun _ _ => hdata _) (zoneBits_congr fun _ _ => hdata _) fun v _ =>
    .of_data (fun o _ _ => by rw [hdata]) fun _ _ _ _ => hdata _

/-! ## Allocation -/

/-- The references to buffers are the same. -/
def SameRefs (s s' : Fs) : Prop := s'.refs = s.refs

instance : IsPreorder Fs SameRefs where
  refl _ := rfl
  trans _ _ _ h h' := Eq.trans h' h

theorem sameRefs_setData (b : BufRef) (f : Bytes → Bytes) : Keeps SameRefs (setData b f) :=
  keeps_modify fun _ => rfl

theorem sameRefs_setDirty (b : BufRef) : Keeps SameRefs (setDirty b) := keeps_modify fun _ => rfl

theorem sameRefs_bwrite (b : BufRef) : Keeps SameRefs (bwrite b) :=
  (keeps_gets _).bind fun _ => .ite (keeps_modify fun _ => rfl) (keeps_pure _)

theorem sameRefs_theSuper (dev : ℤ) : Keeps SameRefs (theSuper dev) := by
  refine (keeps_gets _).bind fun o => ?_
  cases o with
  | none => exact keeps_fault _
  | some sb => exact keeps_pure sb

theorem sameRefs_allocLoop (maps : ℕ → Option BufRef) (length : ℕ) (offset : ℕ → ℕ) (zones : ℕ)
    (n i : ℕ) (last : BufRef) : Keeps SameRefs (allocLoop maps length offset zones n i last) := by
  induction n generalizing i last with
  | zero => exact keeps_pure _
  | succ n ih =>
      unfold allocLoop
      cases maps i with
      | none => exact keeps_fault _
      | some buf =>
          refine keeps_get.bind fun _ => (keeps_lift _).bind fun found => .ite ?_ (ih _ _)
          exact (sameRefs_setData buf _).bind fun _ => (keeps_check _).bind fun _ =>
            (sameRefs_setDirty buf).bind fun _ => keeps_pure _

theorem sameRefs_balloc (dev : ℤ) : Keeps SameRefs (balloc dev) := by
  refine (sameRefs_theSuper dev).bind fun sb => (keeps_gets _).bind fun d =>
    (keeps_gets _).bind fun maps => (sameRefs_allocLoop _ _ _ _ _ _ _).bind fun ⟨buf, bit⟩ => ?_
  have hrest : Keeps SameRefs (do
      bwrite buf
      return bit) := (sameRefs_bwrite buf).bind fun _ => keeps_pure _
  exact .ite ((keeps_note _).bind fun _ => hrest) hrest

theorem sameRefs_freeLoop (maps : ℕ → Option BufRef) (length : ℕ) (offset : ℕ → ℕ)
    (idx n i : ℕ) : Keeps SameRefs (freeLoop maps length offset idx n i) := by
  induction n generalizing i with
  | zero => exact keeps_fault _
  | succ n ih =>
      unfold freeLoop
      refine .ite (ih (i + 1)) ?_
      cases maps i with
      | none => exact keeps_fault _
      | some buf =>
          refine (keeps_gets _).bind fun map => (keeps_lift _).bind fun set =>
            (keeps_check _).bind fun _ => (keeps_lift _).bind fun map => ?_
          exact (sameRefs_setData buf _).bind fun _ => (sameRefs_setDirty buf).bind fun _ =>
            sameRefs_bwrite buf

theorem sameRefs_bfree (dev : ℤ) (idx : ℕ) : Keeps SameRefs (bfree dev idx) :=
  (sameRefs_theSuper dev).bind fun _ => (keeps_gets _).bind fun _ => (keeps_check _).bind fun _ =>
    (keeps_gets _).bind fun _ => sameRefs_freeLoop _ _ _ idx _ _

/-- The bitmap has become `bits`; no other block has changed, and no reference. -/
structure Bits (d : SuperDesc) (k : ℕ) (zb : ℕ → BufRef) (bits : Set ℕ) (s s' : Fs) : Prop where
  bits : zoneBits d k zb s' = bits
  data : ∀ b, (∀ i < k, b ≠ zb i) → s'.data b = s.data b
  acts : ∀ bufs, Acts bufs bufs s s'

theorem Bits.sameTree {bits : Set ℕ} (h : Bits d k zb bits s s') (hvol : Volume dev d k zb vs s)
    (hv : v ∈ vs) : SameTree s s' v := by
  refine .of_data (fun o _ _ => by rw [h.data _ (hvol.offMap v hv)]) fun n p hp hne => ?_
  exact h.data _ fun i hi => hvol.ptr_ne hv hp hne (hvol.maps i hi)

theorem Bits.map {bits : Set ℕ} (h : Bits d k zb bits s s') (hvol : Volume dev d k zb vs s) :
    ZoneMap dev d k zb s' :=
  zoneMap_congr hvol.map (h.acts []).supers fun i hi => h.data _ (hvol.head i hi).2

theorem Bits.volume (h : Bits d k zb (insert z (zoneBits d k zb s)) s s')
    (hvol : Volume dev d k zb vs s) : Volume dev d k zb vs s' := by
  have htree : ∀ v ∈ vs, SameTree s s' v := fun v hv => h.sameTree hvol hv
  have hsupers := (h.acts []).supers
  refine ⟨h.map hvol, ?_, hsupers ▸ hvol.head, hvol.maps, hvol.onDev, hvol.home, hvol.offMap,
    hsupers ▸ hvol.offHead, fun v hv n p hp hne => ?_, fun v hv v' hv' n p n' p' hp hp' => ?_⟩
  · rw [h.bits]
    exact ⟨Set.mem_insert_of_mem _ hvol.reserved.zero, fun y h₁ h₂ h₃ =>
      Set.mem_insert_of_mem _ (hvol.reserved.tail y h₁ h₂ h₃)⟩
  · rw [(htree v hv).ptr hp] at hne ⊢
    obtain ⟨hrange, hused⟩ := hvol.used v hv n p hp hne
    exact ⟨hrange, h.bits ▸ Set.mem_insert_of_mem _ hused⟩
  · rw [(htree v hv).ptr hp, (htree v' hv').ptr hp']
    exact hvol.distinct v hv v' hv' n p n' p' hp hp'

/-- `balloc` marks the smallest free zone. -/
theorem does_balloc {Q : ℕ → Fs → Prop} (h : Volume dev d k zb vs s)
    (hz : IsLeast (freeZones d k zb s) z)
    (hQ : ∀ s', Bits d k zb (insert z (zoneBits d k zb s)) s s' → Q z s') :
    Does bufs (balloc dev) s bufs Q := by
  obtain ⟨s', hrun, hstored⟩ := run_balloc h.map h.reserved hz
  have hrefs : s'.refs = s.refs := sameRefs_balloc dev s z s' [] hrun fun _ _ => trivial
  obtain ⟨hlo, hhi, ht⟩ := h.map.covered hz.1.1
  refine ⟨z, s', [], hrun, .of_io hstored.io hrefs, hQ s' ⟨?_, fun b hb => ?_, fun _ =>
    .of_io hstored.io hrefs⟩⟩
  · exact usedBits_alloc h.map.toMapBlocks hlo hhi hstored
  · rw [hstored.data, if_neg (hb _ ht)]

end Ylos.Index
