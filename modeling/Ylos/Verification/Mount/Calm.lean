import Ylos.Model.Fs.Mount
import Ylos.Verification.Refs.Calls

/-! # Code that leaves the tables of inodes and super blocks alone

Allocation, block mapping and everything that works on data may run in any state: a super
block that is being set up or given up does not matter to it. -/

namespace Ylos.Mount

open Exec Refs

variable {α β : Type} {s s' s'' : Fs}

/-- What a super block says besides its buffers. -/
def entry (v : SuperBlock) : ℤ × ℕ × List ℕ × Option ℕ × Option ℕ :=
  (v.dev, v.count, v.inodeList, v.iroot, v.imount)

/-- The tables say in `s'` what they say in `s`. -/
structure Calm (s s' : Fs) : Prop where
  count : ∀ j, (s'.inodes j).count = (s.inodes j).count
  label : ∀ j, label (s'.inodes j) = label (s.inodes j)
  entry : ∀ k, entry (s'.supers k) = entry (s.supers k)
  task : s'.task = s.task

theorem Calm.refl (s : Fs) : Calm s s := ⟨fun _ => rfl, fun _ => rfl, fun _ => rfl, rfl⟩

theorem Calm.trans (h : Calm s s') (h' : Calm s' s'') : Calm s s'' where
  count j := (h'.count j).trans (h.count j)
  label j := (h'.label j).trans (h.label j)
  entry k := (h'.entry k).trans (h.entry k)
  task := h'.task.trans h.task

/-- `x` is calm wherever it runs. -/
def Calms (x : K α) : Prop := ∀ s, wp (fun _ => True) x (fun _ => Calm s) s

section Rules

variable {x : K α} {f : α → K β}

theorem Calms.wp {Q : α → Fs → Prop} (hx : Calms x) (hQ : ∀ a s', Calm s s' → Q a s') :
    wp (fun _ => True) x Q s :=
  wp_mono (hx s) hQ

theorem Calms.bind (hx : Calms x) (hf : ∀ a, Calms (f a)) : Calms (x >>= f) := by
  intro s
  rw [wp_bind]
  exact hx.wp fun a s₁ h₁ => (hf a).wp fun _ s₂ h₂ => h₁.trans h₂

theorem calms_pure (a : α) : Calms (pure a : K α) := fun s => (wp_pure a).mpr (.refl s)

theorem calms_gets (g : Fs → α) : Calms (gets g) := fun s => (wp_gets g).mpr (.refl s)

theorem calms_get : Calms (get : K Fs) := fun s => wp_get.mpr (.refl s)

theorem calms_fault (e : Fault) : Calms (fault e : K α) := fun _ => wp_fault e

theorem calms_note (e : Event) : Calms (note e) := fun s => (wp_note e).mpr fun _ => .refl s

theorem calms_check (p : Prop) [Decidable p] : Calms (check p) :=
  fun s => (wp_check p).mpr fun _ => .refl s

theorem calms_lift (r : Except Fault α) : Calms (lift r : K α) :=
  fun s => (wp_lift r).mpr fun _ _ => .refl s

theorem calms_deref (o : Option α) : Calms (deref o : K α) :=
  fun s => (wp_deref o).mpr fun _ _ => .refl s

theorem Calms.ite {p : Prop} [Decidable p] {y : K α} (hx : Calms x) (hy : Calms y) :
    Calms (if p then x else y) := by
  split
  · exact hx
  · exact hy

theorem calms_modify {g : Fs → Fs} (hg : ∀ s, Calm s (g s)) : Calms (modify g) :=
  fun s => (wp_modify g).mpr (hg s)

/-- A change of buffers and devices only. -/
theorem calms_io {g : Fs → Fs} (hinodes : ∀ s, (g s).inodes = s.inodes)
    (hsupers : ∀ s, (g s).supers = s.supers) (htask : ∀ s, (g s).task = s.task) :
    Calms (modify g) :=
  calms_modify fun s => ⟨fun j => by rw [hinodes], fun j => by rw [hinodes],
    fun k => by rw [hsupers], htask s⟩

end Rules

/-! ## Buffers, descriptors and super blocks -/

theorem calms_setDirty (b : BufRef) : Calms (setDirty b) :=
  calms_io (fun _ => rfl) (fun _ => rfl) fun _ => rfl

theorem calms_setData (b : BufRef) (f : Bytes → Bytes) : Calms (setData b f) :=
  calms_io (fun _ => rfl) (fun _ => rfl) fun _ => rfl

theorem calms_getU16 (b : BufRef) (base i : ℕ) : Calms (getU16 b base i) := calms_gets _

theorem calms_putU16 (b : BufRef) (base i v : ℕ) : Calms (putU16 b base i v) := calms_setData b _

theorem calms_addRef (b : BufRef) (n : ℤ) : Calms (addRef b n) :=
  calms_io (fun _ => rfl) (fun _ => rfl) fun _ => rfl

theorem calms_bread (dev : ℤ) (block : ℕ) : Calms (bread dev block) :=
  (calms_addRef _ _).bind fun _ => calms_pure _

theorem calms_bwrite (b : BufRef) : Calms (bwrite b) :=
  (calms_gets _).bind fun _ => .ite
    (calms_io (fun _ => rfl) (fun _ => rfl) fun _ => rfl) (calms_pure _)

theorem calms_brelse (o : Option BufRef) : Calms (brelse o) := by
  cases o with
  | none => exact calms_pure _
  | some b =>
      exact (calms_bwrite b).bind fun _ => (calms_addRef b _).bind fun _ =>
        (calms_gets _).bind fun _ => calms_check _

theorem calms_theSuper (dev : ℤ) : Calms (theSuper dev) := by
  refine (calms_gets _).bind fun o => ?_
  cases o with
  | none => exact calms_fault _
  | some sb => exact calms_pure sb

theorem calms_getField (i : ℕ) (f : Field) : Calms (getField i f) := calms_gets _

theorem calms_setField (i : ℕ) (f : Field) (v : ℕ) : Calms (setField i f v) :=
  calms_io (fun _ => rfl) (fun _ => rfl) fun _ => rfl

theorem calms_dirtyInode (i : ℕ) : Calms (dirtyInode i) :=
  (calms_gets _).bind fun b => calms_setDirty b

/-- A change of the times of a slot. -/
theorem calms_modifyInode {i : ℕ} {f : Inode → Inode} (hcount : ∀ v, (f v).count = v.count)
    (hlabel : ∀ v, Refs.label (f v) = Refs.label v) : Calms (modifyInode i f) := by
  refine calms_modify fun s => ⟨fun j => ?_, fun j => ?_, fun _ => rfl, rfl⟩
  · change (if j = i then f (s.inodes i) else s.inodes j).count = _
    split
    · rename_i hj
      rw [hcount, hj]
    · rfl
  · change Refs.label (if j = i then f (s.inodes i) else s.inodes j) = _
    split
    · rename_i hj
      rw [hlabel, hj]
    · rfl

theorem calms_setAtime (i : ℕ) : Calms (setAtime i) :=
  (calms_gets _).bind fun _ => calms_modifyInode (fun _ => rfl) fun _ => rfl

theorem calms_setCtime (i t : ℕ) : Calms (setCtime i t) :=
  calms_modifyInode (fun _ => rfl) fun _ => rfl

theorem calms_noteInode (i : ℕ) : Calms (noteInode i) :=
  (calms_getField _ _).bind fun _ => (calms_gets _).bind fun _ => calms_note _

/-- A change of the buffers of a super block. -/
theorem calms_modifySuper {k : ℕ} {f : SuperBlock → SuperBlock}
    (hentry : ∀ v, Mount.entry (f v) = Mount.entry v) : Calms (modifySuper k f) := by
  refine calms_modify fun s => ⟨fun _ => rfl, fun _ => rfl, fun l => ?_, rfl⟩
  change Mount.entry (if l = k then f (s.supers k) else s.supers l) = _
  split
  · rename_i hl
    rw [hentry, hl]
  · rfl

theorem calms_forUpTo {f : ℕ → K Unit} (hf : ∀ i, Calms (f i)) (n : ℕ) : Calms (forUpTo f n) := by
  induction n with
  | zero => exact calms_pure ()
  | succ n ih => exact ih.bind fun _ => hf n

theorem calms_releaseMaps (maps : ℕ → Option BufRef) (n : ℕ) : Calms (releaseMaps maps n) :=
  calms_forUpTo (fun _ => calms_brelse _) n

theorem calms_readBitmaps {dev : ℤ} {store : ℕ → BufRef → K Unit}
    (hstore : ∀ i b, Calms (store i b)) (n i idx : ℕ) : Calms (readBitmaps dev store n i idx) := by
  induction n generalizing i idx with
  | zero => exact calms_pure idx
  | succ n ih =>
      exact (calms_check _).bind fun _ => (calms_bread dev idx).bind fun b =>
        (hstore i b).bind fun _ => ih (i + 1) (idx + 1)

theorem calms_clearBlock (b : BufRef) : Calms (clearBlock b) := calms_setData b _

theorem calms_readMaps {dev : ℤ} {store : ℕ → BufRef → K Unit}
    (hstore : ∀ i b, Calms (store i b)) (n i idx : ℕ) : Calms (readMaps dev store n i idx) := by
  induction n generalizing i idx with
  | zero => exact calms_pure idx
  | succ n ih =>
      have hrest : Calms (do
          let buf ← bread dev idx
          store i buf
          clearBlock buf
          setDirty buf
          readMaps dev store n (i + 1) (idx + 1)) :=
        (calms_bread dev idx).bind fun b => (hstore i b).bind fun _ =>
          (calms_clearBlock b).bind fun _ => (calms_setDirty b).bind fun _ =>
            ih (i + 1) (idx + 1)
      unfold readMaps
      exact .ite ((calms_fault _).bind fun _ => hrest) hrest

theorem calms_fillTail (count : ℤ) (b : BufRef) : Calms (fillTail count b) :=
  (calms_setDirty b).bind fun _ => (calms_setData b _).bind fun _ => calms_setData b _

/-! ## Allocation and block mapping -/

theorem calms_allocLoop (maps : ℕ → Option BufRef) (length : ℕ) (offset : ℕ → ℕ) (zones : ℕ)
    (n i : ℕ) (last : BufRef) : Calms (allocLoop maps length offset zones n i last) := by
  induction n generalizing i last with
  | zero => exact calms_pure _
  | succ n ih =>
      unfold allocLoop
      cases maps i with
      | none => exact calms_fault _
      | some buf =>
          refine calms_get.bind fun s => (calms_lift _).bind fun found => ?_
          refine .ite ?_ (ih (i + 1) buf)
          exact (calms_setData _ _).bind fun _ => (calms_check _).bind fun _ =>
            (calms_setDirty buf).bind fun _ => calms_pure _

theorem calms_balloc (dev : ℤ) : Calms (balloc dev) := by
  refine (calms_theSuper dev).bind fun sb => (calms_gets _).bind fun d => ?_
  refine (calms_gets _).bind fun maps => (calms_allocLoop _ _ _ _ _ _ _).bind fun found => ?_
  refine .ite ((calms_note _).bind fun _ => ?_) ?_
  · exact (calms_bwrite _).bind fun _ => calms_pure _
  · exact (calms_bwrite _).bind fun _ => calms_pure _

theorem calms_ialloc (dev : ℤ) : Calms (ialloc dev) := by
  refine (calms_theSuper dev).bind fun sb => (calms_gets _).bind fun d => ?_
  refine (calms_gets _).bind fun maps => (calms_allocLoop _ _ _ _ _ _ _).bind fun found => ?_
  refine .ite ((calms_note _).bind fun _ => ?_) ?_
  · exact (calms_bwrite _).bind fun _ => calms_pure _
  · exact (calms_bwrite _).bind fun _ => calms_pure _

theorem calms_arrayZone (dev : ℤ) (create : Bool) (level : ℕ) (b : BufRef) (base index : ℕ) :
    Calms (arrayZone dev create level b base index) := by
  have hrest : Calms (do brelse (some b); getU16 b base index) :=
    (calms_brelse _).bind fun _ => calms_getU16 _ _ _
  have hstore : ∀ zone, Calms (do
      putU16 b base index zone; setDirty b; brelse (some b); getU16 b base index) := fun zone =>
    (calms_putU16 _ _ _ zone).bind fun _ => (calms_setDirty b).bind fun _ => hrest
  unfold arrayZone
  refine (calms_getU16 _ _ _).bind fun zone => .ite ?_ hrest
  refine (calms_balloc dev).bind fun zone => .ite ?_ (hstore zone)
  exact (calms_gets _).bind fun _ => (calms_note _).bind fun _ => hstore zone

theorem calms_reckon (dev : ℤ) (create : Bool) (level : ℕ) (b : BufRef)
    (base index block divider : ℕ) :
    Calms (reckon dev create level b base index block divider) := by
  induction level generalizing b base index block divider with
  | zero => exact calms_arrayZone _ _ _ _ _ _
  | succ level ih =>
      unfold reckon
      refine (calms_arrayZone _ _ _ _ _ _).bind fun zone => .ite (calms_pure _) ?_
      exact (calms_bread dev zone).bind fun b => ih _ _ _ _ _

theorem calms_bmap (i block : ℕ) (create : Bool) : Calms (bmap i block create) := by
  unfold bmap
  refine (calms_check _).bind fun _ => (calms_gets _).bind fun inode => ?_
  refine (calms_addRef _ _).bind fun _ => .ite (calms_reckon _ _ _ _ _ _ _ _) ?_
  exact .ite (calms_reckon _ _ _ _ _ _ _ _) ((calms_check _).bind fun _ =>
    calms_reckon _ _ _ _ _ _ _ _)

/-! ## What calm code keeps -/

theorem Calm.inCore (h : Calm s s') {i : ℕ} : InCore s' i ↔ InCore s i := by
  unfold InCore
  rw [h.count, show (s'.inodes i).pipe = (s.inodes i).pipe from congrArg (·.2.2.2.2) (h.label i)]

theorem Calm.list (h : Calm s s') (k : ℕ) : (s'.supers k).inodeList = (s.supers k).inodeList :=
  congrArg (·.2.2.1) (h.entry k)

theorem Calm.sound (h : Calm s s') (hs : Sound s) : Sound s' := by
  refine ⟨fun i hi => hs.slot i (h.count i ▸ hi), fun i hi => ?_, fun i hi => ?_, fun k => ?_,
    fun k i hi => ?_⟩
  · have hfree := hs.free i (h.count i ▸ hi)
    rw [show (s'.inodes i).dev = (s.inodes i).dev from congrArg (·.1) (h.label i),
      show (s'.inodes i).pipe = (s.inodes i).pipe from congrArg (·.2.2.2.2) (h.label i)]
    exact hfree
  · have hused := hs.used i (h.count i ▸ hi)
    rw [show (s'.inodes i).dev = (s.inodes i).dev from congrArg (·.1) (h.label i),
      show (s'.inodes i).mount = (s.inodes i).mount from congrArg (·.2.2.1) (h.label i)]
    exact hused
  · rw [h.list]
    exact hs.nodup k
  · rw [h.list] at hi
    exact h.inCore.mpr (hs.listed k i hi)

end Ylos.Mount
