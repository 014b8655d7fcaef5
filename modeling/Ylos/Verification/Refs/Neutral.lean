import Ylos.Verification.Refs.Ledger

/-! # Code that gives back what it takes

Most of the file system works on the data of buffers. Such code is `Neutral`: it returns
with the references it was called with. -/

namespace Ylos.Refs

open Exec

variable {α β : Type} {m s₀ s : Fs} {held : List ℕ} {bufs : List BufRef} {b : BufRef}

/-- The code holds what the ledger says, and the slots say what they said in `m`. -/
structure Within (m s₀ : Fs) (held : List ℕ) (bufs : List BufRef) (s : Fs) : Prop
    extends Ledger s₀ held bufs s where
  same : ∀ j, label (s.inodes j) = label (m.inodes j)

theorem Ledger.within (h : Ledger s₀ held bufs s) : Within s s₀ held bufs s := ⟨h, fun _ => rfl⟩

theorem Within.quiet {s' : Fs} {bufs' : List BufRef} (h : Within m s₀ held bufs s)
    (hquiet : Quiet s s') (hrefs : ∀ b, s'.refs b + bufs.count b = s.refs b + bufs'.count b) :
    Within m s₀ held bufs' s' :=
  ⟨h.toLedger.quiet hquiet hrefs, fun j => (hquiet.ident j).trans (h.same j)⟩

theorem Within.perm {bufs' : List BufRef} (h : Within m s₀ held bufs s)
    (hperm : bufs.Perm bufs') : Within m s₀ held bufs' s :=
  { h with refs := fun b => by rw [h.refs, hperm.count_eq] }

def Neutral (x : K α) : Prop :=
  ∀ m s₀ held bufs s, Within m s₀ held bufs s →
    wp (fun _ => True) x (fun _ s' => Within m s₀ held bufs s') s

section Rules

variable {x : K α} {f : α → K β}

theorem Neutral.wp {Q : α → Fs → Prop} (hx : Neutral x) (h : Within m s₀ held bufs s)
    (hQ : ∀ a s', Within m s₀ held bufs s' → Q a s') : wp (fun _ => True) x Q s :=
  wp_mono (hx m s₀ held bufs s h) hQ

theorem Neutral.bind (hx : Neutral x) (hf : ∀ a, Neutral (f a)) : Neutral (x >>= f) := by
  intro m s₀ held bufs s h
  rw [wp_bind]
  exact hx.wp h fun a s' h' => hf a m s₀ held bufs s' h'

theorem neutral_pure (a : α) : Neutral (pure a : K α) :=
  fun _ _ _ _ _ h => (wp_pure a).mpr h

theorem neutral_gets (g : Fs → α) : Neutral (gets g) :=
  fun _ _ _ _ _ h => (wp_gets g).mpr h

theorem neutral_get : Neutral (get : K Fs) :=
  fun _ _ _ _ _ h => wp_get.mpr h

theorem neutral_fault (e : Fault) : Neutral (fault e : K α) :=
  fun _ _ _ _ _ _ => wp_fault e

theorem neutral_note (e : Event) : Neutral (note e) :=
  fun _ _ _ _ _ h => (wp_note e).mpr fun _ => h

theorem neutral_check (p : Prop) [Decidable p] : Neutral (check p) :=
  fun _ _ _ _ _ h => (wp_check p).mpr fun _ => h

theorem neutral_lift (r : Except Fault α) : Neutral (lift r : K α) :=
  fun _ _ _ _ _ h => (wp_lift r).mpr fun _ _ => h

theorem neutral_deref (o : Option α) : Neutral (deref o : K α) :=
  fun _ _ _ _ _ h => (wp_deref o).mpr fun _ _ => h

theorem Neutral.ite {p : Prop} [Decidable p] {y : K α} (hx : Neutral x) (hy : Neutral y) :
    Neutral (if p then x else y) := by
  split
  · exact hx
  · exact hy

theorem neutral_modify {g : Fs → Fs} (hquiet : ∀ s, Quiet s (g s))
    (hrefs : ∀ s, (g s).refs = s.refs) : Neutral (modify g) := by
  intro m s₀ held bufs s h
  rw [wp_modify]
  exact h.quiet (hquiet s) fun b => by rw [hrefs]

end Rules

/-! ## Buffers -/

theorem Quiet.of_io {s s' : Fs} (hinodes : s'.inodes = s.inodes) (hsupers : s'.supers = s.supers)
    (htask : s'.task = s.task) : Quiet s s' :=
  ⟨fun j => by rw [hinodes], fun j => by rw [hinodes], hsupers, by rw [htask], by rw [htask]⟩

theorem neutral_setDirty (b : BufRef) : Neutral (setDirty b) :=
  neutral_modify (fun _ => .of_io rfl rfl rfl) fun _ => rfl

theorem neutral_setData (b : BufRef) (f : Bytes → Bytes) : Neutral (setData b f) :=
  neutral_modify (fun _ => .of_io rfl rfl rfl) fun _ => rfl

theorem neutral_getU16 (b : BufRef) (base i : ℕ) : Neutral (getU16 b base i) := neutral_gets _

theorem neutral_putU16 (b : BufRef) (base i v : ℕ) : Neutral (putU16 b base i v) :=
  neutral_setData b _

theorem neutral_bwrite (b : BufRef) : Neutral (bwrite b) := by
  refine (neutral_gets _).bind fun dirty => ?_
  exact .ite (neutral_modify (fun _ => .of_io rfl rfl rfl) fun _ => rfl) (neutral_pure _)

theorem wp_addRef {Q : Unit → Fs → Prop} (h : Within m s₀ held bufs s)
    (hQ : ∀ s', Within m s₀ held (b :: bufs) s' → Q () s') :
    wp (fun _ => True) (addRef b 1) Q s := by
  unfold addRef
  rw [wp_modify]
  refine hQ _ (h.quiet (.of_io rfl rfl rfl) fun c => ?_)
  rw [List.count_cons]
  change (if c = b then s.refs c + 1 else s.refs c) + _ = _
  by_cases hc : c = b
  · rw [if_pos hc, if_pos (by simp [hc])]
    push_cast
    omega
  · rw [if_neg hc, if_neg (by simpa using Ne.symm hc)]
    rfl

theorem wp_bread {Q : BufRef → Fs → Prop} {dev : ℤ} {block : ℕ} (h : Within m s₀ held bufs s)
    (hQ : ∀ s', Within m s₀ held (⟨dev, block⟩ :: bufs) s' → Q ⟨dev, block⟩ s') :
    wp (fun _ => True) (bread dev block) Q s := by
  unfold bread
  rw [wp_bind]
  exact wp_addRef h fun s' h' => (wp_pure _).mpr (hQ s' h')

theorem wp_brelse {Q : Unit → Fs → Prop} (h : Within m s₀ held (b :: bufs) s)
    (hQ : ∀ s', Within m s₀ held bufs s' → Q () s') :
    wp (fun _ => True) (brelse (some b)) Q s := by
  unfold brelse addRef
  rw [wp_bind]
  refine (neutral_bwrite b).wp h fun _ s₁ h₁ => ?_
  rw [wp_bind, wp_modify, wp_bind, wp_gets, wp_check]
  refine fun _ => hQ _ (h₁.quiet (.of_io rfl rfl rfl) fun c => ?_)
  rw [List.count_cons]
  change (if c = b then s₁.refs c + -1 else s₁.refs c) + _ = _
  by_cases hc : c = b
  · rw [if_pos hc, if_pos (by simp [hc])]
    push_cast
    omega
  · rw [if_neg hc, if_neg (by simpa using Ne.symm hc)]
    rfl

/-- `brelse` of a buffer that may be missing. -/
theorem wp_brelse_option {Q : Unit → Fs → Prop} {o : Option BufRef}
    (h : Within m s₀ held (o.toList ++ bufs) s) (hQ : ∀ s', Within m s₀ held bufs s' → Q () s') :
    wp (fun _ => True) (brelse o) Q s := by
  cases o with
  | none => exact (wp_pure ()).mpr (hQ s h)
  | some b => exact wp_brelse h hQ

/-! ## Descriptors and super blocks -/

theorem neutral_theSuper (dev : ℤ) : Neutral (theSuper dev) := by
  refine (neutral_gets _).bind fun o => ?_
  cases o with
  | none => exact neutral_fault _
  | some sb => exact neutral_pure sb

theorem neutral_getField (i : ℕ) (f : Field) : Neutral (getField i f) := neutral_gets _

theorem neutral_setField (i : ℕ) (f : Field) (v : ℕ) : Neutral (setField i f v) :=
  neutral_modify (fun _ => .of_io rfl rfl rfl) fun _ => rfl

theorem neutral_dirtyInode (i : ℕ) : Neutral (dirtyInode i) :=
  (neutral_gets _).bind fun b => neutral_setDirty b

/-- A change of the times or the descriptor of a slot. -/
theorem neutral_modifyInode {i : ℕ} {f : Inode → Inode} (hcount : ∀ v, (f v).count = v.count)
    (hlabel : ∀ v, label (f v) = label v) : Neutral (modifyInode i f) := by
  refine neutral_modify (fun s => ⟨fun j => ?_, fun j => ?_, rfl, rfl, rfl⟩) fun _ => rfl
  · change (if j = i then f (s.inodes i) else s.inodes j).count = _
    split
    · rename_i hj
      rw [hcount, hj]
    · rfl
  · change label (if j = i then f (s.inodes i) else s.inodes j) = _
    split
    · rename_i hj
      rw [hlabel, hj]
    · rfl

theorem neutral_setAtime (i : ℕ) : Neutral (setAtime i) :=
  (neutral_gets _).bind fun _ => neutral_modifyInode (fun _ => rfl) fun _ => rfl

theorem neutral_setCtime (i t : ℕ) : Neutral (setCtime i t) :=
  neutral_modifyInode (fun _ => rfl) fun _ => rfl

theorem neutral_permission (i mask : ℕ) : Neutral (permission i mask) := by
  refine (neutral_getField _ _).bind fun mode => (neutral_getField _ _).bind fun nlinks => ?_
  refine .ite (neutral_pure _) ((neutral_gets _).bind fun task => ?_)
  refine .ite (neutral_pure _) ((neutral_getField _ _).bind fun uid => ?_)
  exact (neutral_getField _ _).bind fun gid => neutral_pure _

theorem neutral_noteInode (i : ℕ) : Neutral (noteInode i) :=
  (neutral_getField _ _).bind fun _ => (neutral_gets _).bind fun _ => neutral_note _

/-! ## Allocation -/

theorem neutral_allocLoop (maps : ℕ → Option BufRef) (length : ℕ) (offset : ℕ → ℕ) (zones : ℕ)
    (n i : ℕ) (last : BufRef) : Neutral (allocLoop maps length offset zones n i last) := by
  induction n generalizing i last with
  | zero => exact neutral_pure _
  | succ n ih =>
      unfold allocLoop
      cases maps i with
      | none => exact neutral_fault _
      | some buf =>
          refine neutral_get.bind fun s => (neutral_lift _).bind fun found => ?_
          refine .ite ?_ (ih (i + 1) buf)
          refine (neutral_setData _ _).bind fun _ => (neutral_check _).bind fun _ => ?_
          exact (neutral_setDirty buf).bind fun _ => neutral_pure _

theorem neutral_balloc (dev : ℤ) : Neutral (balloc dev) := by
  refine (neutral_theSuper dev).bind fun sb => (neutral_gets _).bind fun d => ?_
  refine (neutral_gets _).bind fun maps => (neutral_allocLoop _ _ _ _ _ _ _).bind fun found => ?_
  refine .ite ((neutral_note _).bind fun _ => ?_) ?_
  · exact (neutral_bwrite _).bind fun _ => neutral_pure _
  · exact (neutral_bwrite _).bind fun _ => neutral_pure _

theorem neutral_ialloc (dev : ℤ) : Neutral (ialloc dev) := by
  refine (neutral_theSuper dev).bind fun sb => (neutral_gets _).bind fun d => ?_
  refine (neutral_gets _).bind fun maps => (neutral_allocLoop _ _ _ _ _ _ _).bind fun found => ?_
  refine .ite ((neutral_note _).bind fun _ => ?_) ?_
  · exact (neutral_bwrite _).bind fun _ => neutral_pure _
  · exact (neutral_bwrite _).bind fun _ => neutral_pure _

theorem neutral_freeLoop (maps : ℕ → Option BufRef) (length : ℕ) (offset : ℕ → ℕ)
    (idx n i : ℕ) : Neutral (freeLoop maps length offset idx n i) := by
  induction n generalizing i with
  | zero => exact neutral_fault _
  | succ n ih =>
      unfold freeLoop
      refine .ite (ih (i + 1)) ?_
      cases maps i with
      | none => exact neutral_fault _
      | some buf =>
          refine (neutral_gets _).bind fun map => (neutral_lift _).bind fun set => ?_
          refine (neutral_check _).bind fun _ => (neutral_lift _).bind fun map => ?_
          refine (neutral_setData _ _).bind fun _ => (neutral_setDirty buf).bind fun _ => ?_
          exact neutral_bwrite buf

theorem neutral_bfree (dev : ℤ) (idx : ℕ) : Neutral (bfree dev idx) := by
  refine (neutral_theSuper dev).bind fun sb => (neutral_gets _).bind fun d => ?_
  refine (neutral_check _).bind fun _ => (neutral_gets _).bind fun maps => ?_
  exact neutral_freeLoop _ _ _ _ _ _

theorem neutral_ifree (dev : ℤ) (idx : ℕ) : Neutral (ifree dev idx) := by
  refine (neutral_theSuper dev).bind fun sb => (neutral_gets _).bind fun d => ?_
  refine (neutral_check _).bind fun _ => (neutral_gets _).bind fun maps => ?_
  exact neutral_freeLoop _ _ _ _ _ _

/-! ## Block mapping -/

theorem wp_arrayZone {dev : ℤ} {create : Bool} {level base index : ℕ}
    (h : Within m s₀ held (b :: bufs) s) :
    wp (fun _ => True) (arrayZone dev create level b base index)
      (fun _ s' => Within m s₀ held bufs s') s := by
  have hrest : ∀ s₁, Within m s₀ held (b :: bufs) s₁ →
      wp (fun _ => True) (do brelse (some b); getU16 b base index)
        (fun _ s' => Within m s₀ held bufs s') s₁ := by
    intro s₁ h₁
    rw [wp_bind]
    exact wp_brelse h₁ fun s₂ h₂ => neutral_getU16 b base index _ _ _ _ _ h₂
  have hstore : ∀ zone s₁, Within m s₀ held (b :: bufs) s₁ →
      wp (fun _ => True)
        (do putU16 b base index zone; setDirty b; brelse (some b); getU16 b base index)
        (fun _ s' => Within m s₀ held bufs s') s₁ := by
    intro zone s₁ h₁
    rw [wp_bind]
    refine (neutral_putU16 b base index zone).wp h₁ fun _ s₂ h₂ => ?_
    rw [wp_bind]
    exact (neutral_setDirty b).wp h₂ fun _ s₃ h₃ => hrest s₃ h₃
  unfold arrayZone
  rw [wp_bind]
  refine (neutral_getU16 b base index).wp h fun zone s₁ h₁ => ?_
  rw [wp_ite]
  refine ⟨fun _ => ?_, fun _ => hrest s₁ h₁⟩
  rw [wp_bind]
  refine (neutral_balloc dev).wp h₁ fun zone s₂ h₂ => ?_
  rw [wp_ite]
  refine ⟨fun _ => ?_, fun _ => hstore zone s₂ h₂⟩
  rw [wp_bind, wp_gets, wp_bind]
  exact (neutral_note _).wp h₂ fun _ s₃ h₃ => hstore zone s₃ h₃

/-- `reckon` releases the buffer it is given. -/
theorem wp_reckon {dev : ℤ} {create : Bool} {level base index block divider : ℕ}
    (h : Within m s₀ held (b :: bufs) s) :
    wp (fun _ => True) (reckon dev create level b base index block divider)
      (fun _ s' => Within m s₀ held bufs s') s := by
  induction level generalizing b base index block divider s with
  | zero => exact wp_arrayZone h
  | succ level ih =>
      unfold reckon
      rw [wp_bind]
      refine wp_mono (wp_arrayZone h) fun zone s₁ h₁ => ?_
      rw [wp_ite]
      refine ⟨fun _ => (wp_pure zone).mpr h₁, fun _ => ?_⟩
      rw [wp_bind]
      exact wp_bread h₁ fun s₂ h₂ => ih h₂

theorem neutral_bmap (i block : ℕ) (create : Bool) : Neutral (bmap i block create) := by
  refine (neutral_check _).bind fun _ => (neutral_gets _).bind fun inode => ?_
  intro m s₀ held bufs s h
  rw [wp_bind]
  refine wp_addRef h fun s₁ h₁ => ?_
  simp only [wp_ite, wp_bind, wp_check]
  exact ⟨fun _ => wp_reckon h₁, fun _ => ⟨fun _ => wp_reckon h₁, fun _ _ => wp_reckon h₁⟩⟩

theorem neutral_forUpTo {f : ℕ → K Unit} (hf : ∀ i, Neutral (f i)) (n : ℕ) :
    Neutral (forUpTo f n) := by
  induction n with
  | zero => exact neutral_pure ()
  | succ n ih => exact ih.bind fun _ => hf n

theorem neutral_inodeBfree (dev : ℤ) (level : ℕ) (b : BufRef) (base index : ℕ) :
    Neutral (inodeBfree dev level b base index) := by
  induction level generalizing b base index with
  | zero =>
      unfold inodeBfree
      refine (neutral_getU16 b base index).bind fun zone => ?_
      exact .ite (neutral_pure _) (neutral_bfree dev zone)
  | succ level ih =>
      unfold inodeBfree
      refine (neutral_getU16 b base index).bind fun zone => .ite (neutral_pure _) ?_
      intro m s₀ held bufs s h
      rw [wp_bind]
      refine wp_bread h fun s₁ h₁ => ?_
      rw [wp_bind]
      refine (neutral_forUpTo (fun j => ih ⟨dev, zone⟩ 0 j) BLOCK_INDEXES).wp h₁ fun _ s₂ h₂ => ?_
      rw [wp_bind]
      refine wp_brelse h₂ fun s₃ h₃ => ?_
      rw [wp_bind]
      exact (neutral_getU16 b base index).wp h₃ fun zone s₄ h₄ =>
        neutral_bfree dev zone _ _ _ _ _ h₄

theorem neutral_inodeTruncate (i : ℕ) : Neutral (inodeTruncate i) := by
  have hdrop : ∀ level index, Neutral (dropZone i level index) := fun level index =>
    (neutral_gets _).bind fun inode => (neutral_inodeBfree _ _ _ _ _).bind fun _ =>
      neutral_setField _ _ _
  refine (neutral_getField i _).bind fun mode => .ite (neutral_pure _) ?_
  refine (neutral_forUpTo (fun z => hdrop 0 z) DIRECT_BLOCK).bind fun _ => ?_
  refine (hdrop 1 _).bind fun _ => (hdrop 2 _).bind fun _ => ?_
  refine (neutral_setField i _ _).bind fun _ => (neutral_dirtyInode i).bind fun _ => ?_
  refine (neutral_gets _).bind fun now => (neutral_setField i _ _).bind fun _ => ?_
  exact (neutral_gets _).bind fun b => neutral_bwrite b

end Ylos.Refs
