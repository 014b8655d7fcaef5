import Ylos.Lib.Keeps
import Ylos.Model.Fs.File
import Ylos.Verification.Path.Chdir

/-! # What `inode_open` checks -/

namespace Ylos.Paths

open Exec Dir

variable {α : Type} {R : Fs → Fs → Prop} {s s' s'' : Fs} {path name : Path} {flags mode i : ℕ}

/-! ## References come and go -/

/-- `R` does not look at references to buffers and inodes, and at what is on the devices. -/
structure Lax (R : Fs → Fs → Prop) : Prop where
  refs : ∀ s f, R s { s with refs := f }
  disk : ∀ s f g, R s { s with disk := f, dirty := g }
  inode : ∀ s i (v : Inode), v.buf = (s.inodes i).buf → v.slot = (s.inodes i).slot →
    R s (s.setInode i v)
  list : ∀ s (f : ℕ → List ℕ),
    R s { s with supers := fun k => { s.supers k with inodeList := f k } }

section

variable [IsPreorder Fs R]

theorem tacit_theSuper (dev : ℤ) : Tacit R (theSuper dev) := by
  refine (tacit_gets _).bind fun o => ?_
  cases o with
  | none => exact tacit_fault _
  | some sb => exact tacit_pure sb

omit [IsPreorder Fs R] in
theorem Lax.tacit_addRef (h : Lax R) (b : BufRef) (n : ℤ) : Tacit R (addRef b n) :=
  tacit_modify fun s => h.refs s _

theorem Lax.tacit_bread (h : Lax R) (dev : ℤ) (block : ℕ) : Tacit R (bread dev block) :=
  (h.tacit_addRef _ _).bind fun _ => tacit_pure _

theorem Lax.tacit_bwrite (h : Lax R) (b : BufRef) : Tacit R (bwrite b) :=
  (tacit_gets _).bind fun _ => .ite (tacit_modify fun s => h.disk s _ _) (tacit_pure _)

theorem Lax.tacit_brelse (h : Lax R) (o : Option BufRef) : Tacit R (brelse o) := by
  cases o with
  | none => exact tacit_pure _
  | some b =>
      exact (h.tacit_bwrite b).bind fun _ => (h.tacit_addRef b _).bind fun _ =>
        (tacit_gets _).bind fun _ => tacit_check _

omit [IsPreorder Fs R] in
theorem Lax.tacit_incCount (h : Lax R) (i : ℕ) : Tacit R (incCount i) :=
  tacit_modify fun s => h.inode s i _ rfl rfl

omit [IsPreorder Fs R] in
theorem Lax.tacit_decCount (h : Lax R) (i : ℕ) : Tacit R (decCount i) :=
  tacit_modify fun s => h.inode s i _ rfl rfl

theorem Lax.tacit_setAtime (h : Lax R) (i : ℕ) : Tacit R (setAtime i) :=
  (tacit_gets _).bind fun _ => tacit_modify fun s => h.inode s i _ rfl rfl

theorem Lax.tacit_putFreeInode (h : Lax R) (i : ℕ) : Tacit R (putFreeInode i) :=
  (tacit_check _).bind fun _ => (tacit_gets _).bind fun _ => (tacit_check _).bind fun _ =>
    tacit_modify fun s => h.inode s i _ rfl rfl

theorem Lax.tacit_unlinkInode (h : Lax R) (i : ℕ) : Tacit R (unlinkInode i) :=
  (tacit_gets _).bind fun _ => (tacit_check _).bind fun _ => tacit_modify fun s => h.list s _

theorem Lax.tacit_putPipeInode (h : Lax R) (i : ℕ) : Tacit R (putPipeInode i) :=
  (h.tacit_decCount i).bind fun _ => (tacit_gets _).bind fun _ => .ite (tacit_pure _)
    ((tacit_modify fun s => h.inode s i { s.inodes i with pipe := false } rfl rfl).bind fun _ =>
      h.tacit_putFreeInode i)

theorem Lax.tacit_iput (h : Lax R) (o : Option ℕ) : Tacit R (iput o) := by
  cases o with
  | none => exact tacit_pure _
  | some i =>
      refine (tacit_gets _).bind fun _ => .ite (h.tacit_putPipeInode i) ?_
      refine (tacit_gets _).bind fun inode => (tacit_gets _).bind fun _ => ?_
      have hrest : Tacit R (do
          decCount i
          if (← gets (·.inodes i)).count ≠ 0 then return
          brelse (some inode.buf)
          unlinkInode i
          putFreeInode i) :=
        (h.tacit_decCount i).bind fun _ => (tacit_gets _).bind fun _ => .ite (tacit_pure _)
          ((h.tacit_brelse _).bind fun _ => (h.tacit_unlinkInode i).bind fun _ =>
            h.tacit_putFreeInode i)
      exact .ite ((h.tacit_bwrite _).bind fun _ => hrest) hrest

end

/-! ## Looking up writes to no buffer -/

/-- The buffers and the task are as before. -/
structure Unwritten (s s' : Fs) : Prop where
  img : s'.img = s.img
  task : s'.task = s.task

instance : IsPreorder Fs Unwritten where
  refl _ := ⟨rfl, rfl⟩
  trans _ _ _ h h' := ⟨h'.img.trans h.img, h'.task.trans h.task⟩

theorem lax_unwritten : Lax Unwritten where
  refs _ _ := ⟨rfl, rfl⟩
  disk _ _ _ := ⟨rfl, rfl⟩
  inode _ _ _ _ _ := ⟨rfl, rfl⟩
  list _ _ := ⟨rfl, rfl⟩

theorem unwritten_modifyInode (i : ℕ) (f : Inode → Inode) : Tacit Unwritten (modifyInode i f) :=
  tacit_modify fun _ => ⟨rfl, rfl⟩

theorem unwritten_fitInode (i : ℕ) : Tacit Unwritten (fitInode i) := by
  refine (tacit_gets _).bind fun inode => .ite (tacit_pure _) ?_
  exact (tacit_theSuper _).bind fun super => (lax_unwritten.tacit_iput _).bind fun _ =>
    (tacit_gets _).bind fun _ => (tacit_deref _).bind fun root =>
      (lax_unwritten.tacit_incCount root).bind fun _ => tacit_pure _

theorem unwritten_getFreeInode : Tacit Unwritten getFreeInode := by
  refine (tacit_gets _).bind fun o => ?_
  cases o with
  | none => exact tacit_fault _
  | some i => exact tacit_pure i

theorem unwritten_iget (dev : ℤ) (nr : ℕ) : Tacit Unwritten (iget dev nr) := by
  have hfind : Tacit Unwritten (findInode dev nr) :=
    (tacit_theSuper _).bind fun _ => tacit_gets _
  refine hfind.bind fun o => ?_
  cases o with
  | some i =>
      exact (lax_unwritten.tacit_incCount i).bind fun _ => (lax_unwritten.tacit_setAtime i).bind fun _ =>
        unwritten_fitInode i
  | none =>
      refine (tacit_theSuper dev).bind fun sb => (tacit_gets _).bind fun d =>
        (tacit_check _).bind fun _ => unwritten_getFreeInode.bind fun i => ?_
      refine (unwritten_modifyInode i _).bind fun _ => Tacit.bind ?_ fun _ => ?_
      · exact tacit_modify fun _ => ⟨rfl, rfl⟩
      · exact (lax_unwritten.tacit_bread _ _).bind fun _ => (unwritten_modifyInode i _).bind fun _ =>
          (tacit_gets _).bind fun _ => (unwritten_modifyInode i _).bind fun _ =>
            (lax_unwritten.tacit_setAtime i).bind fun _ => tacit_pure _

theorem unwritten_arrayZone (dev : ℤ) (level : ℕ) (b : BufRef) (base index : ℕ) :
    Tacit Unwritten (arrayZone dev false level b base index) := by
  refine (tacit_gets _).bind fun zone => ?_
  rw [if_neg (by simp)]
  exact (lax_unwritten.tacit_brelse _).bind fun _ => tacit_gets _

theorem unwritten_reckon (dev : ℤ) (level : ℕ) (b : BufRef) (base index block divider : ℕ) :
    Tacit Unwritten (reckon dev false level b base index block divider) := by
  induction level generalizing b base index block divider with
  | zero => exact unwritten_arrayZone dev 0 b base index
  | succ level ih =>
      exact (unwritten_arrayZone dev _ b base index).bind fun zone => .ite (tacit_pure _)
        ((lax_unwritten.tacit_bread _ _).bind fun _ => ih _ _ _ _ _)

theorem unwritten_bmap (i block : ℕ) : Tacit Unwritten (bmap i block false) := by
  refine (tacit_check _).bind fun _ => (tacit_gets _).bind fun inode =>
    (lax_unwritten.tacit_addRef _ _).bind fun _ => .ite (unwritten_reckon _ _ _ _ _ _ _) ?_
  exact .ite (unwritten_reckon _ _ _ _ _ _ _)
    ((tacit_check _).bind fun _ => unwritten_reckon _ _ _ _ _ _ _)

theorem unwritten_entryBlock (dir i : ℕ) (buf : Option BufRef) (off : ℕ) :
    Tacit Unwritten (entryBlock dir i false buf off) := by
  have hread : Tacit Unwritten (do
      let block ← bmap dir (i / BLOCK_DENTRIES) false
      check (block ≠ 0)
      return (← bread (← gets (·.inodes dir)).dev block, 0)) :=
    (unwritten_bmap _ _).bind fun _ => (tacit_check _).bind fun _ => (tacit_gets _).bind fun _ =>
      (lax_unwritten.tacit_bread _ _).bind fun _ => tacit_pure _
  cases buf with
  | none => exact hread
  | some b => exact .ite (tacit_pure _) ((lax_unwritten.tacit_brelse _).bind fun _ => hread)

theorem unwritten_matchLoop {rhs : ℕ → K UInt8} (hrhs : ∀ k, Tacit Unwritten (rhs k))
    (lhs : Path) (k : ℕ) : Tacit Unwritten (matchLoop rhs lhs k) := by
  induction lhs generalizing k with
  | nil => exact (hrhs k).bind fun _ => tacit_pure _
  | cons c lhs ih => exact (hrhs k).bind fun r => .ite (ih _) (tacit_pure _)

theorem unwritten_matchName {rhs : ℕ → K UInt8} (hrhs : ∀ k, Tacit Unwritten (rhs k))
    (name : Path) : Tacit Unwritten (matchName name rhs) :=
  (unwritten_matchLoop hrhs name 0).bind fun ⟨_, k⟩ => (hrhs k).bind fun _ =>
    .ite (tacit_pure _) (.ite (tacit_pure _) (tacit_pure _))

theorem unwritten_nameByte (b : BufRef) (off k : ℕ) : Tacit Unwritten (nameByte b off k) :=
  .ite (tacit_gets _) (tacit_fault _)

theorem unwritten_findLoop (dir : ℕ) (name : Path) (n i : ℕ) (buf : Option BufRef) (off : ℕ) :
    Tacit Unwritten (findLoop dir name n i buf off) := by
  induction n generalizing i buf off with
  | zero => exact (lax_unwritten.tacit_brelse buf).bind fun _ => tacit_pure _
  | succ n ih =>
      refine (unwritten_entryBlock dir i buf off).bind fun ⟨b, k⟩ => ?_
      have htest : Tacit Unwritten (findLoop.test name b k) := by
        refine (unwritten_matchName (unwritten_nameByte b k) name).bind fun o => ?_
        cases o with
        | none => exact tacit_pure _
        | some next => exact (tacit_gets _).bind fun _ => .ite (tacit_pure _) (tacit_pure _)
      refine htest.bind fun o => ?_
      cases o with
      | none => exact ih _ _ _
      | some next => exact tacit_pure _

theorem unwritten_findEntry (dir : ℕ) (name : Path) : Tacit Unwritten (findEntry dir name) := by
  have hdots : Tacit Unwritten (matchName name dotDot) :=
    unwritten_matchName (fun _ => tacit_pure _) name
  have hsearch : ∀ dir, Tacit Unwritten (do
      let entries := (← getField dir .size) / DENTRY_SIZE
      return (dir, ← findLoop dir name entries 0 none 0)) := fun dir =>
    (tacit_gets _).bind fun _ => (unwritten_findLoop dir name _ _ _ _).bind fun _ => tacit_pure _
  refine (tacit_gets _).bind fun _ => (tacit_check _).bind fun _ => hdots.bind fun up =>
    (tacit_gets _).bind fun _ => .ite ?_ ((tacit_pure _).bind hsearch)
  exact (tacit_gets _).bind fun _ => (tacit_theSuper _).bind fun _ => (tacit_gets _).bind fun _ =>
    (tacit_deref _).bind fun mount => (lax_unwritten.tacit_incCount mount).bind fun _ =>
      (lax_unwritten.tacit_iput _).bind fun _ => (tacit_pure _).bind hsearch

theorem unwritten_permission (i mask : ℕ) : Tacit Unwritten (permission i mask) := by
  refine (tacit_gets _).bind fun _ => (tacit_gets _).bind fun _ => .ite (tacit_pure _) ?_
  exact (tacit_gets _).bind fun _ => .ite (tacit_pure _)
    ((tacit_gets _).bind fun _ => (tacit_gets _).bind fun _ => tacit_pure _)

theorem unwritten_namedLoop (right : Path) (fuel i : ℕ) (left : Path) (buf : Option BufRef) :
    Tacit Unwritten (namedLoop right fuel i left buf) := by
  induction fuel generalizing i left buf with
  | zero => exact tacit_fault _
  | succ fuel ih =>
      refine (lax_unwritten.tacit_brelse buf).bind fun _ =>
        (unwritten_findEntry i left).bind fun ⟨i, found⟩ => ?_
      cases found with
      | none => exact (lax_unwritten.tacit_iput _).bind fun _ => tacit_pure _
      | some e =>
          refine (tacit_gets _).bind fun _ => (lax_unwritten.tacit_iput _).bind fun _ =>
            (tacit_gets _).bind fun _ => (unwritten_iget _ _).bind fun i =>
              (tacit_gets _).bind fun _ => (unwritten_permission i _).bind fun _ => .ite ?_ ?_
          · exact (lax_unwritten.tacit_brelse _).bind fun _ =>
              (lax_unwritten.tacit_iput _).bind fun _ => tacit_pure _
          · exact .ite ((lax_unwritten.tacit_brelse _).bind fun _ => tacit_pure _) (ih _ _ _)

theorem unwritten_named (path : Path) : Tacit Unwritten (named path) := by
  refine (tacit_gets _).bind fun task => ?_
  cases path with
  | nil => exact tacit_pure _
  | cons c rest =>
      have hbegin : ∀ p : ℕ × Path, Tacit Unwritten (namedFrom p.1 p.2) := by
        intro p
        unfold namedFrom
        refine (lax_unwritten.tacit_incCount _).bind fun _ => .ite (tacit_pure _) ?_
        cases strrsep p.2 with
        | none => exact tacit_pure _
        | some right => exact unwritten_namedLoop _ _ _ _ _
      exact hbegin _

/-! ## The name that `named` leaves -/

/-- A separator is the last byte. -/
def endsInSeparator (path : Path) : Bool := (path.getLast?.map isSeparator).getD false

theorem endsInSeparator_cons {c d : UInt8} : endsInSeparator (c :: d :: path) =
    endsInSeparator (d :: path) := by
  unfold endsInSeparator
  rw [List.getLast?_cons_cons]

theorem endsInSeparator_eq_false (h : strrsep path = none) : endsInSeparator path = false := by
  unfold endsInSeparator
  cases hlast : path.getLast? with
  | none => rfl
  | some c => exact strrsep_eq_none.mp h c (List.mem_of_getLast? hlast)

theorem strrsep_tail {right : Path} (h : strrsep path = some right) :
    (right.tail = [] ↔ endsInSeparator path = true) := by
  induction path generalizing right with
  | nil => cases h
  | cons c path ih =>
      rw [strrsep_cons] at h
      cases hpath : strrsep path with
      | some q =>
          rw [hpath] at h
          cases h
          cases path with
          | nil => cases hpath
          | cons d path => rw [endsInSeparator_cons, ih hpath]
      | none =>
          rw [hpath] at h
          dsimp only at h
          split at h
          · rename_i hc
            cases h
            cases path with
            | nil => exact iff_of_true rfl hc
            | cons d path =>
                rw [endsInSeparator_cons, endsInSeparator_eq_false hpath]
                exact iff_of_false (List.cons_ne_nil d path) Bool.false_ne_true
          · cases h

/-- What `named` answers, about the path. -/
def Last (path : Path) (r : Option (ℕ × Path)) : Prop :=
  ∀ p ∈ r, p.2 ⊆ path ∧ (p.2 = [] ↔ endsInSeparator path = true)

variable {good : Event → Prop}

theorem wp_matchLoop {rhs : ℕ → K UInt8} {Q : Path × ℕ → Fs → Prop} {lhs : Path} {k : ℕ}
    (hQ : ∀ r s', r.1 ⊆ lhs → Q r s') : wp good (matchLoop rhs lhs k) Q s := by
  induction lhs generalizing k s with
  | nil =>
      unfold matchLoop
      exact wp_rest fun _ _ => (wp_pure _).mpr (hQ _ _ (List.Subset.refl _))
  | cons c lhs ih =>
      unfold matchLoop
      refine wp_rest fun r s' => (wp_ite _ _ _).mpr ⟨fun _ => ih fun r s'' hr => ?_, fun _ => ?_⟩
      · exact hQ r s'' (List.subset_cons_of_subset c hr)
      · exact (wp_pure _).mpr (hQ _ _ (List.Subset.refl _))

theorem wp_matchName {rhs : ℕ → K UInt8} {Q : Option Path → Fs → Prop}
    (hQ : ∀ o s', (∀ next ∈ o, next ⊆ name) → Q o s') : wp good (matchName name rhs) Q s := by
  unfold matchName
  rw [wp_bind]
  refine wp_matchLoop fun r s₁ hlhs => wp_rest fun _ s₂ => ?_
  have hnone : ∀ next ∈ (none : Option Path), next ⊆ name := by simp
  simp only [wp_ite, wp_pure]
  refine ⟨fun _ => hQ _ _ hnone, fun _ => ⟨fun _ => hQ _ _ hnone, fun _ => hQ _ _ ?_⟩⟩
  rintro next ⟨⟩
  split
  · exact List.Subset.trans (List.tail_subset r.1) hlhs
  · exact hlhs

/-- The path after the name of an entry that was found. -/
def Rest (name : Path) (found : Option Found) : Prop := ∀ e ∈ found, e.next ⊆ name

theorem wp_findLoop {Q : Option Found → Fs → Prop} {dir n off : ℕ} {buf : Option BufRef}
    (hQ : ∀ found s', Rest name found → Q found s') :
    wp good (findLoop dir name n i buf off) Q s := by
  induction n generalizing i buf off s with
  | zero =>
      unfold findLoop
      exact wp_rest fun _ _ => (wp_pure _).mpr (hQ _ _ (by simp [Rest]))
  | succ n ih =>
      unfold findLoop
      refine wp_rest fun r s₁ => ?_
      unfold findLoop.test
      rw [wp_bind, wp_bind]
      refine wp_matchName fun o s₂ ho => ?_
      cases o with
      | none => exact (wp_pure _).mpr ih
      | some next =>
          refine wp_rest fun nr s₃ => (wp_ite _ _ _).mpr ⟨fun _ => ?_, fun _ => ?_⟩
          · refine (wp_pure _).mpr ((wp_pure _).mpr (hQ _ _ ?_))
            rintro _ ⟨⟩
            exact ho next rfl
          · exact (wp_pure _).mpr ih

theorem wp_findEntry {Q : ℕ × Option Found → Fs → Prop} {dir : ℕ}
    (hQ : ∀ r s', Rest name r.2 → Q r s') : wp good (findEntry dir name) Q s := by
  have hsearch : ∀ dir s, wp good (do
      let entries := (← getField dir .size) / DENTRY_SIZE
      return (dir, ← findLoop dir name entries 0 none 0)) Q s := by
    refine fun dir s => wp_rest fun size s₁ => ?_
    rw [wp_bind]
    exact wp_findLoop fun found s' h => (wp_pure _).mpr (hQ _ _ h)
  unfold findEntry
  refine wp_rest fun _ _ => wp_rest fun _ _ => wp_rest fun up _ => wp_rest fun _ _ =>
    (wp_ite _ _ _).mpr ⟨fun _ => ?_, fun _ => wp_rest hsearch⟩
  exact wp_rest fun _ _ => wp_rest fun _ _ => wp_rest fun _ _ => wp_rest fun _ _ =>
    wp_rest fun _ _ => wp_rest fun _ _ => wp_rest hsearch

theorem wp_namedLoop {Q : Option (ℕ × Path) → Fs → Prop} {right left : Path} {fuel : ℕ}
    {buf : Option BufRef}
    (hQ : ∀ r s', (∀ p ∈ r, p.2 ⊆ left ∧ p.2.length = right.length) → Q r s') :
    wp good (namedLoop right fuel i left buf) Q s := by
  induction fuel generalizing i left buf s with
  | zero => exact wp_fault _
  | succ fuel ih =>
      unfold namedLoop
      refine wp_rest fun _ _ => ?_
      rw [wp_bind]
      have hnone : ∀ p ∈ (none : Option (ℕ × Path)), p.2 ⊆ left ∧ p.2.length = right.length := by
        simp
      refine wp_findEntry fun r s₁ hrest => ?_
      obtain ⟨dir, found⟩ := r
      cases found with
      | none => exact wp_rest fun _ _ => (wp_pure _).mpr (hQ _ _ hnone)
      | some e =>
          have hnext : e.next ⊆ left := hrest e rfl
          refine wp_rest fun _ _ => wp_rest fun _ _ => wp_rest fun _ _ => wp_rest fun _ _ =>
            wp_rest fun _ _ => wp_rest fun _ _ => (wp_ite _ _ _).mpr ⟨fun _ => ?_, fun _ => ?_⟩
          · exact wp_rest fun _ _ => wp_rest fun _ _ => (wp_pure _).mpr (hQ _ _ hnone)
          · refine (wp_ite _ _ _).mpr ⟨fun hend => ?_, fun _ => ih fun r s' hr => ?_⟩
            · refine wp_rest fun _ _ => (wp_pure _).mpr (hQ _ _ ?_)
              rintro _ ⟨⟩
              exact ⟨hnext, hend.symm⟩
            · exact hQ r s' fun p hp => ⟨List.Subset.trans (hr p hp).1 hnext, (hr p hp).2⟩

theorem wp_named {Q : Option (ℕ × Path) → Fs → Prop} (hpath : ∀ c ∈ path, c ≠ 0)
    (hQ : ∀ r s', Last path r → Q r s') : wp good (named path) Q s := by
  have hbegin : ∀ i left s, left ⊆ path → (left = [] → endsInSeparator path = true) →
      (left ≠ [] → endsInSeparator left = endsInSeparator path) →
      wp good (namedFrom i left) Q s := by
    intro i left s hsub hnil hends
    unfold namedFrom
    refine wp_rest fun _ _ => ?_
    cases left with
    | nil =>
        refine (wp_ite _ _ _).mpr ⟨fun _ => (wp_pure _).mpr (hQ _ _ ?_), fun hno => absurd rfl hno⟩
        rintro _ ⟨⟩
        exact ⟨hsub, iff_of_true rfl (hnil rfl)⟩
    | cons d left =>
        have hends := hends (List.cons_ne_nil d left)
        refine (wp_ite _ _ _).mpr ⟨fun hzero => ?_, fun _ => ?_⟩
        · exact absurd hzero (hpath d (hsub List.mem_cons_self))
        · cases hright : strrsep (d :: left) with
          | none =>
              refine (wp_pure _).mpr (hQ _ _ ?_)
              rintro _ ⟨⟩
              rw [← hends, endsInSeparator_eq_false hright]
              exact ⟨hsub, iff_of_false (List.cons_ne_nil d left) Bool.false_ne_true⟩
          | some right =>
              refine wp_namedLoop fun r s' hr => hQ r s' fun p hp => ?_
              obtain ⟨hleft, hlength⟩ := hr p hp
              refine ⟨List.Subset.trans hleft hsub, ?_⟩
              rw [← hends, ← strrsep_tail hright, ← List.length_eq_zero_iff, hlength,
                List.length_eq_zero_iff]
  unfold named
  refine wp_rest fun task s₁ => ?_
  cases path with
  | nil => exact (wp_pure _).mpr (hQ _ _ (by simp [Last]))
  | cons c rest =>
      by_cases hc : isSeparator c = true
      · simp only [hc, if_true]
        refine hbegin _ rest s₁ (List.subset_cons_self c rest) ?_ ?_
        · rintro rfl
          exact hc
        · intro hrest
          cases rest with
          | nil => exact absurd rfl hrest
          | cons d rest => exact endsInSeparator_cons.symm
      · simp only [hc, Bool.false_eq_true, if_false]
        exact hbegin _ _ s₁ (List.Subset.refl _) (fun h => absurd h (List.cons_ne_nil c rest))
          fun _ => rfl

/-! ## After the check -/

/-- No inode in core has a descriptor elsewhere than before. -/
def Seated (s s' : Fs) : Prop :=
  ∀ j, (s'.inodes j).buf = (s.inodes j).buf ∧ (s'.inodes j).slot = (s.inodes j).slot

instance : IsPreorder Fs Seated where
  refl _ _ := ⟨rfl, rfl⟩
  trans _ _ _ h h' j := ⟨(h' j).1.trans (h j).1, (h' j).2.trans (h j).2⟩

theorem Seated.of_inodes (h : s'.inodes = s.inodes) : Seated s s' := fun j => by
  rw [h]
  exact ⟨rfl, rfl⟩

theorem lax_seated : Lax Seated where
  refs _ _ := .of_inodes rfl
  disk _ _ _ := .of_inodes rfl
  inode s i v hbuf hslot j := by
    unfold Fs.setInode
    dsimp only
    split
    · rename_i hj
      rw [hj]
      exact ⟨hbuf, hslot⟩
    · exact ⟨rfl, rfl⟩
  list _ _ := .of_inodes rfl

theorem Seated.descOf (h : Seated s s') (s₀ : Fs) (i : ℕ) (f : Field) :
    descOf s₀ (siteAt s' i) f = descOf s₀ (siteAt s i) f := by
  unfold Dir.descOf siteAt
  rw [(h i).1, (h i).2]

theorem seated_setData (b : BufRef) (f : Bytes → Bytes) : Tacit Seated (setData b f) :=
  tacit_modify fun _ => .of_inodes rfl

theorem seated_setDirty (b : BufRef) : Tacit Seated (setDirty b) :=
  tacit_modify fun _ => .of_inodes rfl

theorem seated_setField (i : ℕ) (f : Field) (v : ℕ) : Tacit Seated (setField i f v) :=
  tacit_modify fun _ => .of_inodes rfl

theorem seated_freeLoop (maps : ℕ → Option BufRef) (length : ℕ) (offset : ℕ → ℕ)
    (idx n i : ℕ) : Tacit Seated (freeLoop maps length offset idx n i) := by
  induction n generalizing i with
  | zero => exact tacit_fault _
  | succ n ih =>
      unfold freeLoop
      refine .ite (ih (i + 1)) ?_
      cases maps i with
      | none => exact tacit_fault _
      | some buf =>
          refine (tacit_gets _).bind fun map => (tacit_lift _).bind fun set =>
            (tacit_check _).bind fun _ => (tacit_lift _).bind fun map => ?_
          exact (seated_setData buf _).bind fun _ => (seated_setDirty buf).bind fun _ =>
            lax_seated.tacit_bwrite buf

theorem seated_bfree (dev : ℤ) (idx : ℕ) : Tacit Seated (bfree dev idx) :=
  (tacit_theSuper dev).bind fun _ => (tacit_gets _).bind fun _ => (tacit_check _).bind fun _ =>
    (tacit_gets _).bind fun _ => seated_freeLoop _ _ _ idx _ _

theorem seated_forUpTo {f : ℕ → K Unit} (hf : ∀ i, Tacit Seated (f i)) (n : ℕ) :
    Tacit Seated (forUpTo f n) := by
  induction n with
  | zero => exact tacit_pure _
  | succ n ih => exact ih.bind fun _ => hf n

theorem seated_inodeBfree (dev : ℤ) (level : ℕ) (b : BufRef) (base index : ℕ) :
    Tacit Seated (inodeBfree dev level b base index) := by
  induction level generalizing b base index with
  | zero =>
      exact (tacit_gets _).bind fun zone => .ite (tacit_pure _) (seated_bfree dev zone)
  | succ level ih =>
      refine (tacit_gets _).bind fun zone => .ite (tacit_pure _) ?_
      exact (lax_seated.tacit_bread dev zone).bind fun table =>
        (seated_forUpTo (fun j => ih table 0 j) _).bind fun _ =>
          (lax_seated.tacit_brelse _).bind fun _ => (tacit_gets _).bind fun _ =>
            seated_bfree dev _

theorem seated_inodeTruncate (i : ℕ) : Tacit Seated (inodeTruncate i) := by
  have hdrop : ∀ level index, Tacit Seated (dropZone i level index) := fun level index =>
    (tacit_gets _).bind fun inode => (seated_inodeBfree inode.dev level inode.buf _ index).bind
      fun _ => seated_setField i _ 0
  refine (tacit_gets _).bind fun _ => .ite (tacit_pure _) ?_
  refine (seated_forUpTo (fun z => hdrop 0 z) _).bind fun _ => (hdrop _ _).bind fun _ =>
    (hdrop _ _).bind fun _ => (seated_setField i _ 0).bind fun _ => Tacit.bind ?_ fun _ => ?_
  · exact (tacit_gets _).bind fun _ => seated_setDirty _
  · exact (tacit_gets _).bind fun _ => (seated_setField i _ _).bind fun _ =>
      (tacit_gets _).bind fun _ => lax_seated.tacit_bwrite _

/-! ## The check -/

/-- The descriptor at `v` grants the access that `flags` asks for, and a directory is asked for
to be read only. -/
def Granted (s : Fs) (v : Site) (flags : ℕ) : Prop :=
  allowed s.task (accMode flags) (descOf s v .mode) (descOf s v .nlinks) (descOf s v .uid)
    (descOf s v .gid) = true ∧
  (isDir (descOf s v .mode) = true → flags &&& O_ACCMODE = O_RDONLY)

theorem Granted.congr (himg : s'.img = s.img) (htask : s'.task = s.task) (hseat : Seated s' s'')
    (h : Granted s' (siteAt s' i) flags) : Granted s (siteAt s'' i) flags := by
  unfold Granted at *
  simp only [hseat.descOf]
  simpa only [htask, descOf_congr himg] using h

/-- The flags that `inode_open` works with. -/
def truncFlags (flags : ℕ) : ℕ :=
  if flags &&& O_TRUNC ≠ 0 ∧ flags &&& O_ACCMODE = O_RDONLY then flags ||| O_RDWR else flags

theorem allowed_read {task : Task} {mode nlinks uid gid : ℕ}
    (h : allowed task 6 mode nlinks uid gid = true) : allowed task 4 mode nlinks uid gid = true := by
  unfold allowed at *
  have hbits : ∀ m : ℕ, m &&& 6 &&& 7 = 6 → m &&& 4 &&& 7 = 4 := by
    intro m hm
    have hsix : m &&& 4 &&& 7 = (m &&& 6 &&& 7) &&& 4 := by
      simp only [Nat.and_assoc]
      rfl
    rw [hsix, hm]
    rfl
  split_ifs at h ⊢ with hlinks huid howner hgroup
  all_goals first
    | rfl
    | exact decide_eq_true (hbits _ (of_decide_eq_true h))

/-- To truncate, more is asked for than the flags say. -/
theorem Granted.of_trunc {v : Site} (h : Granted s v (truncFlags flags)) : Granted s v flags := by
  unfold truncFlags at h
  split at h
  · rename_i hboth
    have hacc : (flags ||| O_RDWR) &&& O_ACCMODE = 2 := by
      rw [Nat.and_or_distrib_right, hboth.2]
      rfl
    have hmode : accMode flags = 4 := by
      unfold accMode
      rw [hboth.2]
      rfl
    refine ⟨?_, fun _ => hboth.2⟩
    have hallowed := h.1
    unfold accMode at hallowed
    rw [hacc] at hallowed
    rw [hmode]
    exact allowed_read hallowed
  · exact h

theorem wp_openMakeup {Q : Option ℕ → Fs → Prop} {dir : ℕ} {e : Found}
    (hnone : ∀ s', Q none s')
    (hsome : ∀ s', Granted s (siteAt s i) flags → Seated s s' → Q (some i) s') :
    wp good (openMakeup flags dir i e) Q s := by
  have hfail : ∀ s, wp good (openMakeup.openFail dir i e) Q s := fun s =>
    wp_rest fun _ _ => wp_rest fun _ _ => wp_rest fun _ s' => (wp_pure _).mpr (hnone s')
  have hrest : ∀ s₁, Seated s s₁ → Granted s (siteAt s i) flags → wp good (do
      brelse (some e.buf)
      iput (some dir)
      return some i) Q s₁ := by
    intro s₁ h₁ hgranted
    rw [wp_bind]
    refine (lax_seated.tacit_brelse _).wp fun _ s₂ h₂ => ?_
    rw [wp_bind]
    refine (lax_seated.tacit_iput _).wp fun _ s₃ h₃ => (wp_pure _).mpr ?_
    exact hsome s₃ hgranted (IsTrans.trans _ _ _ h₁ (IsTrans.trans _ _ _ h₂ h₃))
  unfold openMakeup
  rw [wp_bind]
  refine wp_of_run (run_permission i _) ((wp_ite _ _ _).mpr ⟨fun _ => hfail s, fun hallowed => ?_⟩)
  rw [wp_bind]
  refine (wp_gets _).mpr ((wp_ite _ _ _).mpr ⟨fun _ => hfail s, fun hdir => ?_⟩)
  have hgranted : Granted s (siteAt s i) flags := by
    refine ⟨?_, fun h => ?_⟩
    · change allowed s.task (accMode flags) (s.desc i .mode) (s.desc i .nlinks) (s.desc i .uid)
        (s.desc i .gid) = true
      simpa using hallowed
    by_contra hno
    exact hdir ⟨h, hno⟩
  rw [wp_bind]
  refine (lax_seated.tacit_setAtime i).wp fun _ s₁ h₁ => ?_
  refine (wp_ite _ _ _).mpr ⟨fun _ => ?_, fun _ => hrest s₁ h₁ hgranted⟩
  rw [wp_bind]
  exact (seated_inodeTruncate i).wp fun _ s₂ h₂ =>
    hrest s₂ (IsTrans.trans _ _ _ h₁ h₂) hgranted

/-- No inode is created. -/
def Existing (e : Event) : Prop := ∀ m zones, e ≠ .inode m zones

/-- A path that goes on after its last separator is checked. -/
theorem wp_inodeOpen (hpath : ∀ c ∈ path, c ≠ 0) (hend : endsInSeparator path = false) :
    wp Existing (inodeOpen path flags mode)
      (fun r s' => ∀ i ∈ r, Granted s (siteAt s' i) flags) s := by
  unfold inodeOpen
  rw [wp_bind]
  have hnamed : wp Existing (named path) (fun r s' => Last path r ∧ Unwritten s s') s :=
    wp_and (wp_named hpath fun r s' h => h) (wp_weaken ((unwritten_named path).keeps s))
  refine wp_mono hnamed fun r s₁ ⟨hlast, h₁⟩ => ?_
  cases r with
  | none => exact (wp_pure _).mpr nofun
  | some p =>
      obtain ⟨dir, name⟩ := p
      obtain ⟨hsub, hiff⟩ := hlast _ rfl
      have hne : chr name ≠ 0 := by
        cases name with
        | nil =>
            rw [hiff.mp rfl] at hend
            cases hend
        | cons c name => exact hpath c (hsub List.mem_cons_self)
      refine (wp_ite _ _ _).mpr ⟨fun hzero => absurd hzero hne, fun _ => ?_⟩
      dsimp only
      rw [← truncFlags, wp_bind]
      refine (unwritten_findEntry dir name).wp fun ⟨dir, found⟩ s₂ h₂ => ?_
      cases found with
      | some e =>
          rw [wp_bind]
          refine (wp_gets _).mpr ?_
          rw [wp_bind]
          refine (wp_gets _).mpr ?_
          rw [wp_bind]
          refine (unwritten_iget _ _).wp fun i s₃ h₃ => ?_
          refine wp_openMakeup (fun _ => nofun) fun s₄ hgranted hseat => ?_
          rintro _ ⟨⟩
          have hall := IsTrans.trans (r := Unwritten) _ _ _ h₁ (IsTrans.trans _ _ _ h₂ h₃)
          exact hgranted.of_trunc.congr hall.img hall.task hseat
      | none =>
          refine (wp_ite _ _ _).mpr ⟨fun _ => wp_rest fun _ _ => (wp_pure _).mpr nofun, fun _ => ?_⟩
          refine wp_rest fun _ _ => (wp_ite _ _ _).mpr ⟨fun _ => wp_rest fun _ _ =>
            (wp_pure _).mpr nofun, fun _ => ?_⟩
          -- here the inode is created
          have hnote : ∀ i s, wp Existing (noteInode i) (fun _ _ => False) s := by
            intro i s
            refine wp_rest fun mode s₁ => wp_rest fun zones s₂ => (wp_note _).mpr fun hold => ?_
            exact hold mode zones rfl
          refine wp_rest fun e _ => wp_rest fun _ _ => wp_rest fun _ _ => wp_rest fun _ _ =>
            wp_rest fun _ _ => wp_rest fun _ _ => wp_rest fun i _ => wp_rest fun _ _ =>
              wp_rest fun _ _ => ?_
          rw [wp_bind]
          exact wp_mono (hnote i _) fun _ _ => False.elim

/-- The inode that is open, if nothing was created. -/
def opened (path : Path) (flags mode : ℕ) (s : Fs) : Option (ℕ × Fs) :=
  match (inodeOpen path flags mode).run s with
  | .ok (some i, s', []) => some (i, s')
  | _ => none

end Ylos.Paths
