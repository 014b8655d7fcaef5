import Ylos.Verification.Mount.Calm
import Ylos.Verification.Path.Tree
import Mathlib.Logic.Function.Basic

/-! # The phases of `sys_mount`, `sys_umount` and `devmkfs`

While a super block is set up or given up, no ledger holds. A `Phase` compares the counts
with those at the start of the call, and says what the super blocks and the mount fields
are. -/

namespace Ylos.Mount

open Exec Refs

/-- What a slot of `super_table` says besides its list and its buffers. -/
structure Slot where
  dev : ℤ
  count : ℕ
  iroot : Option ℕ
  imount : Option ℕ
  deriving DecidableEq

def slotOf (v : SuperBlock) : Slot := ⟨v.dev, v.count, v.iroot, v.imount⟩

theorem slotOf_eq {v : SuperBlock} {slot : Slot} (hdev : v.dev = slot.dev)
    (hcount : v.count = slot.count) (hiroot : v.iroot = slot.iroot)
    (himount : v.imount = slot.imount) : slotOf v = slot := by
  unfold slotOf
  rw [hdev, hcount, hiroot, himount]

def slots (s : Fs) (k : ℕ) : Slot := slotOf (s.supers k)

def mounts (s : Fs) (i : ℕ) : ℤ := (s.inodes i).mount

/-- Inode `i` is the same in `s` and in `s'`, and on the same lists. -/
structure Stays (s s' : Fs) (i : ℕ) : Prop where
  dev : (s'.inodes i).dev = (s.inodes i).dev
  nr : (s'.inodes i).nr = (s.inodes i).nr
  lists : ∀ k, i ∈ (s'.supers k).inodeList ↔ i ∈ (s.supers k).inodeList

/-- What is in core in both states stays. -/
def Persist (s s' : Fs) : Prop :=
  ∀ i, (s.inodes i).count ≠ 0 → (s'.inodes i).count ≠ 0 → Stays s s' i

structure Phase (s₀ : Fs) (gained lost : List ℕ) (sb : ℕ → Slot) (mt : ℕ → ℤ) (s : Fs) :
    Prop where
  sound : Sound s
  pipe : ∀ i, (s.inodes i).pipe = false
  small : ∀ i, (s₀.inodes i).count < 2 ^ 31
  few : gained.length ≤ 8
  count : ∀ i, (s.inodes i).count + lost.count i = (s₀.inodes i).count + gained.count i
  persist : Persist s₀ s
  slots : ∀ k, slots s k = sb k
  mounts : ∀ i, mounts s i = mt i
  iroot : s.task.iroot = s₀.task.iroot
  ipwd : s.task.ipwd = s₀.task.ipwd

variable {α : Type} {s₀ s s' s'' : Fs} {gained lost : List ℕ} {sb : ℕ → Slot} {mt : ℕ → ℤ}
  {i k : ℕ}

theorem Stays.refl (s : Fs) (i : ℕ) : Stays s s i := ⟨rfl, rfl, fun _ => Iff.rfl⟩

theorem Stays.trans (h : Stays s s' i) (h' : Stays s' s'' i) : Stays s s'' i where
  dev := h'.dev.trans h.dev
  nr := h'.nr.trans h.nr
  lists k := (h'.lists k).trans (h.lists k)

theorem Persist.trans (h : Persist s s') (h' : Persist s' s'')
    (hlive : ∀ i, (s.inodes i).count ≠ 0 → (s''.inodes i).count ≠ 0 → (s'.inodes i).count ≠ 0) :
    Persist s s'' := fun i hi hi'' =>
  (h i hi (hlive i hi hi'')).trans (h' i (hlive i hi hi'') hi'')

theorem Calm.stays (h : Calm s s') (i : ℕ) : Stays s s' i where
  dev := congrArg (·.1) (h.label i)
  nr := congrArg (·.2.1) (h.label i)
  lists k := by rw [h.list]

theorem stays_of_label (hlabel : label (s'.inodes i) = label (s.inodes i))
    (hlists : ∀ k, i ∈ (s'.supers k).inodeList ↔ i ∈ (s.supers k).inodeList) : Stays s s' i :=
  ⟨congrArg (·.1) hlabel, congrArg (·.2.1) hlabel, hlists⟩

/-! ## Phases -/

/-- A ledger is a phase in which no super block has changed. -/
theorem Phase.of_ledger (h : Ledger s₀ gained [] s) (hpipe : ∀ i, (s₀.inodes i).pipe = false) :
    Phase s₀ gained [] (Mount.slots s₀) (Mount.mounts s₀) s where
  sound := h.sound
  pipe i := by
    by_cases hi₀ : (s₀.inodes i).count = 0
    · by_cases hi : (s.inodes i).count = 0
      · exact (h.sound.free i hi).2
      · have hcount := h.count i
        exact h.core i (List.count_pos_iff.mp (by omega))
    · exact (congrArg (·.2.2.2.2) (h.ident i hi₀)).trans (hpipe i)
  small := h.start.few
  few := h.few
  count i := by simpa using h.count i
  persist i hi₀ hi := stays_of_label (h.ident i hi₀) fun k => h.listing.lists k i hi₀ hi
  slots k := by
    have hmounting := h.mounting k
    exact Slot.mk.injEq .. ▸ ⟨congrArg (·.1) hmounting, h.listing.supers k,
      congrArg (·.2.1) hmounting, congrArg (·.2.2) hmounting⟩
  mounts i := by
    by_cases hi₀ : (s₀.inodes i).count = 0
    · exact (h.new i hi₀).trans (h.start.free i hi₀).symm
    · exact congrArg (·.2.2.1) (h.ident i hi₀)
  iroot := h.iroot
  ipwd := h.ipwd

namespace Phase

variable (h : Phase s₀ gained lost sb mt s)

include h

theorem lt (i : ℕ) : (s.inodes i).count + 8 < 2 ^ 32 := by
  have hcount := h.count i
  have hsmall := h.small i
  have hle := (List.count_le_length (a := i) (l := gained)).trans h.few
  omega

theorem inCore (hi : (s.inodes i).count ≠ 0) : InCore s i := ⟨hi, h.pipe i⟩

theorem superOf (dev : ℤ) (h₀ : ∀ k, (sb k).dev = (Mount.slots s₀ k).dev) :
    Paths.superOf s dev = Paths.superOf s₀ dev := by
  have hdev : ∀ k, (s.supers k).dev = (s₀.supers k).dev := fun k =>
    (congrArg Slot.dev (h.slots k)).trans (h₀ k)
  unfold Paths.superOf
  simp only [hdev]

theorem calm (hcalm : Calm s s') : Phase s₀ gained lost sb mt s' where
  sound := hcalm.sound h.sound
  pipe i := (congrArg (·.2.2.2.2) (hcalm.label i)).trans (h.pipe i)
  small := h.small
  few := h.few
  count i := by rw [hcalm.count, h.count]
  persist i hi₀ hi := (h.persist i hi₀ (hcalm.count i ▸ hi)).trans (hcalm.stays i)
  slots k := by
    rw [← h.slots k]
    have hentry := hcalm.entry k
    exact Slot.mk.injEq .. ▸ ⟨congrArg (·.1) hentry, congrArg (·.2.1) hentry,
      congrArg (·.2.2.2.1) hentry, congrArg (·.2.2.2.2) hentry⟩
  mounts i := (congrArg (·.2.2.1) (hcalm.label i)).trans (h.mounts i)
  iroot := by rw [hcalm.task, h.iroot]
  ipwd := by rw [hcalm.task, h.ipwd]

theorem wp_calm {Q : α → Fs → Prop} {x : K α} (hx : Calms x)
    (hQ : ∀ a s', Phase s₀ gained lost sb mt s' → (∀ i, Stays s s' i) → Q a s') :
    wp (fun _ => True) x Q s :=
  hx.wp fun a s' hcalm => hQ a s' (h.calm hcalm) hcalm.stays

/-- The task moves. -/
theorem retask {τ₀ τ : Task} (hroot : τ.iroot = τ₀.iroot) (hpwd : τ.ipwd = τ₀.ipwd) :
    Phase { s₀ with task := τ₀ } gained lost sb mt { s with task := τ } where
  sound := ⟨h.sound.slot, h.sound.free, h.sound.used, h.sound.nodup, h.sound.listed⟩
  pipe := h.pipe
  small := h.small
  few := h.few
  count := h.count
  persist i hi₀ hi := ⟨(h.persist i hi₀ hi).dev, (h.persist i hi₀ hi).nr,
    (h.persist i hi₀ hi).lists⟩
  slots := h.slots
  mounts := h.mounts
  iroot := hroot
  ipwd := hpwd

/-- Calm code comes first. -/
theorem calm_bind {β : Type} {Q : β → Fs → Prop} {x : K α} {f : α → K β} (hx : Calms x)
    (hQ : ∀ a s', Phase s₀ gained lost sb mt s' → wp (fun _ => True) (f a) Q s') :
    wp (fun _ => True) (x >>= f) Q s := by
  rw [wp_bind]
  exact h.wp_calm hx fun a s' h' _ => hQ a s' h'

/-- References that were taken and given back. -/
theorem cancel {gained' lost' : List ℕ} (hfew : gained'.length ≤ 8)
    (hcount : ∀ i, gained.count i + lost'.count i = gained'.count i + lost.count i) :
    Phase s₀ gained' lost' sb mt s :=
  { h with
    few := hfew
    count := fun i => by
      have hbefore := h.count i
      have hsum := hcount i
      omega }

/-- Counts move, and what stays in core has been there all the time. -/
theorem moves {gained' lost' : List ℕ} {c : ℕ → ℕ} (hsound : Sound s') (hmoves : Moves s c s')
    (hcount : ∀ j, (s'.inodes j).count + lost'.count j = (s₀.inodes j).count + gained'.count j)
    (hfew : gained'.length ≤ 8)
    (hlive : ∀ j, (s₀.inodes j).count ≠ 0 → (s'.inodes j).count ≠ 0 → (s.inodes j).count ≠ 0)
    (hpipe : ∀ j, (s.inodes j).count = 0 → (s'.inodes j).count ≠ 0 → (s'.inodes j).pipe = false) :
    Phase s₀ gained' lost' sb mt s' ∧ Persist s s' := by
  have hpersist : Persist s s' := fun j hj hj' =>
    stays_of_label (hmoves.ident j hj (hmoves.count j ▸ hj'))
      fun k => hmoves.listing.lists k j hj hj'
  refine ⟨⟨hsound, fun j => ?_, h.small, hfew, hcount, h.persist.trans hpersist hlive,
    fun k => ?_, fun j => ?_, ?_, ?_⟩, hpersist⟩
  · by_cases hj' : (s'.inodes j).count = 0
    · exact (hsound.free j hj').2
    · by_cases hj : (s.inodes j).count = 0
      · exact hpipe j hj hj'
      · have hlabel := hmoves.ident j hj (hmoves.count j ▸ hj')
        exact (congrArg (·.2.2.2.2) hlabel).trans (h.pipe j)
  · rw [← h.slots k]
    have hmounting := hmoves.mounting k
    exact Slot.mk.injEq .. ▸ ⟨congrArg (·.1) hmounting, hmoves.listing.supers k,
      congrArg (·.2.1) hmounting, congrArg (·.2.2) hmounting⟩
  · exact (hmoves.mount j).trans (h.mounts j)
  · rw [hmoves.task, h.iroot]
  · rw [hmoves.task, h.ipwd]

/-- `iput` gives back a reference that is counted. -/
theorem wp_iput {Q : Unit → Fs → Prop}
    (hi : lost.count i < (s₀.inodes i).count + gained.count i)
    (hQ : ∀ s', Phase s₀ gained (i :: lost) sb mt s' → Persist s s' → Q () s') :
    wp (fun _ => True) (iput (some i)) Q s := by
  have hbefore := h.count i
  have hlt := h.lt i
  have hlive : (s.inodes i).count ≠ 0 := by omega
  refine wp_mono (wp_iput_moves h.sound (h.inCore hlive) (by omega)) ?_
  rintro _ s' ⟨hsound, hmoves⟩
  have hcount : ∀ j, (s'.inodes j).count + (i :: lost).count j =
      (s₀.inodes j).count + gained.count j := by
    intro j
    have hj := h.count j
    rw [hmoves.count, List.count_cons]
    by_cases hji : j = i
    · rw [if_pos hji, if_pos (by simp [hji]), hji]
      omega
    · rw [if_neg hji, if_neg (by simpa using Ne.symm hji)]
      omega
  have hold : ∀ j, (s'.inodes j).count ≠ 0 → (s.inodes j).count ≠ 0 := by
    intro j hj
    rw [hmoves.count] at hj
    by_cases hji : j = i
    · rwa [hji]
    · rwa [if_neg hji] at hj
  obtain ⟨h', hpersist⟩ := h.moves hsound hmoves hcount h.few (fun j _ => hold j)
    fun j hj hj' => absurd hj (hold j hj')
  exact hQ s' h' hpersist

/-- `iput` of an inode that may be missing. -/
theorem wp_iput_option {Q : Unit → Fs → Prop} {o : Option ℕ}
    (ho : ∀ i, o = some i → lost.count i < (s₀.inodes i).count + gained.count i)
    (hQ : ∀ s', Phase s₀ gained (o.toList ++ lost) sb mt s' → Persist s s' → Q () s') :
    wp (fun _ => True) (iput o) Q s := by
  cases o with
  | none => exact (wp_pure ()).mpr (hQ s h fun i _ _ => .refl s i)
  | some i => exact h.wp_iput (ho i rfl) hQ

/-- A slot of `super_table` changes, but not its list. -/
theorem wp_modifySuper {Q : Unit → Fs → Prop} {f : SuperBlock → SuperBlock} (slot : Slot)
    (hlist : ∀ v, (f v).inodeList = v.inodeList) (hslot : slotOf (f (s.supers k)) = slot)
    (hQ : ∀ s', Phase s₀ gained lost (Function.update sb k slot) mt s' → (∀ i, Stays s s' i) →
      Q () s') : wp (fun _ => True) (modifySuper k f) Q s := by
  unfold modifySuper
  rw [wp_modify]
  generalize hs' : s.setSuper k (f (s.supers k)) = s'
  have hsupers : ∀ l, s'.supers l = if l = k then f (s.supers k) else s.supers l := by
    intro l
    rw [← hs']
    rfl
  obtain ⟨hinodes, htask⟩ : s'.inodes = s.inodes ∧ s'.task = s.task := by
    rw [← hs']
    exact ⟨rfl, rfl⟩
  have hlists : ∀ l, (s'.supers l).inodeList = (s.supers l).inodeList := by
    intro l
    rw [hsupers]
    split
    · rename_i hl
      rw [hlist, hl]
    · rfl
  have hstays : ∀ i, Stays s s' i := fun i => ⟨by rw [hinodes], by rw [hinodes],
    fun l => by rw [hlists]⟩
  have hsound : Sound s' := by
    refine ⟨fun i => ?_, fun i => ?_, fun i => ?_, fun l => ?_, fun l i hi => ?_⟩
    · rw [hinodes]
      exact h.sound.slot i
    · rw [hinodes]
      exact h.sound.free i
    · rw [hinodes]
      exact h.sound.used i
    · rw [hlists]
      exact h.sound.nodup l
    · rw [hlists] at hi
      unfold InCore
      rw [hinodes]
      exact h.sound.listed l i hi
  refine hQ s' ⟨hsound, fun i => by rw [hinodes, h.pipe], h.small, h.few,
    fun i => by rw [hinodes, h.count], fun i hi₀ hi => ?_, fun l => ?_,
    fun i => by rw [← h.mounts i]; exact congrArg (fun g => (g i).mount) hinodes,
    by rw [htask, h.iroot], by rw [htask, h.ipwd]⟩ hstays
  · exact (h.persist i hi₀ (by rwa [hinodes] at hi)).trans (hstays i)
  · unfold Mount.slots
    rw [hsupers, Function.update_apply]
    split
    · exact hslot
    · exact h.slots l

/-- The mount field of a slot of `inode_table` is set. -/
theorem wp_setMount {Q : Unit → Fs → Prop} {d : ℤ} (hd : d ≠ NODEV)
    (hQ : ∀ s', Phase s₀ gained lost sb (Function.update mt i d) s' → (∀ j, Stays s s' j) →
      Q () s') :
    wp (fun _ => True) (modifyInode i fun inode => { inode with mount := d }) Q s := by
  unfold modifyInode
  rw [wp_modify]
  generalize hs' : s.setInode i { s.inodes i with mount := d } = s'
  have hinodes : ∀ j, s'.inodes j =
      { s.inodes j with mount := if j = i then d else (s.inodes j).mount } := by
    intro j
    rw [← hs']
    unfold Fs.setInode
    by_cases hj : j = i
    · simp [hj]
    · simp [hj]
  obtain ⟨hsupers, htask⟩ : s'.supers = s.supers ∧ s'.task = s.task := by
    rw [← hs']
    exact ⟨rfl, rfl⟩
  have hstays : ∀ j, Stays s s' j := fun j => ⟨by rw [hinodes], by rw [hinodes],
    fun l => by rw [hsupers]⟩
  have hsound : Sound s' := by
    refine ⟨fun j => ?_, fun j => ?_, fun j hj => ?_, fun l => ?_, fun l j hj => ?_⟩
    · rw [hinodes]
      exact h.sound.slot j
    · rw [hinodes]
      exact h.sound.free j
    · rw [hinodes] at hj ⊢
      refine ⟨(h.sound.used j hj).1, ?_⟩
      change (if j = i then d else (s.inodes j).mount) ≠ NODEV
      split
      · exact hd
      · exact (h.sound.used j hj).2
    · rw [hsupers]
      exact h.sound.nodup l
    · rw [hsupers] at hj
      unfold InCore
      rw [hinodes]
      exact h.sound.listed l j hj
  refine hQ s' ⟨hsound, fun j => by rw [hinodes, h.pipe], h.small, h.few,
    fun j => by rw [hinodes, h.count], fun j hi₀ hi => ?_,
    fun l => by rw [← h.slots l]; exact congrArg (fun g => slotOf (g l)) hsupers,
    fun j => ?_, by rw [htask, h.iroot], by rw [htask, h.ipwd]⟩ hstays
  · exact (h.persist j hi₀ (by rwa [hinodes] at hi)).trans (hstays j)
  · unfold Mount.mounts
    rw [hinodes, Function.update_apply, ← h.mounts j]
    rfl

end Phase

/-! ## `iget` of a root -/

/-- A reference to an inode in core is taken. -/
theorem Phase.wp_incCount {Q : Unit → Fs → Prop} (h : Phase s₀ gained [] sb mt s)
    (hi : (s.inodes i).count ≠ 0) (hfew : gained.length < 8)
    (hQ : ∀ s', Phase s₀ (i :: gained) [] sb mt s' → (∀ j, Stays s s' j) → Q () s') :
    wp (fun _ => True) (incCount i) Q s := by
  have hlt := h.lt i
  refine Refs.wp_incCount (by omega) fun s' hs' => ?_
  obtain ⟨hsound, hmoves⟩ := h.sound.recount hi (Nat.succ_ne_zero _) hs'.inodes hs'.supers
    hs'.task hs'.refs
  have hcount : ∀ j, (s'.inodes j).count + [].count j =
      (s₀.inodes j).count + (i :: gained).count j := by
    intro j
    have hj := h.count j
    rw [hmoves.count, List.count_cons]
    by_cases hji : j = i
    · rw [if_pos hji, if_pos (by simp [hji]), ← hji]
      omega
    · rw [if_neg hji, if_neg (by simpa using Ne.symm hji)]
      omega
  have hlive : ∀ j, (s'.inodes j).count ≠ 0 → (s.inodes j).count ≠ 0 := by
    intro j hj
    rw [hmoves.count] at hj
    by_cases hji : j = i
    · rwa [hji]
    · rwa [if_neg hji] at hj
  obtain ⟨h', -⟩ := h.moves hsound hmoves hcount (by rw [List.length_cons]; omega)
    (fun j _ => hlive j) fun j hj hj' => absurd hj (hlive j hj')
  refine hQ s' h' fun j => ⟨?_, ?_, fun k => by rw [hs'.supers]⟩
  · rw [hs'.inodes]
    split
    · rename_i hj
      rw [hj]
    · rfl
  · rw [hs'.inodes]
    split
    · rename_i hj
      rw [hj]
    · rfl

/-- `iget` of number 1, where nothing is mounted on a root. -/
theorem Phase.wp_getRoot {Q : ℕ → Fs → Prop} {dev : ℤ} (h : Phase s₀ gained [] sb mt s)
    (hdev : dev ≠ NODEV) (hfew : gained.length < 8)
    (hfree : ∀ i, (s.inodes i).count = 0 → mt i = 0)
    (hroot : ∀ i, mt i ≠ 0 → (s.inodes i).nr ≠ 1)
    (hQ : ∀ r k s', Phase s₀ (r :: gained) [] sb mt s' → Persist s s' →
      Paths.superOf s dev = some k → (s'.inodes r).nr = 1 → r ∈ (s'.supers k).inodeList →
      ((s.inodes r).count = 0 → ∀ l, r ∈ (s'.supers l).inodeList →
        (sb l).dev = (s'.inodes r).dev) → Q r s') :
    wp (fun _ => True) (iget dev 1) Q s := by
  unfold iget findInode
  rw [wp_bind, wp_bind]
  refine wp_theSuper_first fun k hk => ?_
  have hdev' : (s.supers k).dev = dev := by simpa using List.find?_some hk
  rw [wp_gets]
  cases hfind : (s.supers k).inodeList.find? fun i => (s.inodes i).nr = 1 with
  | some r =>
      have hmem := List.mem_of_find?_eq_some hfind
      have hlive := (h.sound.listed k r hmem).1
      have hnr : (s.inodes r).nr = 1 := by simpa using List.find?_some hfind
      rw [wp_bind]
      refine h.wp_incCount hlive hfew fun s₁ h₁ hstays₁ => ?_
      rw [wp_bind]
      refine h₁.wp_calm (calms_setAtime r) fun _ s₂ h₂ hstays₂ => ?_
      have hstays := fun j => (hstays₁ j).trans (hstays₂ j)
      have hzero : (s₂.inodes r).mount = 0 := by
        by_contra hmount
        exact hroot r ((h₂.mounts r) ▸ hmount) hnr
      unfold fitInode
      rw [wp_bind, wp_gets, hzero, if_pos rfl, wp_pure]
      refine hQ r k s₂ h₂ (fun j _ _ => hstays j) hk ((hstays r).nr.trans hnr)
        (((hstays r).lists k).mpr hmem) fun hnew => absurd hnew hlive
  | none =>
      rw [wp_bind]
      refine wp_of_run (run_theSuper hk) ?_
      rw [wp_bind, wp_gets, wp_bind, wp_check]
      intro _
      rw [wp_bind]
      refine wp_getFreeInode h.sound fun r hlt hnew => ?_
      have hmount : (s.inodes r).mount ≠ NODEV := by
        rw [show (s.inodes r).mount = mt r from h.mounts r, hfree r hnew]
        decide
      have hnone : ∀ j ∈ (s.supers k).inodeList, (s.inodes j).nr ≠ 1 := fun j hj => by
        simpa using List.find?_eq_none.mp hfind j hj
      refine wp_readInode h.sound hdev hlt hnew hmount hdev' hnone ?_
      intro s₁ hsound hmoves hpipe hnr hmem
      have hcount : ∀ j, (s₁.inodes j).count + [].count j =
          (s₀.inodes j).count + (r :: gained).count j := by
        intro j
        have hj := h.count j
        rw [hmoves.count, List.count_cons]
        by_cases hjr : j = r
        · rw [hjr, hnew] at hj
          rw [if_pos hjr, if_pos (by simp [hjr]), hjr]
          omega
        · rw [if_neg hjr, if_neg (by simpa using Ne.symm hjr)]
          omega
      obtain ⟨h₁, hpersist⟩ := h.moves hsound hmoves hcount (by rw [List.length_cons]; omega)
        (fun j hj _ => by have hj' := h.count j; rw [List.count_nil] at hj'; omega)
        fun j hj hj' => by
          obtain rfl : j = r := by
            by_contra hjr
            rw [hmoves.count, if_neg hjr] at hj'
            exact hj' hj
          exact hpipe
      rw [wp_bind]
      refine h₁.wp_calm (calms_getField r .mtime) fun ctime s₂ h₂ hstays₂ => ?_
      rw [wp_bind]
      refine h₂.wp_calm (calms_setCtime r ctime) fun _ s₃ h₃ hstays₃ => ?_
      rw [wp_bind]
      refine h₃.wp_calm (calms_setAtime r) fun _ s₄ h₄ hstays₄ => (wp_pure r).mpr ?_
      have hstays := fun j => ((hstays₂ j).trans (hstays₃ j)).trans (hstays₄ j)
      refine hQ r k s₄ h₄ (hpersist.trans (fun j _ _ => hstays j) fun j hj hj' => ?_) hk
        ((hstays r).nr.trans hnr) (((hstays r).lists k).mpr hmem) fun _ l hl => ?_
      · have hj₁ := h₁.count j
        have hj₄ := h₄.count j
        omega
      · have hentered := (hmoves.listing.entered l r hnew (((hstays r).lists l).mp hl)).1
        rw [← h₁.slots l, (hstays r).dev]
        exact hentered

/-! ## `put_super` -/

/-- The last reference to a super block is given back, and with it what the super block
refers to. -/
theorem Phase.wp_putSuper_last {Q : Unit → Fs → Prop} (h : Phase s₀ gained lost sb mt s)
    (hlast : (sb k).count = 1)
    (hheld : ∀ i, ((sb k).iroot.toList ++ ((sb k).imount.toList ++ lost)).count i ≤
      (s₀.inodes i).count + gained.count i)
    (hQ : ∀ s', Phase s₀ gained ((sb k).iroot.toList ++ ((sb k).imount.toList ++ lost))
      (Function.update sb k ⟨NODEV, 0, (sb k).iroot, (sb k).imount⟩) mt s' → Persist s s' →
      Q () s') :
    wp (fun _ => True) (putSuper k) Q s := by
  have hslot := h.slots k
  have hcount : (s.supers k).count = 1 := (congrArg Slot.count hslot).trans hlast
  unfold putSuper
  rw [wp_bind, wp_gets, wp_bind, wp_check]
  intro _
  rw [wp_bind]
  refine h.wp_modifySuper ⟨(sb k).dev, 0, (sb k).iroot, (sb k).imount⟩ (fun _ => rfl)
    (by rw [← hslot]; simp [slotOf, Mount.slots, hcount]) fun s₁ h₁ hstays₁ => ?_
  have hslot₁ := h₁.slots k
  rw [Function.update_self] at hslot₁
  rw [wp_bind, wp_gets, show (s₁.supers k).count = 0 from congrArg Slot.count hslot₁,
    if_neg (by simp), wp_bind]
  refine h₁.wp_modifySuper ⟨NODEV, 0, (sb k).iroot, (sb k).imount⟩ (fun _ => rfl)
    (by
      rw [show (sb k).iroot = (s₁.supers k).iroot from (congrArg Slot.iroot hslot₁).symm,
        show (sb k).imount = (s₁.supers k).imount from (congrArg Slot.imount hslot₁).symm,
        show 0 = (s₁.supers k).count from (congrArg Slot.count hslot₁).symm]
      rfl) fun s₂ h₂ hstays₂ => ?_
  rw [Function.update_idem] at h₂
  have hslot₂ := h₂.slots k
  rw [Function.update_self] at hslot₂
  rw [wp_bind, wp_gets, wp_bind,
    show (s₂.supers k).imount = (sb k).imount from congrArg Slot.imount hslot₂]
  refine h₂.wp_iput_option (fun i hi => ?_) fun s₃ h₃ hpersist₃ => ?_
  · have hle := hheld i
    rw [hi, List.count_append, List.count_append] at hle
    simp only [Option.toList_some, List.count_singleton_self] at hle
    omega
  have hslot₃ := h₃.slots k
  rw [Function.update_self] at hslot₃
  rw [wp_bind, wp_gets, wp_bind,
    show (s₃.supers k).iroot = (sb k).iroot from congrArg Slot.iroot hslot₃]
  refine h₃.wp_iput_option (fun i hi => ?_) fun s₄ h₄ hpersist₄ => ?_
  · have hle := hheld i
    rw [hi, List.count_append] at hle
    simp only [Option.toList_some, List.count_singleton_self] at hle
    omega
  have hend : Calms (do
      releaseMaps (← gets (·.supers k)).imaps (← gets (·.superDesc k)).imapBlocks
      releaseMaps (← gets (·.supers k)).zmaps (← gets (·.superDesc k)).zmapBlocks
      brelse (some (← gets (·.supers k)).buf)) :=
    (calms_gets _).bind fun _ => (calms_gets _).bind fun _ => (calms_releaseMaps _ _).bind fun _ =>
      (calms_gets _).bind fun _ => (calms_gets _).bind fun _ =>
        (calms_releaseMaps _ _).bind fun _ => (calms_gets _).bind fun _ => calms_brelse _
  refine h₄.wp_calm hend fun _ s₅ h₅ hstays₅ => hQ s₅ h₅ ?_
  have hbefore : Persist s s₂ := fun j _ _ => (hstays₁ j).trans (hstays₂ j)
  have hdown : ∀ j, (s₄.inodes j).count ≠ 0 → (s₃.inodes j).count ≠ 0 := by
    intro j hj
    have hj₃ := h₃.count j
    have hj₄ := h₄.count j
    rw [List.count_append] at hj₄
    omega
  have hdown' : ∀ j, (s₃.inodes j).count ≠ 0 → (s₂.inodes j).count ≠ 0 := by
    intro j hj
    have hj₂ := h₂.count j
    have hj₃ := h₃.count j
    rw [List.count_append] at hj₃
    omega
  have hlast : Persist s₄ s₅ := fun j _ _ => hstays₅ j
  have hlive : ∀ j, (s₅.inodes j).count ≠ 0 → (s₄.inodes j).count ≠ 0 := by
    intro j hj
    have hj₄ := h₄.count j
    have hj₅ := h₅.count j
    omega
  refine hbefore.trans (hpersist₃.trans (hpersist₄.trans hlast fun j _ => hlive j) ?_) ?_
  · exact fun j _ hj => hdown j (hlive j hj)
  · exact fun j _ hj => hdown' j (hdown j (hlive j hj))

/-- A reference to a super block is given back that is not the last one. -/
theorem Phase.wp_putSuper_more {Q : Unit → Fs → Prop} {n : ℕ} (h : Phase s₀ gained lost sb mt s)
    (hmore : (sb k).count = n + 2)
    (hQ : ∀ s', Phase s₀ gained lost (Function.update sb k { sb k with count := n + 1 }) mt s' →
      (∀ i, Stays s s' i) → Q () s') :
    wp (fun _ => True) (putSuper k) Q s := by
  have hslot := h.slots k
  have hcount : (s.supers k).count = n + 2 := (congrArg Slot.count hslot).trans hmore
  unfold putSuper
  rw [wp_bind, wp_gets, wp_bind, wp_check]
  intro _
  rw [wp_bind]
  refine h.wp_modifySuper { sb k with count := n + 1 } (fun _ => rfl)
    (by rw [← hslot]; simp [slotOf, Mount.slots, hcount]) fun s₁ h₁ hstays₁ => ?_
  have hslot₁ := h₁.slots k
  rw [Function.update_self] at hslot₁
  rw [wp_bind, wp_gets, show (s₁.supers k).count = n + 1 from congrArg Slot.count hslot₁,
    if_pos (by simp), wp_pure]
  exact hQ s₁ h₁ hstays₁

end Ylos.Mount
