import Ylos.Lib.RefCount
import Ylos.Lib.Runs
import Ylos.Verification.Buffer.Coherence
import Ylos.Verification.Incore.Cache
import Mathlib.Algebra.BigOperators.Group.Finset.Basic

/-! # `iget` hands out loaded inodes

As long as no task calls it for an inode that another task is still reading. -/

namespace Ylos.Incore

open Exec

variable {τ α : Type}

/-- The inode that a task reads, and for which call. -/
def Point.load : Point → Option (ℤ × ℕ × ℕ)
  | .idle => none
  | .free dev nr i | .lock dev nr i _ | .read dev nr i _ => some (dev, nr, i)

def Point.slot (p : Point) : Option ℕ := p.load.map fun x => x.2.2

def State.share (s : State τ α) (t : τ) (i : ℕ) : ℕ := s.held t i + hit (s.points t).slot i

/-- The number of references to the inode that tasks have. -/
def State.refs [Fintype τ] (s : State τ α) (i : ℕ) : ℕ := ∑ t, s.share t i

/-- Inode `i` is `nr` of `dev`, its buffer is that of the block that holds `nr`, its
descriptor is the one for `nr` there, and the data has been read from the device. -/
structure Loaded (s : State τ α) (dev : ℤ) (nr i : ℕ) : Prop where
  device : (s.inodes i).dev = dev
  number : (s.inodes i).nr = nr
  read : ∃ d b, s.supers dev = some d ∧ (s.inodes i).buf = some b ∧
    Caches s.cache b dev (inodeBlock d nr) ∧
    (s.inodes i).desc = some (b, pred nr % BLOCK_INODES) ∧
    (s.cache.buffers b).valid = true ∧ (s.cache.buffers b).data = s.cache.disk dev (inodeBlock d nr)

variable {s s' : State τ α} {busy : Option (ℤ × ℕ × ℕ)} {t u : τ} {dev : ℤ} {nr i j b : ℕ}

theorem Loaded.grown {c : Cache.State τ α} (hloaded : Loaded s dev nr i)
    (hsound : Sound c) (hgrown : Grown s.cache c) : Loaded { s with cache := c } dev nr i := by
  obtain ⟨d, b, hd, hb, hcaches, hdesc, hvalid, hdata⟩ := hloaded.read
  have hcaches' := hcaches.grown hgrown
  have hvalid' := hgrown.valid b hcaches.lt hvalid
  refine ⟨hloaded.device, hloaded.number, d, b, hd, hb, hcaches', hdesc, hvalid', ?_⟩
  have hdata' := hsound.data b hcaches'.lt hvalid'
  rwa [hcaches'.dev, hcaches'.block] at hdata'

theorem Loaded.congr (hloaded : Loaded s dev nr i) (hinode : s'.inodes i = s.inodes i)
    (hsupers : s'.supers = s.supers) (hcache : s'.cache = s.cache) : Loaded s' dev nr i := by
  obtain ⟨hdevice, hnumber, hread⟩ := hloaded
  refine ⟨?_, ?_, ?_⟩
  · rwa [hinode]
  · rwa [hinode]
  · rwa [hinode, hsupers, hcache]

theorem setInode_self (v : Inode) : (s.setInode i v).inodes i = v := if_pos rfl

theorem setInode_ne (v : Inode) (h : j ≠ i) : (s.setInode i v).inodes j = s.inodes j := if_neg h

theorem run_onCache {β : Type} (x : Cache.C τ α β) (s : State τ α) :
    (onCache x).run s = match x.run s.cache with
      | .error e => .error e
      | .ok (b, cache, _) => .ok (b, { s with cache := cache }, []) := rfl

theorem after_onCache {β : Type} {x : Cache.C τ α β} {Q : β → State τ α → List (Event τ) → Prop} :
    after (onCache x) Q s ↔
      wp (fun _ => True) x (fun b c => Q b { s with cache := c } []) s.cache := by
  constructor
  · intro h b c l hx _
    refine h b _ _ ?_
    rw [run_onCache, hx]
  · intro h b s' l hx
    rw [run_onCache] at hx
    cases hrun : x.run s.cache with
    | error e =>
        rw [hrun] at hx
        cases hx
    | ok r =>
        rw [hrun] at hx
        cases hx
        exact h _ _ _ hrun fun _ _ => trivial

section Tasks

variable [DecidableEq τ]

theorem setHeld_self {n : ℕ} : (s.setHeld t i n).held t i = n := if_pos ⟨rfl, rfl⟩

theorem setHeld_ne {n : ℕ} (h : ¬(u = t ∧ j = i)) : (s.setHeld t i n).held u j = s.held u j :=
  if_neg h

theorem setPoint_self (p : Point) : (s.setPoint t p).points t = p := if_pos rfl

theorem setPoint_ne (p : Point) (h : u ≠ t) : (s.setPoint t p).points u = s.points u := if_neg h

end Tasks

theorem setList_self {l : List ℕ} : (s.setList dev l).lists dev = l := if_pos rfl

theorem setList_ne {l : List ℕ} {d : ℤ} (h : d ≠ dev) :
    (s.setList dev l).lists d = s.lists d := if_neg h

variable [Fintype τ]

/-- What holds between two steps, and inside one when the running task reads the inode
`busy`. -/
structure Inv (busy : Option (ℤ × ℕ × ℕ)) (s : State τ α) : Prop where
  sound : Sound s.cache
  noDev : s.supers NODEV = none
  listed : ∀ dev i, i ∈ s.lists dev ↔ (s.inodes i).dev = dev ∧ dev ≠ NODEV
  nodup : ∀ dev, (s.lists dev).Nodup
  unique : ∀ dev, ∀ i ∈ s.lists dev, ∀ j ∈ s.lists dev,
    (s.inodes i).nr = (s.inodes j).nr → i = j
  count : ∀ i, (s.inodes i).count = s.refs i + hit (busy.map fun x => x.2.2) i
  incore : ∀ i, (s.inodes i).dev = NODEV ↔ (s.inodes i).count = 0
  bound : ∀ i, (s.inodes i).count < 2 ^ 32
  loads : ∀ dev nr i, (busy = some (dev, nr, i) ∨ ∃ t, (s.points t).load = some (dev, nr, i)) →
    (s.inodes i).dev = dev ∧ (s.inodes i).nr = nr ∧ (s.inodes i).count = 1
  caches : ∀ t dev nr i b, s.points t = .lock dev nr i b ∨ s.points t = .read dev nr i b →
    ∃ d, s.supers dev = some d ∧ Caches s.cache b dev (inodeBlock d nr)
  loaded : ∀ t i, 0 < s.held t i → Loaded s (s.inodes i).dev (s.inodes i).nr i

/-! ## References -/

theorem refs_add (hother : ∀ u, u ≠ t → s'.share u i = s.share u i) :
    s'.refs i + s.share t i = s.refs i + s'.share t i := by
  classical
  unfold State.refs
  rw [← Finset.add_sum_erase _ _ (Finset.mem_univ t),
    ← Finset.add_sum_erase _ (fun u => s.share u i) (Finset.mem_univ t),
    Finset.sum_congr rfl fun u hu => hother u (Finset.ne_of_mem_erase hu)]
  omega

theorem share_le_refs : s.share t i ≤ s.refs i :=
  Finset.single_le_sum (f := fun t => s.share t i) (fun _ _ => Nat.zero_le _) (Finset.mem_univ t)

theorem Inv.held_le (hinv : Inv busy s) : s.held t i ≤ (s.inodes i).count := by
  have hle : s.share t i ≤ s.refs i := share_le_refs
  have hcount := hinv.count i
  unfold State.share at hle
  omega

/-- Nobody else has a reference to an inode that is being read. -/
theorem Inv.alone (hinv : Inv (some (dev, nr, i)) s) : s.refs i = 0 := by
  have hone := (hinv.loads dev nr i (.inl rfl)).2.2
  have hcount := hinv.count i
  simp only [Option.map_some, hit_self] at hcount
  omega

theorem Inv.not_held (hinv : Inv (some (dev, nr, i)) s) (u : τ) :
    s.held u i = 0 ∧ (s.points u).slot ≠ some i := by
  have hle : s.share u i ≤ s.refs i := share_le_refs
  rw [hinv.alone] at hle
  unfold State.share at hle
  exact ⟨by omega, hit_eq_zero (by omega)⟩

/-! ## The cache goes on -/

theorem Inv.grown {c : Cache.State τ α} (hinv : Inv busy s) (hsound : Sound c)
    (hgrown : Grown s.cache c) : Inv busy { s with cache := c } := by
  refine { hinv with sound := hsound, caches := ?_, loaded := ?_ }
  · intro t dev nr i b ht
    obtain ⟨d, hd, hcaches⟩ := hinv.caches t dev nr i b ht
    exact ⟨d, hd, hcaches.grown hgrown⟩
  · intro t i hi
    exact (hinv.loaded t i hi).grown hsound hgrown

variable [DecidableEq τ]

/-! ## One task -/

/-- What a task reads passes to or from the code that it runs. -/
theorem Inv.setPoint {p : Point} (hinv : Inv busy s) (hp : p.load = busy)
    (hcaches : ∀ dev nr i b, p = .lock dev nr i b ∨ p = .read dev nr i b →
      ∃ d, s.supers dev = some d ∧ Caches s.cache b dev (inodeBlock d nr)) :
    Inv (s.points t).load (s.setPoint t p) := by
  refine { hinv with count := ?_, loads := ?_, caches := ?_, loaded := ?_ }
  · intro i
    have hrefs : (s.setPoint t p).refs i + s.share t i =
        s.refs i + (s.setPoint t p).share t i :=
      refs_add fun u hu => by
        unfold State.share
        rw [setPoint_ne p hu]
        rfl
    have hcount := hinv.count i
    unfold State.share at hrefs
    rw [setPoint_self] at hrefs
    unfold Point.slot at hrefs
    rw [hp] at hrefs
    change (s.inodes i).count = _
    change _ + (s.held t i + _) = _ + (s.held t i + _) at hrefs
    omega
  · rintro dev nr i (hload | ⟨u, hload⟩)
    · exact hinv.loads dev nr i (.inr ⟨t, hload⟩)
    · by_cases hu : u = t
      · rw [hu, setPoint_self, hp] at hload
        exact hinv.loads dev nr i (.inl hload)
      · rw [setPoint_ne p hu] at hload
        exact hinv.loads dev nr i (.inr ⟨u, hload⟩)
  · intro u dev nr i b hpoint
    by_cases hu : u = t
    · rw [hu, setPoint_self] at hpoint
      exact hcaches dev nr i b hpoint
    · rw [setPoint_ne p hu] at hpoint
      exact hinv.caches u dev nr i b hpoint
  · exact fun u i hi => (hinv.loaded u i hi).congr rfl rfl rfl

/-! ## Inodes -/

/-- The references of a task to an inode that nobody reads any more change. -/
theorem Inv.setRef {v : Inode} {n : ℕ} (hinv : Inv busy s)
    (hdev : v.dev = (s.inodes i).dev) (hnr : v.nr = (s.inodes i).nr)
    (hcount : v.count + (s.held t i + hit (busy.map fun x => x.2.2) i) = (s.inodes i).count + n)
    (hbusy : ∀ j, j ≠ i → busy.map (fun x => x.2.2) ≠ some j)
    (hold : (s.inodes i).count ≠ 0) (hpos : v.count ≠ 0) (hlt : v.count < 2 ^ 32)
    (hother : ∀ u, (s.points u).slot ≠ some i)
    (hloaded : ∀ dev nr, (s.inodes i).dev = dev → (s.inodes i).nr = nr →
      Loaded ((s.setInode i v).setHeld t i n) dev nr i) :
    Inv none ((s.setInode i v).setHeld t i n) := by
  have hkeep : ∀ j, ((s.setInode i v).inodes j).dev = (s.inodes j).dev ∧
      ((s.setInode i v).inodes j).nr = (s.inodes j).nr := by
    intro j
    by_cases hj : j = i
    · rw [hj, setInode_self]
      exact ⟨hdev, hnr⟩
    · rw [setInode_ne v hj]
      exact ⟨rfl, rfl⟩
  refine ⟨hinv.sound, hinv.noDev, fun d j => ?_, hinv.nodup, fun d j hj k hk hnr => ?_,
    fun j => ?_, fun j => ?_, fun j => ?_, fun d n j hload => ?_, hinv.caches, fun u j hj => ?_⟩
  · change j ∈ s.lists d ↔ ((s.setInode i v).inodes j).dev = d ∧ _
    rw [(hkeep j).1]
    exact hinv.listed d j
  · change ((s.setInode i v).inodes j).nr = ((s.setInode i v).inodes k).nr at hnr
    rw [(hkeep j).2, (hkeep k).2] at hnr
    exact hinv.unique d j hj k hk hnr
  · have hrefs : ((s.setInode i v).setHeld t i n).refs j + s.share t j =
        s.refs j + ((s.setInode i v).setHeld t i n).share t j :=
      refs_add fun u hu => by
        unfold State.share
        rw [setHeld_ne (fun h => hu h.1)]
        rfl
    have hj' := hinv.count j
    change ((s.setInode i v).inodes j).count = _ + 0
    unfold State.share at hrefs
    change _ + (s.held t j + hit (s.points t).slot j) =
      _ + (_ + hit (s.points t).slot j) at hrefs
    by_cases hj : j = i
    · subst j
      rw [setHeld_self] at hrefs
      rw [setInode_self]
      omega
    · rw [setHeld_ne (fun h => hj h.2)] at hrefs
      have hmiss : hit (busy.map fun x => x.2.2) j = 0 := if_neg (hbusy j hj)
      rw [setInode_ne v hj]
      change _ + (s.held t j + _) = _ + (s.held t j + _) at hrefs
      omega
  · change ((s.setInode i v).inodes j).dev = NODEV ↔ ((s.setInode i v).inodes j).count = 0
    by_cases hj : j = i
    · rw [hj, setInode_self, hdev]
      exact iff_of_false (fun hzero => hold ((hinv.incore i).mp hzero)) hpos
    · rw [setInode_ne v hj]
      exact hinv.incore j
  · change ((s.setInode i v).inodes j).count < _
    by_cases hj : j = i
    · rwa [hj, setInode_self]
    · rw [setInode_ne v hj]
      exact hinv.bound j
  · rcases hload with hload | ⟨u, hload⟩
    · cases hload
    · have hj : j ≠ i := by
        rintro rfl
        refine hother u ?_
        unfold Point.slot
        change (s.points u).load = _ at hload
        rw [hload]
        rfl
      change ((s.setInode i v).inodes j).dev = d ∧ ((s.setInode i v).inodes j).nr = _ ∧
        ((s.setInode i v).inodes j).count = 1
      rw [setInode_ne v hj]
      exact hinv.loads d _ j (.inr ⟨u, hload⟩)
  · change Loaded _ ((s.setInode i v).inodes j).dev ((s.setInode i v).inodes j).nr j
    rw [(hkeep j).1, (hkeep j).2]
    by_cases hji : j = i
    · rw [hji]
      exact hloaded _ _ rfl rfl
    · rw [setHeld_ne (fun h => hji h.2)] at hj
      exact (hinv.loaded u j hj).congr (setInode_ne v hji) rfl rfl

/-! ## The code of `iget` -/

/-- What a step leaves: inodes that were handed out are loaded. -/
def Handed (s : State τ α) (l : List (Event τ)) : Prop :=
  Inv none s ∧ ∀ e ∈ l, Loaded s e.dev e.nr e.i

variable {d : SuperDesc}

theorem after_igetRead (hinv : Inv (some (dev, nr, i)) s) (hd : s.supers dev = some d)
    (hcaches : Caches s.cache b dev (inodeBlock d nr))
    (hvalid : (s.cache.buffers b).valid = true) :
    after (igetRead t dev nr i b) (fun _ s' l => Handed s' l) s := by
  obtain ⟨hdev, hnr, hone⟩ := hinv.loads dev nr i (.inl rfl)
  unfold igetRead modifyInode handOut
  simp only [after_bind, after_modify, after_note, List.nil_append]
  have hloaded : Loaded ((s.setInode i { s.inodes i with
      buf := some b
      desc := some (b, pred (s.inodes i).nr % BLOCK_INODES) }).setHeld t i (s.held t i + 1))
      dev nr i := by
    refine ⟨?_, ?_, d, b, hd, ?_, hcaches, ?_, hvalid, ?_⟩
    · exact (congrArg Inode.dev (setInode_self _)).trans hdev
    · exact (congrArg Inode.nr (setInode_self _)).trans hnr
    · exact congrArg Inode.buf (setInode_self _)
    · exact (congrArg Inode.desc (setInode_self _)).trans (by rw [hnr])
    · have hdata := hinv.sound.data b hcaches.lt hvalid
      rwa [hcaches.dev, hcaches.block] at hdata
  refine ⟨hinv.setRef rfl rfl ?_ (fun j hj => ?_) (by omega) (by simp [hone])
    (by simp [hone]) (fun u => (hinv.not_held u).2) (fun d' n hd' hn => ?_), fun e he => ?_⟩
  · simp only [Option.map_some, hit_self]
    rfl
  · simpa using Ne.symm hj
  · obtain rfl := hdev.symm.trans hd'
    obtain rfl := hnr.symm.trans hn
    exact hloaded
  rw [List.mem_singleton.mp he]
  exact hloaded

/-- The task blocks in `bread`. -/
theorem after_setPoint {p : Point} (hinv : Inv (some (dev, nr, i)) s) (hidle : s.points t = .idle)
    (hp : p.load = some (dev, nr, i))
    (hcaches : ∀ dev nr i b, p = .lock dev nr i b ∨ p = .read dev nr i b →
      ∃ d, s.supers dev = some d ∧ Caches s.cache b dev (inodeBlock d nr)) :
    after (setPoint t p) (fun _ s' l => Handed s' l) s := by
  unfold Incore.setPoint
  rw [after_modify]
  have hblocked := hinv.setPoint (t := t) hp hcaches
  rw [hidle] at hblocked
  exact ⟨hblocked, by simp⟩

theorem after_breadLocked (hinv : Inv (some (dev, nr, i)) s) (hidle : s.points t = .idle)
    (hd : s.supers dev = some d) (hcaches : Caches s.cache b dev (inodeBlock d nr)) :
    after (breadLocked t dev nr i b) (fun _ s' l => Handed s' l) s := by
  unfold breadLocked Cache.getBuf
  rw [after_bind, after_onCache, wp_gets, after_ite]
  refine ⟨fun hvalid => ?_, fun _ => ?_⟩
  · rw [after_bind, after_onCache]
    refine wp_mono (wp_lockRelease hinv.sound hcaches.lt) fun _ c hc => ?_
    exact after_igetRead (hinv.grown hc.1 hc.2) hd (hcaches.grown hc.2)
      (hc.2.valid b hcaches.lt hvalid)
  · refine after_setPoint hinv hidle rfl fun _ _ _ _ hp => ?_
    rcases hp with hp | hp
    · cases hp
    · cases hp
      exact ⟨d, hd, hcaches⟩

theorem after_breadLock (hinv : Inv (some (dev, nr, i)) s) (hidle : s.points t = .idle)
    (hd : s.supers dev = some d) (hcaches : Caches s.cache b dev (inodeBlock d nr)) :
    after (breadLock t dev nr i b) (fun _ s' l => Handed s' l) s := by
  unfold breadLock
  rw [after_bind, after_onCache]
  refine wp_mono (wp_lockAcquire hinv.sound hcaches.lt) fun _ c hc => ?_
  have hinv' := hinv.grown hc.1 hc.2
  rw [after_ite]
  refine ⟨fun _ => after_breadLocked hinv' hidle hd (hcaches.grown hc.2), fun _ => ?_⟩
  refine after_setPoint hinv' hidle rfl fun _ _ _ _ hp => ?_
  rcases hp with hp | hp
  · cases hp
    exact ⟨d, hd, hcaches.grown hc.2⟩
  · cases hp

theorem after_gotBuffer {r : Option ℕ} (hinv : Inv (some (dev, nr, i)) s)
    (hidle : s.points t = .idle) (hd : s.supers dev = some d)
    (hcaches : ∀ b, r = some b → Caches s.cache b dev (inodeBlock d nr)) :
    after (gotBuffer t dev nr i r) (fun _ s' l => Handed s' l) s := by
  cases r with
  | none =>
      refine after_setPoint hinv hidle rfl fun _ _ _ _ hp => ?_
      rcases hp with hp | hp <;> cases hp
  | some b =>
      unfold gotBuffer Cache.getBuf
      rw [after_bind, after_onCache, wp_gets, after_ite]
      refine ⟨fun hvalid => after_igetRead hinv hd (hcaches b rfl) hvalid, fun _ => ?_⟩
      exact after_breadLock hinv hidle hd (hcaches b rfl)

theorem after_breadOn (hinv : Inv (some (dev, nr, i)) s)
    (hd : s.supers dev = some d) (hcaches : Caches s.cache b dev (inodeBlock d nr)) :
    after (breadOn t dev nr i b) (fun _ s' l => Handed s' l) s := by
  unfold breadOn Cache.modifyBuf
  simp only [after_bind, after_gets, after_onCache, wp_modify, List.nil_append]
  generalize hc : s.cache.setBuf b { s.cache.buffers b with
    data := s.cache.disk (s.cache.buffers b).dev (s.cache.buffers b).block
    dirty := false
    valid := true } = c
  have hread : (c.buffers b).valid = true := by
    rw [← hc, setBuf_self]
  have hsound : Sound c := by
    rw [← hc]
    exact hinv.sound.setBuf rfl rfl rfl fun _ => rfl
  have hgrown : Grown s.cache c := by
    rw [← hc]
    exact .setBuf rfl rfl fun _ => rfl
  have hcaches' := hcaches.grown hgrown
  refine wp_mono (wp_lockRelease hsound hcaches'.lt) fun _ c' hc' => ?_
  exact after_igetRead ((hinv.grown hsound hgrown).grown hc'.1 hc'.2) hd (hcaches'.grown hc'.2)
    (hc'.2.valid b hcaches'.lt hread)

/-! ## Taking and leaving a slot of the table -/

omit [Fintype τ] [DecidableEq τ] in
theorem after_theSuper {Q : SuperDesc → State τ α → List (Event τ) → Prop}
    (hQ : ∀ d, s.supers dev = some d → Q d s []) : after (theSuper dev) Q s := by
  unfold theSuper
  rw [after_bind, after_gets]
  cases hd : s.supers dev with
  | none => exact after_fault _
  | some d => exact (after_pure _).mpr (hQ d hd)

omit [DecidableEq τ] in
/-- A free slot becomes the inode of a number that has none. -/
theorem Inv.publish {v : Inode} (hinv : Inv none s) (hfree : (s.inodes i).dev = NODEV)
    (hv : v.dev = dev ∧ v.nr = nr ∧ v.count = 1) (hdev : dev ≠ NODEV)
    (hnew : ∀ j ∈ s.lists dev, (s.inodes j).nr ≠ nr) :
    Inv (some (dev, nr, i)) ((s.setInode i v).setList dev (i :: s.lists dev)) := by
  have hzero : (s.inodes i).count = 0 := (hinv.incore i).mp hfree
  have hinode : ∀ j, ((s.setInode i v).setList dev (i :: s.lists dev)).inodes j =
      if j = i then v else s.inodes j := fun _ => rfl
  have hrefs : s.refs i = 0 := by
    have hcount := hinv.count i
    rw [hzero] at hcount
    omega
  have hne : ∀ {j}, (s.inodes j).count ≠ 0 → j ≠ i := by
    rintro j hj rfl
    exact hj hzero
  have hnotmem : ∀ d, i ∉ s.lists d := by
    intro d hi
    obtain ⟨hd, hnodev⟩ := (hinv.listed d i).mp hi
    exact hnodev (hd.symm.trans hfree)
  have hlists : ∀ d j, j ∈ ((s.setInode i v).setList dev (i :: s.lists dev)).lists d ↔
      (d = dev ∧ j = i) ∨ j ∈ s.lists d := by
    intro d j
    by_cases hd : d = dev
    · rw [hd, setList_self, List.mem_cons]
      simp
    · rw [setList_ne hd]
      simp [hd, State.setInode]
  refine ⟨hinv.sound, hinv.noDev, fun d j => ?_, fun d => ?_, fun d j hj k hk hnr => ?_,
    fun j => ?_, fun j => ?_, fun j => ?_, fun d n j hload => ?_, hinv.caches, fun u j hj => ?_⟩
  · rw [hlists, hinode, hinv.listed d j]
    by_cases hj : j = i
    · subst j
      rw [if_pos rfl, hv.1, hfree]
      constructor
      · rintro (⟨rfl, _⟩ | ⟨rfl, hd⟩)
        · exact ⟨rfl, hdev⟩
        · exact absurd rfl hd
      · rintro ⟨rfl, _⟩
        exact .inl ⟨rfl, rfl⟩
    · rw [if_neg hj]
      simp [hj]
  · by_cases hd : d = dev
    · rw [hd, setList_self]
      exact List.nodup_cons.mpr ⟨hnotmem dev, hinv.nodup dev⟩
    · rw [setList_ne hd]
      exact hinv.nodup d
  · rw [hinode, hinode] at hnr
    rcases (hlists d j).mp hj with ⟨hd, hji⟩ | hj' <;>
      rcases (hlists d k).mp hk with ⟨hd', hki⟩ | hk'
    · rw [hji, hki]
    · have hki : k ≠ i := fun h => hnotmem d (h ▸ hk')
      rw [if_pos hji, if_neg hki, hv.2.1] at hnr
      exact absurd hnr.symm (hnew k (hd ▸ hk'))
    · have hji : j ≠ i := fun h => hnotmem d (h ▸ hj')
      rw [if_pos hki, if_neg hji, hv.2.1] at hnr
      exact absurd hnr (hnew j (hd' ▸ hj'))
    · have hji : j ≠ i := fun h => hnotmem d (h ▸ hj')
      have hki : k ≠ i := fun h => hnotmem d (h ▸ hk')
      rw [if_neg hji, if_neg hki] at hnr
      exact hinv.unique d j hj' k hk' hnr
  · rw [hinode]
    change _ = s.refs j + hit (some i) j
    by_cases hj : j = i
    · rw [if_pos hj, hj, hv.2.2, hrefs, hit_self]
    · rw [if_neg hj, hit_of_ne (Ne.symm hj)]
      exact hinv.count j
  · rw [hinode]
    by_cases hj : j = i
    · rw [if_pos hj, hv.1, hv.2.2]
      exact iff_of_false hdev one_ne_zero
    · rw [if_neg hj]
      exact hinv.incore j
  · rw [hinode]
    split
    · rw [hv.2.2]
      omega
    · exact hinv.bound j
  · rw [hinode]
    rcases hload with hload | ⟨u, hload⟩
    · cases hload
      rw [if_pos rfl]
      exact hv
    · have hold := hinv.loads d n j (.inr ⟨u, hload⟩)
      rw [if_neg (hne (by omega))]
      exact hold
  · have hle := hinv.held_le (t := u) (i := j)
    have hpos : 0 < s.held u j := hj
    have hji := hne (j := j) (by omega)
    rw [hinode, if_neg hji]
    exact (hinv.loaded u j hj).congr (if_neg hji) rfl rfl

/-- The inode with the last reference goes. -/
theorem Inv.discard {v : Inode} (hinv : Inv none s) (hone : (s.inodes i).count = 1)
    (hheld : s.held t i = 1) (hv : v.dev = NODEV ∧ v.count = 0)
    (hinode : ∀ j, s'.inodes j = if j = i then v else s.inodes j)
    (hheld' : ∀ u j, s'.held u j = if u = t ∧ j = i then 0 else s.held u j)
    (hlist : ∀ d, s'.lists d = if d = (s.inodes i).dev then (s.lists d).erase i else s.lists d)
    (hpoints : s'.points = s.points) (hsupers : s'.supers = s.supers)
    (hcache : s'.cache = s.cache) : Inv none s' := by
  have hlists : ∀ d j, j ∈ s'.lists d ↔ j ≠ i ∧ j ∈ s.lists d := by
    intro d j
    rw [hlist]
    split
    · rw [(hinv.nodup d).mem_erase_iff]
    · rename_i hd
      refine ⟨fun hj => ⟨?_, hj⟩, fun hj => hj.2⟩
      rintro rfl
      exact hd ((hinv.listed d j).mp hj).1.symm
  have hrefs : ∀ j, s'.refs j + s.share t j = s.refs j + s'.share t j := by
    intro j
    refine refs_add fun u hu => ?_
    unfold State.share
    rw [hheld', if_neg (fun h => hu h.1), hpoints]
  have hshare : ∀ u j, s'.share u j = s'.held u j + hit (s.points u).slot j := by
    intro u j
    unfold State.share
    rw [hpoints]
  -- No task has a reference to the inode any more.
  have hzero : s'.refs i = 0 := by
    have hrefs' := hrefs i
    have hcount := hinv.count i
    rw [hshare, hheld', if_pos ⟨rfl, rfl⟩] at hrefs'
    unfold State.share at hrefs'
    change _ = s.refs i + 0 at hcount
    omega
  have hgone : ∀ u, s'.held u i = 0 ∧ (s.points u).slot ≠ some i := by
    intro u
    have hle : s'.share u i ≤ s'.refs i := share_le_refs
    rw [hzero, hshare] at hle
    exact ⟨by omega, hit_eq_zero (by omega)⟩
  refine ⟨hcache ▸ hinv.sound, hsupers ▸ hinv.noDev, fun d j => ?_, fun d => ?_,
    fun d j hj k hk hnr => ?_, fun j => ?_, fun j => ?_, fun j => ?_, fun d n j hload => ?_, ?_,
    fun u j hj => ?_⟩
  · rw [hlists, hinode, hinv.listed d j]
    by_cases hj : j = i
    · rw [if_pos hj, hv.1]
      exact iff_of_false (fun h => h.1 hj) fun h => h.2 h.1.symm
    · rw [if_neg hj]
      exact and_iff_right hj
  · rw [hlist]
    split
    · exact (hinv.nodup d).erase i
    · exact hinv.nodup d
  · obtain ⟨hji, hj⟩ := (hlists d j).mp hj
    obtain ⟨hki, hk⟩ := (hlists d k).mp hk
    rw [hinode, hinode, if_neg hji, if_neg hki] at hnr
    exact hinv.unique d j hj k hk hnr
  · change _ = s'.refs j + 0
    rw [hinode]
    by_cases hj : j = i
    · rw [if_pos hj, hj, hv.2, hzero]
    · have hrefs' := hrefs j
      have hcount := hinv.count j
      rw [hshare, hheld', if_neg (fun h => hj h.2)] at hrefs'
      unfold State.share at hrefs'
      change _ = s.refs j + 0 at hcount
      rw [if_neg hj]
      omega
  · rw [hinode]
    by_cases hj : j = i
    · rw [if_pos hj]
      exact iff_of_true hv.1 hv.2
    · rw [if_neg hj]
      exact hinv.incore j
  · rw [hinode]
    split
    · rw [hv.2]
      exact Nat.two_pow_pos 32
    · exact hinv.bound j
  · rcases hload with hload | ⟨u, hload⟩
    · cases hload
    · rw [hpoints] at hload
      have hji : j ≠ i := by
        rintro rfl
        refine (hgone u).2 ?_
        unfold Point.slot
        rw [hload]
        rfl
      rw [hinode, if_neg hji]
      exact hinv.loads d n j (.inr ⟨u, hload⟩)
  · rw [hpoints, hsupers, hcache]
    exact hinv.caches
  · have hji : j ≠ i := by
      rintro rfl
      rw [(hgone u).1] at hj
      exact absurd hj (lt_irrefl 0)
    rw [hheld', if_neg (fun h => hji h.2)] at hj
    have hsame : s'.inodes j = s.inodes j := by rw [hinode, if_neg hji]
    rw [hsame]
    exact (hinv.loaded u j hj).congr hsame hsupers hcache

/-! ## Steps -/

omit [DecidableEq τ] in
/-- An inode in core that nobody reads is loaded. -/
theorem Inv.loaded_of_mem (hinv : Inv none s) (hi : i ∈ s.lists dev) (hnr : (s.inodes i).nr = nr)
    (hsettled : ∀ u j, (s.points u).load ≠ some (dev, nr, j)) :
    Loaded s dev nr i ∧ (s.inodes i).count ≠ 0 ∧ ∀ u, (s.points u).slot ≠ some i := by
  obtain ⟨hdev, hnodev⟩ := (hinv.listed dev i).mp hi
  have hpos : (s.inodes i).count ≠ 0 := by
    intro hzero
    exact hnodev (hdev.symm.trans ((hinv.incore i).mpr hzero))
  have hslot : ∀ u, (s.points u).slot ≠ some i := by
    intro u hu
    unfold Point.slot at hu
    obtain ⟨⟨d, n, j⟩, hload, rfl⟩ := Option.map_eq_some_iff.mp hu
    obtain ⟨hd, hn, _⟩ := hinv.loads d n j (.inr ⟨u, hload⟩)
    obtain rfl := hd.symm.trans hdev
    obtain rfl := hn.symm.trans hnr
    exact hsettled u j hload
  have hrefs : s.refs i ≠ 0 := by
    have hcount := hinv.count i
    change _ = _ + 0 at hcount
    omega
  obtain ⟨u, _, hu⟩ := Finset.exists_ne_zero_of_sum_ne_zero hrefs
  have hheld : 0 < s.held u i := by
    unfold State.share hit at hu
    rw [if_neg (hslot u)] at hu
    omega
  have hloaded := hinv.loaded u i hheld
  rw [hdev, hnr] at hloaded
  exact ⟨hloaded, hpos, hslot⟩

/-- `iget` is called for an inode that no task is reading, and counts it. -/
structure Settled (s : State τ α) (dev : ℤ) (nr : ℕ) : Prop where
  idle : ∀ u i, (s.points u).load ≠ some (dev, nr, i)
  room : ∀ i, (s.inodes i).dev = dev → (s.inodes i).nr = nr → (s.inodes i).count + 1 < 2 ^ 32

theorem after_iget (hinv : Inv none s) (hidle : s.points t = .idle) (hsettled : Settled s dev nr) :
    after (iget t dev nr) (fun _ s' l => Handed s' l) s := by
  unfold iget findInode
  rw [after_bind, after_bind]
  refine after_theSuper fun d hd => ?_
  rw [after_gets]
  cases hfind : (s.lists dev).find? fun i => (s.inodes i).nr = nr with
  | some i =>
      have hmem := List.mem_of_find?_eq_some hfind
      have hnr : (s.inodes i).nr = nr := by simpa using List.find?_some hfind
      have hdev := ((hinv.listed dev i).mp hmem).1
      obtain ⟨hloaded, hpos, hslot⟩ := hinv.loaded_of_mem hmem hnr hsettled.idle
      have hroom := hsettled.room i hdev hnr
      have hcount : u32 ((s.inodes i).count + 1) = (s.inodes i).count + 1 := Nat.mod_eq_of_lt hroom
      unfold modifyInode handOut
      simp only [after_bind, after_modify, after_note, List.nil_append, hcount]
      have hloaded' : Loaded ((s.setInode i { s.inodes i with
          count := (s.inodes i).count + 1 }).setHeld t i (s.held t i + 1)) dev nr i := by
        obtain ⟨d', b, hd', hb, hcaches, hdesc, hvalid, hdata⟩ := hloaded.read
        refine ⟨?_, ?_, d', b, hd', ?_, hcaches, ?_, hvalid, hdata⟩
        · exact (congrArg Inode.dev (setInode_self _)).trans hdev
        · exact (congrArg Inode.nr (setInode_self _)).trans hnr
        · exact (congrArg Inode.buf (setInode_self _)).trans hb
        · exact (congrArg Inode.desc (setInode_self _)).trans hdesc
      refine ⟨hinv.setRef rfl rfl ?_ (fun j _ => nofun) hpos (Nat.succ_ne_zero _) hroom hslot
        fun d' n hd' hn => ?_, fun e he => ?_⟩
      · change (s.inodes i).count + 1 + (s.held t i + 0) = (s.inodes i).count + (s.held t i + 1)
        omega
      · obtain rfl := hdev.symm.trans hd'
        obtain rfl := hnr.symm.trans hn
        exact hloaded'
      · rw [List.mem_singleton.mp he]
        exact hloaded'
  | none =>
      have hnew : ∀ j ∈ s.lists dev, (s.inodes j).nr ≠ nr := by
        intro j hj
        simpa using List.find?_eq_none.mp hfind j hj
      have hdev : dev ≠ NODEV := by
        rintro rfl
        rw [hinv.noDev] at hd
        cases hd
      simp only [after_bind]
      refine after_theSuper fun d' hd' => ?_
      obtain rfl : d = d' := Option.some.inj (hd.symm.trans hd')
      rw [after_check]
      intro _
      unfold getFreeInode
      rw [after_bind, after_gets]
      cases hfree : (List.range INODE_NR).find? fun i => (s.inodes i).dev = NODEV with
      | none => exact after_fault _
      | some i =>
          have hfree : (s.inodes i).dev = NODEV := by simpa using List.find?_some hfree
          have hzero := (hinv.incore i).mp hfree
          unfold modifyInode
          simp only [after_pure, after_modify, after_onCache, hzero]
          have hinv' := hinv.publish (v := { s.inodes i with
            dev := dev, nr := nr, count := u32 (0 + 1) }) hfree ⟨rfl, rfl, rfl⟩ hdev hnew
          refine wp_mono (wp_getblk hinv'.sound) fun r c hgot => ?_
          exact after_gotBuffer (hinv'.grown hgot.sound hgot.grown) hidle hd hgot.caches

/-- Who reads an inode is alone with it. -/
theorem Inv.slot_ne (hinv : Inv none s) (hheld : 0 < s.held t i) (u : τ) :
    (s.points u).slot ≠ some i := by
  intro hu
  have hone : (s.inodes i).count = 1 := by
    have hmap := hu
    unfold Point.slot at hmap
    obtain ⟨⟨d, n, j⟩, hload, rfl⟩ := Option.map_eq_some_iff.mp hmap
    exact (hinv.loads d n j (.inr ⟨u, hload⟩)).2.2
  have hrefs : (s.setPoint u .idle).refs i + s.share u i =
      s.refs i + (s.setPoint u .idle).share u i :=
    refs_add fun v hv => by
      unfold State.share
      rw [setPoint_ne _ hv]
      rfl
  have hle : (s.setPoint u .idle).share t i ≤ (s.setPoint u .idle).refs i := share_le_refs
  have hcount := hinv.count i
  unfold State.share at hrefs hle
  rw [setPoint_self, hu, hit_self] at hrefs
  change _ = s.refs i + (s.held u i + 0) at hrefs
  change s.held t i + _ ≤ _ at hle
  change _ = _ + 0 at hcount
  omega

omit [Fintype τ] [DecidableEq τ] in
/-- Without changes to write, `bwrite` does nothing. -/
theorem after_bwrite {Q : Unit → State τ α → List (Event τ) → Prop}
    (hclean : (s.cache.buffers b).dirty = false) (hQ : Q () s []) : after (bwrite b) Q s := by
  unfold bwrite Cache.getBuf
  rw [after_bind, after_onCache, wp_gets, hclean]
  exact (after_pure _).mpr hQ

theorem after_iput (hinv : Inv none s) (hheld : 0 < s.held t i) :
    after (iput t i) (fun _ s' l => Handed s' l) s := by
  have hloaded := hinv.loaded t i hheld
  obtain ⟨d, b, hd, hb, hcaches, hdesc, hvalid, hdata⟩ := hloaded.read
  have hclean := hinv.sound.clean b hcaches.lt
  have hle := hinv.held_le (t := t) (i := i)
  have hbound := hinv.bound i
  have hcount : u32 ((s.inodes i).count + 2 ^ 32 - 1) = (s.inodes i).count - 1 := by
    unfold u32
    omega
  unfold iput modifyInode
  simp only [after_bind, after_modify, after_gets, after_deref]
  intro b' hb'
  obtain rfl : b = b' := Option.some.inj (hb.symm.trans hb')
  refine after_bwrite hclean ?_
  generalize hv : ({ (s.setHeld t i (s.held t i - 1)).inodes i with
    count := u32 (((s.setHeld t i (s.held t i - 1)).inodes i).count + 2 ^ 32 - 1) } : Inode) = v
  have hvcount : v.count = (s.inodes i).count - 1 := by
    rw [← hv]
    exact hcount
  generalize hs₁ : (s.setHeld t i (s.held t i - 1)).setInode i v = s₁
  have hself : s₁.inodes i = v := by
    rw [← hs₁]
    exact setInode_self v
  have hother : ∀ j, j ≠ i → s₁.inodes j = s.inodes j := by
    rw [← hs₁]
    exact fun _ => setInode_ne v
  rw [after_ite, hself]
  refine ⟨fun hzero => ?_, fun hpos => ?_⟩
  · -- The last reference: the slot of the table becomes free.
    unfold brelse
    simp only [after_bind]
    refine after_bwrite (by rw [← hs₁]; exact hclean) ?_
    rw [after_onCache]
    refine wp_mono (wp_putRef (by rw [← hs₁]; exact hinv.sound) (by rw [← hs₁]; exact hcaches.lt))
      fun _ c hc => ?_
    rw [← hs₁] at hc
    unfold unlinkInode putFreeInode modifyInode
    simp only [after_bind, after_gets, after_check, after_modify, List.append_nil, hself]
    intro _ _ _
    refine ⟨(hinv.grown hc.1 hc.2).discard (t := t) (i := i) (v := { s₁.inodes i with dev := NODEV })
      ?_ ?_ ⟨rfl, hself ▸ hzero⟩ (fun j => ?_) (fun u j => ?_) (fun d' => ?_) ?_ ?_ ?_, by simp⟩
    · change (s.inodes i).count = 1
      omega
    · change s.held t i = 1
      omega
    · change (if j = i then _ else s₁.inodes j) = if j = i then _ else s.inodes j
      split
      · rfl
      · exact hother j ‹_›
    · rw [← hs₁]
      change (if u = t ∧ j = i then s.held t i - 1 else s.held u j) = _
      rw [show s.held t i - 1 = 0 by omega]
    · rw [← hs₁, ← hv]
      change (if d' = (s.inodes i).dev then _ else _) = if d' = (s.inodes i).dev then _ else _
      split
      · rename_i hd'
        rw [hd']
        rfl
      · rfl
    all_goals
      rw [← hs₁]
      rfl
  · have hkept := hinv.setRef (t := t) (i := i) (v := v) (n := s.held t i - 1) (by rw [← hv]; rfl)
      (by rw [← hv]; rfl) (by change _ + (_ + 0) = _; omega) (fun _ _ h => by cases h) (by omega) hpos
      (by omega) (hinv.slot_ne hheld) fun d' n hd' hn => ?_
    · rw [← hs₁, after_pure]
      exact ⟨hkept, by simp⟩
    · obtain rfl := hd'
      obtain rfl := hn
      have hsame : ((s.setInode i v).setHeld t i (s.held t i - 1)).inodes i = v := setInode_self v
      refine ⟨?_, ?_, d, b, hd, ?_, hcaches, ?_, hvalid, hdata⟩
      · rw [hsame, ← hv]
        rfl
      · rw [hsame, ← hv]
        rfl
      · rw [hsame, ← hv]
        exact hb
      · rw [hsame, ← hv]
        exact hdesc

/-- What one step keeps. -/
def Calm (s : State τ α) : Action τ → Prop
  | .iget _ dev nr => Settled s dev nr
  | _ => True

theorem after_code {a : Action τ} (hinv : Inv none s) (ha : a.Possible s) (hcalm : Calm s a) :
    after a.code (fun _ s' l => Handed s' l) s := by
  cases a with
  | iget t dev nr => exact after_iget hinv ha hcalm
  | iput t i => exact after_iput hinv ha.2
  | resume t =>
      unfold Action.code Incore.setPoint
      simp only [after_bind, after_gets, after_modify, List.nil_append]
      have hinv' := hinv.setPoint (t := t) (p := .idle) rfl fun _ _ _ _ h => by
        rcases h with h | h <;> cases h
      have hidle : (s.setPoint t .idle).points t = .idle := setPoint_self _
      cases hp : s.points t with
      | idle => exact absurd hp ha.1
      | free dev nr i =>
          rw [hp] at hinv'
          unfold Incore.resume
          rw [after_bind]
          refine after_theSuper fun d hd => ?_
          rw [after_bind, after_onCache]
          refine wp_mono (wp_getblkFree hinv'.sound) fun r c hgot => ?_
          exact after_gotBuffer (hinv'.grown hgot.sound hgot.grown) hidle hd hgot.caches
      | lock dev nr i b =>
          rw [hp] at hinv'
          obtain ⟨d, hd, hcaches⟩ := hinv.caches t dev nr i b (.inl hp)
          exact after_breadLock hinv' hidle hd hcaches
      | read dev nr i b =>
          rw [hp] at hinv'
          obtain ⟨d, hd, hcaches⟩ := hinv.caches t dev nr i b (.inr hp)
          exact after_breadOn hinv' hd hcaches

/-! ## Runs -/

omit [DecidableEq τ] in
theorem Initial.inv (hinit : Initial s) : Inv none s := by
  have hidle : ∀ u i, s.share u i = 0 := by
    intro u i
    unfold State.share
    rw [hinit.held, hinit.points]
    rfl
  refine ⟨⟨fun b hb => ?_, fun h b hb => ?_, fun b hb => ?_, fun b hb => ?_, fun b hb => ?_⟩,
    hinit.supers, fun dev i => ?_, fun dev => ?_, fun dev i hi => ?_, fun i => ?_, fun i => ?_,
    fun i => ?_, fun dev nr i hload => ?_, fun t dev nr i b hpoint => ?_, fun t i hi => ?_⟩
  · rw [hinit.cache.count] at hb
    exact absurd hb (Nat.not_lt_zero b)
  · rw [hinit.cache.chains] at hb
    cases hb
  · rw [hinit.cache.free] at hb
    cases hb
  · rw [hinit.cache.count] at hb
    exact absurd hb (Nat.not_lt_zero b)
  · rw [hinit.cache.count] at hb
    exact absurd hb (Nat.not_lt_zero b)
  · rw [hinit.lists, (hinit.inodes i).1]
    exact iff_of_false List.not_mem_nil fun h => h.2 h.1.symm
  · rw [hinit.lists]
    exact List.nodup_nil
  · rw [hinit.lists] at hi
    cases hi
  · rw [(hinit.inodes i).2]
    exact (Finset.sum_eq_zero fun u _ => hidle u i).symm
  · exact iff_of_true (hinit.inodes i).1 (hinit.inodes i).2
  · rw [(hinit.inodes i).2]
    exact Nat.two_pow_pos 32
  · rcases hload with hload | ⟨u, hload⟩
    · cases hload
    · rw [hinit.points] at hload
      cases hload
  · rw [hinit.points] at hpoint
    rcases hpoint with hpoint | hpoint <;> cases hpoint
  · rw [hinit.held] at hi
    exact absurd hi (lt_irrefl 0)

theorem inv_of_run (hinit : Initial s) (hrun : Run Step (fun s a => Calm s a.1) s s') :
    Inv none s' := by
  refine hrun.invariant (P := fun s => Inv none s) (fun u a u' hu hcalm hstep => ?_) hinit.inv
  exact (after_code hu hstep.1 hcalm _ _ _ hstep.2).1

/-- In every run in which `iget` is not called for an inode that another task is reading,
an inode is in core once, and every inode that `iget` returns is loaded. -/
theorem iget_loaded (hinit : Initial s) (hrun : Run Step (fun s a => Calm s a.1) s s') :
    (∀ i j, (s'.inodes i).dev = (s'.inodes j).dev → (s'.inodes i).dev ≠ NODEV →
      (s'.inodes i).nr = (s'.inodes j).nr → i = j) ∧
      ∀ a l s'', Calm s' a → Step s' (a, l) s'' → ∀ e ∈ l, Loaded s'' e.dev e.nr e.i := by
  have hinv := inv_of_run hinit hrun
  refine ⟨fun i j hdev hnodev hnr => ?_, fun a l s'' hcalm hstep => ?_⟩
  · exact hinv.unique _ i ((hinv.listed _ i).mpr ⟨rfl, hnodev⟩) j
      ((hinv.listed _ j).mpr ⟨hdev.symm, hnodev⟩) hnr
  · exact (after_code hinv hstep.1 hcalm _ _ _ hstep.2).2

/-- Two tasks, a file system on device 1, and no inode in core. -/
def mounted : State Bool ℕ where
  cache := Cache.emptyCache
  supers dev := if dev = 1 then some ⟨64, 1000, 1, 1, 6⟩ else none
  inodes _ := ⟨NODEV, 0, 0, none, none⟩
  lists _ := []
  points _ := .idle
  held _ _ := 0

theorem mounted_initial : Initial mounted :=
  ⟨Cache.emptyCache_initial, rfl, fun _ => ⟨rfl, rfl⟩, fun _ => rfl, fun _ => rfl, fun _ _ => rfl⟩

/-- While one task reads the inode, the other gets it without buffer and descriptor. -/
theorem exists_unloaded : ∃ s, Run Step (fun _ _ => True) mounted s ∧
    ∃ a l s', Step s (a, l) s' ∧ ∃ e ∈ l, ¬Loaded s' e.dev e.nr e.i := by
  refine ⟨_, Run.head (a := (.iget false 1 5, [])) trivial ⟨rfl, rfl⟩ Run.refl,
    .iget true 1 5, _, _, ⟨rfl, rfl⟩, ⟨true, 1, 5, 0⟩, List.mem_singleton.mpr rfl, ?_⟩
  rintro ⟨_, _, _, b, _, hb, _⟩
  cases hb

/-- One task reads the inode and gets it. -/
theorem mounted_loaded : ∃ s, Run Step (fun s a => Calm s a.1) mounted s ∧
    ∃ s', Step s (.resume false, [⟨false, 1, 5, 0⟩]) s' ∧ Loaded s' 1 5 0 := by
  have hcalm : Calm mounted (.iget false 1 5) := ⟨nofun, fun _ h => by cases h⟩
  have hrun : ∃ s, Run Step (fun s a => Calm s a.1) mounted s ∧
      ∃ s', Step s (.resume false, [⟨false, 1, 5, 0⟩]) s' :=
    ⟨_, Run.head (a := (.iget false 1 5, [])) hcalm ⟨rfl, rfl⟩ Run.refl, _,
      ⟨by decide, List.not_mem_nil⟩, rfl⟩
  obtain ⟨s, hrun, s', hstep⟩ := hrun
  refine ⟨s, hrun, s', hstep, ?_⟩
  exact (iget_loaded mounted_initial hrun).2 (.resume false) _ _ trivial hstep _
    (List.mem_singleton.mpr rfl)

end Ylos.Incore
