import Ylos.Verification.Path.Components
import Ylos.Verification.Path.Iget

/-! # `find_entry` in a tree -/

namespace Ylos.Paths

open Exec Dir Refs

variable {s₀ s s' : Fs} {held : List (ℕ × Loc)} {bufs : List BufRef} {i : ℕ} {l d : Loc}
  {path : Path} {e : Prop}

/-! ## Slots -/

/-- Slot `i` is in use, with that name. -/
def Named (s : Fs) (l : Loc) (name : Path) (i : ℕ) : Prop :=
  slotNr s (siteOf s l) i ≠ 0 ∧ nameAt (slotByte s (siteOf s l) i) = name

instance (s : Fs) (l : Loc) (name : Path) : DecidablePred (Named s l name) := fun _ =>
  inferInstanceAs (Decidable (_ ∧ _))

theorem child_eq (s : Fs) (l : Loc) (name : Path) :
    child s l name = ((List.range (slotCount s (siteOf s l))).find? fun i => Named s l name i).map
      (slotNr s (siteOf s l)) := rfl

theorem Slot.legible (h : Slot s l i) (path : Path) : Legible s (siteOf s l) path i where
  block := h.block
  zone := h.zone
  name := by
    obtain ⟨n, hn, hend⟩ := h.name
    exact ⟨n, hn, .inl hend⟩

/-- The code compares a name with the first component. -/
theorem Slot.hit (h : Slot s l i) (hpath : ∀ c ∈ path, c ≠ 0) :
    slotHit s (siteOf s l) path i =
      if Named s l (component path) i then some (afterComponent path) else none := by
  have hcomponent : ∀ c ∈ component path, c ≠ 0 := fun c hc => hpath c (component_mem path c hc).1
  unfold slotHit
  by_cases hlive : slotNr s (siteOf s l) i = 0
  · rw [if_neg fun hnamed : Named s l _ i => hnamed.1 hlive]
    split
    · rfl
    · rw [if_neg (not_not.mpr hlive)]
  · have hspelled := spelled_nameAt h.name
    have hplain : ∀ k, (∀ j ≤ k, slotByte s (siteOf s l) i j ≠ 0) →
        isSeparator (slotByte s (siteOf s l) i k) = false := by
      intro k hk
      have hlt : k < (nameAt (slotByte s (siteOf s l) i)).length := by
        by_contra hge
        exact hk _ (not_lt.mp hge) hspelled.2
      rw [hspelled.1 k hlt]
      exact h.plain hlive _ (List.getElem_mem hlt)
    have hmatch := matched_path hpath hplain
    by_cases hname : nameAt (slotByte s (siteOf s l) i) = component path
    · rw [if_pos ⟨hlive, hname⟩,
        (hmatch _).mpr ⟨rfl, (spelled_iff h.name hcomponent).mpr hname⟩]
      exact if_pos hlive
    · rw [if_neg fun hnamed : Named s l _ i => hname hnamed.2]
      cases hm : matched (slotByte s (siteOf s l) i) path with
      | none => rfl
      | some next =>
          exact absurd ((spelled_iff h.name hcomponent).mp ((hmatch next).mp hm).2) hname

theorem firstHit_eq {n : ℕ} (hslots : ∀ j, i ≤ j → j < i + n → Slot s l j)
    (hpath : ∀ c ∈ path, c ≠ 0) :
    firstHit s (siteOf s l) path n i =
      ((List.range' i n).find? fun j => Named s l (component path) j).map fun j =>
        ⟨slotBuf s (siteOf s l) j, slotOff j, afterComponent path⟩ := by
  induction n generalizing i with
  | zero => rfl
  | succ n ih =>
      unfold firstHit
      rw [(hslots i le_rfl (by omega)).hit hpath, List.range'_succ, List.find?_cons]
      by_cases hnamed : Named s l (component path) i
      · rw [if_pos hnamed, decide_eq_true hnamed]
        rfl
      · rw [if_neg hnamed, decide_eq_false hnamed]
        exact ih fun j hj hj' => hslots j (by omega) (by omega)

/-- The number and the rest of the path that a found entry stands for. -/
def entryView (s : Fs) (e : Found) : ℕ × Path := ((s.data e.buf).read 2 e.off, e.next)

theorem firstHit_child (hslots : ∀ j < slotCount s (siteOf s l), Slot s l j)
    (hpath : ∀ c ∈ path, c ≠ 0) :
    (firstHit s (siteOf s l) path (slotCount s (siteOf s l)) 0).map (entryView s) =
      (child s l (component path)).map fun nr => (nr, afterComponent path) := by
  rw [firstHit_eq (fun j _ hj => hslots j (by omega)) hpath, ← List.range_eq_range', child_eq,
    Option.map_map, Option.map_map]
  rfl

/-! ## The tree -/

theorem matched_dots (hpath : ∀ c ∈ path, c ≠ 0) :
    (matched dots path).isSome = true ↔ component path = dotdot := by
  have hend : ∃ n ≤ 13, dots n = 0 := ⟨2, by decide, rfl⟩
  have hcomponent : ∀ c ∈ component path, c ≠ 0 := fun c hc => hpath c (component_mem path c hc).1
  have hplain : ∀ k, (∀ j ≤ k, dots j ≠ 0) → isSeparator (dots k) = false := by
    intro k _
    unfold dots
    split <;> rfl
  have hmatch := matched_path hpath hplain
  have hname : Spelled dots (component path) ↔ component path = dotdot :=
    (spelled_iff hend hcomponent).trans eq_comm
  rw [Option.isSome_iff_exists]
  constructor
  · rintro ⟨next, hnext⟩
    exact hname.mp ((hmatch next).mp hnext).2
  · exact fun h => ⟨_, (hmatch _).mpr ⟨rfl, hname.mpr h⟩⟩

theorem Tree.up_directory (h : Tree s) {name : Path} (hdir : isDir (fieldOf s l .mode) = true)
    (hnodev : l.1 ≠ NODEV) (hup : up s l name = some d) : isDir (fieldOf s d .mode) = true := by
  unfold up at hup
  split at hup
  · obtain ⟨k, hk, himount⟩ := Option.bind_eq_some_iff.mp hup
    obtain ⟨m, hm, rfl⟩ := Option.map_eq_some_iff.mp himount
    exact h.directory k m (by rwa [superOf_dev hk]) hm
  · cases hup
    exact hdir

theorem child_inode {name : Path} {nr : ℕ} (hslots : ∀ j < slotCount s (siteOf s l), Slot s l j)
    (h : child s l name = some nr) :
    nr ≤ (s.superDesc ((superOf s l.1).getD 0)).inodes := by
  obtain ⟨j, hj, rfl⟩ := Option.map_eq_some_iff.mp h
  exact (hslots j (List.mem_range.mp (List.mem_of_find?_eq_some hj))).inode

/-- A device that a walk has come to. -/
theorem Walk.hosted (h : Walk s₀ ((i, l) :: held) bufs s) : Hosted s₀ l.1 ∧ l.1 ≠ NODEV := by
  have hi : InCore s i := h.inCore List.mem_cons_self
  have hdev : (s.inodes i).dev = l.1 := congrArg Prod.fst (h.locs (i, l) List.mem_cons_self)
  rw [← hdev]
  exact ⟨h.placed.hosted i hi, (h.ledger.sound.used i hi.1).1⟩

/-- The search, in the directory that is left. -/
theorem meets_search {Q : ℕ × Option Found → Fs → Prop} (h : Walk s₀ ((i, l) :: held) bufs s)
    (hreach : Reachable s₀ l) (hdir : isDir (fieldOf s₀ l .mode) = true)
    (hpath : ∀ c ∈ path, c ≠ 0)
    (hQ : ∀ found s', Walk s₀ ((i, l) :: held) ((Found.buf? found).toList ++ bufs) s' →
      found.map (entryView s₀) =
        (child s₀ l (component path)).map (fun nr => (nr, afterComponent path)) →
      Q (i, found) s') :
    Meets e (do
      let entries := (← getField i .size) / DENTRY_SIZE
      return (i, ← findLoop i path entries 0 none 0)) Q s := by
  have hslots := h.tree.slots l hreach hdir
  have hsite : siteAt s i = siteOf s₀ l := by
    rw [h.placed.site i (h.inCore List.mem_cons_self), h.locs (i, l) List.mem_cons_self]
  have himg := h.placed.img
  have hsearch := answers_search path hsite h.owned fun j hj => by
    rw [slotCount_congr himg] at hj
    exact ((hslots j hj).legible path).congr himg
  rw [slotCount_congr himg, firstHit_congr himg] at hsearch
  exact meets_answers h hsearch fun s' h' => hQ _ s' h' (firstHit_child hslots hpath)

theorem meets_findEntry {Q : ℕ × Option Found → Fs → Prop} (h : Walk s₀ ((i, l) :: held) bufs s)
    (hreach : Reachable s₀ l) (hdir : isDir (fieldOf s₀ l .mode) = true)
    (hpath : ∀ c ∈ path, c ≠ 0) (hfew : held.length < 7)
    (hQ : ∀ j d found s', up s₀ l (component path) = some d →
      Walk s₀ ((j, d) :: held) ((Found.buf? found).toList ++ bufs) s' →
      found.map (entryView s₀) =
        (child s₀ d (component path)).map (fun nr => (nr, afterComponent path)) →
      Q (j, found) s') :
    Meets e (findEntry i path) Q s := by
  have hi : InCore s i := h.inCore List.mem_cons_self
  have hl : loc s i = l := h.locs (i, l) List.mem_cons_self
  obtain ⟨⟨k, hk, -, m, hm⟩, hnodev⟩ := h.hosted
  have hdots := matched_dots hpath
  unfold findEntry
  refine meets_bind (meets_gets (meets_bind (meets_check ?_ (meets_bind ?_))))
  · rw [h.desc hi, hl]
    exact hdir
  refine meets_of_run run_matchDots (meets_bind (meets_gets ?_))
  by_cases hup : component path = dotdot ∧ l.2 = 1
  · have hmount : up s₀ l (component path) = some (loc s₀ m) := by
      unfold up mountPoint
      rw [if_pos hup, hk, Option.bind_some, hm]
      rfl
    have hdev : (s₀.supers k).dev ≠ NODEV := by rwa [superOf_dev hk]
    have hcore := h.tree.imount k m hdev hm
    have hm' : (s.supers k).imount = some m := (congrArg (·.2.2) (h.ledger.mounting k)).trans hm
    have hk' : superOf s (s.inodes i).dev = some k := by
      rw [show (s.inodes i).dev = l.1 from congrArg Prod.fst hl, h.superOf, hk]
    rw [if_pos ⟨hdots.mpr hup.1, (congrArg Prod.snd hl).trans hup.2⟩]
    refine meets_bind (meets_gets (meets_bind (meets_theSuper hk' ?_)))
    refine meets_bind (meets_gets (meets_bind ?_))
    rw [hm']
    refine meets_pure (meets_bind ?_)
    refine meets_incCount h (h.ledger.inCore hcore) (by rw [List.length_cons]; omega)
      fun s₁ h₁ => ?_
    rw [h.loc_start hcore.1] at h₁
    refine meets_bind (meets_iput h₁.swap fun s₂ h₂ => meets_bind (meets_pure ?_))
    refine meets_search h₂ (hreach.up hdir hmount) (h.tree.directory k m hdev hm) hpath ?_
    exact fun found s' h' hfound => hQ m _ found s' hmount h' hfound
  · have hstay : up s₀ l (component path) = some l := if_neg hup
    rw [if_neg fun hboth => hup ⟨hdots.mp hboth.1, (congrArg Prod.snd hl).symm.trans hboth.2⟩]
    refine meets_bind (meets_pure ?_)
    exact meets_search h hreach hdir hpath fun found s' h' hfound =>
      hQ i l found s' hstay h' hfound

end Ylos.Paths
