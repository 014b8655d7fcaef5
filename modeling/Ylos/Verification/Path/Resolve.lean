import Ylos.Verification.Path.Lookup
import Ylos.Verification.Refs.Calls

/-! # `named` and `namei` compute the walk -/

namespace Ylos.Paths

open Exec Dir Refs

variable {s₀ s s' : Fs} {held : List (ℕ × Loc)} {bufs : List BufRef} {i : ℕ} {l d : Loc}
  {path : Path} {e : Prop}

/-- A directory that a walk has come to. -/
def OnTree (s : Fs) (l : Loc) : Prop := Reachable s l ∧ isDir (fieldOf s l .mode) = true

theorem Tree.step_reachable {name : Path} {m : Loc} (ht : Tree s) (h : OnTree s l)
    (hnodev : l.1 ≠ NODEV) (hstep : step s l name = some m) : Reachable s m := by
  obtain ⟨d, hup, hchild⟩ := Option.bind_eq_some_iff.mp hstep
  obtain ⟨nr, hnr, rfl⟩ := Option.map_eq_some_iff.mp hchild
  exact (h.1.up h.2 hup).down (ht.up_directory h.2 hnodev hup) hnr

theorem step_eq {name : Path} (hup : up s l name = some d) :
    step s l name = (child s d name).map fun nr => crossed s (d.1, nr) := by
  unfold step
  rw [hup, Option.bind_some]

theorem run_permission (i mask : ℕ) : (permission i mask).run s = .ok (allowed s.task mask
    (s.desc i .mode) (s.desc i .nlinks) (s.desc i .uid) (s.desc i .gid), s, []) := by
  have hfield : ∀ f, (getField i f).run s = .ok (s.desc i f, s, []) := fun _ => rfl
  unfold permission allowed
  rw [run_bind _ (hfield .mode), run_bind _ (hfield .nlinks)]
  split
  · rfl
  · rw [run_bind _ (run_gets _ s)]
    split
    · rfl
    · rfl

theorem answers_permission (i mask : ℕ) : Answers bufs (permission i mask) s bufs
    (allowed s.task mask (s.desc i .mode) (s.desc i .nlinks) (s.desc i .uid) (s.desc i .gid)) :=
  .of_run (run_permission i mask)

theorem Walk.searched (h : Walk s₀ ((i, l) :: held) bufs s) :
    searched s₀ l = (isDir (s.desc i .mode) && allowed s.task P_EXEC (s.desc i .mode)
      (s.desc i .nlinks) (s.desc i .uid) (s.desc i .gid)) := by
  have hi : InCore s i := h.inCore List.mem_cons_self
  have hl : loc s i = l := h.locs (i, l) List.mem_cons_self
  simp only [h.desc hi, hl, h.task, Paths.searched]

/-- The inode that a found entry names comes into core. -/
theorem meets_entered {α : Type} {k : ℕ → K α} {Q : α → Fs → Prop} {name rest : Path} {nr : ℕ}
    {f : Found} (h : Walk s₀ held bufs s) (htree : OnTree s₀ d)
    (hhosted : Hosted s₀ d.1 ∧ d.1 ≠ NODEV) (hchild : child s₀ d name = some nr)
    (hfound : entryView s₀ f = (nr, rest)) (hroom : e → held.length < (freeSlots s₀).card)
    (hfew : held.length < 8)
    (hk : ∀ i s', Walk s₀ ((i, crossed s₀ (d.1, nr)) :: held) bufs s' → Meets e (k i) Q s') :
    Meets e (do
      let nr ← entryNr f
      let i ← iget d.1 nr
      k i) Q s := by
  have hinode := child_inode (h.tree.slots d htree.1 htree.2) hchild
  refine meets_bind (meets_answers h (answers_getU16 _ _ _) fun s₁ h₁ => ?_)
  have hread : (s.data f.buf).read 2 (f.off + 2 * 0) = nr := by
    unfold Fs.data
    rw [h.placed.img]
    exact congrArg Prod.fst hfound
  rw [hread]
  exact meets_bind (meets_iget h₁ hhosted.1 hhosted.2 hinode hroom hfew hk)

/-- The code has come to a place in the tree, or there is none. -/
inductive Arrived (s₀ : Fs) (held : List (ℕ × Loc)) (bufs : List BufRef) :
    Option (Loc × Path) → Option (ℕ × Path) → Fs → Prop
  | nowhere {s : Fs} : Walk s₀ held bufs s → Arrived s₀ held bufs none none s
  | at_ {s : Fs} {i : ℕ} {l : Loc} {name : Path} : Walk s₀ ((i, l) :: held) bufs s →
      OnTree s₀ l → Arrived s₀ held bufs (some (l, name)) (some (i, name)) s

/-- The way from `l` on along a path, and its last component. -/
noncomputable def parentFrom (s : Fs) (l : Loc) (left : Path) : Option (Loc × Path) :=
  (walk s l (components left).dropLast).map fun l => (l, (components left).getLastD [])

theorem parentFrom_whole (h : ∀ c ∈ path, isSeparator c = false) :
    parentFrom s l path = some (l, path) := by
  unfold parentFrom
  rw [components_whole h]
  rfl

theorem parentFrom_parts (h : ∃ c ∈ path, isSeparator c = true) :
    parentFrom s l path = (step s l (component path)).bind fun m =>
      if searched s m then parentFrom s m (afterComponent path) else none := by
  unfold parentFrom
  rw [dropLast_components h, getLastD_components h, walk, Option.map_bind]
  congr 1
  funext m
  rw [Function.comp_apply]
  split <;> rfl

theorem meets_namedLoop {right left : Path} {fuel : ℕ} (buf : Option BufRef)
    (h : Walk s₀ ((i, l) :: held) (buf.toList ++ bufs) s) (htree : OnTree s₀ l)
    (hleft : ∀ c ∈ left, c ≠ 0) (hright : strrsep left = some right) (hfuel : left.length < fuel)
    (hroom : e → held.length < (freeSlots s₀).card) (hfew : held.length < 7) :
    Meets e (namedLoop right.tail fuel i left buf)
      (Arrived s₀ held bufs (parentFrom s₀ l left)) s := by
  induction fuel generalizing i l left buf s with
  | zero => exact absurd hfuel (Nat.not_lt_zero _)
  | succ fuel ih =>
      obtain ⟨hsep, hplace⟩ := at_last_component hright
      unfold namedLoop
      refine meets_bind ?_
      have hbrelse : Answers (buf.toList ++ bufs) (brelse buf) s bufs () := by
        cases buf with
        | none => exact answers_pure ()
        | some b => exact answers_brelse h.owned
      refine meets_answers h hbrelse fun s₁ h₁ => meets_bind ?_
      refine meets_findEntry h₁ htree.1 htree.2 hleft hfew fun j d found s₂ hup h₂ hfound => ?_
      rw [parentFrom_parts hsep, step_eq hup]
      cases hchild : child s₀ d (component left) with
      | none =>
          rw [hchild] at hfound
          cases found with
          | some e => cases hfound
          | none =>
              refine meets_bind (meets_iput h₂ fun s₃ h₃ => meets_pure ?_)
              exact .nowhere h₃
      | some nr =>
          rw [hchild] at hfound
          cases found with
          | none => cases hfound
          | some e =>
              have hview := Option.some_injective _ hfound
              have hdev : (s₂.inodes j).dev = d.1 :=
                congrArg Prod.fst (h₂.locs (j, d) List.mem_cons_self)
              have htree₂ : OnTree s₀ d :=
                ⟨htree.1.up htree.2 hup, h.tree.up_directory htree.2 h.hosted.2 hup⟩
              refine meets_bind (meets_gets (meets_bind (meets_iput h₂ fun s₃ h₃ => ?_)))
              rw [hdev]
              refine meets_entered h₃ htree₂ h₂.hosted hchild hview hroom (by omega)
                fun m s₅ h₅ => ?_
              rw [Option.map_some, Option.bind_some]
              refine meets_bind (meets_gets (meets_bind ?_))
              refine meets_answers h₅ (answers_permission m P_EXEC) fun s₆ h₆ => ?_
              have hmode : ∀ p q : Bool, (!p || !q) = !(p && q) := by decide
              rw [hmode, ← h₅.searched]
              have hgone : Answers (e.buf :: bufs) (brelse (some e.buf)) s₆ bufs () :=
                answers_brelse h₆.owned
              cases hsearched : searched s₀ (crossed s₀ (d.1, nr)) with
              | false =>
                refine meets_bind (meets_answers h₆ hgone fun s₇ h₇ => ?_)
                exact meets_bind (meets_iput h₇ fun s₈ h₈ => meets_pure (.nowhere h₈))
              | true =>
                have hstep : step s₀ l (component left) = some (crossed s₀ (d.1, nr)) := by
                  rw [step_eq hup, hchild]
                  rfl
                have htree₅ : OnTree s₀ (crossed s₀ (d.1, nr)) := by
                  refine ⟨h.tree.step_reachable htree h.hosted.2 hstep, ?_⟩
                  exact (Bool.and_eq_true_iff.mp hsearched).1
                have hzero : ∀ c ∈ afterComponent left, c ≠ 0 := fun c hc =>
                  hleft c ((afterComponent_suffix left).mem hc)
                rw [show e.next = afterComponent left from congrArg Prod.snd hview]
                rcases hplace with ⟨hlast, hplain⟩ | ⟨hmore, hright'⟩
                · rw [if_pos hlast, parentFrom_whole hplain]
                  exact meets_bind (meets_answers h₆ hgone fun s₇ h₇ => meets_pure (.at_ h₇ htree₅))
                · rw [if_neg hmore]
                  have hlt := afterComponent_length_lt hsep
                  exact ih (some e.buf) h₆ htree₅ hzero hright' (by omega)

theorem parent_eq (s : Fs) (path : Path) :
    parent s path = (start s path).bind fun p => parentFrom s p.1 p.2 := rfl

/-- The last component of a path. -/
theorem parent_name {name : Path} (h : parent s path = some (l, name)) :
    name <:+ path ∧ ∀ c ∈ name, isSeparator c = false := by
  rw [parent_eq] at h
  obtain ⟨⟨m, left⟩, hstart, hparent⟩ := Option.bind_eq_some_iff.mp h
  obtain ⟨d, -, hlast⟩ := Option.map_eq_some_iff.mp hparent
  obtain ⟨-, rfl⟩ := Prod.mk.inj hlast
  obtain ⟨hsuffix, hplain⟩ := last_component left
  refine ⟨hsuffix.trans ?_, hplain⟩
  cases path with
  | nil => cases hstart
  | cons c rest =>
      have hleft := congrArg Prod.snd (Option.some_injective _ hstart)
      dsimp only at hleft
      rw [← hleft]
      split
      · exact List.suffix_cons c rest
      · exact List.suffix_rfl

theorem meets_named (h : Walk s₀ held bufs s) (hpath : ∀ c ∈ path, c ≠ 0)
    (hroom : e → held.length < (freeSlots s₀).card) (hfew : held.length < 7) :
    Meets e (named path) (Arrived s₀ held bufs (parent s₀ path)) s := by
  have hbegin : ∀ i l left, InCore s i → loc s i = l → OnTree s₀ l → (∀ c ∈ left, c ≠ 0) →
      Meets e (namedFrom i left) (Arrived s₀ held bufs (parentFrom s₀ l left)) s := by
    intro i l left hi hl htree hleft
    unfold namedFrom
    refine meets_bind (meets_incCount h hi (by omega) fun s₁ h₁ => ?_)
    rw [hl] at h₁
    cases hright : strrsep left with
    | none =>
        rw [parentFrom_whole (strrsep_eq_none.mp hright)]
        exact meets_ite (fun _ => meets_pure (.at_ h₁ htree)) fun _ => meets_pure (.at_ h₁ htree)
    | some right =>
        refine meets_ite (fun hend => ?_) fun _ => ?_
        · cases left with
          | nil => cases hright
          | cons c left => exact absurd hend (hleft c List.mem_cons_self)
        · exact meets_namedLoop none h₁ htree hleft hright (Nat.lt_succ_self _) hroom hfew
  unfold named
  refine meets_bind (meets_gets ?_)
  rw [h.task]
  cases path with
  | nil => exact meets_pure (.nowhere h)
  | cons c rest =>
      have hcore : ∀ i, InCore s₀ i → InCore s i ∧ loc s i = loc s₀ i := fun i hi =>
        ⟨h.ledger.inCore hi, h.loc_start hi.1⟩
      by_cases hsep : isSeparator c = true
      · have hstart : parent s₀ (c :: rest) = parentFrom s₀ (loc s₀ s₀.task.iroot) rest := by
          simp only [parent_eq, start, hsep, if_true, Option.bind_some]
        simp only [hsep, if_true]
        rw [hstart]
        obtain ⟨hi, hl⟩ := hcore _ h.tree.root
        exact hbegin _ _ _ hi hl ⟨.iroot, h.tree.start.1⟩
          fun d hd => hpath d (List.mem_cons_of_mem c hd)
      · have hstart : parent s₀ (c :: rest) = parentFrom s₀ (loc s₀ s₀.task.ipwd) (c :: rest) := by
          simp only [parent_eq, start, hsep, Bool.false_eq_true, if_false, Option.bind_some]
        simp only [hsep, Bool.false_eq_true, if_false]
        rw [hstart]
        obtain ⟨hi, hl⟩ := hcore _ h.tree.pwd
        exact hbegin _ _ _ hi hl ⟨.ipwd, h.tree.start.2⟩ hpath

/-- What `namei` returns with: the inode that the path leads to, with one more reference. -/
inductive Resolved (s₀ : Fs) (held : List (ℕ × Loc)) (bufs : List BufRef) :
    Option Loc → Option ℕ → Fs → Prop
  | nowhere {s : Fs} : Walk s₀ held bufs s → Resolved s₀ held bufs none none s
  | at_ {s : Fs} {i : ℕ} {l : Loc} : Walk s₀ ((i, l) :: held) bufs s → Reachable s₀ l →
      Resolved s₀ held bufs (some l) (some i) s

theorem meets_namei (h : Walk s₀ held bufs s) (hpath : ∀ c ∈ path, c ≠ 0)
    (hroom : e → held.length + 1 < (freeSlots s₀).card) (hfew : held.length < 6) :
    Meets e (namei path) (Resolved s₀ held bufs (resolve s₀ path)) s := by
  unfold namei resolve
  refine meets_bind (meets_mono (meets_named h hpath (fun he => ?_) (by omega)) ?_)
  · have hmany := hroom he
    omega
  intro r s₁ harrived
  generalize hparent : parent s₀ path = target at harrived
  cases harrived with
  | nowhere h₁ => exact meets_pure (.nowhere h₁)
  | at_ h₁ htree =>
      rename_i dir l name
      obtain ⟨hsuffix, hplain⟩ := parent_name hparent
      have hname : ∀ c ∈ name, c ≠ 0 := fun c hc => hpath c (hsuffix.mem hc)
      rw [Option.bind_some]
      cases name with
      | nil => exact meets_pure (.at_ h₁ htree.1)
      | cons c rest =>
          have hne : chr (c :: rest) ≠ 0 := hname c List.mem_cons_self
          have hwhole := component_whole hplain
          refine meets_ite (fun hend => absurd hend hne) fun _ => meets_bind ?_
          refine meets_findEntry h₁ htree.1 htree.2 hname (by omega)
            fun j d found s₂ hup h₂ hfound => ?_
          rw [hwhole] at hup hfound
          dsimp only
          rw [if_neg (List.cons_ne_nil c rest), step_eq hup]
          cases hchild : child s₀ d (c :: rest) with
          | none =>
              rw [hchild] at hfound
              cases found with
              | some e => cases hfound
              | none => exact meets_bind (meets_iput h₂ fun s₃ h₃ => meets_pure (.nowhere h₃))
          | some nr =>
              rw [hchild] at hfound
              cases found with
              | none => cases hfound
              | some e =>
                  have hview := Option.some_injective _ hfound
                  have hdev : (s₂.inodes j).dev = d.1 :=
                    congrArg Prod.fst (h₂.locs (j, d) List.mem_cons_self)
                  have htree₂ : OnTree s₀ d :=
                    ⟨htree.1.up htree.2 hup, h.tree.up_directory htree.2 h₁.hosted.2 hup⟩
                  refine meets_bind (meets_gets ?_)
                  rw [hdev]
                  refine meets_entered h₂ htree₂ h₂.hosted hchild hview ?_ ?_ fun m s₃ h₃ => ?_
                  · simpa using hroom
                  · rw [List.length_cons]
                    omega
                  refine meets_bind (meets_iput h₃.swap fun s₄ h₄ => meets_bind ?_)
                  have hgone : Answers (e.buf :: bufs) (brelse (some e.buf)) s₄ bufs () :=
                    answers_brelse h₄.owned
                  refine meets_answers h₄ hgone fun s₅ h₅ => meets_pure (.at_ h₅ ?_)
                  exact htree₂.1.down htree₂.2 hchild

/-! ## Paths that lead nowhere -/

/-- The way along the components stops: one is missing, or one that more follow is no directory
that the task may search. An empty last component only marks that a separator was last. -/
def Stuck (s : Fs) (l : Loc) (names : List Path) : Prop :=
  ∃ before name after m, names = before ++ name :: after ∧ walk s l before = some m ∧
    if after = [] then name ≠ [] ∧ step s m name = none
    else ∀ t, step s m name = some t → searched s t = false

theorem walk_append (names : List Path) (last : Path) :
    walk s l (names ++ [last]) = (walk s l names).bind fun m => walk s m [last] := by
  induction names generalizing l with
  | nil => rfl
  | cons name names ih =>
      rw [List.cons_append, walk, walk]
      cases step s l name with
      | none => rfl
      | some m =>
          rw [Option.bind_some, Option.bind_some]
          split
          · exact ih
          · rfl

theorem stuck_cons {name : Path} {names : List Path} (hnames : names ≠ []) :
    Stuck s l (name :: names) ↔ (∀ t, step s l name = some t → searched s t = false) ∨
      ∃ t, step s l name = some t ∧ searched s t = true ∧ Stuck s t names := by
  constructor
  · rintro ⟨before, c, after, m, hsplit, hwalk, hstop⟩
    cases before with
    | nil =>
        obtain ⟨rfl, rfl⟩ := List.cons.inj hsplit
        cases hwalk
        rw [if_neg hnames] at hstop
        exact .inl hstop
    | cons b before =>
        obtain ⟨rfl, rfl⟩ := List.cons.inj hsplit
        obtain ⟨t, ht, hrest⟩ := Option.bind_eq_some_iff.mp hwalk
        split at hrest
        · rename_i hsearched
          exact .inr ⟨t, ht, hsearched, before, c, after, m, rfl, hrest, hstop⟩
        · cases hrest
  · rintro (hstop | ⟨t, ht, hsearched, before, c, after, m, rfl, hwalk, hstop⟩)
    · exact ⟨[], name, names, l, rfl, rfl, by rwa [if_neg hnames]⟩
    · refine ⟨name :: before, c, after, m, rfl, ?_, hstop⟩
      rw [walk, ht, Option.bind_some, if_pos hsearched, hwalk]

/-- What follows the walk to the last component in `namei`. -/
def lastStep (s : Fs) (m : Loc) (name : Path) : Option Loc :=
  if name = [] then some m else step s m name

theorem lastStep_eq_none {names : List Path} (last : Path) :
    (walk s l names).bind (fun m => lastStep s m last) = none ↔ Stuck s l (names ++ [last]) := by
  induction names generalizing l with
  | nil =>
      rw [walk, Option.bind_some, lastStep, List.nil_append]
      constructor
      · intro hnone
        refine ⟨[], last, [], l, rfl, rfl, ?_⟩
        by_cases hlast : last = []
        · rw [if_pos hlast] at hnone
          cases hnone
        · rw [if_neg hlast] at hnone
          rw [if_pos rfl]
          exact ⟨hlast, hnone⟩
      · rintro ⟨before, c, after, m, hsplit, hwalk, hstop⟩
        cases before with
        | nil =>
            obtain ⟨rfl, rfl⟩ := List.cons.inj hsplit
            cases hwalk
            rw [if_pos rfl] at hstop
            rw [if_neg hstop.1, hstop.2]
        | cons b before =>
            obtain ⟨-, hnil⟩ := List.cons.inj hsplit
            exact absurd hnil.symm (by simp)
  | cons name names ih =>
      rw [List.cons_append, stuck_cons (by simp), walk]
      cases hstep : step s l name with
      | none => simp
      | some t =>
          cases hsearched : searched s t with
          | false => simp [hsearched]
          | true => simpa [hsearched] using ih

theorem resolve_eq_none (s : Fs) (path : Path) : resolve s path = none ↔
    path = [] ∨ ∃ l left, start s path = some (l, left) ∧ Stuck s l (components left) := by
  unfold resolve
  rw [parent_eq]
  cases path with
  | nil => simp [start]
  | cons c rest =>
      obtain ⟨⟨l, left⟩, hstart⟩ : ∃ p, start s (c :: rest) = some p := ⟨_, rfl⟩
      have hne := components_ne_nil left
      have hsplit : (components left).dropLast ++ [(components left).getLastD []] =
          components left := by
        rw [List.getLastD_eq_getLast?, List.getLast?_eq_some_getLast hne, Option.getD_some]
        exact List.dropLast_append_getLast hne
      have hlast := @lastStep_eq_none s l (components left).dropLast
        ((components left).getLastD [])
      rw [hsplit] at hlast
      rw [hstart, Option.bind_some, parentFrom, Option.bind_map]
      refine Iff.trans hlast ⟨fun hstuck => .inr ⟨l, left, rfl, hstuck⟩, ?_⟩
      rintro (hnil | ⟨_, _, heq, hstuck⟩)
      · cases hnil
      · cases heq
        exact hstuck

/-- A directory has no entry without a name, so two adjacent separators lead nowhere. -/
theorem Tree.child_nil (h : Tree s) (hl : OnTree s l) : child s l [] = none := by
  rw [child_eq, Option.map_eq_none_iff]
  refine List.find?_eq_none.mpr fun i hi hnamed => ?_
  have hslot := h.slots l hl.1 hl.2 i (List.mem_range.mp hi)
  obtain ⟨hlive, hname⟩ := of_decide_eq_true hnamed
  exact hslot.nonempty hlive hname

/-- `namei` and `named` return, and what they return is where the walk along the components
leads; it leads nowhere exactly if it gets stuck. -/
theorem path_resolved (h : Tree s) (hroom : 2 ≤ (freeSlots s).card) (hpath : ∀ c ∈ path, c ≠ 0) :
    Returns (namei path) (fun r s' => r.map (loc s') = resolve s path ∧
      Walk s (r.toList.map fun i => (i, loc s' i)) [] s') s ∧
    Returns (named path) (fun r s' =>
      r.map (fun p => (loc s' p.1, p.2)) = parent s path ∧
      Walk s (r.toList.map fun p => (p.1, loc s' p.1)) [] s') s ∧
    (resolve s path = none ↔
      path = [] ∨ ∃ l left, start s path = some (l, left) ∧ Stuck s l (components left)) ∧
    ∀ l, OnTree s l → child s l [] = none := by
  refine ⟨?_, ?_, resolve_eq_none s path, fun l hl => h.child_nil hl⟩
  · refine returns_mono ((meets_namei (e := 2 ≤ (freeSlots s).card) h.walk hpath ?_ ?_).returns
      hroom) fun r s' hr => ?_
    · exact fun he => he
    · exact Nat.zero_lt_succ 5
    generalize resolve s path = target at hr
    cases hr with
    | nowhere h' => exact ⟨rfl, h'⟩
    | @at_ _ i l h' _ =>
        have hl : loc s' i = l := h'.locs (i, l) List.mem_cons_self
        rw [Option.map_some, hl]
        exact ⟨rfl, by simpa [hl] using h'⟩
  · refine returns_mono ((meets_named (e := 2 ≤ (freeSlots s).card) h.walk hpath ?_ ?_).returns
      hroom) fun r s' hr => ?_
    · exact fun he => lt_of_lt_of_le Nat.zero_lt_two he
    · exact Nat.zero_lt_succ 6
    generalize parent s path = target at hr
    cases hr with
    | nowhere h' => exact ⟨rfl, h'⟩
    | @at_ _ i l name h' _ =>
        have hl : loc s' i = l := h'.locs (i, l) List.mem_cons_self
        rw [Option.map_some, hl]
        exact ⟨rfl, by simpa [hl] using h'⟩

/-! ## A small tree -/

/-- The blocks of a device with the directories `/` and `/d`. -/
def grownBlock : ℕ → List UInt8
  | 1 => [8, 0, 16, 0, 1, 0, 1, 0, 5, 0]
  | 4 => [237, 65, 0, 0, 48, 0, 0, 0, 0, 0, 0, 0, 0, 3, 5, 0] ++ List.replicate 16 0 ++
      [237, 65, 0, 0, 32, 0, 0, 0, 0, 0, 0, 0, 0, 2, 6, 0]
  | 5 => [1, 0, 46] ++ List.replicate 13 0 ++ [1, 0, 46, 46] ++ List.replicate 12 0 ++ [2, 0, 100]
  | 6 => [2, 0, 46] ++ List.replicate 13 0 ++ [1, 0, 46, 46]
  | _ => []

/-- `/` is in core, and nothing else. -/
def grown : Fs := { rooted with img := fun _ k o => (grownBlock k).getD o 0 }

theorem grown_slot {i : ℕ} (hi : (grown.inodes i).count ≠ 0) : i = 0 := rooted_slot hi

theorem grown_kept (b : BufRef) : (kept grown b : ℤ) ≤ grown.refs b := by
  have hsub : ∀ i ∈ Finset.range INODE_NR, keeps (grown.inodes i) = some b →
      i = 0 ∧ b = ⟨1, 4⟩ := by
    intro i _ hkeeps
    by_cases hi : i = 0
    · subst hi
      exact ⟨rfl, (Option.some_injective _ hkeeps).symm⟩
    · unfold keeps at hkeeps
      rw [if_pos (.inl (not_ne_iff.mp (mt grown_slot hi)))] at hkeeps
      cases hkeeps
  by_cases hb : b = ⟨1, 4⟩
  · have hle : kept grown b ≤ 1 := by
      unfold kept refCount
      refine Finset.card_le_one.mpr fun i hi j hj => ?_
      rw [Finset.mem_filter] at hi hj
      rw [(hsub i hi.1 hi.2).1, (hsub j hj.1 hj.2).1]
    rw [show grown.refs b = 1 from if_pos hb]
    exact_mod_cast hle
  · have hzero : kept grown b = 0 := refCount_eq_zero fun i hi hkeeps => hb (hsub i hi hkeeps).2
    rw [hzero, show grown.refs b = 0 from if_neg hb]
    rfl

theorem grown_reachable {l : Loc} (h : Reachable grown l) : l = (1, 1) ∨ l = (1, 2) := by
  have hchild : ∀ l : Loc, l = (1, 1) ∨ l = (1, 2) → ∀ name nr, child grown l name = some nr →
      nr = 1 ∨ nr = 2 := by
    rintro l hl name nr hchild
    obtain ⟨i, hi, rfl⟩ := Option.map_eq_some_iff.mp hchild
    have hlt := List.mem_range.mp (List.mem_of_find?_eq_some hi)
    have hall : ∀ l ∈ [((1, 1) : Loc), (1, 2)], ∀ i < slotCount grown (siteOf grown l),
        slotNr grown (siteOf grown l) i = 1 ∨ slotNr grown (siteOf grown l) i = 2 := by
      decide
    exact hall l (by simpa using hl) i hlt
  induction h with
  | iroot => exact .inl rfl
  | ipwd => exact .inl rfl
  | @up l d name _ _ hup ih =>
      unfold up at hup
      split at hup
      · rename_i hroot
        obtain rfl : l = (1, 1) := ih.resolve_right fun h => by
          rw [h] at hroot
          cases hroot.2
        rw [show mountPoint grown ((1, 1) : Loc).1 = some (1, 1) by decide] at hup
        cases hup
        exact .inl rfl
      · cases hup
        exact ih
  | @down l name nr _ _ hnr ih =>
      have hdev : l.1 = 1 := by rcases ih with rfl | rfl <;> rfl
      rw [hdev]
      rcases hchild l ih name nr hnr with rfl | rfl
      · exact .inl (by decide)
      · exact .inr (by decide)

theorem grown_tree : Tree grown where
  sound := ⟨rooted_wellFormed.sound.slot, rooted_wellFormed.sound.free,
    rooted_wellFormed.sound.used, rooted_wellFormed.sound.nodup, rooted_wellFormed.sound.listed⟩
  free := rooted_wellFormed.free
  few := rooted_wellFormed.few
  iroot := rooted_wellFormed.iroot
  imount := rooted_wellFormed.imount
  top := rooted_wellFormed.top
  root := rooted_wellFormed.root
  pwd := rooted_wellFormed.pwd
  placed := by
    refine ⟨rfl, fun _ => rfl, fun i hi => ?_, fun i hi => ?_, fun i hi => ?_,
      fun k i hi => ?_, fun i j hi hj _ => ?_⟩
    · rw [grown_slot hi.1]
      decide
    · rw [grown_slot hi.1]
      exact ⟨0, by decide, by decide⟩
    · rw [grown_slot hi.1]
      exact ⟨0, by decide, ⟨0, rfl, rfl⟩, 0, rfl⟩
    · by_cases hk : k = 0
      · subst hk
        rw [List.mem_singleton.mp hi]
        rfl
      · simp [grown, rooted, hk] at hi
    · rw [grown_slot hi.1, grown_slot hj.1]
  first := ⟨by decide, rfl⟩
  kept := grown_kept
  mounted i hi := by
    refine absurd ?_ hi
    by_cases h : i = 0 <;> simp [grown, rooted, h]
  mounts k i hk hi := by
    rw [rooted_super hk] at hi ⊢
    cases hi
    exact .inr ⟨rfl, rfl⟩
  start := by decide
  slots l hl _ i hi := by
    have hall : ∀ l ∈ [((1, 1) : Loc), (1, 2)], ∀ i < slotCount grown (siteOf grown l),
        i / BLOCK_DENTRIES < TOTAL_BLOCK ∧
        fileZone grown (siteOf grown l) (i / BLOCK_DENTRIES) ≠ 0 ∧
        slotByte grown (siteOf grown l) i 2 = 0 ∧
        nameAt (slotByte grown (siteOf grown l) i) ≠ [] ∧
        (∀ c ∈ nameAt (slotByte grown (siteOf grown l) i), isSeparator c = false) ∧
        slotNr grown (siteOf grown l) i ≤ 8 := by decide +kernel
    obtain ⟨hblock, hzone, hend, hne, hplain, hnr⟩ :=
      hall l (by simpa using grown_reachable hl) i hi
    refine ⟨hblock, hzone, ⟨2, by decide, hend⟩, fun _ => hne, fun _ => hplain, ?_⟩
    rcases grown_reachable hl with rfl | rfl
    · exact hnr
    · exact hnr
  directory k i hk hi := by
    rw [rooted_super hk] at hi
    cases hi
    decide

/-- `/d/..` is the root. -/
theorem grown_resolved : Returns (namei [47, 100, 47, 46, 46])
    (fun r s' => r.map (loc s') = some (1, 1) ∧
      Walk grown (r.toList.map fun i => (i, loc s' i)) [] s') grown := by
  have hnamei := (@path_resolved grown [47, 100, 47, 46, 46] grown_tree (by decide)
    (by simp)).1
  have hresolve : resolve grown [47, 100, 47, 46, 46] = some (1, 1) := by
    have hparts : components [100, 47, 46, 46] = [[100], [46, 46]] := by
      rw [show ([100, 47, 46, 46] : Path) = [100] ++ 47 :: [46, 46] from rfl,
        components_cons (by simp [isSeparator]) rfl, components_whole (by simp [isSeparator])]
    have hparent : parent grown [47, 100, 47, 46, 46] = some ((1, 2), [46, 46]) := by
      rw [parent_eq, show start grown [47, 100, 47, 46, 46] =
        some ((1, 1), [100, 47, 46, 46]) from rfl, Option.bind_some, parentFrom, hparts]
      decide
    rw [resolve, hparent]
    decide
  rwa [hresolve] at hnamei

end Ylos.Paths
