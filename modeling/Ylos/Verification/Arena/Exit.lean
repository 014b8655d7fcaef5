import Ylos.Verification.Arena.Runs

/-! # The page directory of a task that exits

`task_exit` gives back its page directory first and runs on it until `schedule` switches to
another task. In between it only frees, writes, and takes a `request_t` for each buffer that
goes to a device. -/

namespace Ylos.Heap

open Exec

/-- `sizeof(request_t)`. -/
def REQUEST_SIZE : ℕ := 36

/-- What `task_exit` gives back: three pages and the block `task->vmap`. -/
structure Exiting where
  pde : ℕ
  bits : ℕ
  vmap : ℕ
  pwd : ℕ

/-- The calls of `task_exit` from the end of `free_pde` to the first `iput`. -/
def Exiting.script (t : Exiting) : List Call :=
  [.release t.pde 1, .release t.bits 1, .free t.vmap, .release t.pwd 1]

/-- The calls that `iput` and `close` come down to: `device_request` takes a request and
gives it back, and `put_pipe_inode` gives back a queue and its page. -/
def Late : Call → Prop
  | .malloc size => size = REQUEST_SIZE
  | .alloc _ => False
  | .free _ | .release _ _ | .write _ => True

/-- A step of `task_exit`, with the calls that are left of the script. -/
inductive ExitStep (img : Image) : List Call × Sys → Call → List Call × Sys → Prop
  | script {s s' : Sys} {call : Call} {rest : List Call} (hstep : Step img s call s') :
    ExitStep img (call :: rest, s) call (rest, s')
  | write {s s' : Sys} {mem : ℕ → ℕ} {rest : List Call} (hstep : Step img s (.write mem) s') :
    ExitStep img (rest, s) (.write mem) (rest, s')
  | late {s s' : Sys} {call : Call} (hlate : Late call) (hstep : Step img s call s') :
    ExitStep img ([], s) call ([], s')

/-- The descriptor that `kmalloc` finds for a request. -/
def Image.requests (img : Image) : ℕ := img.desc 2

/-- No request has to be carved out of the page `pde`: a block for it is free, or a page
before `pde` is. -/
def Spares (img : Image) (pde : ℕ) (s : Sys) : Call → Prop
  | .malloc _ => s.state.mem (img.requests + 16) ≠ img.requests + 20 ∨
      ∃ page, 256 ≤ page ∧ page < pde ∧ ¬s.state.marked page
  | _ => True

variable {α β : Type} {img : Image} {l : Layout} {live : List (ℕ × ℕ)} {pages : Set ℕ}
  {s s' : State} {map map' : Bitmap} {y y' : Sys} {pde : ℕ}

/-! ## Code that does not take pages -/

/-- `x` leaves `kernel_map` alone. -/
def Still (x : M α) : Prop :=
  ∀ s, wp (fun _ => True) x (fun _ s' => s'.kernelMap = s.kernelMap) s

section Rules

variable {x y : M α} {f : α → M β}

theorem Still.bind (hx : Still x) (hf : ∀ a, Still (f a)) : Still (x >>= f) := by
  intro s
  rw [wp_bind]
  exact wp_mono (hx s) fun a s₁ h₁ => wp_mono (hf a s₁) fun _ s₂ h₂ => h₂.trans h₁

theorem still_pure (a : α) : Still (pure a : M α) := fun _ => (wp_pure a).mpr rfl

theorem still_load (addr : ℕ) : Still (load addr) := fun _ => (wp_gets _).mpr rfl

theorem still_store (addr value : ℕ) : Still (store addr value) := fun _ => (wp_modify _).mpr rfl

theorem still_clear (addr count : ℕ) : Still (clear addr count) := fun _ => (wp_modify _).mpr rfl

theorem still_fault (e : Fault) : Still (fault e : M α) := fun _ => wp_fault e

theorem still_check (p : Prop) [Decidable p] : Still (check p) :=
  fun _ => (wp_check p).mpr fun _ => rfl

theorem Still.ite {p : Prop} [Decidable p] (hx : Still x) (hy : Still y) :
    Still (if p then x else y) := by
  split
  · exact hx
  · exact hy

end Rules

theorem still_searchLoop (list node left next : ℕ) : Still (searchLoop list node left next) := by
  induction left generalizing next with
  | zero => exact still_fault _
  | succ left ih =>
      exact .ite (still_pure _) (.ite (still_pure _) ((still_load _).bind fun _ => ih _))

theorem still_listSearch (list node : ℕ) : Still (listSearch list node) :=
  (still_load _).bind fun _ => still_searchLoop _ _ _ _

theorem still_listPush (list node : ℕ) : Still (listPush list node) := by
  refine (still_listSearch _ _).bind fun _ => (still_check _).bind fun _ => ?_
  refine (still_store _ _).bind fun _ => (still_load _).bind fun _ => ?_
  refine (still_store _ _).bind fun _ => (still_load _).bind fun _ => ?_
  exact (still_store _ _).bind fun _ => still_store _ _

theorem still_listRemove (node : ℕ) : Still (listRemove node) := by
  refine (still_load _).bind fun _ => (still_check _).bind fun _ => ?_
  refine (still_load _).bind fun _ => (still_check _).bind fun _ => ?_
  refine (still_load _).bind fun _ => (still_load _).bind fun _ => ?_
  refine (still_store _ _).bind fun _ => (still_load _).bind fun _ => ?_
  refine (still_load _).bind fun _ => (still_store _ _).bind fun _ => ?_
  exact (still_store _ _).bind fun _ => still_store _ _

theorem still_listPop (list : ℕ) : Still (listPop list) := by
  refine ((still_load _).bind fun _ => still_pure _).bind fun _ => (still_check _).bind fun _ => ?_
  exact (still_load _).bind fun _ => (still_listRemove _).bind fun _ => still_pure _

theorem still_getArenaBlock (arena idx : ℕ) : Still (getArenaBlock arena idx) := by
  refine (still_load _).bind fun _ => (still_load _).bind fun _ => (still_check _).bind fun _ => ?_
  exact (still_load _).bind fun _ => still_pure _

theorem still_fillLoop (arena : ℕ) (is : List ℕ) : Still (fillLoop arena is) := by
  induction is with
  | nil => exact still_pure ()
  | cons i rest ih =>
      refine (still_getArenaBlock _ _).bind fun block => (still_load _).bind fun _ => ?_
      refine (still_listSearch _ _).bind fun _ => (still_check _).bind fun _ => ?_
      refine (still_load _).bind fun _ => (still_listPush _ _).bind fun _ => ?_
      refine (still_load _).bind fun _ => (still_listSearch _ _).bind fun _ => ?_
      exact (still_check _).bind fun _ => ih

theorem still_drainLoop (arena : ℕ) (is : List ℕ) : Still (drainLoop arena is) := by
  induction is with
  | nil => exact still_pure ()
  | cons i rest ih =>
      refine (still_getArenaBlock _ _).bind fun block => (still_load _).bind fun _ => ?_
      refine (still_listSearch _ _).bind fun _ => (still_check _).bind fun _ => ?_
      refine (still_listRemove _).bind fun _ => (still_load _).bind fun _ => ?_
      exact (still_listSearch _ _).bind fun _ => (still_check _).bind fun _ => ih

/-! ## Giving back -/

/-- No page that was free is in use. -/
def Shrinks (map map' : Bitmap) : Prop :=
  map'.offset = map.offset ∧ ∀ i, bitAt map'.bits i = true → bitAt map.bits i = true

theorem Shrinks.of_eq (h : map' = map) : Shrinks map map' := h ▸ ⟨rfl, fun _ hi => hi⟩

theorem Shrinks.trans {map'' : Bitmap} (h : Shrinks map map') (h' : Shrinks map' map'') :
    Shrinks map map'' :=
  ⟨h'.1.trans h.1, fun i hi => h.2 i (h'.2 i hi)⟩

theorem Shrinks.marked (h : Shrinks s.kernelMap s'.kernelMap) (hp : s'.marked pde) :
    s.marked pde := by
  unfold State.marked at hp ⊢
  rw [h.1] at hp
  exact h.2 _ hp

theorem shrinks_resetLoop (left index : ℕ) (s : State) :
    wp (fun _ => True) (resetLoop left index)
      (fun _ s' => Shrinks s.kernelMap s'.kernelMap) s := by
  induction left generalizing index s with
  | zero => exact (wp_pure ()).mpr (.of_eq rfl)
  | succ left ih =>
      unfold resetLoop
      simp only [wp_bind, wp_get, wp_lift, wp_check, wp_modify]
      intro b _ _ map hset
      refine wp_mono (ih _ _) fun _ s' h => Shrinks.trans ?_ h
      change Shrinks s.kernelMap map
      rw [bitmapSet_eq_ok hset]
      refine ⟨rfl, fun i hi => ?_⟩
      dsimp only at hi
      rw [bitAt_putBit] at hi
      split at hi
      · cases hi
      · exact hi

theorem shrinks_freeKpage (vaddr count : ℕ) (s : State) :
    wp (fun _ => True) (freeKpage vaddr count)
      (fun _ s' => Shrinks s.kernelMap s'.kernelMap) s := by
  unfold freeKpage resetPage
  simp only [wp_bind, wp_check]
  exact fun _ _ _ _ => shrinks_resetLoop _ _ s

theorem shrinks_kfree (ptr : ℕ) (s : State) :
    wp (fun _ => True) (kfree ptr) (fun _ s' => Shrinks s.kernelMap s'.kernelMap) s := by
  unfold kfree load
  simp only [wp_bind, wp_check, wp_gets, wp_ite]
  refine fun _ _ _ => ⟨fun _ => shrinks_freeKpage _ _ s, fun _ => ?_⟩
  refine wp_mono (still_listPush _ _ s) fun _ s₁ h₁ => ?_
  refine wp_mono (still_store _ _ s₁) fun _ s₂ h₂ => ?_
  have hsame := h₂.trans h₁
  refine ⟨fun _ => ?_, fun _ => (wp_pure ()).mpr (.of_eq hsame)⟩
  refine wp_mono (still_drainLoop _ _ s₂) fun _ s₃ h₃ => ?_
  exact wp_mono (shrinks_freeKpage _ _ s₃) fun _ s₄ h₄ =>
    (Shrinks.of_eq (h₃.trans hsame)).trans h₄

/-! ## Requests -/

/-- A request has the third size of blocks. -/
theorem run_findDesc_request (h : Stored img l s.mem) :
    (findDesc REQUEST_SIZE ((List.range DESC_COUNT).map img.desc) 0).run s =
      .ok (img.requests, s, []) := by
  have h0 : s.mem (img.desc 0 + 4) = 16 := h.size ⟨0, by decide⟩
  have h1 : s.mem (img.desc 1 + 4) = 32 := h.size ⟨1, by decide⟩
  have h2 : s.mem (img.desc 2 + 4) = 64 := h.size ⟨2, by decide⟩
  have hdescs : (List.range DESC_COUNT).map img.desc =
    [img.desc 0, img.desc 1, img.desc 2, img.desc 3, img.desc 4, img.desc 5, img.desc 6] := rfl
  rw [hdescs]
  unfold findDesc
  rw [run_bind _ (run_load _ s), h0, if_neg (by decide)]
  unfold findDesc
  rw [run_bind _ (run_load _ s), h1, if_neg (by decide)]
  unfold findDesc
  rw [run_bind _ (run_load _ s), h2, if_pos (by decide)]
  rfl

/-- `q` is the first free page. -/
def First (used : Set ℕ) (q : ℕ) : Prop :=
  256 ≤ q ∧ q < 4096 ∧ q ∉ used ∧ ∀ r, 256 ≤ r → r < q → r ∈ used

theorem wp_allocKpage_first {used : Set ℕ} (h : Mapped s.kernelMap used) :
    wp (fun _ => True) (allocKpage 1) (fun _ s' =>
      ∃ q, First used q ∧ Mapped s'.kernelMap (used ∪ {q})) s := by
  have hone : ∀ r : ℕ, Set.Ico r (r + 1) = {r} := fun r => by
    ext x
    rw [Set.mem_Ico, Set.mem_singleton_iff]
    omega
  refine wp_mono (meets_allocKpage h).wp ?_
  rintro _ _ ⟨q, map, -, rfl, -, hlow, hhigh, hfree, hfirst, hmapped⟩
  rw [hone] at hfree hmapped
  refine ⟨q, ⟨hlow, by omega, Set.disjoint_singleton_left.mp hfree, fun r hr hrq => ?_⟩, hmapped⟩
  by_contra hnot
  refine hfirst r hr hrq ?_
  rw [hone]
  exact Set.disjoint_singleton_left.mpr hnot

/-- A request takes the first free page if there is no free block for it. -/
theorem wp_kmalloc_request (h : Inv img l live pages s) :
    wp (fun _ => True) (kmalloc img REQUEST_SIZE) (fun _ s' =>
      (s.mem (img.requests + 16) ≠ img.requests + 20 ∧ s'.kernelMap = s.kernelMap) ∨
        (s.mem (img.requests + 16) = img.requests + 20 ∧
          ∃ q, First (pages ∪ l.covered) q ∧
            Mapped s'.kernelMap (pages ∪ l.covered ∪ {q}))) s := by
  have hrest : ∀ s : State, wp (fun _ => True) (do
      let block ← listPop (img.requests + 12)
      let arena := getBlockArena block
      check ((← load (arena + 12)) = YLOS_MAGIC ∧ (← load (arena + 8)) = 0)
      store (arena + 4) (u32 ((← load (arena + 4)) + (2 ^ 32 - 1)))
      return block) (fun _ s' => s'.kernelMap = s.kernelMap) s := by
    refine (still_listPop _).bind fun block => (still_load _).bind fun _ => ?_
    refine (still_load _).bind fun _ => (still_check _).bind fun _ => ?_
    exact (still_load _).bind fun _ => (still_store _ _).bind fun _ => still_pure _
  have hopen : ∀ arena, Still (do
      clear arena PAGE_SIZE
      store (img.requests + 8) (u32 ((← load (img.requests + 8)) + 1))
      store arena img.requests
      store (arena + 8) 0
      store (arena + 4) (← load img.requests)
      store (arena + 12) YLOS_MAGIC
      fillLoop arena (List.range (← load img.requests))) := by
    intro arena
    refine (still_clear _ _).bind fun _ => (still_load _).bind fun _ => ?_
    refine (still_store _ _).bind fun _ => (still_store _ _).bind fun _ => ?_
    refine (still_store _ _).bind fun _ => (still_load _).bind fun _ => ?_
    refine (still_store _ _).bind fun _ => (still_store _ _).bind fun _ => ?_
    exact (still_load _).bind fun _ => still_fillLoop _ _
  unfold kmalloc
  rw [if_neg (by decide), wp_bind]
  refine wp_of_run (run_findDesc_request h.stored) ?_
  rw [wp_bind, wp_check]
  intro _
  have hlist : (listEmpty (img.requests + 12)).run s =
      .ok (decide (s.mem (img.requests + 16) = img.requests + 20), s, []) := rfl
  rw [wp_bind]
  refine wp_of_run hlist ?_
  rw [wp_ite, decide_eq_true_eq]
  refine ⟨fun hempty => ?_, fun hready => ?_⟩
  · unfold openArena
    rw [wp_bind, wp_bind]
    refine wp_mono (wp_allocKpage_first h.mapped) ?_
    rintro arena s₁ ⟨q, hfirst, hmapped⟩
    refine wp_mono (hopen arena s₁) fun _ s₂ h₂ => wp_mono (hrest s₂) fun _ s₃ h₃ => ?_
    refine .inr ⟨hempty, q, hfirst, ?_⟩
    rw [h₃, h₂]
    exact hmapped
  · exact wp_mono (hrest s) fun _ s' hs' => .inl ⟨hready, hs'⟩

/-- A request gets the page exactly if nothing is spared for it. -/
theorem kmalloc_marks {p : ℕ} {events : List Empty} (h : Inv img l y.live y.pages y.state)
    (hpde : 256 ≤ pde) (hpde' : pde < 4096) (hfree : ¬y.state.marked pde)
    (hrun : (kmalloc img REQUEST_SIZE).run y.state = .ok (p, s', events)) :
    s'.marked pde ↔ ¬Spares img pde y (.malloc REQUEST_SIZE) := by
  have hmarked : ∀ q, 256 ≤ q → q < 4096 → (y.state.marked q ↔ q ∈ y.pages ∪ l.covered) :=
    fun q hq hq' => h.marked_iff hq hq'
  have hunused : pde ∉ y.pages ∪ l.covered := fun hin => hfree ((hmarked pde hpde hpde').mpr hin)
  unfold Spares
  rcases wp_kmalloc_request h p s' events hrun fun _ _ => trivial with
    ⟨hready, hsame⟩ | ⟨hempty, q, ⟨hlow, hhigh, hq, hfirst⟩, hmapped⟩
  · have hnot : ¬s'.marked pde := by
      unfold State.marked
      rw [hsame]
      exact hfree
    exact ⟨fun hp => absurd hp hnot, fun hspares => absurd (.inl hready) hspares⟩
  · have hafter : s'.marked pde ↔ pde = q := by
      unfold State.marked
      rw [hmapped.offset, hmapped.bits pde hpde hpde', Set.mem_union, Set.mem_singleton_iff]
      exact or_iff_right hunused
    rw [hafter]
    constructor
    · rintro rfl (hready | ⟨page, hpage, hlt, hclear⟩)
      · exact hready hempty
      · exact hclear ((hmarked page hpage (by omega)).mpr (hfirst page hpage hlt))
    · intro hspares
      rcases Nat.lt_trichotomy pde q with hlt | heq | hgt
      · exact absurd (hfirst pde hpde hlt) hunused
      · exact heq
      · refine absurd (.inr ⟨q, hlow, hgt, fun hmark => ?_⟩) hspares
        exact hq ((hmarked q hlow hhigh).mp hmark)

/-! ## The end of a task -/

/-- What a call of an exiting task does to a free page. -/
theorem Step.marks {call : Call} (h : Inv img l y.live y.pages y.state) (hpde : 256 ≤ pde)
    (hpde' : pde < 4096) (hfree : ¬y.state.marked pde) (hlate : Late call)
    (hstep : Step img y call y') : y'.state.marked pde ↔ ¬Spares img pde y call := by
  have hshrinks : ∀ {s' : State}, Shrinks y.state.kernelMap s'.kernelMap →
      (s'.marked pde ↔ ¬True) := fun hs =>
    ⟨fun hp => absurd (hs.marked hp) hfree, fun hn => absurd trivial hn⟩
  cases hstep with
  | malloc hrun =>
      cases hlate
      exact kmalloc_marks h hpde hpde' hfree hrun
  | @free p state events hrun =>
      exact hshrinks (shrinks_kfree p y.state () state events hrun fun _ _ => trivial)
  | alloc hrun => exact hlate.elim
  | @release page count state events hrun =>
      exact hshrinks (shrinks_freeKpage _ count y.state () state events hrun fun _ _ => trivial)
  | write => exact hshrinks (.of_eq rfl)

/-- The end of `free_pde`. -/
theorem Step.releases (h : Inv img l y.live y.pages y.state)
    (hok : (Call.release pde 1).Possible y) (hstep : Step img y (.release pde 1) y') :
    ¬y'.state.marked pde ∧ pde ∉ y'.pages := by
  obtain ⟨hpos, hsub⟩ := hok
  cases hstep with
  | @release _ _ state events hrun =>
      obtain ⟨map, hrun', hmapped⟩ := run_freeKpage h.mapped hpos
        (hsub.trans Set.subset_union_left)
      rw [hrun] at hrun'
      cases hrun'
      have hin : pde ∈ Set.Ico pde (pde + 1) := ⟨le_rfl, Nat.lt_succ_self pde⟩
      obtain ⟨hlow, hhigh⟩ := h.mapped.inside pde (.inl (hsub hin))
      refine ⟨fun hmarked => ?_, fun hpage => hpage.2 hin⟩
      unfold State.marked at hmarked
      rw [hmapped.offset, hmapped.bits pde hlow hhigh] at hmarked
      exact hmarked.2 hin

/-- What holds between the calls: the page directory is in use before `free_pde` and free
after it. -/
structure Leaving (img : Image) (t : Exiting) (x : List Call × Sys) : Prop where
  inv : ∃ l, Inv img l x.2.live x.2.pages x.2.state
  suffix : x.1 <:+ t.script
  free : x.1 ≠ t.script → ¬x.2.state.marked t.pde ∧ 256 ≤ t.pde ∧ t.pde < 4096

theorem ExitStep.allowed {t : Exiting} {x x' : List Call × Sys} {call : Call}
    (hsuffix : x.1 <:+ t.script) (h : ExitStep img x call x') : Late call := by
  have hscript : ∀ call ∈ t.script, Late call := by
    intro call hcall
    simp only [Exiting.script, List.mem_cons, List.not_mem_nil, or_false] at hcall
    rcases hcall with rfl | rfl | rfl | rfl <;> trivial
  cases h with
  | script hstep => exact hscript _ (hsuffix.subset List.mem_cons_self)
  | write hstep => trivial
  | late hlate hstep => exact hlate

theorem ExitStep.step {x x' : List Call × Sys} {call : Call} (h : ExitStep img x call x') :
    Step img x.2 call x'.2 ∧ (x'.1 = x.1 ∨ x.1 = call :: x'.1) := by
  cases h with
  | script hstep => exact ⟨hstep, .inr rfl⟩
  | write hstep => exact ⟨hstep, .inl rfl⟩
  | late hlate hstep => exact ⟨hstep, .inl rfl⟩

theorem Leaving.step {t : Exiting} {x x' : List Call × Sys} {call : Call} (h : Leaving img t x)
    (hok : call.Possible x.2) (hspares : Spares img t.pde x.2 call)
    (hstep : ExitStep img x call x') : Leaving img t x' := by
  obtain ⟨l, hinv⟩ := h.inv
  have hlate := hstep.allowed h.suffix
  obtain ⟨hcall, hrest⟩ := hstep.step
  refine ⟨hinv.step hok hcall, ?_, fun hleft => ?_⟩
  · rcases hrest with heq | heq
    · exact heq ▸ h.suffix
    · exact (List.suffix_cons call x'.1).trans (heq ▸ h.suffix)
  · by_cases hstart : x.1 = t.script
    · rcases hrest with heq | heq
      · exact absurd (heq.trans hstart) hleft
      · have hfirst : call = .release t.pde 1 :=
          (List.cons.inj (heq.symm.trans hstart)).1
        subst hfirst
        obtain ⟨hpos, hsub⟩ := hok
        obtain ⟨hlow, hhigh⟩ := hinv.mapped.inside t.pde
          (.inl (hsub ⟨le_rfl, Nat.lt_succ_self _⟩))
        exact ⟨(Step.releases hinv ⟨hpos, hsub⟩ hcall).1, hlow, hhigh⟩
    · obtain ⟨hfree, hlow, hhigh⟩ := h.free hstart
      exact ⟨fun hmarked => (Step.marks hinv hlow hhigh hfree hlate hcall).mp hmarked hspares,
        hlow, hhigh⟩

theorem Inv.release (h : Inv img l y.live y.pages y.state) (page : ℕ) (hpage : page ∈ y.pages) :
    (Call.release page 1).Possible y ∧
      ∃ y', Step img y (.release page 1) y' ∧ y'.live = y.live ∧ y'.pages = y.pages \ {page} := by
  have hone : Set.Ico page (page + 1) = {page} := by
    ext x
    rw [Set.mem_Ico, Set.mem_singleton_iff]
    omega
  have hsub : Set.Ico page (page + 1) ⊆ y.pages := by
    rw [hone]
    exact Set.singleton_subset_iff.mpr hpage
  obtain ⟨map, hrun, -⟩ := run_freeKpage h.mapped Nat.one_pos (hsub.trans Set.subset_union_left)
  exact ⟨⟨Nat.one_pos, hsub⟩, _, .release hrun, rfl, by rw [hone]⟩

end Ylos.Heap
