import Ylos.Verification.Mutex.Exclusion
import Ylos.Verification.Task.Reaping

/-! # The steps of `kernel/mutex.c`

No assertion fails, and every step keeps the locks in order, as long as nobody takes a lock
2^32 times. -/

namespace Ylos.Sched

open Exec

variable {x x' : Sync} {s s' : State} {t u l m d : ℕ} {stage : Stage} {o : Option Stage}

/-- Nobody takes a lock that it has 2^32 - 1 times already. -/
def Shallow (x : Sync) (call : SyncCall) : Prop :=
  ∀ l, call = .enter .acquire l → x.depth x.sched.current l + 1 < 2 ^ 32

/-! ## Entering a function -/

theorem next_enter {e : Entry}
    (hrun : (e.code x.sched.current l).run x.sched = .ok (stage, x.sched, [])) :
    x.next (.enter e l) = .ok (x.setStage x.sched.current (some (l, stage))) := by
  dsimp only [Sync.next]
  rw [hrun]
  rfl

theorem moves_enter (h : x.stage x.sched.current = none) (l : ℕ) (stage : Stage) :
    Moves x (x.setStage x.sched.current (some (l, stage))) l :=
  ⟨fun _ _ => rfl, rfl, fun _ _ _ => rfl, fun _ hu => if_neg hu, .inl h,
    .inr ⟨stage, if_pos rfl⟩⟩

theorem stageAt_setStage (x : Sync) (t l : ℕ) (stage : Stage) :
    (x.setStage t (some (l, stage))).stageAt t l = some stage :=
  Sync.stageAt_of_stage (if_pos rfl)

/-- The task that has the mutex goes to a stage that its fields fit. -/
theorem Ordered.enter_owned (h : Ordered x) (hstage : x.stage x.sched.current = none)
    (hidle : x.sched.current ≠ x.sched.idle) (hinside : Inside x x.sched.current l)
    (htenure : Tenure (x.bare l) (x.sched.locks l) x.sched.current
      (x.depth x.sched.current l) (some stage)) :
    Ordered (x.setStage x.sched.current (some (l, stage))) := by
  have hmoves := moves_enter hstage l stage
  obtain ⟨hall, -⟩ := (h.held l).of_inside hinside
  refine h.quiet hmoves hidle rfl (hmoves.owned hall ?_) (h.depth _ l) (.inl htenure.value)
  rw [stageAt_setStage]
  exact htenure

/-- A task without the mutex starts to wait for it. -/
theorem Ordered.enter_unowned (h : Ordered x) (hstage : x.stage x.sched.current = none)
    (hidle : x.sched.current ≠ x.sched.idle) (hnot : ¬Inside x x.sched.current l) :
    Ordered (x.setStage x.sched.current (some (l, .locking))) := by
  have hmoves := moves_enter hstage l .locking
  refine h.quiet hmoves hidle rfl (hmoves.unowned (h.held l) rfl hnot ?_) (h.depth _ l)
    (.inr ⟨rfl, hstage⟩)
  rintro (hdepth | ⟨stage, heq, hne⟩)
  · exact hnot (.inl hdepth)
  · rw [stageAt_setStage] at heq
    cases heq
    exact hne rfl

/-- What the fields of a mutex are while a task with it is outside of the functions. -/
theorem Ordered.tenure_out (h : Ordered x) (hstage : x.stage t = none) (hinside : Inside x t l) :
    (x.bare l = true ∧ x.sched.locks l = ⟨true, none, 0⟩ ∧ x.depth t l = 1) ∨
      (x.bare l = false ∧ x.sched.locks l = ⟨true, some t, x.depth t l⟩ ∧ 1 ≤ x.depth t l) := by
  have htenure := ((h.held l).of_inside hinside).2
  rw [Sync.stageAt_none hstage] at htenure
  exact htenure

theorem Ordered.inside_of_holder (h : Ordered x) (hholder : (x.sched.locks l).holder = some t) :
    Inside x t l := by
  rcases h.held l with ⟨hfree, -⟩ | ⟨u, -, htenure⟩
  · rw [hfree] at hholder
    cases hholder
  · have hu : u = t := by
      rcases htenure.holder with heq | heq
      · exact Option.some.inj (heq.symm.trans hholder)
      · rw [heq] at hholder
        cases hholder
    rw [← hu]
    exact htenure.inside

theorem Ordered.enter (h : Ordered x) {e : Entry}
    (hpossible : SyncCall.Possible x (.enter e l)) (hshallow : Shallow x (.enter e l)) :
    ∃ x', x.next (.enter e l) = .ok x' ∧ Ordered x' := by
  obtain ⟨hstage, hidle, hentry⟩ := hpossible
  cases e with
  | acquire =>
      by_cases hholder : (x.sched.locks l).holder = some x.sched.current
      · have hrun : (Entry.acquire.code x.sched.current l).run x.sched =
            .ok (.again, x.sched, []) := by
          unfold Entry.code
          rw [run_bind _ (run_gets _ x.sched), if_neg (not_not.mpr hholder)]
          rfl
        have hinside := h.inside_of_holder hholder
        refine ⟨_, next_enter hrun, h.enter_owned hstage hidle hinside ?_⟩
        rcases h.tenure_out hstage hinside with htenure | ⟨-, hlock, hdepth⟩
        · rw [htenure.1] at hentry
          cases hentry
        · exact ⟨hentry, hlock, hdepth, hshallow l rfl⟩
      · have hrun : (Entry.acquire.code x.sched.current l).run x.sched =
            .ok (.locking, x.sched, []) := by
          unfold Entry.code
          rw [run_bind _ (run_gets _ x.sched), if_pos hholder]
          rfl
        refine ⟨_, next_enter hrun, h.enter_unowned hstage hidle fun hinside => hholder ?_⟩
        rcases h.tenure_out hstage hinside with htenure | ⟨-, hlock, -⟩
        · rw [htenure.1] at hentry
          cases hentry
        · rw [hlock]
  | release =>
      have hinside : Inside x x.sched.current l := .inl hentry.2
      rcases h.tenure_out hstage hinside with htenure | ⟨-, hlock, hdepth⟩
      · rw [htenure.1] at hentry
        cases hentry.1
      · have hrun : (Entry.release.code x.sched.current l).run x.sched =
            .ok (.testing, x.sched, []) := by
          have hholder : (x.sched.locks l).holder = some x.sched.current := by rw [hlock]
          unfold Entry.code
          rw [run_bind _ (run_gets _ x.sched), run_bind _ (run_check_pos hholder x.sched)]
          rfl
        exact ⟨_, next_enter hrun,
          h.enter_owned hstage hidle hinside ⟨hentry.1, hlock, hdepth⟩⟩
  | lock =>
      by_cases hinside : Inside x x.sched.current l
      · refine ⟨_, next_enter rfl, h.enter_owned hstage hidle hinside ?_⟩
        rcases h.tenure_out hstage hinside with htenure | ⟨hbare, -⟩
        · exact htenure
        · rw [hentry] at hbare
          cases hbare
      · exact ⟨_, next_enter rfl, h.enter_unowned hstage hidle hinside⟩
  | unlock =>
      have hinside : Inside x x.sched.current l := .inl hentry.2
      refine ⟨_, next_enter rfl, h.enter_owned hstage hidle hinside ?_⟩
      rcases h.tenure_out hstage hinside with ⟨-, htenure⟩ | ⟨hbare, -⟩
      · exact htenure
      · rw [hentry.1] at hbare
        cases hbare

/-! ## Going on -/

theorem next_go (hstage : x.stage x.sched.current = some (l, stage))
    (hrun : (stage.code (x.bare l) x.sched.current l).run x.sched = .ok (o, s', [])) :
    x.next .go = .ok { x.advance l stage o with sched := s' } := by
  dsimp only [Sync.next]
  rw [hstage]
  dsimp only
  rw [hrun]
  rfl

/-- The depth after a step. -/
def Sync.depthAfter (x : Sync) (l : ℕ) (stage : Stage) : Option Stage → ℕ
  | some _ => x.depth x.sched.current l
  | none => stage.result (x.depth x.sched.current l)

theorem advance_stage (x : Sync) (l : ℕ) (stage : Stage) (o : Option Stage) (u : ℕ) :
    (x.advance l stage o).stage u =
      if u = x.sched.current then o.map (l, ·) else x.stage u := by
  cases o with
  | none => rfl
  | some next => rfl

theorem advance_depth (x : Sync) (l : ℕ) (stage : Stage) (o : Option Stage) (u m : ℕ) :
    (x.advance l stage o).depth u m =
      if u = x.sched.current ∧ m = l then x.depthAfter l stage o else x.depth u m := by
  cases o with
  | none => rfl
  | some next =>
      change x.depth u m = if u = x.sched.current ∧ m = l then x.depth x.sched.current l else _
      split
      · rename_i heq
        rw [heq.1, heq.2]
      · rfl

theorem advance_stageAt (x : Sync) (l : ℕ) (stage : Stage) (o : Option Stage) (s' : State) :
    Sync.stageAt { x.advance l stage o with sched := s' } x.sched.current l = o := by
  unfold Sync.stageAt
  dsimp only
  rw [advance_stage, if_pos rfl]
  cases o with
  | none => rfl
  | some next => exact if_pos rfl

theorem moves_advance (hstage : x.stage x.sched.current = some (l, stage))
    (hlocks : ∀ m, m ≠ l → s'.locks m = x.sched.locks m) :
    Moves x { x.advance l stage o with sched := s' } l := by
  refine ⟨hlocks, ?_, fun u m hu => ?_, fun u hu => ?_, .inr ⟨stage, hstage⟩, ?_⟩
  · cases o with
    | none => rfl
    | some next => rfl
  · dsimp only
    rw [advance_depth, if_neg hu]
  · dsimp only
    rw [advance_stage, if_neg hu]
  · dsimp only
    rw [advance_stage, if_pos rfl]
    cases o with
    | none => exact .inl rfl
    | some next => exact .inr ⟨next, rfl⟩

/-- The task that has the mutex makes a step without a switch. -/
theorem Ordered.go_owned (h : Ordered x) (hstage : x.stage x.sched.current = some (l, stage))
    (hsched : s' = { x.sched with locks := s'.locks })
    (hlocks : ∀ m, m ≠ l → s'.locks m = x.sched.locks m)
    (hall : ∀ u, Inside x u l → u = x.sched.current)
    (htenure : Tenure (x.bare l) (s'.locks l) x.sched.current (x.depthAfter l stage o) o)
    (hcount : x.depthAfter l stage o < 2 ^ 32) :
    Ordered { x.advance l stage o with sched := s' } := by
  have hmoves := moves_advance (o := o) hstage hlocks
  have hdepth : (x.advance l stage o).depth x.sched.current l = x.depthAfter l stage o := by
    rw [advance_depth, if_pos ⟨rfl, rfl⟩]
  have hidle := (h.busy _ _ _ hstage).2.1
  refine h.quiet hmoves hidle hsched (hmoves.owned hall ?_) ?_ (.inl htenure.value)
  · rw [advance_stageAt]
    dsimp only
    rw [hdepth]
    exact htenure
  · dsimp only
    rw [hdepth]
    exact hcount

theorem setLock_locks (s : State) (l : ℕ) (v : Lock) (m : ℕ) (hm : m ≠ l) :
    (s.setLock l v).locks m = s.locks m := if_neg hm

theorem setLock_self (s : State) (l : ℕ) (v : Lock) : (s.setLock l v).locks l = v := if_pos rfl

/-- The statements in which a task only reads and writes the fields of the lock it has. -/
theorem Ordered.go_fields (h : Ordered x) (hstage : x.stage x.sched.current = some (l, stage))
    (hlocking : stage ≠ .locking) (hunlocking : stage ≠ .unlocking) :
    ∃ x', x.next .go = .ok x' ∧ Ordered x' := by
  have hinside : Inside x x.sched.current l :=
    .inr ⟨stage, Sync.stageAt_of_stage hstage, hlocking⟩
  obtain ⟨hall, htenure⟩ := (h.held l).of_inside hinside
  have hcount := h.depth x.sched.current l
  rw [Sync.stageAt_of_stage hstage] at htenure
  -- what the statement leaves in the lock fits the next stage
  have hwrite : ∀ (o : Option Stage) (v : Lock),
      (stage.code (x.bare l) x.sched.current l).run x.sched =
        .ok (o, x.sched.setLock l v, []) →
      Tenure (x.bare l) v x.sched.current (x.depthAfter l stage o) o →
      x.depthAfter l stage o < 2 ^ 32 → ∃ x', x.next .go = .ok x' ∧ Ordered x' := by
    intro o v hrun htenure' hcount'
    refine ⟨_, next_go hstage hrun, h.go_owned hstage rfl (setLock_locks _ l v) hall ?_ hcount'⟩
    rw [setLock_self]
    exact htenure'
  have hread : ∀ o : Option Stage,
      (stage.code (x.bare l) x.sched.current l).run x.sched = .ok (o, x.sched, []) →
      Tenure (x.bare l) (x.sched.locks l) x.sched.current (x.depthAfter l stage o) o →
      x.depthAfter l stage o < 2 ^ 32 → ∃ x', x.next .go = .ok x' ∧ Ordered x' :=
    fun o hrun htenure' hcount' =>
      ⟨_, next_go hstage hrun, h.go_owned hstage rfl (fun _ _ => rfl) hall htenure' hcount'⟩
  cases stage with
  | locking => exact absurd rfl hlocking
  | unlocking => exact absurd rfl hunlocking
  | again =>
      obtain ⟨hbare, hlock, hdepth, hroom⟩ := htenure
      refine hwrite none _ rfl (.inr ⟨hbare, ?_, Nat.succ_le_succ (Nat.zero_le _)⟩) hroom
      rw [hlock]
      dsimp only
      rw [Nat.mod_eq_of_lt hroom]
      rfl
  | taking =>
      obtain ⟨hbare, hlock, hdepth⟩ := htenure
      refine hwrite (some .counting) _ rfl ⟨hbare, ?_, hdepth⟩ hcount
      rw [hlock]
  | counting =>
      obtain ⟨hbare, hlock, hdepth⟩ := htenure
      refine hread (some .starting) ?_ ⟨hbare, hlock, hdepth⟩ hcount
      have hzero : (x.sched.locks l).repeats = 0 := by rw [hlock]
      unfold Stage.code
      rw [run_bind _ (run_gets _ x.sched), run_bind _ (run_check_pos hzero x.sched)]
      rfl
  | starting =>
      obtain ⟨hbare, hlock, hdepth⟩ := htenure
      have hone : x.depthAfter l .starting none = 1 := congrArg (· + 1) hdepth
      refine hwrite none _ rfl (.inr ⟨hbare, ?_, hone.ge⟩) (by rw [hone]; decide)
      rw [hlock, hone]
  | testing =>
      obtain ⟨hbare, hlock, hdepth⟩ := htenure
      have hrepeats : (x.sched.locks l).repeats = x.depth x.sched.current l := by rw [hlock]
      by_cases hmore : 1 < x.depth x.sched.current l
      · refine hread (some .lessening) ?_ ⟨hbare, hlock, hmore⟩ hcount
        unfold Stage.code
        rw [run_bind _ (run_gets _ x.sched), hrepeats, if_pos hmore]
        rfl
      · have hone : x.depth x.sched.current l = 1 := by omega
        refine hread (some .dropping) ?_ ⟨hbare, ?_, hone⟩ hcount
        · unfold Stage.code
          rw [run_bind _ (run_gets _ x.sched), hrepeats, if_neg hmore,
            run_bind _ (run_gets _ x.sched), run_bind _ (run_check_pos (hrepeats.trans hone) _)]
          rfl
        · rw [hlock, hone]
  | lessening =>
      obtain ⟨hbare, hlock, hdepth⟩ := htenure
      refine hwrite none _ rfl (.inr ⟨hbare, ?_, Nat.le_sub_of_add_le hdepth⟩) ?_
      · rw [hlock]
        rfl
      · exact Nat.lt_of_le_of_lt (Nat.sub_le _ _) hcount
  | dropping =>
      obtain ⟨hbare, hlock, hdepth⟩ := htenure
      refine hwrite (some .clearing) _ rfl ⟨hbare, ?_, hdepth⟩ hcount
      rw [hlock]
  | clearing =>
      obtain ⟨hbare, hlock, hdepth⟩ := htenure
      refine hwrite (some .unlocking) _ rfl ⟨?_, hdepth⟩ hcount
      rw [hlock]

/-! ## The loop of `mutex_lock` -/

/-- A linked task keeps its state when the processor goes to another. -/
theorem switchTo_state {next : ℕ} {k : ListId} (h : Linked s) (hnext : Next s next)
    (ht : t ∈ s.lists k) : ((s.switchTo next).tasks t).state = (s.tasks t).state := by
  obtain ⟨hin, hnode⟩ := (h.listed k t).mp ht
  rcases Like.switchTo h hnext hin with hactive | ⟨-, hstate⟩
  · have hnone := hactive.1
    rw [State.switchTo_tasks] at hnone
    exact absurd (hnode.symm.trans hnone) nofun
  · exact hstate

theorem advance_locking (hstage : x.stage x.sched.current = some (l, .locking)) :
    x.advance l .locking (some .locking) = x := by
  have hsame : (fun u => if u = x.sched.current then some (l, Stage.locking) else x.stage u) =
      x.stage := by
    funext u
    split
    · rename_i heq
      rw [heq, hstage]
    · rfl
  change { x with stage := _ } = x
  rw [hsame]

/-- The running task waits for mutex `l`. -/
def State.waitFor (s : State) (l : ℕ) : State :=
  s.link s.current (.waiters l) (s.current :: s.lists (.waiters l)) .blocked

theorem waitFor_lists (s : State) (l m : ℕ) : (s.waitFor l).lists (.waiters m) =
    if m = l then s.current :: s.lists (.waiters l) else s.lists (.waiters m) := by
  unfold State.waitFor
  rw [State.link_lists]
  simp only [ListId.waiters.injEq]

theorem waitFor_linked (h : Consistent s) (hidle : s.current ≠ s.idle) (l : ℕ) :
    Linked (s.waitFor l) := h.link hidle (List.Perm.refl _) rfl

theorem run_mutexLock_wait (h : Consistent s) (hvalue : (s.locks l).value = true) :
    ∃ next, Next (s.waitFor l) next ∧
      (mutexLock s.current l).run s = .ok (false, (s.waitFor l).switchTo next, []) := by
  have hnode := h.node_current
  have hnew : s.current ∉ s.lists (.waiters l) := h.not_listed hnode
  have hblock : (taskBlock s.current (.waiters l) .blocked).run s = schedule.run (s.waitFor l) :=
    run_taskBlock hnode hnew ⟨nofun, nofun⟩
  obtain ⟨next, hnext, hschedule⟩ := run_schedule (s.waitFor l)
  refine ⟨next, hnext, ?_⟩
  unfold mutexLock
  rw [run_bind _ (run_gets _ s), hvalue]
  exact (run_bind _ (hblock.trans hschedule)).trans rfl

theorem run_mutexLock_take (t : ℕ) (hvalue : (s.locks l).value = false) :
    (mutexLock t l).run s = .ok (true, s.setLock l { s.locks l with value := true }, []) := by
  unfold mutexLock
  rw [run_bind _ (run_gets _ s), hvalue]
  rfl

/-- The mutex is taken: the task waits. -/
theorem Ordered.go_wait (h : Ordered x) (hstage : x.stage x.sched.current = some (l, .locking))
    (hvalue : (x.sched.locks l).value = true) : ∃ x', x.next .go = .ok x' ∧ Ordered x' := by
  obtain ⟨-, hidle, -⟩ := h.busy _ _ _ hstage
  obtain ⟨next, hnext, htry⟩ := run_mutexLock_wait h.toConsistent hvalue
  have hrun : (Stage.locking.code (x.bare l) x.sched.current l).run x.sched =
      .ok (some .locking, (x.sched.waitFor l).switchTo next, []) := by
    unfold Stage.code
    exact (run_bind _ htry).trans rfl
  have hlinked := waitFor_linked h.toConsistent hidle l
  have hsound : Sound ((x.sched.waitFor l).switchTo next) :=
    Sound.wait h.toSound hidle (List.Perm.refl _) rfl hnext
  have hlike : ∀ t, t ≠ x.sched.current → InTable x.sched t →
      Like x.sched ((x.sched.waitFor l).switchTo next) t :=
    fun t hne hin => (Like.link hne).trans (Like.switchTo hlinked hnext hin)
  refine ⟨_, next_go hstage hrun, ?_⟩
  rw [advance_locking hstage]
  refine ⟨h.toPlaced.switch hsound rfl rfl (Nat.le_refl _) (fun m t ht => ?_)
    (fun t m stage ht => ?_), fun m hfree hwaiters => ?_⟩
  · rw [switchTo_state hlinked hnext ht]
    change t ∈ (x.sched.waitFor l).lists _ at ht
    rw [waitFor_lists] at ht
    rw [State.waitFor, State.link_tasks]
    by_cases hcurrent : t = x.sched.current
    · subst hcurrent
      rw [if_pos rfl]
      split at ht
      · rename_i heq
        rw [heq]
        exact ⟨hstage, rfl⟩
      · exact absurd ht (h.not_listed h.node_current)
    · rw [if_neg hcurrent]
      split at ht
      · rename_i heq
        rw [heq]
        exact h.waiters l t ((List.mem_cons.mp ht).resolve_left hcurrent)
      · exact h.waiters m t ht
  · obtain ⟨hin, -, hplace⟩ := h.busy t m stage ht
    refine ⟨hin, ?_⟩
    change _ ∨ t ∈ (x.sched.waitFor l).lists _
    rw [waitFor_lists]
    by_cases hcurrent : t = x.sched.current
    · rw [hcurrent, hstage] at ht
      cases ht
      rw [if_pos rfl, hcurrent]
      exact .inr List.mem_cons_self
    · refine hplace.imp (hlike t hcurrent hin).active fun hmem => ?_
      split
      · rename_i heq
        rw [heq] at hmem
        exact List.mem_cons_of_mem _ hmem
      · exact hmem
  · have hm : m ≠ l := by
      rintro rfl
      exact absurd (hvalue.symm.trans hfree) (by decide)
    change (x.sched.waitFor l).lists _ ≠ [] at hwaiters
    rw [waitFor_lists, if_neg hm] at hwaiters
    obtain ⟨t, ht, hactive⟩ := h.woken m hfree hwaiters
    have hcurrent : t ≠ x.sched.current := by
      rintro rfl
      rw [hstage] at ht
      cases ht
      exact hm rfl
    exact ⟨t, ht, (hlike t hcurrent (h.busy t m _ ht).1).active hactive⟩

/-- The mutex is free: the task has it. -/
theorem Ordered.go_take (h : Ordered x) (hstage : x.stage x.sched.current = some (l, .locking))
    (hvalue : (x.sched.locks l).value = false) : ∃ x', x.next .go = .ok x' ∧ Ordered x' := by
  obtain ⟨hlock, hnone⟩ := (h.held l).of_free hvalue
  have hdepth : x.depth x.sched.current l = 0 := by
    by_contra hne
    exact hnone _ (.inl (Nat.pos_of_ne_zero hne))
  have hrun : (Stage.locking.code (x.bare l) x.sched.current l).run x.sched =
      .ok (if x.bare l then none else some .taking,
        x.sched.setLock l { x.sched.locks l with value := true }, []) := by
    unfold Stage.code
    exact (run_bind _ (run_mutexLock_take _ hvalue)).trans rfl
  refine ⟨_, next_go hstage hrun, h.go_owned hstage rfl (setLock_locks _ l _)
    (fun u hu => absurd hu (hnone u)) ?_ ?_⟩
  · rw [setLock_self, hlock]
    cases hbare : x.bare l with
    | true => exact .inl ⟨rfl, rfl, congrArg (· + 1) hdepth⟩
    | false => exact ⟨rfl, rfl, hdepth⟩
  · cases x.bare l with
    | true =>
        change x.depth x.sched.current l + 1 < 2 ^ 32
        rw [hdepth]
        decide
    | false =>
        change x.depth x.sched.current l < 2 ^ 32
        rw [hdepth]
        decide

/-! ## `mutex_unlock` -/

/-- The mutex is free, and nobody is woken yet. -/
def State.free (s : State) (l : ℕ) : State := s.setLock l { s.locks l with value := false }

theorem run_mutexUnlock_none (hvalue : (s.locks l).value = true)
    (hlast : (s.lists (.waiters l)).getLast? = none) :
    (mutexUnlock l).run s = .ok ((), s.free l, []) := by
  have hlast' : ((s.free l).lists (.waiters l)).getLast? = none := hlast
  unfold mutexUnlock
  rw [run_bind _ (run_gets _ s), run_bind _ (run_check_pos hvalue s), run_bind _ (run_modify _ s)]
  refine (run_bind _ (run_gets _ (s.free l))).trans ?_
  rw [hlast']
  rfl

theorem run_mutexUnlock_some (hvalue : (s.locks l).value = true)
    (hlast : (s.lists (.waiters l)).getLast? = some u)
    (hnode : (s.tasks u).node = some (.waiters l)) :
    ∃ next, Next ((s.free l).unlink u (.waiters l)) next ∧ (mutexUnlock l).run s =
      .ok ((), ((s.free l).unlink u (.waiters l)).switchTo next, []) := by
  obtain ⟨next, hnext, hschedule⟩ := run_schedule ((s.free l).unlink u (.waiters l))
  refine ⟨next, hnext, ?_⟩
  have hlast' : ((s.free l).lists (.waiters l)).getLast? = some u := hlast
  have hunblock : (taskUnblock u).run (s.free l) =
      .ok ((), (s.free l).unlink u (.waiters l), []) := run_taskUnblock hnode
  unfold mutexUnlock
  rw [run_bind _ (run_gets _ s), run_bind _ (run_check_pos hvalue s), run_bind _ (run_modify _ s)]
  refine (run_bind _ (run_gets _ (s.free l))).trans ?_
  rw [hlast']
  exact (run_bind _ hunblock).trans hschedule

/-- The mutex is given back: it is free, and if there are waiters one of them is woken. -/
theorem Ordered.go_unlock (h : Ordered x)
    (hstage : x.stage x.sched.current = some (l, .unlocking)) :
    ∃ x', x.next .go = .ok x' ∧ Ordered x' := by
  have hinside : Inside x x.sched.current l :=
    .inr ⟨.unlocking, Sync.stageAt_of_stage hstage, nofun⟩
  obtain ⟨hall, htenure⟩ := (h.held l).of_inside hinside
  rw [Sync.stageAt_of_stage hstage] at htenure
  obtain ⟨hlock, hdepth⟩ := htenure
  have hvalue : (x.sched.locks l).value = true := by rw [hlock]
  have hidle := (h.busy _ _ _ hstage).2.1
  have hmoves : Moves x { x.advance l .unlocking none with sched := x.sched.free l } l :=
    moves_advance hstage (setLock_locks _ l _)
  have hzero : x.depthAfter l .unlocking none = 0 := congrArg (· - 1) hdepth
  have hheld : Held { x.advance l .unlocking none with sched := x.sched.free l } l := by
    refine .inl ⟨?_, fun t ht => ?_⟩
    · change (x.sched.setLock l _).locks l = _
      rw [setLock_self, hlock]
    · by_cases hcurrent : t = x.sched.current
      · subst hcurrent
        rcases ht with ht | ⟨stage, ht, -⟩
        · dsimp only at ht
          rw [advance_depth, if_pos ⟨rfl, rfl⟩, hzero] at ht
          exact absurd ht (Nat.lt_irrefl 0)
        · rw [advance_stageAt] at ht
          cases ht
      · exact hcurrent (hall t ((hmoves.inside fun heq => hcurrent heq.1).mp ht))
  have hplaced : Placed { x.advance l .unlocking none with sched := x.sched.free l } := by
    refine h.toPlaced.quiet hmoves hidle rfl hheld ?_
    dsimp only
    rw [advance_depth, if_pos ⟨rfl, rfl⟩, hzero]
    decide
  cases hlast : (x.sched.lists (.waiters l)).getLast? with
  | none =>
      have hrun : (Stage.unlocking.code (x.bare l) x.sched.current l).run x.sched =
          .ok (none, x.sched.free l, []) := by
        unfold Stage.code
        exact (run_bind _ (run_mutexUnlock_none hvalue hlast)).trans rfl
      refine ⟨_, next_go hstage hrun, hplaced, fun m hfree hwaiters => ?_⟩
      by_cases hm : m = l
      · subst hm
        exact absurd (List.getLast?_eq_none_iff.mp hlast) hwaiters
      · obtain ⟨t, ht, hactive, -⟩ := hmoves.woken h hm hfree hwaiters
        exact ⟨t, ht, hactive⟩
  | some u =>
      have hu := List.mem_of_getLast? hlast
      obtain ⟨hin, hnode⟩ := (h.listed _ u).mp hu
      obtain ⟨next, hnext, hunlock⟩ := run_mutexUnlock_some hvalue hlast hnode
      have hrun : (Stage.unlocking.code (x.bare l) x.sched.current l).run x.sched =
          .ok (none, ((x.sched.free l).unlink u (.waiters l)).switchTo next, []) := by
        unfold Stage.code
        exact (run_bind _ hunlock).trans rfl
      have hsound : Sound ((x.sched.free l).unlink u (.waiters l)) :=
        hplaced.toSound.unlink hnode hin
      have hlike : ∀ t, InTable x.sched t →
          Like (x.sched.free l) (((x.sched.free l).unlink u (.waiters l)).switchTo next) t :=
        fun t ht => (Like.unlink _ u _ t).trans (Like.switchTo hsound.toLinked hnext ht)
      -- the task that is woken can run, and is still in the loop of `mutex_lock`
      have hwoken : x.stage u = some (l, .locking) ∧
          Active (((x.sched.free l).unlink u (.waiters l)).switchTo next) u := by
        refine ⟨(h.waiters l u hu).1, (Like.switchTo hsound.toLinked hnext hin).active ?_⟩
        rw [Active, State.unlink_tasks, if_pos rfl]
        exact ⟨rfl, .inl rfl⟩
      have hstay : ∀ t, x.stage t = some (l, .locking) → t ≠ x.sched.current := by
        rintro t ht rfl
        rw [hstage] at ht
        cases ht
      refine ⟨_, next_go hstage hrun, ?_⟩
      have hswitch := hplaced.switch (Sound.switchTo hsound.toLinked hsound.toLineage hnext)
        rfl rfl (Nat.le_refl _) (fun m t ht => ?_) (fun t m stage ht => ?_)
      · refine ⟨hswitch, fun m hfree hwaiters => ?_⟩
        by_cases hm : m = l
        · subst hm
          exact ⟨u, (hmoves.other u (hstay u hwoken.1)).trans hwoken.1, hwoken.2⟩
        · have hwaiters' : x.sched.lists (.waiters m) ≠ [] := by
            change ((x.sched.free l).unlink u (.waiters l)).lists (.waiters m) ≠ [] at hwaiters
            rw [State.unlink_lists, if_neg (by simpa using hm)] at hwaiters
            exact hwaiters
          obtain ⟨t, ht, hactive, hne⟩ := hmoves.woken h hm hfree hwaiters'
          have htable := (h.busy t m _ ((hmoves.other t hne).symm.trans ht)).1
          exact ⟨t, ht, (hlike t htable).active hactive⟩
      · rw [switchTo_state hsound.toLinked hnext ht]
        have hnode' := ((hsound.listed _ t).mp ht).2
        have hne : t ≠ u := by
          rintro rfl
          rw [State.unlink_tasks, if_pos rfl] at hnode'
          cases hnode'
        rw [State.unlink_tasks, if_neg hne]
        have hmem : t ∈ x.sched.lists (.waiters m) := by
          rw [State.unlink_tasks, if_neg hne] at hnode'
          exact (h.listed _ t).mpr ⟨((hsound.listed _ t).mp ht).1, hnode'⟩
        have hwaits := h.waiters m t hmem
        have hcurrent : t ≠ x.sched.current := h.ne_current ((h.listed _ t).mp hmem).2
        exact ⟨(hmoves.other t hcurrent).trans hwaits.1, hwaits.2⟩
      · have hcurrent : t ≠ x.sched.current := by
          rintro rfl
          dsimp only at ht
          rw [advance_stage, if_pos rfl] at ht
          cases ht
        have hold := (hmoves.other t hcurrent).symm.trans ht
        obtain ⟨htable, -, hplace⟩ := h.busy t m stage hold
        refine ⟨htable, hplace.elim (fun hactive => .inl ((hlike t htable).active hactive))
          fun hmem => ?_⟩
        by_cases hut : t = u
        · rw [hut]
          exact .inl hwoken.2
        · right
          change t ∈ ((x.sched.free l).unlink u (.waiters l)).lists (.waiters m)
          rw [State.unlink_lists]
          split
          · rename_i heq
            rw [heq] at hmem
            exact (List.mem_erase_of_ne hut).mpr hmem
          · exact hmem

/-! ## All steps -/

theorem Ordered.go (h : Ordered x) (hpossible : SyncCall.Possible x .go) :
    ∃ x', x.next .go = .ok x' ∧ Ordered x' := by
  obtain ⟨⟨l, stage⟩, hstage⟩ := Option.ne_none_iff_exists'.mp hpossible
  by_cases hlocking : stage = .locking
  · subst hlocking
    cases hvalue : (x.sched.locks l).value with
    | true => exact h.go_wait hstage hvalue
    | false => exact h.go_take hstage hvalue
  by_cases hunlocking : stage = .unlocking
  · subst hunlocking
    exact h.go_unlock hstage
  · exact h.go_fields hstage hlocking hunlocking

/-- Another call, or an interrupt: the tasks inside the functions stay where they are. -/
theorem Ordered.other (h : Ordered x) {call : Call} {answer : Option (ℕ × ℤ)}
    (hpossible : SyncCall.Possible x (.other call)) (heffect : Effect x.sched call answer s') :
    Ordered { x with sched := s' } := by
  obtain ⟨hcall, hout, hblock, hunblock⟩ := hpossible
  have hsound := heffect.sound h.toSound hcall
  have hlist : ∀ m, s'.lists (.waiters m) = x.sched.lists (.waiters m) := fun m =>
    heffect.waiters h.toSound hcall (fun t ht => (h.waiters m t ht).2) (hblock m)
      fun t ht => hunblock t ht m
  have hapart : ∀ t m stage, x.stage t = some (m, stage) → Apart x.sched call t := by
    intro t m stage ht
    rcases hout with hnone | hother
    · left
      rintro rfl
      rw [hnone] at ht
      cases ht
    · exact .inr hother
  have hlike : ∀ t m stage, x.stage t = some (m, stage) → Like x.sched s' t :=
    fun t m stage ht => heffect.like h.toSound hcall (hapart t m stage ht) (h.busy t m stage ht).1
  have hidle : s'.idle = x.sched.idle := heffect.idle
  refine ⟨h.toPlaced.switch hsound heffect.locks hidle heffect.created (fun m t ht => ?_)
    (fun t m stage ht => ?_), fun m hfree hwaiters => ?_⟩
  · have hnode := ((hsound.listed _ t).mp ht).2
    rw [hlist] at ht
    obtain ⟨hstage, hstate⟩ := h.waiters m t ht
    refine ⟨hstage, ?_⟩
    rcases hlike t m _ hstage with hactive | ⟨-, hsame⟩
    · rw [hactive.1] at hnode
      cases hnode
    · exact hsame.trans hstate
  · obtain ⟨hin, -, hplace⟩ := h.busy t m stage ht
    refine ⟨heffect.inTable_alive hin ?_, ?_⟩
    · rcases hplace with hactive | hmem
      · rcases hactive.2 with hstate | hstate
        · rw [hstate]
          nofun
        · rw [hstate]
          nofun
      · rw [(h.waiters m t hmem).2]
        nofun
    · rw [hlist]
      exact hplace.imp_left (hlike t m stage ht).active
  · dsimp only at hfree hwaiters
    rw [heffect.locks] at hfree
    rw [hlist] at hwaiters
    obtain ⟨t, ht, hactive⟩ := h.woken m hfree hwaiters
    exact ⟨t, ht, (hlike t m _ ht).active hactive⟩

theorem Ordered.step (h : Ordered x) {call : SyncCall} (hshallow : Shallow x call)
    (hstep : SyncStep x call x') : Ordered x' := by
  obtain ⟨hpossible, hnext⟩ := hstep
  cases call with
  | enter e l =>
      obtain ⟨x'', hnext', hordered⟩ := h.enter hpossible hshallow
      rw [hnext] at hnext'
      cases hnext'
      exact hordered
  | go =>
      obtain ⟨x'', hnext', hordered⟩ := h.go hpossible
      rw [hnext] at hnext'
      cases hnext'
      exact hordered
  | other call =>
      dsimp only [Sync.next] at hnext
      cases hrun : call.code.run x.sched with
      | error e =>
          rw [hrun] at hnext
          cases hnext
      | ok result =>
          obtain ⟨answer, s', notes⟩ := result
          rw [hrun] at hnext
          cases hnext
          cases notes with
          | nil => exact h.other hpossible (Effect.of_run h.toSound hpossible.1 hrun)
          | cons e es => exact e.elim

end Ylos.Sched
