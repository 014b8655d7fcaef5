import Ylos.Verification.Task.States

/-! # Runs of the scheduler

Every call has one of the effects listed in `Effect`, and these keep the states of the
tasks consistent. -/

namespace Ylos.Sched

open Exec

variable {s s' : State} {t i c : ℕ} {pid : ℤ} {answer : Option (ℕ × ℤ)} {call : Call}

/-! ## Children -/

/-- `c` is a child that the running task waits for with `pid`. -/
def Wanted (s : State) (t : ℕ) (pid : ℤ) (c : ℕ) : Prop :=
  (s.tasks c).ppid = (s.tasks t).pid ∧ (pid = (s.tasks c).pid ∨ pid = -1)

theorem childLoop_inl {is : List ℕ} {found : Bool}
    (h : childLoop s (s.tasks t).pid pid is found = .inl i) :
    i ∈ is ∧ ∃ c, s.table i = some c ∧ Wanted s t pid c ∧ (s.tasks c).state = .died := by
  induction is generalizing found with
  | nil => cases h
  | cons k is ih =>
      unfold childLoop at h
      split at h
      · exact ⟨List.mem_cons_of_mem _ (ih h).1, (ih h).2⟩
      · rename_i c hc
        split at h
        · exact ⟨List.mem_cons_of_mem _ (ih h).1, (ih h).2⟩
        · rename_i hppid
          split at h
          · exact ⟨List.mem_cons_of_mem _ (ih h).1, (ih h).2⟩
          · rename_i hpid
            split at h
            · rename_i hdead
              cases h
              refine ⟨List.mem_cons_self, c, hc, ⟨not_not.mp hppid, ?_⟩, hdead⟩
              by_contra hno
              exact hpid ⟨fun heq => hno (.inl heq), fun heq => hno (.inr heq)⟩
            · exact ⟨List.mem_cons_of_mem _ (ih h).1, (ih h).2⟩

theorem childLoop_inr {is : List ℕ} {found b : Bool}
    (h : childLoop s (s.tasks t).pid pid is found = .inr b) :
    ∀ i ∈ is, ∀ c, s.table i = some c → Wanted s t pid c → (s.tasks c).state ≠ .died := by
  induction is generalizing found with
  | nil => exact nofun
  | cons k is ih =>
      refine List.forall_mem_cons.mpr ?_
      unfold childLoop at h
      split at h
      · rename_i hnone
        refine ⟨fun c hc => ?_, ih h⟩
        rw [hnone] at hc
        cases hc
      · rename_i c' hc'
        split at h
        · rename_i hppid
          refine ⟨fun c hc hwanted => ?_, ih h⟩
          rw [hc'] at hc
          cases hc
          exact absurd hwanted.1 hppid
        · split at h
          · rename_i hpid
            refine ⟨fun c hc hwanted => ?_, ih h⟩
            rw [hc'] at hc
            cases hc
            exact absurd hwanted.2 (not_or.mpr hpid)
          · split at h
            · cases h
            · rename_i halive
              refine ⟨fun c hc _ => ?_, ih h⟩
              rw [hc'] at hc
              cases hc
              exact halive

theorem scan_inl (h : scan s pid = .inl i) : 2 ≤ i ∧ i < NR_TASKS ∧
    ∃ c, s.table i = some c ∧ Wanted s s.current pid c ∧ (s.tasks c).state = .died := by
  obtain ⟨hi, hc⟩ := childLoop_inl h
  rw [List.mem_range'_1] at hi
  have hnr : NR_TASKS = 64 := rfl
  exact ⟨hi.1, by omega, hc⟩

theorem scan_inr {b : Bool} (h : scan s pid = .inr b) (hi : 2 ≤ i) (hi' : i < NR_TASKS)
    (hc : s.table i = some c) (hwanted : Wanted s s.current pid c) :
    (s.tasks c).state ≠ .died := by
  have hnr : NR_TASKS = 64 := rfl
  exact childLoop_inr h i (List.mem_range'_1.mpr ⟨hi, by omega⟩) c hc hwanted

/-! ## Effects -/

theorem run_answer {x : M Unit} (h : x.run s = .ok ((), s', [])) :
    (do
      x
      return none : M (Option (ℕ × ℤ))).run s = .ok (none, s', []) := by
  rw [run_bind _ h]
  rfl

/-- A call that needs a slot of the table finds one. -/
def Spacious (s : State) (call : Call) : Prop :=
  (call = .fork ∨ ∃ priority, call = .create priority) → ∃ i < NR_TASKS, s.table i = none

/-- A call returns, unless the table is full. -/
theorem exists_effect (h : Sound s) (hpossible : call.Possible s) (hspace : Spacious s call) :
    ∃ answer s', call.code.run s = .ok (answer, s', []) ∧ Effect s call answer s' := by
  have hnode := h.node_current
  have hnew : ∀ l, s.current ∉ s.lists l := fun l => h.not_listed hnode
  cases call with
  | create priority =>
      obtain ⟨i, hi, hfree, hrun⟩ :=
        @run_taskCreate s priority (hspace (.inr ⟨priority, rfl⟩))
      exact ⟨none, _, run_answer hrun, .create hi hfree⟩
  | fork =>
      obtain ⟨i, hi, hfree, hrun⟩ := run_taskFork ⟨hnode, h.running⟩ (hspace (.inl rfl))
      exact ⟨none, _, run_answer hrun, .fork hi hfree⟩
  | yield =>
      obtain ⟨next, hnext, hrun⟩ := run_schedule s
      exact ⟨none, _, run_answer hrun, .yield hnext⟩
  | block l state =>
      obtain ⟨next, hnext, hrun⟩ :=
        run_schedule (s.link s.current l (s.current :: s.lists l) state)
      have hstate : state ≠ .ready ∧ state ≠ .running := by
        rcases hpossible.2.2 with rfl | rfl | rfl <;> decide
      refine ⟨none, _, ?_, .block hnext⟩
      unfold Call.code runningTask
      rw [run_bind _ (run_gets _ s)]
      exact run_answer ((run_taskBlock hnode (hnew l) hstate).trans hrun)
  | unblock t =>
      obtain ⟨l, hl⟩ := hpossible
      have hl := ((h.listed l t).mp hl).2
      exact ⟨none, _, run_answer (run_taskUnblock hl), .unblock hl⟩
  | sleep ms =>
      obtain ⟨next, hnext, hrun⟩ :=
        run_schedule ((s.setDeadline (ms / JIFFY)).linkSleeper s.current)
      exact ⟨none, _, run_answer ((run_taskSleep hnode).trans hrun), .sleep hnext⟩
  | clock =>
      have hclock := @run_clockHandler s (h.nodup .sleep)
        fun t ht => ((h.listed .sleep t).mp ht).2
      by_cases hticks : (s.wakeup.tick.tasks s.wakeup.current).ticks = 0
      · obtain ⟨next, hnext, hrun⟩ := run_schedule s.wakeup.tick.refill
        rw [if_pos hticks] at hclock
        exact ⟨none, _, run_answer (hclock.trans hrun), .refill hticks hnext⟩
      · rw [if_neg hticks] at hclock
        exact ⟨none, _, run_answer hclock, .tick hticks⟩
  | waitpid pid =>
      cases hscan : scan s pid with
      | inl i =>
          obtain ⟨-, -, c, hc, -⟩ := scan_inl hscan
          exact ⟨_, _, run_waitpidScan_dead hscan hc, .reap hscan hc⟩
      | inr found =>
          cases found with
          | false => exact ⟨none, s, run_waitpidScan_none hscan, .childless hscan⟩
          | true =>
              obtain ⟨next, hnext, hrun⟩ := run_schedule ((s.setWaitpid pid).link s.current
                .block (s.current :: s.lists .block) .waiting)
              have hnode' : ((s.setWaitpid pid).tasks s.current).node = none := by
                rw [State.setWaitpid, State.setTask_tasks]
                exact hnode
              have hblock := (@run_taskBlock (s.setWaitpid pid) .block .waiting hnode'
                (hnew .block) (by decide)).trans hrun
              exact ⟨none, _, (run_waitpidScan_block hscan).trans (run_answer hblock),
                .wait hscan hnext⟩
  | exit status =>
      obtain ⟨p, hp, -⟩ := h.parent s.current h.current hpossible
      have hlinked := (h.bury hpossible status).handOver
      have hbegin := @run_exitBegin s status ⟨hnode, h.running⟩
      have hparent : (s.bury status).handOver.table
          ((s.bury status).handOver.tasks s.current).ppid = some p := by
        rw [h.handOver_ppid hpossible, handOver_table]
        exact hp
      have hin : InTable (s.bury status).handOver p := ⟨_, hparent⟩
      by_cases hawaited : Awaited (s.bury status).handOver p
      · obtain ⟨l, hl⟩ := hlinked.node_of_waits hin (by rw [hawaited.1]; rfl)
        obtain ⟨next, hnext, hrun⟩ :=
          run_schedule ((s.bury status).handOver.unlink p l).finish
        have hend := run_exitEnd hparent fun _ => hl
        rw [if_pos hawaited] at hend
        refine ⟨none, _, ?_, .exitAwaited hp hawaited hl hnext⟩
        exact run_answer ((run_bind _ hbegin).trans (hend.trans hrun))
      · obtain ⟨next, hnext, hrun⟩ := run_schedule (s.bury status).handOver.finish
        have hend := run_exitEnd (l := .block) hparent fun hyes => absurd hyes hawaited
        rw [if_neg hawaited] at hend
        refine ⟨none, _, ?_, .exit hp hawaited hnext⟩
        exact run_answer ((run_bind _ hbegin).trans (hend.trans hrun))

theorem Sound.switchTo {next : ℕ} (hlinked : Linked s) (hlineage : Lineage s)
    (hnext : Next s next) : Sound (s.switchTo next) :=
  ⟨hlinked.switchTo hnext, hlineage.switchTo next⟩

/-- The running task waits in a list. -/
theorem Sound.wait {l : ListId} {ts : List ℕ} {state : TaskState} {next : ℕ} (h : Sound s)
    (hidle : s.current ≠ s.idle) (hperm : ts.Perm (s.current :: s.lists l))
    (hstate : state.waits = true) (hnext : Next (s.link s.current l ts state) next) :
    Sound ((s.link s.current l ts state).switchTo next) :=
  Sound.switchTo (h.toConsistent.link hidle hperm hstate) (h.toLineage.link hstate) hnext

theorem Sound.finish {next : ℕ} (hlinked : Linked s) (hlineage : Lineage s)
    (hnext : Next s.finish next) : Sound (s.finish.switchTo next) :=
  Sound.switchTo hlinked.finish hlineage.finish hnext

theorem Effect.sound (h : Sound s) (hpossible : call.Possible s)
    (heffect : Effect s call answer s') : Sound s' := by
  cases heffect with
  | create hi hfree =>
      refine h.occupy hi hfree rfl rfl rfl ⟨s.idle, h.toLinked.idle, fun hdead => ?_⟩
      rcases h.idle_state with hidle | hidle
      · exact absurd (hidle.symm.trans hdead) (by decide)
      · exact absurd (hidle.symm.trans hdead) (by decide)
  | fork hi hfree =>
      refine h.occupy hi hfree rfl h.node_current rfl
        ⟨s.current, h.slot h.current, fun hdead => ?_⟩
      exact absurd (h.running.symm.trans hdead) (by decide)
  | yield hnext => exact Sound.switchTo h.toLinked h.toLineage hnext
  | block hnext =>
      refine h.wait hpossible.1 (List.Perm.refl _) ?_ hnext
      rcases hpossible.2.2 with rfl | rfl | rfl <;> rfl
  | unblock hnode =>
      obtain ⟨l, hl⟩ := hpossible
      exact h.unlink hnode ((h.listed l _).mp hl).1
  | sleep hnext =>
      exact Sound.wait (h.setCounters rfl rfl rfl rfl) hpossible.1 (perm_insertSort _ _ _) rfl hnext
  | tick => exact h.wakeup.tick
  | refill _ hnext =>
      have hrefill : Sound s.wakeup.tick.refill := h.wakeup.tick.setCounters rfl rfl rfl rfl
      exact Sound.switchTo hrefill.toLinked hrefill.toLineage hnext
  | reap hscan hc =>
      obtain ⟨hi, -, c, hc', -, hdead⟩ := scan_inl hscan
      exact h.vacate hc' hdead hi
  | wait _ hnext =>
      exact Sound.wait (h.setCounters rfl rfl rfl rfl) hpossible (List.Perm.refl _) rfl hnext
  | childless => exact h
  | @exitAwaited status p next l hparent hawaited hnode hnext =>
      have hlinked := (h.bury hpossible status).handOver
      have hin := (inTable_handOver s status p).mpr ⟨_, hparent⟩
      exact Sound.finish (hlinked.unlink hnode hin) ((h.handOver hpossible status).unlink p l)
        hnext
  | exit _ _ hnext =>
      exact Sound.finish (h.bury hpossible _).handOver (h.handOver hpossible _) hnext

/-! ## Runs -/

/-- The state that `task_init` and the first call of `schedule` leave: the idle task and
others have been created, and one of them runs. -/
structure Started (s : State) : Prop where
  created : 2 ≤ s.created ∧ s.created ≤ NR_TASKS
  table : ∀ i, s.table i = if i < s.created then some i else none
  idle : s.idle = 0
  current : s.current < s.created
  lists : ∀ l, s.lists l = []
  task : ∀ t < s.created, (s.tasks t).pid = t ∧ (s.tasks t).ppid = 0 ∧
    (s.tasks t).node = none ∧
    (s.tasks t).state = if t = s.current then .running else .ready

theorem Started.inTable (h : Started s) : InTable s t ↔ t < s.created := by
  constructor
  · rintro ⟨i, hi⟩
    rw [h.table] at hi
    split at hi
    · cases hi
      assumption
    · cases hi
  · exact fun ht => ⟨t, by rw [h.table, if_pos ht]⟩

theorem Started.sound (h : Started s) : Sound s := by
  have hpos : 0 < s.created := Nat.lt_of_lt_of_le (by decide) h.created.1
  have hslot : ∀ i t, s.table i = some t → i = t ∧ t < s.created := by
    intro i t hi
    rw [h.table] at hi
    split at hi
    · cases hi
      exact ⟨rfl, by assumption⟩
    · cases hi
  refine ⟨⟨⟨?_, ?_, ?_, ?_, h.inTable.mpr h.current, ?_, ?_, ?_, ?_⟩, ?_⟩, ?_, ?_, ?_⟩
  · intro i t hi
    obtain ⟨rfl, ht⟩ := hslot i t hi
    exact ⟨Nat.lt_of_lt_of_le ht h.created.2, ht⟩
  · intro i t hi
    obtain ⟨rfl, ht⟩ := hslot i t hi
    exact (h.task i ht).1
  · rw [h.table, if_pos hpos, h.idle]
  · rw [h.idle, (h.task 0 hpos).2.2.2]
    by_cases hzero : 0 = s.current
    · exact .inl (if_pos hzero)
    · exact .inr (if_neg hzero)
  · intro t ht hstate
    rw [(h.task t (h.inTable.mp ht)).2.2.2] at hstate
    split at hstate
    · assumption
    · cases hstate
  · intro t ht
    rw [(h.task t (h.inTable.mp ht)).2.2.1, (h.task t (h.inTable.mp ht)).2.2.2]
    split
    · rfl
    · rfl
  · intro l t
    rw [h.lists]
    constructor
    · exact fun ht => absurd ht List.not_mem_nil
    · rintro ⟨ht, hnode⟩
      rw [(h.task t (h.inTable.mp ht)).2.2.1] at hnode
      cases hnode
  · intro l
    rw [h.lists]
    exact List.nodup_nil
  · rw [(h.task _ h.current).2.2.2, if_pos rfl]
  · rw [h.idle]
    exact (h.task 0 hpos).2.1
  · have hone : 1 < s.created := h.created.1
    exact ⟨1, by rw [h.table, if_pos hone], (h.task 1 hone).2.1⟩
  · intro t ht hne
    rw [h.idle] at hne
    refine ⟨0, ?_, ?_, Nat.pos_of_ne_zero hne⟩
    · rw [(h.task t (h.inTable.mp ht)).2.1, h.table, if_pos hpos]
    · rw [(h.task 0 hpos).2.2.2]
      split
      · decide
      · decide

/-- A call that needs a slot stops when the table is full. -/
theorem CallStep.spacious (hstep : CallStep s call s') : Spacious s call := by
  obtain ⟨-, answer, hrun⟩ := hstep
  rintro (rfl | ⟨priority, rfl⟩)
  · by_contra hfull
    unfold Call.code taskFork at hrun
    obtain ⟨_, s₁, _, _, hfork, -, -⟩ := bind_eq_ok.mp hrun
    obtain ⟨_, _, _, _, ⟨⟩, hfork, -⟩ := bind_eq_ok.mp hfork
    obtain ⟨_, _, _, _, ⟨⟩, hfork, -⟩ := bind_eq_ok.mp hfork
    obtain ⟨_, _, _, _, hcheck, hfork, -⟩ := bind_eq_ok.mp hfork
    rw [run_check] at hcheck
    split at hcheck
    · cases hcheck
      rw [run_bind_error _ (run_getFreeTask_full hfull)] at hfork
      cases hfork
    · cases hcheck
  · by_contra hfull
    unfold Call.code taskCreate at hrun
    rw [run_bind_error _ (run_bind_error _ (run_getFreeTask_full hfull))] at hrun
    cases hrun

/-- What a call does is one of the effects of `Effect`. -/
theorem Effect.of_run (h : Sound s) (hpossible : call.Possible s)
    (hrun : call.code.run s = .ok (answer, s', [])) : Effect s call answer s' := by
  obtain ⟨answer', s'', hrun', heffect⟩ :=
    exists_effect h hpossible (CallStep.spacious ⟨hpossible, answer, hrun⟩)
  rw [hrun] at hrun'
  cases hrun'
  exact heffect

theorem CallStep.effect (h : Sound s) (hstep : CallStep s call s') :
    ∃ answer, Effect s call answer s' := by
  obtain ⟨hpossible, answer, hrun⟩ := hstep
  exact ⟨answer, Effect.of_run h hpossible hrun⟩

theorem CallStep.sound (h : Sound s) (hstep : CallStep s call s') : Sound s' := by
  obtain ⟨answer, heffect⟩ := hstep.effect h
  exact heffect.sound h hstep.1

/-- One task runs, the waiting tasks are each in one place of one list and the others in
none, the idle task can always run, and no assertion fails. -/
theorem one_task_runs {s₀ s : State} (h₀ : Started s₀)
    (hrun : Run CallStep (fun _ _ => True) s₀ s) :
    (∃ t, (InTable s t ∧ (s.tasks t).state = .running) ∧
      ∀ u, InTable s u → (s.tasks u).state = .running → u = t) ∧
    (∀ t, InTable s t →
      ((s.tasks t).state.waits = true → ∃ l, (s.tasks t).node = some l ∧
        ∀ k, (s.lists k).count t = if k = l then 1 else 0) ∧
      ((s.tasks t).state.waits = false → (s.tasks t).node = none ∧ ∀ k, t ∉ s.lists k)) ∧
    ((s.tasks s.idle).state = .running ∨ (s.tasks s.idle).state = .ready) ∧
    ∀ call, call.Possible s → Spacious s call →
      ∃ answer s', call.code.run s = .ok (answer, s', []) := by
  have h : Sound s := hrun.invariant (fun _ _ _ h _ hstep => hstep.sound h) h₀.sound
  refine ⟨⟨s.current, ⟨h.current, h.running⟩, h.alone⟩, fun t ht => ⟨fun hwaits => ?_,
    fun hwaits => ?_⟩, h.idle_state, fun call hpossible hspace => ?_⟩
  · obtain ⟨l, hl⟩ := h.node_of_waits ht hwaits
    refine ⟨l, hl, fun k => ?_⟩
    split
    · rename_i hk
      rw [hk]
      exact List.count_eq_one_of_mem (h.nodup l) ((h.listed l t).mpr ⟨ht, hl⟩)
    · rename_i hk
      refine List.count_eq_zero_of_not_mem fun hmem => hk ?_
      rw [((h.listed k t).mp hmem).2] at hl
      exact Option.some.inj hl
  · have hnode := h.node_eq_none ht hwaits
    exact ⟨hnode, fun k => h.not_listed hnode⟩
  · obtain ⟨answer, s', hcode, -⟩ := exists_effect h hpossible hspace
    exact ⟨answer, s', hcode⟩

/-- The idle task, the first task and the test task, when the first task runs. -/
def booted : State where
  tasks t :=
    if t = 0 then ⟨.ready, none, 1, 1, 0, 0, 0, 0, 0, .run, false⟩
    else if t = 1 then ⟨.running, none, 5, 5, 0, 1, 0, 0, 0, .run, false⟩
    else ⟨.ready, none, 5, 5, 0, 2, 0, 0, 0, .run, false⟩
  created := 3
  table i := if i < 3 then some i else none
  current := 1
  idle := 0
  lists _ := []
  locks _ := ⟨false, none, 0⟩
  devices _ := ⟨0, [], true, none⟩
  ctrls _ := ⟨0, none⟩
  jiffies := 0

theorem booted_started : Started booted where
  created := by decide
  table _ := rfl
  idle := rfl
  current := by decide
  lists _ := rfl
  task := by decide

/-- The test task sleeps, and the first task forks and waits for its child. -/
theorem booted_runs : ∃ s, Run CallStep (fun _ _ => True) booted s ∧
    ∃ t, (InTable s t ∧ (s.tasks t).state = .running) ∧
      ∀ u, InTable s u → (s.tasks u).state = .running → u = t := by
  have hrun : ∃ s, Run CallStep (fun _ _ => True) booted s := by
    refine ⟨_, Run.head (a := .yield) trivial ⟨trivial, _, rfl⟩ <|
      Run.head (a := .sleep 20) trivial ⟨⟨by decide, by decide⟩, _, rfl⟩ <|
      Run.head (a := .fork) trivial ⟨(by decide : (1 : ℕ) ≠ 0), _, rfl⟩ <|
      Run.head (a := .waitpid (-1)) trivial ⟨(by decide : (1 : ℕ) ≠ 0), _, rfl⟩ <|
      Run.refl⟩
  obtain ⟨s, hrun⟩ := hrun
  exact ⟨s, hrun, (one_task_runs booted_started hrun).1⟩

end Ylos.Sched
