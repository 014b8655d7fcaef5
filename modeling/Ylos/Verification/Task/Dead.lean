import Ylos.Verification.Task.Calls

/-! # A task that exits

What keeps the state of a task that has begun to exit: only the running task blocks, only
linked tasks are unblocked, and only ready tasks or the idle task are scheduled. -/

namespace Ylos.Sched

open Exec

/-! ## The invariant -/

/-- A dying task is dead and unlinked. -/
structure Buried (s : State) : Prop where
  dead : ∀ t, (s.tasks t).dying = true → (s.tasks t).state = .died ∧ (s.tasks t).node = none
  idle : (s.tasks s.idle).dying = false
  created : ∀ t, (s.tasks t).dying = true → t < s.created
  idle_lt : s.idle < s.created
  table_lt : ∀ i t, s.table i = some t → t < s.created
  finished : ∀ t, (s.tasks t).point = .finished → (s.tasks t).dying = true

/-- A dying task that runs has not made its last call of `schedule`, and is not waiting in
the middle of a request either. -/
structure Inv (s : State) : Prop extends Buried s where
  current_lt : s.current < s.created
  running : (s.tasks s.current).dying = true → (s.tasks s.current).point = .run

section Updates

variable {s : State} {t : ℕ} {v : Task}

theorem Buried.setList (h : Buried s) (l : ListId) (x : List ℕ) : Buried (s.setList l x) :=
  { h with }

theorem Buried.setTask (h : Buried s) (hdying : v.dying = (s.tasks t).dying)
    (hdead : v.dying = true → v.state = .died ∧ v.node = none)
    (hfinished : v.point = .finished → v.dying = true) : Buried (s.setTask t v) := by
  have htasks : ∀ u, (s.setTask t v).tasks u = if u = t then v else s.tasks u := fun _ => rfl
  have hdying' : ∀ u, ((s.setTask t v).tasks u).dying = (s.tasks u).dying := by
    intro u
    rw [htasks]
    split
    · rename_i heq
      rw [hdying, heq]
    · rfl
  refine { h with dead := ?_, idle := ?_, created := ?_, finished := ?_ }
  · intro u hu
    rw [hdying'] at hu
    rw [htasks]
    split
    · rename_i heq
      rw [heq, ← hdying] at hu
      exact hdead hu
    · exact h.dead u hu
  · rw [hdying']
    exact h.idle
  · intro u hu
    rw [hdying'] at hu
    exact h.created u hu
  · intro u hu
    rw [hdying']
    rw [htasks] at hu
    split at hu
    · rename_i heq
      rw [heq, ← hdying]
      exact hfinished hu
    · exact h.finished u hu

theorem Inv.setTask (h : Inv s) (hdying : v.dying = (s.tasks t).dying)
    (hdead : v.dying = true → v.state = .died ∧ v.node = none)
    (hfinished : v.point = .finished → v.dying = true)
    (hrunning : t = s.current → v.dying = true → v.point = .run) : Inv (s.setTask t v) := by
  refine ⟨h.toBuried.setTask hdying hdead hfinished, h.current_lt, ?_⟩
  intro hcurrent
  change (if s.current = t then v else s.tasks s.current).dying = true at hcurrent
  change (if s.current = t then v else s.tasks s.current).point = .run
  split at hcurrent
  · rename_i heq
    rw [if_pos heq]
    exact hrunning heq.symm hcurrent
  · rename_i hne
    rw [if_neg hne]
    exact h.running hcurrent

/-- A task that is not dying changes, but does not end. -/
theorem Inv.setAlive (h : Inv s) (ht : (s.tasks t).dying = false) (hv : v.dying = false)
    (hpoint : v.point ≠ .finished) : Inv (s.setTask t v) :=
  h.setTask (hv.trans ht.symm) (by simp [hv]) (fun hp => absurd hp hpoint) (by simp [hv])

theorem Buried.setAlive (h : Buried s) (ht : (s.tasks t).dying = false) (hv : v.dying = false)
    (hpoint : v.point ≠ .finished) : Buried (s.setTask t v) :=
  h.setTask (hv.trans ht.symm) (by simp [hv]) (fun hp => absurd hp hpoint)

theorem Buried.alive_point (h : Buried s) (ht : (s.tasks t).dying = false) :
    (s.tasks t).point ≠ .finished := by
  intro hp
  rw [h.finished t hp] at ht
  cases ht

theorem Buried.alive_of_state (h : Buried s) (hstate : (s.tasks t).state ≠ .died) :
    (s.tasks t).dying = false := by
  by_contra hdying
  exact hstate (h.dead t (by simpa using hdying)).1

theorem Buried.alive_of_node (h : Buried s) (hnode : (s.tasks t).node ≠ none) :
    (s.tasks t).dying = false := by
  by_contra hdying
  exact hnode (h.dead t (by simpa using hdying)).2

end Updates

/-! ## The scheduler -/

section Scheduler

variable {s : State} {t : ℕ}

theorem wp_taskSearch (h : Buried s) :
    wp (fun _ => True) (taskSearch .ready) (fun o s' => s' = s ∧
      ∀ u, o = some u → (s.tasks u).dying = false ∧ u < s.created) s := by
  unfold taskSearch
  simp only [wp_bind, wp_get]
  cases hfind : (List.range NR_TASKS).foldl (searchStep s .ready) none with
  | none =>
      simp only [if_true]
      rw [wp_pure]
      refine ⟨rfl, ?_⟩
      rintro u ⟨⟩
      exact ⟨h.idle, h.idle_lt⟩
  | some u =>
      simp only
      rw [wp_pure]
      refine ⟨rfl, ?_⟩
      rintro u ⟨⟩
      obtain ⟨hstate, ⟨i, hi⟩, -⟩ := searchStep_found (by simp) hfind
      exact ⟨h.alive_of_state (by rw [hstate]; decide), h.table_lt i u hi⟩

/-- The task that is scheduled is not a dying one. -/
theorem wp_schedule (h : Buried s) :
    wp (fun _ => True) schedule (fun _ s' => Inv s' ∧ (s'.tasks s'.current).dying = false) s := by
  unfold schedule runningTask getTask modifyTask
  simp only [wp_bind, wp_gets]
  refine wp_mono (wp_taskSearch h) ?_
  rintro o s' ⟨rfl, hnext⟩
  cases o with
  | none => simp only [wp_fault]
  | some next =>
      have hlast : ∀ s₁ : State, Buried s₁ → (s₁.tasks next).dying = false →
          next < s₁.created →
          Inv { s₁.setTask next { s₁.tasks next with state := .running } with current := next } ∧
          (({ s₁.setTask next { s₁.tasks next with state := .running } with
            current := next } : State).tasks next).dying = false := by
        intro s₁ h₁ hnext₁ hlt
        have h₂ := h₁.setAlive (v := { s₁.tasks next with state := .running }) hnext₁ hnext₁
          (h₁.alive_point hnext₁)
        have hdying : ((s₁.setTask next { s₁.tasks next with state := .running }).tasks
            next).dying = false := by simpa [State.setTask] using hnext₁
        exact ⟨⟨{ h₂ with }, hlt,
          fun hcurrent => absurd (hdying.symm.trans hcurrent) (by decide)⟩, hdying⟩
      simp only [wp_bind, wp_gets, wp_ite, wp_modify]
      refine ⟨fun hrunning => ?_, fun _ => ?_⟩
      · have hcurrent := h.alive_of_state (t := s'.current) (by rw [hrunning]; decide)
        refine hlast _ (h.setAlive hcurrent hcurrent (h.alive_point hcurrent)) ?_
          (hnext next rfl).2
        change (if next = s'.current then _ else _ : Task).dying = false
        split
        · exact hcurrent
        · exact (hnext next rfl).1
      · exact hlast s' h (hnext next rfl).1 (hnext next rfl).2

/-- Only a living task is linked into a list. -/
theorem wp_listPush {l : ListId} (h : Inv s) (ht : (s.tasks t).dying = false) :
    wp (fun _ => True) (listPush l t)
      (fun _ s' => Inv s' ∧ s'.current = s.current ∧ (s'.tasks t).dying = false) s := by
  unfold listPush modifyTask
  simp only [wp_bind, wp_gets, wp_check, wp_modify]
  intro _
  have h' : Inv (s.setList l (t :: s.lists l)) := { h with }
  exact ⟨h'.setAlive ht ht (h.alive_point ht), rfl, by simpa using ht⟩

/-- Only a linked task is unblocked, so it is a living one. -/
theorem wp_taskUnblock (h : Inv s) :
    wp (fun _ => True) (taskUnblock t) (fun _ s' => Inv s' ∧
      ∀ u, (s'.tasks u).dying = (s.tasks u).dying) s := by
  unfold taskUnblock listRemove modifyTask getTask
  simp only [wp_bind, wp_gets]
  cases hnode : (s.tasks t).node with
  | none => simp only [wp_fault]
  | some l =>
      have ht := h.alive_of_node (t := t) (by simp [hnode])
      simp only [wp_bind, wp_modify]
      have h₁ : Inv (s.setList l ((s.lists l).erase t)) := { h with }
      have h₂ := h₁.setAlive (v := { s.tasks t with node := none }) ht ht (h.alive_point ht)
      refine ⟨h₂.setAlive (by simpa using ht) (by simpa using ht)
        (by simpa using h.alive_point ht), fun u => ?_⟩
      simp only [State.setTask, State.setList]
      by_cases hu : u = t <;> simp [hu]

/-- The running task blocks, if it is a living one. -/
theorem wp_taskBlock {l : ListId} {state : TaskState} (h : Inv s)
    (ht : (s.tasks t).dying = false) :
    wp (fun _ => True) (taskBlock t l state) (fun _ s' => Inv s') s := by
  unfold taskBlock getTask modifyTask runningTask
  simp only [wp_bind, wp_gets, wp_check]
  intro _
  refine wp_mono (wp_listPush h ht) ?_
  rintro _ s₁ ⟨h₁, -, ht₁⟩
  simp only [wp_modify, wp_ite]
  intro _
  have h₂ := h₁.setAlive (v := { s₁.tasks t with state := state }) ht₁ ht₁ (h₁.alive_point ht₁)
  refine ⟨fun _ => wp_mono (wp_schedule h₂.toBuried) fun _ _ h => h.1, fun _ => ?_⟩
  rw [wp_pure]
  exact h₂

theorem wp_taskSleep {ticks : ℕ} (h : Inv s) (halive : (s.tasks s.current).dying = false) :
    wp (fun _ => True) (taskSleep ticks) (fun _ s' => Inv s') s := by
  unfold taskSleep runningTask modifyTask getTask
  simp only [wp_bind, wp_gets, wp_modify, wp_check]
  intro _
  have hpoint := h.alive_point halive
  refine wp_mono (wp_schedule (Buried.setAlive (Buried.setList (Buried.setAlive h.toBuried
    halive ?_ ?_) _ _) ?_ ?_ ?_)) fun _ _ h => h.1
  all_goals simpa

theorem wp_wakeLoop (ts : List ℕ) (h : Inv s) :
    wp (fun _ => True) (wakeLoop ts) (fun _ s' => Inv s') s := by
  induction ts generalizing s with
  | nil =>
      simp only [wakeLoop, wp_pure]
      exact h
  | cons t ts ih =>
      simp only [wakeLoop, getTask, modifyTask, wp_bind, wp_gets, wp_ite, wp_modify, wp_pure]
      refine ⟨fun _ => h, fun _ => ?_⟩
      have h' : Inv (s.setTask t { s.tasks t with ticks := 0 }) :=
        h.setTask rfl (h.dead t) (h.finished t) (fun heq => heq ▸ h.running)
      exact wp_mono (wp_taskUnblock h') fun _ _ h => ih h.1

/-- An interrupt may take the processor from the running task. -/
theorem wp_clockHandler (h : Inv s) :
    wp (fun _ => True) clockHandler (fun _ s' => Inv s') s := by
  unfold clockHandler taskWakeup runningTask modifyTask getTask
  simp only [wp_bind, wp_gets]
  refine wp_mono (wp_wakeLoop _ h) ?_
  intro _ s₁ h₁
  simp only [wp_bind, wp_modify, wp_ite]
  have h₂ : Inv { s₁ with jiffies := (s₁.jiffies + 1) % 2 ^ 32 } := { h₁ with }
  have h₃ : ∀ v : Task, v.dying = (s₁.tasks s₁.current).dying →
      v.state = (s₁.tasks s₁.current).state → v.node = (s₁.tasks s₁.current).node →
      v.point = (s₁.tasks s₁.current).point → Inv (({ s₁ with
        jiffies := (s₁.jiffies + 1) % 2 ^ 32 } : State).setTask s₁.current v) := by
    intro v hdying hstate hnode hpoint
    refine h₂.setTask hdying ?_ ?_ ?_
    · rw [hdying, hstate, hnode]
      exact h₁.dead s₁.current
    · rw [hdying, hpoint]
      exact h₁.finished s₁.current
    · rw [hdying, hpoint]
      exact fun _ => h₁.running
  refine ⟨fun _ => ?_, fun _ => ?_⟩
  · refine wp_mono (wp_schedule (Buried.setTask (Inv.toBuried ?_) ?_ ?_ ?_)) fun _ _ h => h.1
    · exact h₃ _ rfl rfl rfl rfl
    · simp
    · simpa using h₁.dead s₁.current
    · simpa using h₁.finished s₁.current
  · rw [wp_pure]
    exact h₃ _ rfl rfl rfl rfl

/-! ## Creation and end of tasks -/

theorem wp_taskFork (h : Inv s) (halive : (s.tasks s.current).dying = false) :
    wp (fun _ => True) taskFork (fun _ s' => Inv s') s := by
  have hpoint := h.alive_point halive
  unfold taskFork runningTask getTask getFreeTask modifyTask
  simp only [wp_bind, wp_gets, wp_get, wp_check]
  intro _
  cases (List.range NR_TASKS).find? fun i => (s.table i).isNone with
  | none => simp only [wp_fault]
  | some i =>
      simp only [wp_bind, wp_modify, wp_pure]
      have hnew : (s.tasks s.created).dying = false := by
        by_contra hdying
        exact absurd (h.created _ (by simpa using hdying)) (Nat.lt_irrefl _)
      refine Inv.setAlive { h with created := ?_, idle_lt := ?_, table_lt := ?_, current_lt := ?_ }
        hnew halive hpoint
      · exact fun u hu => Nat.lt_succ_of_lt (h.created u hu)
      · exact Nat.lt_succ_of_lt h.idle_lt
      · intro k u hu
        change (if k = i then some s.created else s.table k) = some u at hu
        split at hu
        · cases hu
          exact Nat.lt_succ_self _
        · exact Nat.lt_succ_of_lt (h.table_lt k u hu)
      · exact Nat.lt_succ_of_lt h.current_lt

/-- The running task begins to exit. -/
theorem wp_exitBegin {status : ℤ} (h : Inv s)
    (hpoint : (s.tasks s.current).point = .run) (hidle : s.current ≠ s.idle) :
    wp (fun _ => True) (Sched.exitBegin status) (fun _ s' => Inv s') s := by
  unfold Sched.exitBegin runningTask getTask modifyTask
  simp only [wp_bind, wp_gets, wp_check, wp_modify]
  intro hfree
  have htasks : ∀ v u, (s.setTask s.current v).tasks u =
      if u = s.current then v else s.tasks u := fun _ _ => rfl
  refine { h with dead := ?_, idle := ?_, created := ?_, finished := ?_, running := ?_ }
  all_goals simp only [htasks, State.setTask_current, if_true]
  · intro u hu
    split at hu
    · rename_i heq
      rw [if_pos heq]
      exact ⟨rfl, hfree.1⟩
    · rename_i hne
      rw [if_neg hne]
      exact h.dead u hu
  · exact (congrArg Task.dying (if_neg (Ne.symm hidle))).trans h.idle
  · intro u hu
    split at hu
    · rename_i heq
      rw [heq]
      exact h.current_lt
    · exact h.created u hu
  · intro u hu
    split
    · rfl
    · rename_i hne
      rw [if_neg hne] at hu
      exact h.finished u hu
  · exact fun _ => hpoint

theorem reparent_inv {pid ppid i : ℕ} (h : Inv s) : Inv (reparent s pid ppid i) := by
  unfold reparent
  split
  · exact h
  · split
    · exact h.setTask rfl (h.dead _) (h.finished _) (fun heq => heq ▸ h.running)
    · exact h

theorem reparent_dying {pid ppid i u : ℕ} :
    ((reparent s pid ppid i).tasks u).dying = (s.tasks u).dying := by
  unfold reparent
  split
  · rfl
  · split
    · change (if u = _ then _ else _ : Task).dying = _
      split
      · rename_i heq
        rw [heq]
      · rfl
    · rfl

private theorem reparent_foldl {pid ppid : ℕ} (is : List ℕ) (h : Inv s) :
    Inv (is.foldl (fun s i => reparent s pid ppid i) s) ∧ ∀ u,
      ((is.foldl (fun s i => reparent s pid ppid i) s).tasks u).dying = (s.tasks u).dying := by
  induction is generalizing s with
  | nil => exact ⟨h, fun _ => rfl⟩
  | cons i is ih =>
      obtain ⟨hinv, hdying⟩ := ih (@reparent_inv _ pid ppid i h)
      exact ⟨hinv, fun u => (hdying u).trans reparent_dying⟩

/-- The dying task makes its last call of `schedule`. -/
theorem wp_exitEnd (h : Inv s) (hdying : (s.tasks s.current).dying = true) :
    wp (fun _ => True) Sched.exitEnd (fun _ s' => Inv s') s := by
  have hlast : ∀ s₁ : State, Inv s₁ → (s₁.tasks s.current).dying = true →
      wp (fun _ => True) schedule (fun _ s' => Inv s') (s₁.setTask s.current
        { s₁.tasks s.current with point := .finished }) := by
    intro s₁ h₁ hdying₁
    refine wp_mono (wp_schedule (h₁.toBuried.setTask rfl (h₁.dead _) fun _ => hdying₁)) ?_
    exact fun _ _ h => h.1
  unfold Sched.exitEnd runningTask getTask setPoint modifyTask
  simp only [wp_bind, wp_gets, wp_modify, wp_deref, wp_ite]
  obtain ⟨h₁, hdying₁⟩ := @reparent_foldl _ (s.tasks s.current).pid
    (s.tasks s.current).ppid (List.range' 2 (NR_TASKS - 2)) h
  intro parent _
  refine ⟨fun _ => ?_, fun _ => ?_⟩
  · refine wp_mono (wp_taskUnblock h₁) ?_
    rintro _ s₂ ⟨h₂, hdying₂⟩
    exact hlast s₂ h₂ ((hdying₂ _).trans ((hdying₁ _).trans hdying))
  · exact hlast _ h₁ ((hdying₁ _).trans hdying)

theorem Inv.setRun (h : Inv s) : Inv (s.setTask t { s.tasks t with point := .run }) :=
  h.setTask rfl (h.dead t) (by simp) (fun _ _ => rfl)

theorem wp_taskWaitpid {pid : ℤ} (h : Inv s) (halive : (s.tasks s.current).dying = false) :
    wp (fun _ => True) (taskWaitpid pid) (fun _ s' => Inv s') s := by
  unfold taskWaitpid runningTask setPoint modifyTask
  simp only [wp_bind, wp_gets, wp_get]
  split
  · simp only [wp_bind, wp_modify]
    rename_i i _
    have h₁ : Inv { s with table := fun k => if k = i then none else s.table k } := by
      refine { h with table_lt := ?_ }
      intro k u hu
      change (if k = i then none else s.table k) = some u at hu
      split at hu
      · cases hu
      · exact h.table_lt k u hu
    exact h₁.setRun
  · simp only [wp_bind, wp_modify]
    exact wp_taskBlock (h.setAlive halive halive (by simp)) (by simpa using halive)
  · simp only [wp_modify]
    exact h.setRun

end Scheduler

/-! ## Locks and requests -/

section Requests

variable {s : State} {t d c l i : ℕ}

theorem Inv.setLock (h : Inv s) (v : Lock) : Inv (s.setLock l v) := { h with }

theorem Inv.setDevice (h : Inv s) (v : Device) : Inv (s.setDevice d v) := { h with }

theorem Inv.setCtrl (h : Inv s) (v : Ctrl) : Inv (s.setCtrl c v) := { h with }

theorem wp_lockAcquire (h : Inv s) :
    wp (fun _ => True) (lockAcquire t l) (fun _ s' => Inv s') s := by
  unfold lockAcquire lockTake
  simp only [wp_bind, wp_gets, wp_ite, wp_modify, wp_check]
  exact ⟨fun _ => h.setLock _, fun _ _ => h.setLock _⟩

theorem wp_lockRelease (h : Inv s) :
    wp (fun _ => True) (lockRelease t l) (fun _ s' => Inv s') s := by
  unfold lockRelease
  simp only [wp_bind, wp_gets, wp_ite, wp_modify, wp_check, wp_pure]
  refine fun _ => ⟨fun _ => h.setLock _, fun _ _ _ => ?_⟩
  split
  · rw [wp_pure]
    exact h.setLock _
  · simp only [wp_bind, wp_pure]
    exact wp_mono (wp_taskUnblock (h.setLock _)) fun _ _ h => h.1

theorem wp_requestDone (h : Inv s) :
    wp (fun _ => True) (requestDone t d) (fun _ s' => Inv s') s := by
  unfold requestDone findRequest setPoint modifyTask
  simp only [wp_bind, wp_gets, wp_deref]
  intro req _
  obtain ⟨next, up⟩ := nextRequest (s.devices d) ((s.devices d).requests.idxOf req)
  simp only [wp_modify]
  have h' := (h.setDevice (d := d) ⟨(s.devices d).parent, (s.devices d).requests.erase req, up,
    (s.devices d).ctrl⟩).setRun (t := t)
  cases next with
  | none =>
      rw [wp_pure]
      exact h'
  | some next =>
      simp only [wp_bind, wp_deref]
      exact fun u _ => wp_mono (wp_taskUnblock h') fun _ _ h => h.1

theorem wp_sectorsDone (h : Inv s) :
    wp (fun _ => True) (sectorsDone t d c) (fun _ s' => Inv s') s := by
  unfold sectorsDone setPoint modifyTask taskYield
  simp only [wp_bind, wp_gets]
  refine wp_mono (wp_lockRelease h) ?_
  intro woken s₁ h₁
  cases woken with
  | true =>
      simp only [if_true, wp_bind, wp_modify]
      exact wp_mono (wp_schedule (h₁.toBuried.setTask rfl (h₁.dead t) (by simp))) fun _ _ h => h.1
  | false =>
      simp only [Bool.false_eq_true, if_false]
      exact wp_requestDone h₁

/-- A task waits for the disk only while its state is `running`. -/
theorem wp_sectors (h : Inv s) :
    wp (fun _ => True) (sectors t d c i) (fun _ s' => Inv s') s := by
  unfold sectors findRequest getTask setPoint modifyTask
  simp only [wp_bind, wp_gets, wp_deref, wp_ite, wp_modify]
  refine fun req _ => ⟨fun hwait => ?_, fun _ => wp_sectorsDone h⟩
  have ht := h.alive_of_state (t := t) (by rw [hwait.2]; decide)
  exact wp_taskBlock ((h.setCtrl _).setAlive ht ht (by simp)) (by simpa [State.setCtrl] using ht)

/-- The request is served at once, or the task waits for the controller. -/
theorem wp_doRequest (h : Inv s)
    (hopen : (s.tasks t).dying = true → ∀ c, (s.devices d).ctrl = some c →
      lockOpen t (s.locks (s.ctrls c).lock) = true) :
    wp (fun _ => True) (doRequest t d) (fun _ s' => Inv s') s := by
  unfold doRequest
  simp only [wp_bind, wp_gets]
  split
  · exact wp_requestDone h
  · rename_i c hc
    simp only [wp_bind, wp_gets, wp_ite, setPoint, modifyTask, wp_modify]
    refine ⟨fun _ => wp_mono (wp_lockAcquire h) fun _ _ h => wp_sectors h, fun hclosed => ?_⟩
    have ht : (s.tasks t).dying = false := by
      by_contra hdying
      exact hclosed (hopen (by simpa using hdying) c hc)
    exact wp_taskBlock (h.setAlive ht ht (by simp)) (by simpa using ht)

/-- What a dying task finds when it asks for a request: nobody in the queue of the device,
and nobody at its controller. -/
def Undisturbed (s : State) (dev : ℕ) : Prop :=
  (s.devices (queueOf s dev)).requests = [] ∧ ∀ c, (s.devices (queueOf s dev)).ctrl = some c →
    lockOpen s.current (s.locks (s.ctrls c).lock) = true

theorem wp_deviceRequest {dev idx count : ℕ} {type : ReqType} (h : Inv s)
    (hquiet : (s.tasks s.current).dying = true → Undisturbed s dev) :
    wp (fun _ => True) (deviceRequest dev type idx count) (fun _ s' => Inv s') s := by
  unfold deviceRequest runningTask setPoint modifyTask
  simp only [wp_bind, wp_gets, wp_get, wp_modify, wp_ite]
  refine ⟨fun _ => wp_doRequest (h.setDevice _) fun hdying c hc => ?_, fun hbusy => ?_⟩
  · simp only [State.setDevice, if_true] at hc
    exact (hquiet hdying).2 c hc
  · have ht : (s.tasks s.current).dying = false := by
      by_contra hdying
      rw [(hquiet (by simpa using hdying)).1] at hbusy
      simp at hbusy
    exact wp_taskBlock ((h.setDevice _).setAlive ht ht (by simp))
      (by simpa [State.setDevice] using ht)

theorem wp_ideHandler (h : Inv s) :
    wp (fun _ => True) (ideHandler c) (fun _ s' => Inv s') s := by
  unfold ideHandler
  simp only [wp_bind, wp_gets]
  split
  · rw [wp_pure]
    exact h
  · simp only [wp_bind, wp_modify]
    exact wp_mono (wp_taskUnblock h) fun _ _ h => h.1.setCtrl _

end Requests

/-! ## Runs -/

/-- A request of a dying task is undisturbed. -/
def Quiet (s : State) (a : Action) : Prop :=
  (s.tasks s.current).dying = true → ∀ dev type idx count,
    a = .request dev type idx count → Undisturbed s dev

section Runs

variable {s : State} {a : Action}

/-- The running task goes on; it is not a dying one, since those never wait. -/
theorem wp_resume {p : Point} (h : Inv s) (halive : (s.tasks s.current).dying = false) :
    wp (fun _ => True) (Sched.resume s.current p) (fun _ s' => Inv s') s := by
  have hrequest : ∀ d, wp (fun _ => True) (doRequest s.current d) (fun _ s' => Inv s') s :=
    fun d => wp_doRequest h fun hdying => absurd (halive.symm.trans hdying) (by decide)
  cases p with
  | run =>
      simp only [Sched.resume, wp_pure]
      exact h
  | finished =>
      simp only [Sched.resume, wp_pure]
      exact h
  | queued d => exact hrequest d
  | locking l d =>
      cases d with
      | some d => exact hrequest d
      | none =>
          simp only [Sched.resume, wp_bind, wp_gets, wp_ite, setPoint, modifyTask, wp_modify]
          exact ⟨fun _ => wp_mono (wp_lockAcquire h) fun _ _ h => h.setRun,
            fun _ => wp_taskBlock h halive⟩
  | sector d i =>
      simp only [Sched.resume, wp_bind, wp_gets]
      split
      · simp only [wp_fault]
      · exact wp_sectors h
  | served d => exact wp_requestDone h
  | waitpid pid => exact wp_taskWaitpid h halive

theorem wp_code (h : Inv s) (hpossible : a.Possible s) (hquiet : Quiet s a) :
    wp (fun _ => True) a.code (fun _ s' => Inv s') s := by
  cases a with
  | yield => exact wp_mono (wp_schedule h.toBuried) fun _ _ h => h.1
  | sleep ticks => exact wp_taskSleep h hpossible.2
  | block =>
      simp only [Action.code, runningTask, wp_bind, wp_gets]
      exact wp_taskBlock h hpossible.2
  | wake t => exact wp_mono (wp_taskUnblock h) fun _ _ h => h.1
  | fork => exact wp_taskFork h hpossible.2
  | waitpid pid => exact wp_taskWaitpid h hpossible.2
  | acquire l =>
      simp only [Action.code, runningTask, setPoint, modifyTask, wp_bind, wp_gets, wp_ite,
        wp_modify]
      exact ⟨fun _ => wp_lockAcquire h,
        fun _ => wp_taskBlock (h.setAlive hpossible.2 hpossible.2 (by simp))
          (by simpa using hpossible.2)⟩
  | release l =>
      simp only [Action.code, runningTask, taskYield, wp_bind, wp_gets]
      refine wp_mono (wp_lockRelease h) fun woken s₁ h₁ => ?_
      cases woken with
      | true => exact wp_mono (wp_schedule h₁.toBuried) fun _ _ h => h.1
      | false =>
          simp only [Bool.false_eq_true, if_false, wp_pure]
          exact h₁
  | request dev type idx count =>
      exact wp_deviceRequest h fun hdying => hquiet hdying dev type idx count rfl
  | exitBegin status => exact wp_exitBegin h hpossible.1 hpossible.2.2
  | exitEnd => exact wp_exitEnd h hpossible.2
  | resume =>
      simp only [Action.code, runningTask, getTask, wp_bind, wp_gets]
      have halive : (s.tasks s.current).dying = false := by
        by_contra hdying
        exact hpossible (h.running (by simpa using hdying))
      exact wp_resume h halive
  | clock => exact wp_clockHandler h
  | disk c => exact wp_ideHandler h

/-- No task has begun to exit, and the tasks in use have been created. -/
structure Initial (s : State) : Prop where
  alive : ∀ t, (s.tasks t).dying = false ∧ (s.tasks t).point ≠ .finished
  current : s.current < s.created
  idle : s.idle < s.created
  table : ∀ i t, s.table i = some t → t < s.created

end Runs

end Ylos.Sched
