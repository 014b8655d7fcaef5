import Mathlib.Data.List.Nodup
import Mathlib.Data.List.Perm.Basic
import Mathlib.Order.Basic
import Mathlib.Tactic.ByContra
import Ylos.Model.Task

/-! # What the calls of the scheduler do

Every call as one change of the state. A call that waits ends with `schedule`, which
gives the processor to a ready task of the table or to the idle task. -/

namespace Ylos.Sched

open Exec

/-! ## Changes of the state -/

def InTable (s : State) (t : ℕ) : Prop := ∃ i, s.table i = some t

namespace State

variable {s : State} {t u next i : ℕ} {l : ListId} {v : Task} {ts : List ℕ} {state : TaskState}

@[simp] theorem setTask_tasks (s : State) (t : ℕ) (v : Task) :
    (s.setTask t v).tasks t = v := if_pos rfl

@[simp] theorem setTask_current (s : State) (t : ℕ) (v : Task) :
    (s.setTask t v).current = s.current := rfl

@[simp] theorem setTask_idle (s : State) (t : ℕ) (v : Task) :
    (s.setTask t v).idle = s.idle := rfl

@[simp] theorem setTask_lists (s : State) (t : ℕ) (v : Task) :
    (s.setTask t v).lists = s.lists := rfl

@[simp] theorem setTask_table (s : State) (t : ℕ) (v : Task) :
    (s.setTask t v).table = s.table := rfl

@[simp] theorem setTask_created (s : State) (t : ℕ) (v : Task) :
    (s.setTask t v).created = s.created := rfl

@[simp] theorem setTask_jiffies (s : State) (t : ℕ) (v : Task) :
    (s.setTask t v).jiffies = s.jiffies := rfl

@[simp] theorem setList_tasks (s : State) (l : ListId) (v : List ℕ) :
    (s.setList l v).tasks = s.tasks := rfl

@[simp] theorem setList_current (s : State) (l : ListId) (v : List ℕ) :
    (s.setList l v).current = s.current := rfl

theorem setTask_apply (s : State) (t : ℕ) (v : Task) (u : ℕ) :
    (s.setTask t v).tasks u = if u = t then v else s.tasks u := rfl

theorem setList_apply (s : State) (l : ListId) (ts : List ℕ) (k : ListId) :
    (s.setList l ts).lists k = if k = l then ts else s.lists k := rfl

/-- The processor goes from `current` to `next`. -/
def switchTo (s : State) (next : ℕ) : State :=
  { s with
    current := next
    tasks := fun t => { s.tasks t with
      state :=
        if t = next then .running
        else if t = s.current ∧ (s.tasks t).state = .running then .ready
        else (s.tasks t).state } }

/-- Task `t` goes into list `l`, which becomes `ts`. -/
def link (s : State) (t : ℕ) (l : ListId) (ts : List ℕ) (state : TaskState) : State :=
  (s.setList l ts).setTask t { s.tasks t with node := some l, state := state }

/-- Task `t` comes out of list `l` and is ready. -/
def unlink (s : State) (t : ℕ) (l : ListId) : State :=
  (s.setList l ((s.lists l).erase t)).setTask t { s.tasks t with node := none, state := .ready }

/-- A new task `v` in slot `i`. -/
def occupy (s : State) (i : ℕ) (v : Task) : State :=
  { s with
    created := s.created + 1
    table := fun k => if k = i then some s.created else s.table k
    tasks := fun t => if t = s.created then v else s.tasks t }

def vacate (s : State) (i : ℕ) : State :=
  { s with table := fun k => if k = i then none else s.table k }

theorem switchTo_tasks (s : State) (next t : ℕ) : (s.switchTo next).tasks t =
    { s.tasks t with
      state :=
        if t = next then .running
        else if t = s.current ∧ (s.tasks t).state = .running then .ready
        else (s.tasks t).state } := rfl

theorem link_tasks (s : State) (t : ℕ) (l : ListId) (ts : List ℕ) (state : TaskState) (u : ℕ) :
    (s.link t l ts state).tasks u =
      if u = t then { s.tasks t with node := some l, state := state } else s.tasks u := rfl

theorem link_lists (s : State) (t : ℕ) (l : ListId) (ts : List ℕ) (state : TaskState)
    (k : ListId) : (s.link t l ts state).lists k = if k = l then ts else s.lists k := rfl

theorem unlink_tasks (s : State) (t : ℕ) (l : ListId) (u : ℕ) : (s.unlink t l).tasks u =
    if u = t then { s.tasks t with node := none, state := .ready } else s.tasks u := rfl

theorem unlink_lists (s : State) (t : ℕ) (l k : ListId) : (s.unlink t l).lists k =
    if k = l then (s.lists l).erase t else s.lists k := rfl

end State

variable {s : State} {t u next i : ℕ} {l : ListId} {state : TaskState}

/-! ## The scheduler -/

/-- `task_search` finds another task of the table in the state looked for. -/
theorem searchStep_found {ls : List ℕ} {best : Option ℕ}
    (hbest : ∀ b, best = some b → (s.tasks b).state = state ∧ InTable s b ∧ s.current ≠ b)
    (h : ls.foldl (searchStep s state) best = some u) :
    (s.tasks u).state = state ∧ InTable s u ∧ s.current ≠ u := by
  induction ls generalizing best with
  | nil => exact hbest u h
  | cons i is ih =>
      refine ih ?_ h
      intro b hb
      unfold searchStep at hb
      split at hb
      · exact hbest b hb
      · rename_i c hc
        split at hb
        · exact hbest b hb
        · rename_i hstate
          split at hb
          · exact hbest b hb
          · rename_i hcurrent
            have hfound : (s.tasks c).state = state ∧ InTable s c ∧ s.current ≠ c :=
              ⟨by simpa using hstate, ⟨i, hc⟩, hcurrent⟩
            split at hb
            · cases hb
              exact hfound
            · rename_i b' _
              split at hb
              · cases hb
                exact hfound
              · cases hb
                exact hbest _ rfl

/-- The task that `schedule` may choose. -/
def Next (s : State) (next : ℕ) : Prop :=
  next = s.idle ∨ ((s.tasks next).state = .ready ∧ InTable s next ∧ s.current ≠ next)

theorem run_taskSearch (s : State) :
    ∃ next, Next s next ∧ (taskSearch .ready).run s = .ok (some next, s, []) := by
  unfold taskSearch
  rw [run_bind _ (run_get s)]
  cases hfind : (List.range NR_TASKS).foldl (searchStep s .ready) none with
  | none => exact ⟨s.idle, .inl rfl, rfl⟩
  | some u => exact ⟨u, .inr (searchStep_found (by simp) hfind), rfl⟩

/-- `schedule` always finds a task. -/
theorem run_schedule (s : State) :
    ∃ next, Next s next ∧ schedule.run s = .ok ((), s.switchTo next, []) := by
  obtain ⟨next, hnext, hsearch⟩ := run_taskSearch s
  refine ⟨next, hnext, ?_⟩
  unfold schedule runningTask getTask modifyTask
  rw [run_bind _ (run_gets _ s), run_bind _ hsearch]
  dsimp only
  rw [run_bind _ (run_gets _ s)]
  split
  · rename_i hrunning
    rw [run_bind _ (run_modify _ s), run_bind _ (run_modify _ _), run_modify]
    congr 3
    unfold State.switchTo State.setTask
    congr 1
    funext t
    dsimp only
    by_cases ht : t = next
    · by_cases hc : next = s.current
      · simp [ht, hc]
      · simp [ht, hc]
    · by_cases hc : t = s.current
      · simp [hc, hrunning, show s.current ≠ next by rwa [← hc]]
      · simp [ht, hc]
  · rename_i hrunning
    rw [run_bind _ (run_modify _ s), run_modify]
    congr 3
    unfold State.switchTo State.setTask
    congr 1
    funext t
    dsimp only
    by_cases ht : t = next
    · simp [ht]
    · have hno : ¬(t = s.current ∧ (s.tasks t).state = .running) := by
        rintro ⟨rfl, hstate⟩
        exact hrunning hstate
      rw [if_neg ht, if_neg ht, if_neg hno]

theorem run_listPush (hnew : t ∉ s.lists l) : (listPush l t).run s =
    .ok ((), (s.setList l (t :: s.lists l)).setTask t { s.tasks t with node := some l }, []) := by
  unfold listPush modifyTask
  rw [run_bind _ (run_gets _ s), run_bind _ (run_check_pos hnew s), run_bind _ (run_modify _ s),
    run_modify]
  rfl

theorem run_listRemove (hnode : (s.tasks t).node = some l) : (listRemove t).run s =
    .ok ((), (s.setList l ((s.lists l).erase t)).setTask t { s.tasks t with node := none },
      []) := by
  unfold listRemove getTask modifyTask
  rw [run_bind _ (run_gets _ s), hnode]
  dsimp only
  rw [run_bind _ (run_modify _ s), run_modify]
  rfl

/-- A linked task cannot be linked again. -/
theorem run_taskBlock (hnode : (s.tasks s.current).node = none)
    (hnew : s.current ∉ s.lists l) (hstate : state ≠ .ready ∧ state ≠ .running) :
    (taskBlock s.current l state).run s =
      schedule.run (s.link s.current l (s.current :: s.lists l) state) := by
  unfold taskBlock getTask modifyTask runningTask
  rw [run_bind _ (run_gets _ s), run_bind _ (run_check_pos hnode s),
    run_bind _ (run_listPush hnew), run_bind _ (run_check_pos hstate _),
    run_bind _ (run_modify _ _), run_bind _ (run_gets _ _)]
  refine (congrArg (fun x : M Unit => x.run _) (if_pos rfl)).trans ?_
  congr 1
  unfold State.link State.setTask
  congr 1
  funext u
  dsimp only
  split
  · simp
  · rfl

theorem run_taskUnblock (hnode : (s.tasks t).node = some l) :
    (taskUnblock t).run s = .ok ((), s.unlink t l, []) := by
  unfold taskUnblock modifyTask
  rw [run_bind _ (run_listRemove hnode), run_modify]
  congr 3
  unfold State.unlink State.setTask
  congr 1
  funext u
  dsimp only
  split
  · simp
  · rfl

/-! ## Sleeping and waking -/

theorem perm_insertSort {β : Type} (key : β → ℤ) (x : β) (xs : List β) :
    (insertSort key x xs).Perm (x :: xs) := by
  induction xs with
  | nil => exact List.Perm.refl _
  | cons y ys ih =>
      unfold insertSort
      split
      · exact List.Perm.refl _
      · exact (ih.cons y).trans (List.Perm.swap x y ys)

/-- The running task takes `ticks` as its deadline. -/
def State.setDeadline (s : State) (ticks : ℕ) : State :=
  s.setTask s.current { s.tasks s.current with
    ticks := int32 (s.jiffies + (if 0 < ticks then ticks else 1 : ℕ)) }

/-- Task `t` goes into `sleep_list`, in the order of the deadlines. -/
def State.linkSleeper (s : State) (t : ℕ) : State :=
  s.link t .sleep (insertSort (fun u => (s.tasks u).ticks) t (s.lists .sleep)) .sleeping

theorem run_taskSleep {ticks : ℕ} (hnode : (s.tasks s.current).node = none) :
    (taskSleep ticks).run s = schedule.run ((s.setDeadline ticks).linkSleeper s.current) := by
  unfold taskSleep runningTask getTask modifyTask
  have hnode' : ((s.setDeadline ticks).tasks s.current).node = none := by
    rw [State.setDeadline, State.setTask_tasks]
    exact hnode
  rw [run_bind _ (run_gets _ s), run_bind _ (run_gets _ s), run_bind _ (run_modify _ s),
    run_bind _ (run_gets _ _)]
  refine (run_bind _ (run_check_pos hnode' _)).trans ?_
  rw [run_bind _ (run_modify _ _), run_bind _ (run_modify _ _)]
  rfl

/-- `task_wakeup` for one task. -/
def State.wakeOne (s : State) (t : ℕ) : State :=
  (s.setTask t { s.tasks t with ticks := 0 }).unlink t .sleep

/-- The first sleepers, as far as their deadlines have come. -/
def dueSleepers (s : State) (ts : List ℕ) : List ℕ :=
  ts.takeWhile fun t => ¬(s.jiffies : ℤ) < uint32 (s.tasks t).ticks

theorem wakeOne_tasks (s : State) (t u : ℕ) : (s.wakeOne t).tasks u =
    if u = t then { s.tasks t with ticks := 0, node := none, state := .ready }
    else s.tasks u := by
  unfold State.wakeOne
  rw [State.unlink_tasks, State.setTask_tasks, State.setTask_apply]
  split <;> rfl

theorem dueSleepers_wakeOne {ts : List ℕ} (ht : t ∉ ts) :
    dueSleepers (s.wakeOne t) ts = dueSleepers s ts := by
  induction ts with
  | nil => rfl
  | cons u ts ih =>
      have hne : u ≠ t := fun h => ht (h ▸ List.mem_cons_self)
      have htail := ih fun h => ht (List.mem_cons_of_mem _ h)
      unfold dueSleepers at htail ⊢
      rw [List.takeWhile_cons, List.takeWhile_cons, htail, wakeOne_tasks, if_neg hne]
      rfl

theorem run_wakeLoop {ts : List ℕ} (hnodup : ts.Nodup)
    (hnode : ∀ t ∈ ts, (s.tasks t).node = some .sleep) :
    (wakeLoop ts).run s = .ok ((), (dueSleepers s ts).foldl State.wakeOne s, []) := by
  induction ts generalizing s with
  | nil => rfl
  | cons t ts ih =>
      obtain ⟨hnew, hnodup⟩ := List.nodup_cons.mp hnodup
      unfold wakeLoop getTask modifyTask
      rw [run_bind _ (run_gets _ s), run_bind _ (run_gets _ s)]
      by_cases hwait : (s.jiffies : ℤ) < uint32 (s.tasks t).ticks
      · rw [if_pos hwait, dueSleepers, List.takeWhile_cons_of_neg (by simpa using hwait)]
        rfl
      · have hunblock := @run_taskUnblock (s.setTask t { s.tasks t with ticks := 0 }) t .sleep
          (by rw [State.setTask_tasks]; exact hnode t List.mem_cons_self)
        have hrest := @ih (s.wakeOne t) hnodup fun u hu => by
          rw [wakeOne_tasks, if_neg fun h : u = t => hnew (h ▸ hu)]
          exact hnode u (List.mem_cons_of_mem _ hu)
        rw [if_neg hwait, run_bind _ (run_modify _ s), run_bind _ hunblock]
        refine hrest.trans ?_
        rw [dueSleepers_wakeOne hnew]
        conv_rhs => rw [dueSleepers, List.takeWhile_cons_of_pos (by simpa using hwait)]
        rfl

theorem foldl_wakeOne_tasks (s : State) (ts : List ℕ) (u : ℕ) :
    (ts.foldl State.wakeOne s).tasks u =
      if u ∈ ts then { s.tasks u with ticks := 0, node := none, state := .ready }
      else s.tasks u := by
  induction ts generalizing s with
  | nil => rfl
  | cons t ts ih =>
      rw [List.foldl_cons, ih, wakeOne_tasks]
      by_cases hut : u = t
      · rw [hut]
        simp
      · simp [hut]

theorem wakeOne_sleepers (s : State) (t : ℕ) :
    (s.wakeOne t).lists .sleep = (s.lists .sleep).erase t := by
  unfold State.wakeOne
  rw [State.unlink_lists, if_pos rfl]
  rfl

theorem foldl_wakeOne_sleepers {ts : List ℕ} (hnodup : (s.lists .sleep).Nodup) :
    u ∈ (ts.foldl State.wakeOne s).lists .sleep ↔ u ∈ s.lists .sleep ∧ u ∉ ts := by
  induction ts generalizing s with
  | nil => simp
  | cons t ts ih =>
      have hlist := wakeOne_sleepers s t
      rw [List.foldl_cons, ih (by rw [hlist]; exact hnodup.erase t), hlist, hnodup.mem_erase_iff,
        List.mem_cons, not_or]
      exact ⟨fun h => ⟨h.1.2, h.1.1, h.2⟩, fun h => ⟨⟨h.2.1, h.1⟩, h.2.2⟩⟩

theorem foldl_wakeOne_same (s : State) (ts : List ℕ) :
    (ts.foldl State.wakeOne s).current = s.current ∧ (ts.foldl State.wakeOne s).idle = s.idle ∧
      (ts.foldl State.wakeOne s).jiffies = s.jiffies ∧
      (ts.foldl State.wakeOne s).table = s.table ∧
      (ts.foldl State.wakeOne s).created = s.created := by
  induction ts generalizing s with
  | nil => exact ⟨rfl, rfl, rfl, rfl, rfl⟩
  | cons t ts ih => exact ih (s.wakeOne t)

/-- What the clock does to the counters. -/
def State.tick (s : State) : State :=
  State.setTask { s with jiffies := (s.jiffies + 1) % 2 ^ 32 } s.current
    { s.tasks s.current with
      jiffies := (s.jiffies + 1) % 2 ^ 32
      ticks := int32 ((s.tasks s.current).ticks - 1) }

/-- The running task gets a new time slice. -/
def State.refill (s : State) : State :=
  s.setTask s.current { s.tasks s.current with ticks := (s.tasks s.current).priority }

/-- The state after `task_wakeup`. -/
def State.wakeup (s : State) : State := (dueSleepers s (s.lists .sleep)).foldl State.wakeOne s

theorem run_clockHandler (hnodup : (s.lists .sleep).Nodup)
    (hnode : ∀ t ∈ s.lists .sleep, (s.tasks t).node = some .sleep) :
    clockHandler.run s =
      if (s.wakeup.tick.tasks s.wakeup.current).ticks = 0 then schedule.run s.wakeup.tick.refill
      else .ok ((), s.wakeup.tick, []) := by
  have hwake : taskWakeup.run s = .ok ((), s.wakeup, []) := by
    unfold taskWakeup
    rw [run_bind _ (run_gets _ s)]
    exact run_wakeLoop hnodup hnode
  unfold clockHandler runningTask getTask modifyTask
  rw [run_bind _ hwake, run_bind _ (run_modify _ _), run_bind _ (run_gets _ _),
    run_bind _ (run_gets _ _), run_bind _ (run_modify _ _), run_bind _ (run_gets _ _)]
  change Exec.run (if (s.wakeup.tick.tasks s.wakeup.current).ticks = 0 then _ else _) _ = _
  split
  · rw [run_bind _ (run_modify _ _)]
    rfl
  · rfl

/-! ## Creation and end of tasks -/

theorem run_getFreeTask (hfree : ∃ i < NR_TASKS, s.table i = none) :
    ∃ i < NR_TASKS, s.table i = none ∧ getFreeTask.run s = .ok ((s.created, i),
      { s with
        created := s.created + 1
        table := fun k => if k = i then some s.created else s.table k }, []) := by
  obtain ⟨i, hi, hnone⟩ := hfree
  unfold getFreeTask
  rw [run_bind _ (run_get s)]
  cases hfind : (List.range NR_TASKS).find? fun i => (s.table i).isNone with
  | none =>
      have hall := List.find?_eq_none.mp hfind i (List.mem_range.mpr hi)
      simp [hnone] at hall
  | some k =>
      have hk := List.find?_some hfind
      exact ⟨k, List.mem_range.mp (List.mem_of_find?_eq_some hfind), by simpa using hk, rfl⟩

theorem run_getFreeTask_full (hfull : ¬∃ i < NR_TASKS, s.table i = none) :
    getFreeTask.run s = .error .assertion := by
  unfold getFreeTask
  rw [run_bind _ (run_get s)]
  cases hfind : (List.range NR_TASKS).find? fun i => (s.table i).isNone with
  | none => rfl
  | some k =>
      have hk := List.find?_some hfind
      exact absurd ⟨k, List.mem_range.mp (List.mem_of_find?_eq_some hfind), by simpa using hk⟩ hfull

theorem run_taskCreate {priority : ℕ} (hfree : ∃ i < NR_TASKS, s.table i = none) :
    ∃ i < NR_TASKS, s.table i = none ∧ (taskCreate priority).run s = .ok ((), s.occupy i
      ⟨.ready, none, int32 priority, int32 priority, 0, i, 0, 0, 0, .run, false⟩, []) := by
  obtain ⟨i, hi, hnone, hget⟩ := run_getFreeTask hfree
  refine ⟨i, hi, hnone, ?_⟩
  unfold taskCreate modifyTask
  rw [run_bind _ hget]
  rfl

/-- The child that `task_fork` makes. -/
def State.child (s : State) (i : ℕ) : Task :=
  { s.tasks s.current with
    pid := i
    ppid := (s.tasks s.current).pid
    ticks := (s.tasks s.current).priority
    state := .ready }

theorem run_taskFork (hrunning : (s.tasks s.current).node = none ∧
      (s.tasks s.current).state = .running) (hfree : ∃ i < NR_TASKS, s.table i = none) :
    ∃ i < NR_TASKS, s.table i = none ∧
      taskFork.run s = .ok ((), s.occupy i (s.child i), []) := by
  obtain ⟨i, hi, hnone, hget⟩ := run_getFreeTask hfree
  refine ⟨i, hi, hnone, ?_⟩
  unfold taskFork runningTask getTask modifyTask
  rw [run_bind _ (run_gets _ s), run_bind _ (run_gets _ s), run_bind _ (run_check_pos hrunning s),
    run_bind _ hget]
  rfl

/-- The running task is dead. -/
def State.bury (s : State) (status : ℤ) : State :=
  s.setTask s.current { s.tasks s.current with state := .died, status := status, dying := true }

/-- The children of the running task have its parent as their parent. -/
def State.handOver (s : State) : State :=
  (List.range' 2 (NR_TASKS - 2)).foldl (fun s' i => reparent s' (s.tasks s.current).pid
    (s.tasks s.current).ppid i) s

/-- The parent waits for the running task. -/
def Awaited (s : State) (parent : ℕ) : Prop :=
  (s.tasks parent).state = .waiting ∧ ((s.tasks parent).waitpid = -1 ∨
    (s.tasks parent).waitpid = (s.tasks s.current).pid)

instance (s : State) (parent : ℕ) : Decidable (Awaited s parent) :=
  inferInstanceAs (Decidable (_ ∧ _))

def State.finish (s : State) : State :=
  s.setTask s.current { s.tasks s.current with point := .finished }

/-- The child that a scan of `task_waitpid` finds. -/
def scan (s : State) (pid : ℤ) : ℕ ⊕ Bool :=
  childLoop s (s.tasks s.current).pid pid (List.range' 2 (NR_TASKS - 2)) false

def State.setWaitpid (s : State) (pid : ℤ) : State :=
  s.setTask s.current { s.tasks s.current with waitpid := pid }

/-- What the loop over the slots `is` does to the parents. -/
structure HandedOver (s s' : State) (pid ppid : ℕ) (is : List ℕ) : Prop where
  same : s' = { s with tasks := s'.tasks }
  task : ∀ u, s'.tasks u = { s.tasks u with ppid := (s'.tasks u).ppid }
  moved : ∀ u, (∃ i ∈ is, s.table i = some u) → (s.tasks u).ppid = pid → (s'.tasks u).ppid = ppid
  stayed : ∀ u, (s.tasks u).ppid ≠ pid ∨ (∀ i ∈ is, s.table i ≠ some u) →
    (s'.tasks u).ppid = (s.tasks u).ppid

theorem handedOver_reparent (s : State) (pid ppid i : ℕ) :
    HandedOver s (reparent s pid ppid i) pid ppid [i] := by
  unfold reparent
  cases hslot : s.table i with
  | none =>
      refine ⟨rfl, fun _ => rfl, fun u hu _ => ?_, fun _ _ => rfl⟩
      obtain ⟨k, hk, hu⟩ := hu
      rw [List.mem_singleton.mp hk, hslot] at hu
      cases hu
  | some c =>
      dsimp only
      split
      · rename_i hpid
        refine ⟨rfl, fun u => ?_, fun u hu _ => ?_, fun u hu => ?_⟩
        · rw [State.setTask_apply]
          split
          · rename_i hu
            rw [hu]
          · rfl
        · obtain ⟨k, hk, hu⟩ := hu
          rw [List.mem_singleton.mp hk, hslot] at hu
          cases hu
          rw [State.setTask_tasks]
        · have hne : u ≠ c := by
            rintro rfl
            rcases hu with hu | hu
            · exact hu hpid
            · exact hu i (List.mem_singleton_self i) hslot
          rw [State.setTask_apply, if_neg hne]
      · rename_i hpid
        refine ⟨rfl, fun _ => rfl, fun u hu h => ?_, fun _ _ => rfl⟩
        obtain ⟨k, hk, hu⟩ := hu
        rw [List.mem_singleton.mp hk, hslot] at hu
        cases hu
        exact absurd h hpid

theorem handedOver_foldl (s : State) (pid ppid : ℕ) (is : List ℕ) :
    HandedOver s (is.foldl (fun s i => reparent s pid ppid i) s) pid ppid is := by
  induction is generalizing s with
  | nil => exact ⟨rfl, fun _ => rfl, fun u ⟨i, hi, _⟩ => absurd hi (by simp), fun _ _ => rfl⟩
  | cons i is ih =>
      have hfirst := handedOver_reparent s pid ppid i
      have hrest := ih (reparent s pid ppid i)
      have htable : (reparent s pid ppid i).table = s.table := by rw [hfirst.same]
      rw [List.foldl_cons]
      refine ⟨?_, fun u => ?_, fun u hu hpid => ?_, fun u hu => ?_⟩
      · rw [hrest.same, hfirst.same]
      · rw [hrest.task u, hfirst.task u]
      · by_cases hpid' : ((reparent s pid ppid i).tasks u).ppid = pid
        · by_cases hu' : ∃ k ∈ is, s.table k = some u
          · exact hrest.moved u (by rwa [htable]) hpid'
          · rw [hrest.stayed u (.inr fun k hk h => hu' ⟨k, hk, by rwa [htable] at h⟩)]
            obtain ⟨k, hk, hslot⟩ := hu
            rcases List.mem_cons.mp hk with rfl | hk
            · exact hfirst.moved u ⟨k, List.mem_singleton_self k, hslot⟩ hpid
            · exact absurd ⟨k, hk, hslot⟩ hu'
        · rw [hrest.stayed u (.inl hpid')]
          by_cases hslot : s.table i = some u
          · exact hfirst.moved u ⟨i, List.mem_singleton_self i, hslot⟩ hpid
          · exact absurd ((hfirst.stayed u (.inr (by simpa using hslot))).trans hpid) hpid'
      · have hsame : ((reparent s pid ppid i).tasks u).ppid = (s.tasks u).ppid :=
          hfirst.stayed u (hu.imp_right fun h => by simpa using h i List.mem_cons_self)
        rw [hrest.stayed u, hsame]
        refine hu.imp (fun h => by rwa [hsame]) fun h k hk => ?_
        rw [htable]
        exact h k (List.mem_cons_of_mem _ hk)

theorem State.handedOver (s : State) : HandedOver s s.handOver (s.tasks s.current).pid
    (s.tasks s.current).ppid (List.range' 2 (NR_TASKS - 2)) := handedOver_foldl s _ _ _

theorem run_exitBegin {status : ℤ} (hrunning : (s.tasks s.current).node = none ∧
    (s.tasks s.current).state = .running) :
    (exitBegin status).run s = .ok ((), s.bury status, []) := by
  unfold exitBegin runningTask getTask modifyTask
  rw [run_bind _ (run_gets _ s), run_bind _ (run_gets _ s), run_bind _ (run_check_pos hrunning s)]
  rfl

/-- The part of `task_exit` after the state is set; `parent` is the parent. -/
theorem run_exitEnd {parent : ℕ}
    (hparent : s.handOver.table (s.handOver.tasks s.current).ppid = some parent)
    (hnode : Awaited s.handOver parent → (s.handOver.tasks parent).node = some l) :
    exitEnd.run s = schedule.run
      (if Awaited s.handOver parent then s.handOver.unlink parent l else s.handOver).finish := by
  have hcurrent : s.handOver.current = s.current := by rw [s.handedOver.same]
  unfold exitEnd runningTask getTask setPoint modifyTask
  rw [run_bind _ (run_gets _ s), run_bind _ (run_gets _ s), run_bind _ (run_modify _ s)]
  change Exec.run _ s.handOver = _
  rw [run_bind _ (run_gets _ _), run_bind _ (run_gets _ _), hparent]
  rw [run_bind (a := parent) _ rfl, run_bind _ (run_gets _ _)]
  have hiff : ((s.handOver.tasks parent).state = .waiting ∧
      ((s.handOver.tasks parent).waitpid = -1 ∨
        (s.handOver.tasks parent).waitpid = (s.tasks s.current).pid)) ↔
      Awaited s.handOver parent := by
    unfold Awaited
    rw [hcurrent, s.handedOver.task s.current]
  by_cases hawaited : Awaited s.handOver parent
  · rw [if_pos (hiff.mpr hawaited), if_pos hawaited,
      run_bind _ (run_taskUnblock (hnode hawaited)), run_bind _ (run_modify _ _)]
    unfold State.finish
    rw [show (s.handOver.unlink parent l).current = s.current from hcurrent]
  · rw [if_neg (mt hiff.mp hawaited), if_neg hawaited, run_bind _ (run_modify _ _)]
    unfold State.finish
    rw [hcurrent]

/-! ## Waiting for a child -/

theorem childLoop_eq_scan (s : State) (pid : ℤ) :
    childLoop s (s.tasks s.current).pid pid (List.range' 2 (NR_TASKS - 2)) false = scan s pid := rfl

theorem run_waitpidScan_dead {pid : ℤ} {c : ℕ} (hscan : scan s pid = .inl i)
    (hslot : s.table i = some c) : (waitpidScan pid).run s =
      .ok (some ((s.tasks c).pid, (s.tasks c).status), s.vacate i, []) := by
  unfold waitpidScan runningTask getTask
  rw [run_bind _ (run_gets _ s), run_bind _ (run_get s)]
  simp only [childLoop_eq_scan, hscan]
  rw [hslot]
  rfl

theorem run_waitpidScan_block {pid : ℤ} (hscan : scan s pid = .inr true) :
    (waitpidScan pid).run s = (do
      taskBlock s.current .block .waiting
      return none).run (s.setWaitpid pid) := by
  unfold waitpidScan runningTask modifyTask
  rw [run_bind _ (run_gets _ s), run_bind _ (run_get s)]
  simp only [childLoop_eq_scan, hscan]
  rw [run_bind _ (run_modify _ s)]
  rfl

theorem run_waitpidScan_none {pid : ℤ} (hscan : scan s pid = .inr false) :
    (waitpidScan pid).run s = .ok (none, s, []) := by
  unfold waitpidScan runningTask
  rw [run_bind _ (run_gets _ s), run_bind _ (run_get s)]
  simp only [childLoop_eq_scan, hscan]
  rfl

/-! ## The effect of a call -/

/-- What a call does to the state, and what it answers. -/
inductive Effect (s : State) : Call → Option (ℕ × ℤ) → State → Prop where
  | create {priority i : ℕ} : i < NR_TASKS → s.table i = none →
      Effect s (.create priority) none
        (s.occupy i ⟨.ready, none, int32 priority, int32 priority, 0, i, 0, 0, 0, .run, false⟩)
  | fork {i : ℕ} : i < NR_TASKS → s.table i = none → Effect s .fork none (s.occupy i (s.child i))
  | yield {next : ℕ} : Next s next → Effect s .yield none (s.switchTo next)
  | block {l : ListId} {state : TaskState} {next : ℕ} :
      Next (s.link s.current l (s.current :: s.lists l) state) next →
      Effect s (.block l state) none
        ((s.link s.current l (s.current :: s.lists l) state).switchTo next)
  | unblock {t : ℕ} {l : ListId} : (s.tasks t).node = some l →
      Effect s (.unblock t) none (s.unlink t l)
  | sleep {ms next : ℕ} : Next ((s.setDeadline (ms / JIFFY)).linkSleeper s.current) next →
      Effect s (.sleep ms) none
        (((s.setDeadline (ms / JIFFY)).linkSleeper s.current).switchTo next)
  | tick : (s.wakeup.tick.tasks s.wakeup.current).ticks ≠ 0 → Effect s .clock none s.wakeup.tick
  | refill {next : ℕ} : (s.wakeup.tick.tasks s.wakeup.current).ticks = 0 →
      Next s.wakeup.tick.refill next → Effect s .clock none (s.wakeup.tick.refill.switchTo next)
  | reap {pid : ℤ} {i c : ℕ} : scan s pid = .inl i → s.table i = some c →
      Effect s (.waitpid pid) (some ((s.tasks c).pid, (s.tasks c).status)) (s.vacate i)
  | wait {pid : ℤ} {next : ℕ} : scan s pid = .inr true →
      Next ((s.setWaitpid pid).link s.current .block (s.current :: s.lists .block) .waiting) next →
      Effect s (.waitpid pid) none (((s.setWaitpid pid).link s.current .block
        (s.current :: s.lists .block) .waiting).switchTo next)
  | childless {pid : ℤ} : scan s pid = .inr false → Effect s (.waitpid pid) none s
  | exitAwaited {status : ℤ} {parent next : ℕ} {l : ListId} :
      s.table (s.tasks s.current).ppid = some parent → Awaited (s.bury status).handOver parent →
      ((s.bury status).handOver.tasks parent).node = some l →
      Next ((s.bury status).handOver.unlink parent l).finish next →
      Effect s (.exit status) none
        (((s.bury status).handOver.unlink parent l).finish.switchTo next)
  | exit {status : ℤ} {parent next : ℕ} :
      s.table (s.tasks s.current).ppid = some parent → ¬Awaited (s.bury status).handOver parent →
      Next (s.bury status).handOver.finish next →
      Effect s (.exit status) none ((s.bury status).handOver.finish.switchTo next)

end Ylos.Sched
