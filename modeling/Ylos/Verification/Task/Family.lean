import Mathlib.Data.List.Range
import Ylos.Verification.Task.Scheduler

/-! # Exit and wait

No task waits for a child that is dead, and a dead task is reaped once, by its parent. The
wake-up test of `task_exit` looks only at the task that exits; that is enough because a task
waits for one pid only while the task with that pid is its own child. -/

namespace Ylos.Sched

open Exec

variable {s s' s'' : State} {t u c p next i : ℕ} {l : ListId} {state : TaskState} {ts : List ℕ}
  {answer : Option (ℕ × ℤ)} {call : Call} {pid status : ℤ}

/-- Who waits, for what, and who is dead stays as it is, and nobody leaves the table; some
may wait no more. -/
structure Kept (s s' : State) : Prop where
  table : ∀ t, InTable s t → InTable s' t
  data : ∀ t, InTable s t → (s'.tasks t).pid = (s.tasks t).pid ∧
    (s'.tasks t).ppid = (s.tasks t).ppid ∧ (s'.tasks t).waitpid = (s.tasks t).waitpid ∧
    (s'.tasks t).status = (s.tasks t).status
  waiting : ∀ t, InTable s' t → (s'.tasks t).state = .waiting →
    InTable s t ∧ (s.tasks t).state = .waiting
  died : ∀ t, InTable s' t →
    ((s'.tasks t).state = .died ↔ InTable s t ∧ (s.tasks t).state = .died)

/-! ## Changes that keep who waits -/

theorem Kept.refl (s : State) : Kept s s :=
  ⟨fun _ => id, fun _ _ => ⟨rfl, rfl, rfl, rfl⟩, fun _ ht h => ⟨ht, h⟩,
    fun _ ht => ⟨fun h => ⟨ht, h⟩, fun h => h.2⟩⟩

theorem Kept.trans (h : Kept s s') (h' : Kept s' s'') : Kept s s'' := by
  refine ⟨fun t ht => h'.table t (h.table t ht), fun t ht => ?_, fun t ht hstate => ?_,
    fun t ht => ?_⟩
  · have hd := h.data t ht
    have hd' := h'.data t (h.table t ht)
    exact ⟨hd'.1.trans hd.1, hd'.2.1.trans hd.2.1, hd'.2.2.1.trans hd.2.2.1,
      hd'.2.2.2.trans hd.2.2.2⟩
  · obtain ⟨ht', hstate'⟩ := h'.waiting t ht hstate
    exact h.waiting t ht' hstate'
  · rw [h'.died t ht]
    constructor
    · rintro ⟨ht', hdied⟩
      exact (h.died t ht').mp hdied
    · rintro ⟨ht₀, hdied⟩
      have ht' := h.table t ht₀
      exact ⟨ht', (h.died t ht').mpr ⟨ht₀, hdied⟩⟩

/-- The table stays, and a task whose state changes is neither dead nor waiting afterwards,
and was not dead. -/
theorem Kept.of_tasks (htable : s'.table = s.table)
    (hdata : ∀ t, (s'.tasks t).pid = (s.tasks t).pid ∧ (s'.tasks t).ppid = (s.tasks t).ppid ∧
      (s'.tasks t).waitpid = (s.tasks t).waitpid ∧ (s'.tasks t).status = (s.tasks t).status)
    (hstate : ∀ t, InTable s t → (s'.tasks t).state ≠ (s.tasks t).state →
      (s'.tasks t).state ≠ .waiting ∧ (s'.tasks t).state ≠ .died ∧ (s.tasks t).state ≠ .died) :
    Kept s s' := by
  have hin : ∀ t, InTable s' t ↔ InTable s t := by
    intro t
    unfold InTable
    rw [htable]
  refine ⟨fun t ht => (hin t).mpr ht, fun t _ => hdata t, fun t ht hwaiting => ?_,
    fun t ht => ?_⟩
  · rw [hin] at ht
    refine ⟨ht, ?_⟩
    by_contra hno
    exact (hstate t ht fun heq => hno (heq.symm.trans hwaiting)).1 hwaiting
  · rw [hin] at ht
    by_cases heq : (s'.tasks t).state = (s.tasks t).state
    · rw [heq, and_iff_right ((hin t).mp ((hin t).mpr ht))]
    · obtain ⟨-, hdied, hdied'⟩ := hstate t ht heq
      exact ⟨fun h => absurd h hdied, fun h => absurd h.2 hdied'⟩

theorem Linked.not_died (h : Linked s) (hnode : (s.tasks t).node = some l) (ht : InTable s t) :
    (s.tasks t).state ≠ .died := by
  have hwaits := h.waits t ht
  intro hdied
  rw [hnode, hdied] at hwaits
  cases hwaits

theorem Kept.switchTo (h : Linked s) (hnext : Next s next) : Kept s (s.switchTo next) := by
  refine Kept.of_tasks rfl (fun _ => ⟨rfl, rfl, rfl, rfl⟩) fun t _ hne => ?_
  rw [State.switchTo_tasks] at hne ⊢
  dsimp only at hne ⊢
  split at hne
  · rename_i heq
    rw [if_pos heq]
    refine ⟨nofun, nofun, ?_⟩
    rw [heq]
    rcases hnext with rfl | hnext
    · rcases h.idle_state with hidle | hidle
      · rw [hidle]
        nofun
      · rw [hidle]
        nofun
    · rw [hnext.1]
      nofun
  · rename_i hother
    split at hne
    · rename_i hrunning
      rw [if_neg hother, if_pos hrunning, hrunning.2]
      exact ⟨nofun, nofun, nofun⟩
    · exact absurd rfl hne

theorem Kept.link (h : Consistent s) (hstate : state ≠ .waiting ∧ state ≠ .died) :
    Kept s (s.link s.current l ts state) := by
  refine Kept.of_tasks rfl (fun t => ?_) fun t _ hne => ?_
  · rw [State.link_tasks]
    split
    · rename_i heq
      rw [heq]
      exact ⟨rfl, rfl, rfl, rfl⟩
    · exact ⟨rfl, rfl, rfl, rfl⟩
  · rw [State.link_tasks] at hne ⊢
    split at hne
    · rename_i heq
      rw [if_pos heq, heq, h.running]
      exact ⟨hstate.1, hstate.2, nofun⟩
    · exact absurd rfl hne

theorem Kept.unlink (h : Linked s) (hnode : (s.tasks t).node = some l) (ht : InTable s t) :
    Kept s (s.unlink t l) := by
  refine Kept.of_tasks rfl (fun u => ?_) fun u _ hne => ?_
  · rw [State.unlink_tasks]
    split
    · rename_i heq
      rw [heq]
      exact ⟨rfl, rfl, rfl, rfl⟩
    · exact ⟨rfl, rfl, rfl, rfl⟩
  · rw [State.unlink_tasks] at hne ⊢
    split at hne
    · rename_i heq
      rw [if_pos heq, heq]
      exact ⟨nofun, nofun, h.not_died hnode ht⟩
    · exact absurd rfl hne

/-- Counters, or the point, change. -/
theorem Kept.setTask {v : Task} (hstate : v.state = (s.tasks t).state)
    (hdata : v.pid = (s.tasks t).pid ∧ v.ppid = (s.tasks t).ppid ∧
      v.waitpid = (s.tasks t).waitpid ∧ v.status = (s.tasks t).status) :
    Kept s (s.setTask t v) := by
  refine Kept.of_tasks rfl (fun u => ?_) fun u _ hne => ?_
  · rw [State.setTask_apply]
    split
    · rename_i heq
      rw [heq]
      exact hdata
    · exact ⟨rfl, rfl, rfl, rfl⟩
  · rw [State.setTask_apply] at hne
    split at hne
    · rename_i heq
      rw [heq] at hne
      exact absurd hstate hne
    · exact absurd rfl hne

theorem Kept.wakeup (h : Linked s) : Kept s s.wakeup := by
  have htasks := foldl_wakeOne_tasks s (dueSleepers s (s.lists .sleep))
  refine Kept.of_tasks (foldl_wakeOne_same s _).2.2.2.1 (fun u => ?_) fun u hu hne => ?_
  · unfold State.wakeup
    rw [htasks]
    split
    · exact ⟨rfl, rfl, rfl, rfl⟩
    · exact ⟨rfl, rfl, rfl, rfl⟩
  · unfold State.wakeup at hne ⊢
    rw [htasks] at hne ⊢
    split at hne
    · rename_i hdue
      have hmem := (List.takeWhile_sublist _).subset hdue
      rw [if_pos hdue]
      exact ⟨nofun, nofun, h.not_died ((h.listed .sleep u).mp hmem).2 hu⟩
    · exact absurd rfl hne

theorem Kept.tick (s : State) : Kept s s.tick := by
  have hclock : Kept s { s with jiffies := (s.jiffies + 1) % 2 ^ 32 } :=
    Kept.of_tasks rfl (fun _ => ⟨rfl, rfl, rfl, rfl⟩) fun _ _ hne => absurd rfl hne
  exact hclock.trans (Kept.setTask rfl ⟨rfl, rfl, rfl, rfl⟩)

theorem Kept.occupy {v : Task} (h : Linked s) (hfree : s.table i = none)
    (hstate : v.state = .ready) : Kept s (s.occupy i v) := by
  have hnew : ∀ t, InTable s t → t ≠ s.created := by
    rintro t ⟨k, hk⟩
    exact Nat.ne_of_lt (h.table_lt k t hk).2
  have hcases : ∀ t, InTable (s.occupy i v) t → t = s.created ∨ InTable s t := by
    rintro t ⟨k, hk⟩
    change (if k = i then some s.created else s.table k) = some t at hk
    split at hk
    · exact .inl (Option.some.inj hk).symm
    · exact .inr ⟨k, hk⟩
  have hold : ∀ t, InTable s t → (s.occupy i v).tasks t = s.tasks t :=
    fun t ht => if_neg (hnew t ht)
  have hcreated : ((s.occupy i v).tasks s.created).state = .ready :=
    (congrArg Task.state (if_pos rfl)).trans hstate
  refine ⟨?_, fun t ht => ?_, fun t ht hwaiting => ?_, fun t ht => ?_⟩
  · rintro t ⟨k, hk⟩
    refine ⟨k, (if_neg ?_).trans hk⟩
    rintro rfl
    rw [hfree] at hk
    cases hk
  · rw [hold t ht]
    exact ⟨rfl, rfl, rfl, rfl⟩
  · rcases hcases t ht with rfl | ht
    · rw [hcreated] at hwaiting
      cases hwaiting
    · rw [hold t ht] at hwaiting
      exact ⟨ht, hwaiting⟩
  · rcases hcases t ht with rfl | ht
    · rw [hcreated]
      exact ⟨nofun, fun hdied => absurd rfl (hnew _ hdied.1)⟩
    · rw [hold t ht]
      exact ⟨fun hdied => ⟨ht, hdied⟩, fun hdied => hdied.2⟩

/-- Only `task_waitpid` and `task_exit` change who waits for whom and who is dead. -/
theorem Effect.kept (h : Sound s) (hpossible : call.Possible s)
    (heffect : Effect s call answer s') (hblock : ∀ l, call ≠ .block l .waiting)
    (hwaitpid : ∀ pid, call ≠ .waitpid pid) (hexit : ∀ status, call ≠ .exit status) :
    Kept s s' := by
  cases heffect with
  | create _ hfree => exact Kept.occupy h.toLinked hfree rfl
  | fork _ hfree => exact Kept.occupy h.toLinked hfree rfl
  | yield hnext => exact Kept.switchTo h.toLinked hnext
  | @block l state next hnext =>
      have hstate : state.waits = true := by
        rcases hpossible.2.2 with rfl | rfl | rfl <;> rfl
      have hlinked := h.toConsistent.link hpossible.1 (List.Perm.refl (s.current :: s.lists l))
        hstate
      refine (Kept.link h.toConsistent ⟨?_, ?_⟩).trans (Kept.switchTo hlinked hnext)
      · rintro rfl
        exact hblock l rfl
      · rintro rfl
        cases hstate
  | unblock hnode =>
      obtain ⟨k, hk⟩ := hpossible
      exact Kept.unlink h.toLinked hnode ((h.listed k _).mp hk).1
  | @sleep ms next hnext =>
      have hcounter : Sound (s.setDeadline (ms / JIFFY)) := h.setCounters rfl rfl rfl rfl
      have hdeadline : Kept s (s.setDeadline (ms / JIFFY)) :=
        Kept.setTask rfl ⟨rfl, rfl, rfl, rfl⟩
      have hlinked : Linked ((s.setDeadline (ms / JIFFY)).linkSleeper s.current) :=
        hcounter.toConsistent.link hpossible.1 (perm_insertSort _ _ _) rfl
      have hlink : Kept (s.setDeadline (ms / JIFFY))
          ((s.setDeadline (ms / JIFFY)).linkSleeper s.current) :=
        Kept.link hcounter.toConsistent ⟨nofun, nofun⟩
      exact hdeadline.trans (hlink.trans (Kept.switchTo hlinked hnext))
  | tick => exact (Kept.wakeup h.toLinked).trans (Kept.tick _)
  | refill _ hnext =>
      have hrefill : Sound s.wakeup.tick.refill := h.wakeup.tick.setCounters rfl rfl rfl rfl
      have hcounter : Kept s.wakeup.tick s.wakeup.tick.refill :=
        Kept.setTask rfl ⟨rfl, rfl, rfl, rfl⟩
      exact (Kept.wakeup h.toLinked).trans ((Kept.tick _).trans
        (hcounter.trans (Kept.switchTo hrefill.toLinked hnext)))
  | reap | wait | childless => exact absurd rfl (hwaitpid _)
  | exitAwaited | exit => exact absurd rfl (hexit _)

/-! ## Who waits for whom -/

/-- Nobody waits for a dead child, and who waits for one pid has a child with it. -/
structure Waits (s : State) : Prop where
  dead : ∀ t c, InTable s t → (s.tasks t).state = .waiting → InTable s c →
    (s.tasks c).state = .died → ¬Wanted s t (s.tasks t).waitpid c
  child : ∀ t, InTable s t → (s.tasks t).state = .waiting → (s.tasks t).waitpid ≠ -1 →
    ∃ c, InTable s c ∧ (s.tasks c).ppid = (s.tasks t).pid ∧
      (s.tasks t).waitpid = (s.tasks c).pid

theorem Kept.waits (h : Kept s s') (hwaits : Waits s) : Waits s' := by
  refine ⟨fun t c ht hwaiting hc hdied hwanted => ?_, fun t ht hwaiting hpid => ?_⟩
  · obtain ⟨ht, hwaiting⟩ := h.waiting t ht hwaiting
    obtain ⟨hc, hdied⟩ := (h.died c hc).mp hdied
    refine hwaits.dead t c ht hwaiting hc hdied ?_
    unfold Wanted at hwanted ⊢
    have hdata := h.data t ht
    have hdata' := h.data c hc
    rwa [hdata.1, hdata.2.2.1, hdata'.1, hdata'.2.1] at hwanted
  · obtain ⟨ht, hwaiting⟩ := h.waiting t ht hwaiting
    have hdata := h.data t ht
    rw [hdata.2.2.1] at hpid
    obtain ⟨c, hc, hppid, heq⟩ := hwaits.child t ht hwaiting hpid
    have hdata' := h.data c hc
    refine ⟨c, h.table c hc, ?_, ?_⟩
    · rw [hdata.1, hdata'.2.1]
      exact hppid
    · rw [hdata.2.2.1, hdata'.1]
      exact heq

/-- Two tasks of the table with one pid are one task. -/
theorem Linked.pid_inj (h : Linked s) (ht : InTable s t) (hu : InTable s u)
    (hpid : (s.tasks t).pid = (s.tasks u).pid) : t = u := by
  have hslot := h.slot ht
  rw [hpid, h.slot hu] at hslot
  exact (Option.some.inj hslot).symm

/-! ### Waiting and reaping -/

theorem childLoop_child {is : List ℕ}
    (h : childLoop s (s.tasks t).pid pid is false = .inr true) :
    ∃ i ∈ is, ∃ c, s.table i = some c ∧ Wanted s t pid c := by
  induction is with
  | nil => cases h
  | cons k is ih =>
      have hrest : childLoop s (s.tasks t).pid pid is false = .inr true →
          ∃ i ∈ k :: is, ∃ c, s.table i = some c ∧ Wanted s t pid c := by
        intro h
        obtain ⟨i, hi, hc⟩ := ih h
        exact ⟨i, List.mem_cons_of_mem _ hi, hc⟩
      unfold childLoop at h
      split at h
      · exact hrest h
      · rename_i c hc
        split at h
        · exact hrest h
        · rename_i hppid
          split at h
          · exact hrest h
          · rename_i hpid
            refine ⟨k, List.mem_cons_self, c, hc, not_not.mp hppid, ?_⟩
            by_contra hno
            exact hpid (not_or.mp hno)

/-- The running task starts to wait: the scan has seen all its children. -/
theorem Waits.wait (h : Sound s) (hwaits : Waits s) (hidle : s.current ≠ s.idle)
    (hscan : scan s pid = .inr true) : Waits ((s.setWaitpid pid).link s.current .block
      (s.current :: s.lists .block) .waiting) := by
  have htasks : ∀ t, ((s.setWaitpid pid).link s.current .block (s.current :: s.lists .block)
      .waiting).tasks t = if t = s.current then
        { s.tasks s.current with waitpid := pid, node := some .block, state := .waiting }
        else s.tasks t := by
    intro t
    rw [State.link_tasks, State.setWaitpid, State.setTask_tasks, State.setTask_apply]
    split
    · rfl
    · rfl
  have hkin : ∀ t, (((s.setWaitpid pid).link s.current .block (s.current :: s.lists .block)
      .waiting).tasks t).ppid = (s.tasks t).ppid ∧ (((s.setWaitpid pid).link s.current .block
      (s.current :: s.lists .block) .waiting).tasks t).pid = (s.tasks t).pid := by
    intro t
    rw [htasks]
    split
    · rename_i heq
      rw [heq]
      exact ⟨rfl, rfl⟩
    · exact ⟨rfl, rfl⟩
  -- the children of a task that is not idle are in the slots that the scan looks at
  have hslot : ∀ c, InTable s c → (s.tasks c).ppid = (s.tasks s.current).pid →
      ∃ i, 2 ≤ i ∧ i < NR_TASKS ∧ s.table i = some c := by
    rintro c ⟨i, hi⟩ hppid
    refine ⟨i, ?_, (h.table_lt i c hi).1, hi⟩
    have hpid : (s.tasks s.current).pid ≠ 0 := by
      intro hzero
      have hcurrent := h.slot h.current
      rw [hzero, h.idle] at hcurrent
      exact hidle (Option.some.inj hcurrent).symm
    by_contra hlow
    obtain rfl | rfl : i = 0 ∨ i = 1 := by omega
    · rw [h.idle] at hi
      cases hi
      exact hpid (hppid.symm.trans h.orphan)
    · obtain ⟨t, ht, hzero⟩ := h.init
      rw [ht] at hi
      cases hi
      exact hpid (hppid.symm.trans hzero)
  refine ⟨fun t c ht hwaiting hc hdied hwanted => ?_, fun t ht hwaiting hpid => ?_⟩
  · unfold Wanted at hwanted
    rw [(hkin c).1, (hkin c).2, (hkin t).2] at hwanted
    rw [htasks] at hdied
    split at hdied
    · cases hdied
    · rw [htasks] at hwaiting hwanted
      split at hwaiting
      · rename_i hcurrent
        rw [if_pos hcurrent, hcurrent] at hwanted
        obtain ⟨i, hi, hi', hslot⟩ := hslot c hc hwanted.1
        exact scan_inr hscan hi hi' hslot hwanted hdied
      · rename_i hne
        rw [if_neg hne] at hwanted
        exact hwaits.dead t c ht hwaiting hc hdied hwanted
  · have hchild : ∃ c, InTable s c ∧ Wanted s t (if t = s.current then pid else
        (s.tasks t).waitpid) c := by
      rw [htasks] at hwaiting hpid
      split at hwaiting
      · rename_i hcurrent
        obtain ⟨i, -, c, hc, hwanted⟩ := childLoop_child hscan
        rw [if_pos hcurrent, hcurrent]
        exact ⟨c, ⟨i, hc⟩, hwanted⟩
      · rename_i hne
        rw [if_neg hne] at hpid ⊢
        obtain ⟨c, hc, hppid, heq⟩ := hwaits.child t ht hwaiting hpid
        exact ⟨c, hc, hppid, .inl heq⟩
    obtain ⟨c, hc, hppid, heq⟩ := hchild
    refine ⟨c, hc, ?_, ?_⟩
    · rw [(hkin c).1, (hkin t).2]
      exact hppid
    · rw [(hkin c).2]
      rw [htasks] at hpid ⊢
      split
      · rename_i hcurrent
        rw [if_pos hcurrent] at hpid heq
        exact heq.resolve_right hpid
      · rename_i hne
        rw [if_neg hne] at hpid heq
        exact heq.resolve_right hpid

/-- The task that is reaped was nobody's but the running task's. -/
theorem Waits.vacate (h : Sound s) (hwaits : Waits s) (hslot : s.table i = some c)
    (hppid : (s.tasks c).ppid = (s.tasks s.current).pid) : Waits (s.vacate i) := by
  have hin : ∀ t, InTable (s.vacate i) t → InTable s t := by
    rintro t ⟨k, hk⟩
    change (if k = i then none else s.table k) = some t at hk
    split at hk
    · cases hk
    · exact ⟨k, hk⟩
  refine ⟨fun t d ht hwaiting hd hdied => hwaits.dead t d (hin t ht) hwaiting (hin d hd) hdied,
    fun t ht hwaiting hpid => ?_⟩
  obtain ⟨d, ⟨k, hk⟩, hppid', heq⟩ := hwaits.child t (hin t ht) hwaiting hpid
  refine ⟨d, ⟨k, (if_neg ?_).trans hk⟩, hppid', heq⟩
  rintro rfl
  rw [hslot] at hk
  cases hk
  obtain rfl := h.pid_inj (hin t ht) h.current (hppid'.symm.trans hppid)
  exact absurd (hwaiting.symm.trans h.running) (by decide)

/-! ### Exit -/

/-- What the end of the running task changes: it is dead, and its children have its
parent. -/
theorem handOver_task (s : State) (status : ℤ) (t : ℕ) :
    ((s.bury status).handOver.tasks t).pid = (s.tasks t).pid ∧
    ((s.bury status).handOver.tasks t).waitpid = (s.tasks t).waitpid ∧
    ((s.bury status).handOver.tasks t).node = (s.tasks t).node ∧
    ((s.bury status).handOver.tasks t).state =
      (if t = s.current then .died else (s.tasks t).state) ∧
    ((s.bury status).handOver.tasks t).status =
      if t = s.current then status else (s.tasks t).status := by
  rw [(s.bury status).handedOver.task t, State.bury, State.setTask_apply]
  by_cases ht : t = s.current
  · rw [ht, if_pos rfl, if_pos rfl, if_pos rfl]
    exact ⟨rfl, rfl, rfl, rfl, rfl⟩
  · rw [if_neg ht, if_neg ht, if_neg ht]
    exact ⟨rfl, rfl, rfl, rfl, rfl⟩

theorem handOver_ppid (s : State) (status : ℤ) (t : ℕ) :
    ((s.bury status).handOver.tasks t).ppid = (s.tasks t).ppid ∨
      (s.tasks t).ppid = (s.tasks s.current).pid ∧
        ((s.bury status).handOver.tasks t).ppid = (s.tasks s.current).ppid := by
  have hover := (s.bury status).handedOver
  rw [show (s.bury status).current = s.current from rfl, bury_current] at hover
  dsimp only at hover
  have hppid := bury_ppid s status t
  by_cases hchild : (s.tasks t).ppid = (s.tasks s.current).pid
  · by_cases hslot : ∃ i ∈ List.range' 2 (NR_TASKS - 2), (s.bury status).table i = some t
    · exact .inr ⟨hchild, hover.moved t hslot (hppid.trans hchild)⟩
    · refine .inl ((hover.stayed t (.inr fun i hi heq => hslot ⟨i, hi, heq⟩)).trans hppid)
  · exact .inl ((hover.stayed t (.inl fun heq => hchild (hppid.symm.trans heq))).trans hppid)

/-- After the end of the running task at most its parent waits for a dead child, and then
it is awaited. -/
theorem Waits.handOver (h : Sound s) (hwaits : Waits s)
    (hparent : s.table (s.tasks s.current).ppid = some p) (ht : InTable s t)
    (hwaiting : ((s.bury status).handOver.tasks t).state = .waiting)
    (hother : t = p → ¬Awaited (s.bury status).handOver p) (hc : InTable s c)
    (hdied : ((s.bury status).handOver.tasks c).state = .died) :
    ¬Wanted (s.bury status).handOver t ((s.bury status).handOver.tasks t).waitpid c := by
  have htask := handOver_task s status
  have hcurrent : (s.bury status).handOver.current = s.current := by
    rw [(s.bury status).handedOver.same]
    rfl
  have hwaiting' : t ≠ s.current ∧ (s.tasks t).state = .waiting := by
    rw [(htask t).2.2.2.1] at hwaiting
    split at hwaiting
    · cases hwaiting
    · exact ⟨by assumption, hwaiting⟩
  have hawaited : t = p → (s.tasks t).waitpid ≠ -1 ∧
      (s.tasks t).waitpid ≠ (s.tasks s.current).pid := by
    rintro rfl
    have hnot := hother rfl
    unfold Awaited at hnot
    rw [hcurrent, (htask t).2.1, (htask s.current).1, not_and_or, not_or] at hnot
    exact hnot.resolve_left fun hno => hno hwaiting
  -- a child of `t` by the new parents that was not one before makes `t` the parent `p`
  have hnew : ∀ k, (s.tasks s.current).ppid = k → (s.tasks t).pid = k → t = p := by
    intro k hk hpid
    have hslot := h.slot ht
    rw [hpid, ← hk, hparent] at hslot
    exact (Option.some.inj hslot).symm
  rintro ⟨hppid, hpid⟩
  rw [(htask t).1] at hppid
  rw [(htask t).2.1, (htask c).1] at hpid
  by_cases hdead : c = s.current
  · subst hdead
    have hown : (s.tasks s.current).ppid = (s.tasks t).pid := by
      rcases handOver_ppid s status s.current with heq | ⟨-, heq⟩
      · exact heq.symm.trans hppid
      · exact heq.symm.trans hppid
    have hnot := hawaited (hnew _ rfl hown.symm)
    exact hpid.elim hnot.2 hnot.1
  · have hdied' : (s.tasks c).state = .died := by
      rw [(htask c).2.2.2.1, if_neg hdead] at hdied
      exact hdied
    rcases handOver_ppid s status c with heq | ⟨hchild, heq⟩
    · exact hwaits.dead t c ht hwaiting'.2 hc hdied' ⟨heq.symm.trans hppid, hpid⟩
    · have hnot := (hawaited (hnew _ rfl (hppid.symm.trans heq))).1
      -- the only child that `t` waits for is its own already
      obtain ⟨d, hd, hppid', hpid'⟩ := hwaits.child t ht hwaiting'.2 hnot
      have hsame : (s.tasks c).pid = (s.tasks d).pid := by
        have := (hpid.resolve_right hnot).symm.trans hpid'
        exact Int.ofNat_inj.mp this
      obtain rfl := h.pid_inj hc hd hsame
      exact hwaiting'.1 (h.pid_inj ht h.current (hppid'.symm.trans hchild))

/-- The child that a task waits for keeps its parent. -/
theorem Waits.handOver_child (h : Sound s) (hwaits : Waits s) (ht : InTable s t)
    (hwaiting : ((s.bury status).handOver.tasks t).state = .waiting)
    (hpid : ((s.bury status).handOver.tasks t).waitpid ≠ -1) : ∃ c, InTable s c ∧
      ((s.bury status).handOver.tasks c).ppid = ((s.bury status).handOver.tasks t).pid ∧
      ((s.bury status).handOver.tasks t).waitpid = ((s.bury status).handOver.tasks c).pid := by
  have htask := handOver_task s status
  rw [(htask t).2.2.2.1] at hwaiting
  rw [(htask t).2.1] at hpid
  split at hwaiting
  · cases hwaiting
  · rename_i hne
    obtain ⟨c, hc, hppid, heq⟩ := hwaits.child t ht hwaiting hpid
    refine ⟨c, hc, ?_, ?_⟩
    · rw [(htask t).1]
      rcases handOver_ppid s status c with hstay | ⟨hchild, -⟩
      · rw [hstay, hppid]
      · exact absurd (h.pid_inj ht h.current (hppid.symm.trans hchild)) hne
    · rw [(htask t).2.1, (htask c).1]
      exact heq

theorem Kept.finish (s : State) : Kept s s.finish := Kept.setTask rfl ⟨rfl, rfl, rfl, rfl⟩

/-- Every call keeps who waits for whom in order. -/
theorem Effect.waits (h : Sound s) (hwaits : Waits s) (hpossible : call.Possible s)
    (hblock : ∀ l, call ≠ .block l .waiting) (heffect : Effect s call answer s') : Waits s' := by
  by_cases hwaitpid : ∃ pid, call = .waitpid pid
  · obtain ⟨pid, rfl⟩ := hwaitpid
    cases heffect with
    | reap hscan hc =>
        obtain ⟨-, -, d, hd, hwanted, -⟩ := scan_inl hscan
        exact hwaits.vacate h hd hwanted.1
    | wait hscan hnext =>
        have hcounter : Sound (s.setWaitpid pid) := h.setCounters rfl rfl rfl rfl
        have hlinked := hcounter.toConsistent.link (l := .block) hpossible
          (List.Perm.refl (s.current :: s.lists .block)) (show TaskState.waiting.waits = true from rfl)
        exact (Kept.switchTo hlinked hnext).waits (hwaits.wait h hpossible hscan)
    | childless => exact hwaits
  by_cases hexit : ∃ status, call = .exit status
  · obtain ⟨status, rfl⟩ := hexit
    have hlinked := (h.bury hpossible status).handOver
    have hin := inTable_handOver s status
    cases heffect with
    | @exitAwaited _ p next l hparent hawaited hnode hnext =>
        have hkept := (Kept.finish ((s.bury status).handOver.unlink p l)).trans
          (Kept.switchTo (hlinked.unlink hnode ((hin p).mpr ⟨_, hparent⟩)).finish hnext)
        have hdata : ∀ u,
            (((s.bury status).handOver.unlink p l).tasks u).pid =
              ((s.bury status).handOver.tasks u).pid ∧
            (((s.bury status).handOver.unlink p l).tasks u).ppid =
              ((s.bury status).handOver.tasks u).ppid ∧
            (((s.bury status).handOver.unlink p l).tasks u).waitpid =
              ((s.bury status).handOver.tasks u).waitpid := by
          intro u
          rw [State.unlink_tasks]
          split
          · rename_i heq
            rw [heq]
            exact ⟨rfl, rfl, rfl⟩
          · exact ⟨rfl, rfl, rfl⟩
        refine hkept.waits ⟨fun t c ht hwaiting hc hdied hwanted => ?_,
          fun t ht hwaiting hpid => ?_⟩
        · unfold Wanted at hwanted
          rw [(hdata c).2.1, (hdata c).1, (hdata t).1, (hdata t).2.2] at hwanted
          rw [State.unlink_tasks] at hwaiting hdied
          split at hwaiting
          · cases hwaiting
          · rename_i hne
            split at hdied
            · cases hdied
            · exact hwaits.handOver h hparent ((hin t).mp ht) hwaiting
                (fun heq => absurd heq hne) ((hin c).mp hc) hdied hwanted
        · rw [(hdata t).2.2] at hpid
          rw [State.unlink_tasks] at hwaiting
          split at hwaiting
          · cases hwaiting
          · obtain ⟨c, hc, hppid, heq⟩ :=
              hwaits.handOver_child h ((hin t).mp ht) hwaiting hpid
            refine ⟨c, (hin c).mpr hc, ?_, ?_⟩
            · rw [(hdata c).2.1, (hdata t).1]
              exact hppid
            · rw [(hdata t).2.2, (hdata c).1]
              exact heq
    | @exit _ p next hparent hawaited hnext =>
        have hkept := (Kept.finish (s.bury status).handOver).trans
          (Kept.switchTo hlinked.finish hnext)
        refine hkept.waits ⟨fun t c ht hwaiting hc hdied => ?_, fun t ht hwaiting hpid => ?_⟩
        · exact hwaits.handOver h hparent ((hin t).mp ht) hwaiting (fun _ => hawaited)
            ((hin c).mp hc) hdied
        · obtain ⟨c, hc, hchild⟩ := hwaits.handOver_child h ((hin t).mp ht) hwaiting hpid
          exact ⟨c, (hin c).mpr hc, hchild⟩
  · exact (heffect.kept h hpossible hblock (fun pid heq => hwaitpid ⟨pid, heq⟩)
      fun status heq => hexit ⟨status, heq⟩).waits hwaits

/-! ## Who is dead -/

/-- A task that exits is dead, with its status, and nobody else dies. -/
theorem Effect.exits (h : Sound s) (hpossible : call.Possible s) (hcall : call = .exit status)
    (heffect : Effect s call answer s') :
    (∀ t, InTable s' t ↔ InTable s t) ∧
    (∀ t, InTable s t →
      ((s'.tasks t).state = .died ↔ t = s.current ∨ (s.tasks t).state = .died)) ∧
    ∀ t, InTable s t →
      (s'.tasks t).status = if t = s.current then status else (s.tasks t).status := by
  subst hcall
  have hlinked := (h.bury hpossible status).handOver
  have hin := inTable_handOver s status
  have hkept : Kept (s.bury status).handOver s' ∧ s'.table = s.table := by
    cases heffect with
    | exitAwaited hparent _ hnode hnext =>
        have hmember := (hin _).mpr ⟨_, hparent⟩
        refine ⟨(Kept.unlink hlinked hnode hmember).trans ((Kept.finish _).trans
          (Kept.switchTo (hlinked.unlink hnode hmember).finish hnext)), handOver_table s status⟩
    | exit _ _ hnext =>
        exact ⟨(Kept.finish _).trans (Kept.switchTo hlinked.finish hnext),
          handOver_table s status⟩
  obtain ⟨hkept, htable⟩ := hkept
  have hsame : ∀ t, InTable s' t ↔ InTable s t := by
    intro t
    unfold InTable
    rw [htable]
  refine ⟨hsame, fun t ht => ?_, fun t ht => ?_⟩
  · rw [hkept.died t ((hsame t).mpr ht), (handOver_task s status t).2.2.2.1, hin,
      and_iff_right ht]
    split
    · rename_i heq
      exact ⟨fun _ => .inl heq, fun _ => rfl⟩
    · rename_i hne
      exact ⟨.inr, fun hdied => hdied.resolve_left hne⟩
  · rw [(hkept.data t ((hin t).mpr ht)).2.2.2, (handOver_task s status t).2.2.2.2]

/-- No other call makes a task dead or alive. -/
theorem Effect.stays (h : Sound s) (hpossible : call.Possible s)
    (hblock : ∀ l, call ≠ .block l .waiting) (hexit : ∀ status, call ≠ .exit status)
    (heffect : Effect s call answer s') :
    (∀ t, InTable s' t → ((s'.tasks t).state = .died ↔ InTable s t ∧ (s.tasks t).state = .died)) ∧
      ∀ t, InTable s t → (s'.tasks t).status = (s.tasks t).status := by
  by_cases hwaitpid : ∃ pid, call = .waitpid pid
  · obtain ⟨pid, rfl⟩ := hwaitpid
    cases heffect with
    | @reap _ i c _ _ =>
        have hin : ∀ t, InTable (s.vacate i) t → InTable s t := by
          rintro t ⟨k, hk⟩
          change (if k = i then none else s.table k) = some t at hk
          split at hk
          · cases hk
          · exact ⟨k, hk⟩
        exact ⟨fun t ht => (and_iff_right (hin t ht)).symm, fun _ _ => rfl⟩
    | childless => exact ⟨fun t ht => (and_iff_right ht).symm, fun _ _ => rfl⟩
    | @wait _ next _ hnext =>
        have hcounter : Sound (s.setWaitpid pid) := h.setCounters rfl rfl rfl rfl
        have hlinked := hcounter.toConsistent.link (l := .block) hpossible
          (List.Perm.refl (s.current :: s.lists .block))
          (show TaskState.waiting.waits = true from rfl)
        have hkept := Kept.switchTo hlinked hnext
        have htasks : ∀ t, (((s.setWaitpid pid).link s.current .block
            (s.current :: s.lists .block) .waiting).tasks t).state = (if t = s.current then
              .waiting else (s.tasks t).state) ∧ (((s.setWaitpid pid).link s.current .block
            (s.current :: s.lists .block) .waiting).tasks t).status = (s.tasks t).status := by
          intro t
          rw [State.link_tasks, State.setWaitpid, State.setTask_tasks, State.setTask_apply]
          split
          · rename_i heq
            rw [heq]
            exact ⟨rfl, rfl⟩
          · exact ⟨rfl, rfl⟩
        refine ⟨fun t ht => ?_, fun t ht => (hkept.data t ht).2.2.2.trans (htasks t).2⟩
        refine (hkept.died t ht).trans (and_congr_right fun _ => ?_)
        change (((s.setWaitpid pid).link s.current .block
            (s.current :: s.lists .block) .waiting).tasks t).state = .died ↔ _
        rw [(htasks t).1]
        split
        · rename_i heq
          rw [heq, h.running]
          constructor <;> rintro ⟨⟩
        · rfl
  · have hkept := heffect.kept h hpossible hblock (fun pid heq => hwaitpid ⟨pid, heq⟩) hexit
    exact ⟨hkept.died, fun t ht => (hkept.data t ht).2.2.2⟩

end Ylos.Sched
