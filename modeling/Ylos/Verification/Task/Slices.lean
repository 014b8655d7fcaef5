import Mathlib.Data.Set.Insert
import Ylos.Verification.Task.Scheduler

/-! # Time slices

`ticks` counts the rest of the time slice down, but `task_sleep` keeps the deadline in it
and `task_wakeup` leaves it 0: the slice of a task that has slept does not end. -/

namespace Ylos.Sched

open Exec

variable {s s' : State} {t u next : ℕ} {l : ListId} {state : TaskState} {ts : List ℕ}
  {answer : Option (ℕ × ℤ)} {call : Call}

/-- The tasks that have called `task_sleep` after a call. -/
def slept (x : State × Set ℕ) : Call → Set ℕ
  | .sleep _ => insert x.1.current x.2
  | _ => x.2

/-- A call, and the tasks that have called `task_sleep` so far. -/
def SleptStep (x : State × Set ℕ) (call : Call) (x' : State × Set ℕ) : Prop :=
  CallStep x.1 call x'.1 ∧ x'.2 = slept x call

theorem SleptStep.of_run {x : State × Set ℕ} (hpossible : call.Possible x.1)
    (hcode : call.code.run x.1 = .ok (answer, s', [])) :
    SleptStep x call (s', slept x call) := ⟨⟨hpossible, answer, hcode⟩, rfl⟩

/-- Priorities are positive as an `int`, and a clock tick does not meet a running task that
has slept. -/
def Rested (x : State × Set ℕ) (call : Call) : Prop :=
  (∀ p, call = .create p → 1 ≤ p ∧ p < 2 ^ 31) ∧ (call = .clock → x.1.current ∉ x.2)

/-- The rest of a time slice. -/
def Slice (task : Task) : Prop := 1 ≤ task.ticks ∧ task.ticks ≤ task.priority

/-- The sleepers have slept, and the others are inside their time slices. -/
structure Timed (x : State × Set ℕ) : Prop extends Sound x.1 where
  slept : ∀ t ∈ x.1.lists .sleep, t ∈ x.2
  priority : ∀ t, InTable x.1 t → 1 ≤ (x.1.tasks t).priority ∧ (x.1.tasks t).priority < 2 ^ 31
  slice : ∀ t, InTable x.1 t → t ∉ x.2 → Slice (x.1.tasks t)

/-! ## Counters -/

theorem int32_of_lt {n : ℤ} (h : -2 ^ 31 ≤ n) (h' : n < 2 ^ 31) : int32 n = n := by
  unfold int32
  omega

/-- The counters of `u` in `s'` are those in `s`. -/
def SameSlice (s s' : State) (u : ℕ) : Prop :=
  (s'.tasks u).ticks = (s.tasks u).ticks ∧ (s'.tasks u).priority = (s.tasks u).priority

theorem SameSlice.trans {s'' : State} (h : SameSlice s s' u) (h' : SameSlice s' s'' u) :
    SameSlice s s'' u := ⟨h'.1.trans h.1, h'.2.trans h.2⟩

theorem sameSlice_setTask {v : Task} (h : u = t → v.ticks = (s.tasks t).ticks)
    (h' : v.priority = (s.tasks t).priority) : SameSlice s (s.setTask t v) u := by
  unfold SameSlice
  rw [State.setTask_apply]
  split
  · rename_i heq
    rw [heq]
    exact ⟨h heq, h'⟩
  · exact ⟨rfl, rfl⟩

theorem sameSlice_link (s : State) (t : ℕ) (l : ListId) (ts : List ℕ) (state : TaskState)
    (u : ℕ) : SameSlice s (s.link t l ts state) u := sameSlice_setTask (fun _ => rfl) rfl

theorem sameSlice_unlink (s : State) (t : ℕ) (l : ListId) (u : ℕ) :
    SameSlice s (s.unlink t l) u := sameSlice_setTask (fun _ => rfl) rfl

theorem sameSlice_switchTo (s : State) (next u : ℕ) : SameSlice s (s.switchTo next) u :=
  ⟨rfl, rfl⟩

theorem sameSlice_finish (s : State) (u : ℕ) : SameSlice s s.finish u :=
  sameSlice_setTask (fun _ => rfl) rfl

theorem sameSlice_handOver (s : State) (status : ℤ) (u : ℕ) :
    SameSlice s (s.bury status).handOver u := by
  have hbury : SameSlice s (s.bury status) u := sameSlice_setTask (fun _ => rfl) rfl
  refine hbury.trans ?_
  unfold SameSlice
  rw [(s.bury status).handedOver.task u]
  exact ⟨rfl, rfl⟩

/-- Only the clock changes the counter of a task that does not go to sleep. -/
theorem Effect.sameSlice (h : Sound s) (heffect : Effect s call answer s')
    (hclock : call ≠ .clock) (hsleep : (∃ ms, call = .sleep ms) → u ≠ s.current)
    (hu : InTable s u) : SameSlice s s' u := by
  have hold : u ≠ s.created := by
    obtain ⟨i, hi⟩ := hu
    exact Nat.ne_of_lt (h.table_lt i u hi).2
  cases heffect with
  | create | fork =>
      unfold SameSlice
      rw [show (s.occupy _ _).tasks u = s.tasks u from if_neg hold]
      exact ⟨rfl, rfl⟩
  | yield => exact sameSlice_switchTo s _ u
  | block => exact (sameSlice_link s _ _ _ _ u).trans (sameSlice_switchTo _ _ u)
  | unblock => exact sameSlice_unlink s _ _ u
  | @sleep ms =>
      have hne := hsleep ⟨ms, rfl⟩
      have hdeadline : SameSlice s (s.setDeadline (ms / JIFFY)) u :=
        sameSlice_setTask (fun heq => absurd heq hne) rfl
      exact hdeadline.trans ((sameSlice_link _ _ _ _ _ u).trans (sameSlice_switchTo _ _ u))
  | tick | refill => exact absurd rfl hclock
  | reap | childless => exact ⟨rfl, rfl⟩
  | @wait pid =>
      have hwaitpid : SameSlice s (s.setWaitpid pid) u := sameSlice_setTask (fun _ => rfl) rfl
      exact hwaitpid.trans ((sameSlice_link _ _ _ _ _ u).trans (sameSlice_switchTo _ _ u))
  | exitAwaited =>
      exact (sameSlice_handOver s _ u).trans ((sameSlice_unlink _ _ _ u).trans
        ((sameSlice_finish _ u).trans (sameSlice_switchTo _ _ u)))
  | exit =>
      exact (sameSlice_handOver s _ u).trans
        ((sameSlice_finish _ u).trans (sameSlice_switchTo _ _ u))

/-! ## The clock -/

theorem mem_dueSleepers (h : u ∈ dueSleepers s (s.lists .sleep)) : u ∈ s.lists .sleep :=
  (List.takeWhile_sublist _).subset h

theorem wakeup_tasks (hu : u ∉ s.lists .sleep) : s.wakeup.tasks u = s.tasks u := by
  unfold State.wakeup
  rw [foldl_wakeOne_tasks, if_neg fun hdue => hu (mem_dueSleepers hdue)]

theorem wakeup_current (s : State) : s.wakeup.current = s.current := (foldl_wakeOne_same s _).1

theorem wakeup_table (s : State) : s.wakeup.table = s.table := (foldl_wakeOne_same s _).2.2.2.1

theorem wakeup_priority (s : State) (u : ℕ) :
    (s.wakeup.tasks u).priority = (s.tasks u).priority := by
  unfold State.wakeup
  rw [foldl_wakeOne_tasks]
  split <;> rfl

theorem tick_tasks (s : State) (u : ℕ) : s.tick.tasks u = if u = s.current then
    { s.tasks s.current with
      jiffies := (s.jiffies + 1) % 2 ^ 32
      ticks := int32 ((s.tasks s.current).ticks - 1) }
    else s.tasks u := rfl

theorem refill_tasks (s : State) (u : ℕ) : s.refill.tasks u = if u = s.current then
    { s.tasks s.current with ticks := (s.tasks s.current).priority } else s.tasks u := rfl

theorem tick_priority (s : State) (u : ℕ) :
    (s.wakeup.tick.tasks u).priority = (s.tasks u).priority := by
  rw [tick_tasks, ← wakeup_priority s u]
  split
  · rename_i heq
    rw [heq]
  · rfl

/-- The counter of the running task, after a tick. -/
theorem tick_current (h : Sound s) :
    (s.wakeup.tick.tasks s.current).ticks = int32 ((s.tasks s.current).ticks - 1) := by
  have hnot := h.not_listed (l := .sleep) h.node_current
  rw [tick_tasks, wakeup_current, if_pos rfl, wakeup_tasks hnot]

theorem tick_other (hu : u ∉ s.lists .sleep) (hne : u ≠ s.current) :
    (s.wakeup.tick.tasks u).ticks = (s.tasks u).ticks := by
  rw [tick_tasks, wakeup_current, if_neg hne, wakeup_tasks hu]

/-! ## Steps -/

theorem Effect.priority (h : Sound s) (heffect : Effect s call answer s') (hu : InTable s u) :
    (s'.tasks u).priority = (s.tasks u).priority := by
  by_cases hclock : call = .clock
  · subst hclock
    cases heffect with
    | tick => exact tick_priority s u
    | refill =>
        rw [← tick_priority s u]
        change (s.wakeup.tick.refill.tasks u).priority = _
        rw [refill_tasks]
        split
        · rename_i heq
          rw [heq]
        · rfl
  · by_cases hsleep : (∃ ms, call = .sleep ms) ∧ u = s.current
    · obtain ⟨⟨ms, rfl⟩, rfl⟩ := hsleep
      cases heffect
      change (((s.setDeadline (ms / JIFFY)).linkSleeper s.current).tasks s.current).priority = _
      unfold State.linkSleeper
      rw [(sameSlice_link _ _ _ _ _ s.current).2, State.setDeadline, State.setTask_tasks]
    · exact (heffect.sameSlice h hclock (fun hms heq => hsleep ⟨hms, heq⟩) hu).2

/-- A task that was not in the table is new, and has a whole time slice. -/
theorem Effect.new (heffect : Effect s call answer s') (hu : InTable s' u)
    (hnew : ¬InTable s u) : u = s.created ∧ (s'.tasks u).ticks = (s'.tasks u).priority ∧
      ((∃ p, call = .create p ∧ (s'.tasks u).priority = int32 p) ∨
        (s'.tasks u).priority = (s.tasks s.current).priority) := by
  have hcreated : ∀ i v, InTable (s.occupy i v) u → u = s.created := by
    rintro i v ⟨k, hk⟩
    change (if k = i then some s.created else s.table k) = some u at hk
    split at hk
    · exact (Option.some.inj hk).symm
    · exact absurd ⟨k, hk⟩ hnew
  cases heffect with
  | @create p i =>
      obtain rfl := hcreated _ _ hu
      rw [show (s.occupy i _).tasks s.created = _ from if_pos rfl]
      exact ⟨rfl, rfl, .inl ⟨p, rfl, rfl⟩⟩
  | @fork i =>
      obtain rfl := hcreated _ _ hu
      rw [show (s.occupy i _).tasks s.created = _ from if_pos rfl]
      exact ⟨rfl, rfl, .inr rfl⟩
  | yield | block | unblock | sleep | childless | wait => exact absurd hu hnew
  | tick | refill =>
      obtain ⟨i, hi⟩ := hu
      exact absurd ⟨i, (congrFun (wakeup_table s) i).symm.trans hi⟩ hnew
  | reap =>
      obtain ⟨i, hi⟩ := hu
      change (if i = _ then none else s.table i) = some u at hi
      split at hi
      · cases hi
      · exact absurd ⟨i, hi⟩ hnew
  | exitAwaited | exit => exact absurd ((inTable_handOver s _ u).mp hu) hnew

theorem foldl_wakeOne_sublist (s : State) (ts : List ℕ) :
    ((ts.foldl State.wakeOne s).lists .sleep).Sublist (s.lists .sleep) := by
  induction ts generalizing s with
  | nil => exact List.Sublist.refl _
  | cons t ts ih =>
      refine (ih (s.wakeOne t)).trans ?_
      rw [wakeOne_sleepers]
      exact List.erase_sublist

/-- The other calls at most take tasks out of `sleep_list`. -/
theorem Effect.sleepers_sublist (hpossible : call.Possible s)
    (heffect : Effect s call answer s') (hsleep : ∀ ms, call ≠ .sleep ms) :
    (s'.lists .sleep).Sublist (s.lists .sleep) := by
  have hunlink : ∀ (s₁ : State) t l, s₁.lists = s.lists →
      ((s₁.unlink t l).lists .sleep).Sublist (s.lists .sleep) := by
    intro s₁ t l hlists
    rw [State.unlink_lists, hlists]
    split
    · rename_i heq
      rw [heq]
      exact List.erase_sublist
    · exact List.Sublist.refl _
  have hover : ∀ status, (s.bury status).handOver.lists = s.lists := by
    intro status
    rw [handOver_same]
  cases heffect with
  | create | fork | yield | reap | childless | wait => exact List.Sublist.refl _
  | @block l state next =>
      change ((s.link s.current l (s.current :: s.lists l) state).lists .sleep).Sublist _
      rw [State.link_lists, if_neg hpossible.2.1.symm]
  | unblock => exact hunlink s _ _ rfl
  | sleep => exact absurd rfl (hsleep _)
  | tick | refill => exact foldl_wakeOne_sublist s _
  | exitAwaited => exact hunlink _ _ _ (hover _)
  | exit =>
      rw [← hover]
      exact List.Sublist.refl _

/-- Only `task_sleep` puts a task into `sleep_list`. -/
theorem Effect.sleepers (hpossible : call.Possible s)
    (heffect : Effect s call answer s') (hu : u ∈ s'.lists .sleep) :
    u ∈ s.lists .sleep ∨ (∃ ms, call = .sleep ms) ∧ u = s.current := by
  by_cases hsleep : ∃ ms, call = .sleep ms
  · obtain ⟨ms, rfl⟩ := hsleep
    cases heffect
    have hmem := (perm_insertSort _ _ _).mem_iff.mp hu
    rcases List.mem_cons.mp hmem with rfl | hmem
    · exact .inr ⟨⟨ms, rfl⟩, rfl⟩
    · exact .inl hmem
  · have hsub := heffect.sleepers_sublist hpossible fun ms hms => hsleep ⟨ms, hms⟩
    exact .inl (hsub.subset hu)

section Runs

variable {x x' y : State × Set ℕ} {n : ℕ}

theorem Timed.slice_current (h : Timed x) (hslept : x.1.current ∉ x.2) :
    Slice (x.1.tasks x.1.current) := h.slice _ h.current hslept

/-- A tick takes one from the counter of the running task, and gives it a new slice when
that was the last. -/
theorem Timed.clock (h : Timed x) (hslept : x.1.current ∉ x.2)
    (heffect : Effect x.1 .clock answer s') (hu : u ∉ x.2) (hin : InTable x.1 u) :
    Slice (s'.tasks u) := by
  have hnot : u ∉ x.1.lists .sleep := fun hmem => hu (h.slept u hmem)
  have hslice := h.slice u hin hu
  have hcurrent := h.slice_current hslept
  have hbound := h.priority _ h.current
  have hpriority := heffect.priority h.toSound hin
  unfold Slice at *
  rw [hpriority]
  have htick := tick_current h.toSound
  rw [int32_of_lt (by omega) (by omega)] at htick
  cases heffect with
  | tick hticks =>
      rw [wakeup_current, htick] at hticks
      by_cases heq : u = x.1.current
      · subst heq
        rw [htick]
        omega
      · rw [tick_other hnot heq]
        exact hslice
  | refill =>
      change 1 ≤ (x.1.wakeup.tick.refill.tasks u).ticks ∧
        (x.1.wakeup.tick.refill.tasks u).ticks ≤ _
      rw [refill_tasks, show x.1.wakeup.tick.current = x.1.current from wakeup_current x.1]
      split
      · rename_i heq
        subst heq
        dsimp only
        rw [tick_priority]
        omega
      · rename_i heq
        rw [tick_other hnot heq]
        exact hslice

theorem Timed.step (h : Timed x) (hrested : Rested x call) (hstep : SleptStep x call x') :
    Timed x' := by
  obtain ⟨hcall, hslept⟩ := hstep
  obtain ⟨answer, heffect⟩ := hcall.effect h.toSound
  have hgrow : ∀ t ∈ x.2, t ∈ x'.2 := by
    intro t ht
    rw [hslept]
    unfold Sched.slept
    split
    · exact Set.mem_insert_of_mem _ ht
    · exact ht
  have hsleep : (∃ ms, call = .sleep ms) → x.1.current ∈ x'.2 := by
    rintro ⟨ms, rfl⟩
    rw [hslept]
    exact Set.mem_insert _ _
  have hnew : ∀ u, InTable x'.1 u → ¬InTable x.1 u →
      1 ≤ (x'.1.tasks u).priority ∧ (x'.1.tasks u).priority < 2 ^ 31 ∧
        (x'.1.tasks u).ticks = (x'.1.tasks u).priority := by
    intro u hu hold
    obtain ⟨-, hticks, hpriority⟩ := heffect.new hu hold
    rcases hpriority with ⟨p, rfl, hp⟩ | hp
    · obtain ⟨hlow, hhigh⟩ := hrested.1 p rfl
      rw [hp, int32_of_lt (by omega) (by omega)] at hticks ⊢
      exact ⟨by omega, by omega, hticks⟩
    · obtain ⟨hlow, hhigh⟩ := h.priority _ h.current
      rw [hp] at hticks ⊢
      exact ⟨hlow, hhigh, hticks⟩
  refine ⟨hcall.sound h.toSound, fun t ht => ?_, fun u hu => ?_, fun u hu hfresh => ?_⟩
  · rcases heffect.sleepers hcall.1 ht with ht | ⟨hms, rfl⟩
    · exact hgrow t (h.slept t ht)
    · exact hsleep hms
  · by_cases hold : InTable x.1 u
    · rw [heffect.priority h.toSound hold]
      exact h.priority u hold
    · exact ⟨(hnew u hu hold).1, (hnew u hu hold).2.1⟩
  · have hfresh' : u ∉ x.2 := fun hmem => hfresh (hgrow u hmem)
    by_cases hold : InTable x.1 u
    · by_cases hclock : call = .clock
      · subst hclock
        exact h.clock (hrested.2 rfl) heffect hfresh' hold
      · have hsame := heffect.sameSlice h.toSound hclock
          (fun hms heq => hfresh (by rw [heq]; exact hsleep hms)) hold
        unfold Slice
        rw [hsame.1, hsame.2]
        exact h.slice u hold hfresh'
    · obtain ⟨hlow, -, hticks⟩ := hnew u hu hold
      unfold Slice
      omega

/-- The same task runs from `x` on, up to `n` clock ticks later. -/
inductive Keeps (x : State × Set ℕ) : ℕ → State × Set ℕ → Prop where
  | refl : Keeps x 0 x
  | call {n : ℕ} {y z : State × Set ℕ} {call : Call} : Keeps x n y → call ≠ .clock →
      Rested y call → SleptStep y call z → z.1.current = x.1.current → Keeps x n z
  | tick {n : ℕ} {y z : State × Set ℕ} : Keeps x n y → Rested y .clock →
      SleptStep y .clock z → z.1.current = x.1.current → Keeps x (n + 1) z

/-- The idle task aside, nobody is chosen twice. -/
theorem Next.ne_current (hnext : Next s next) (hidle : s.current ≠ s.idle) :
    next ≠ s.current := by
  rcases hnext with rfl | hnext
  · exact hidle.symm
  · exact hnext.2.2.symm

theorem Effect.idle (heffect : Effect s call answer s') : s'.idle = s.idle := by
  have hover : ∀ status, (s.bury status).handOver.idle = s.idle := by
    intro status
    rw [handOver_same]
  cases heffect with
  | tick | refill => exact (foldl_wakeOne_same s _).2.1
  | exitAwaited | exit => exact hover _
  | _ => rfl

/-- A task that goes to sleep does not run on. -/
theorem Effect.sleep_current {ms : ℕ} (heffect : Effect s (.sleep ms) answer s')
    (hidle : s.current ≠ s.idle) : s'.current ≠ s.current := by
  cases heffect with
  | sleep hnext => exact hnext.ne_current hidle

/-- A task that goes on after a tick was not at the end of its slice. -/
theorem Effect.tick_stays (heffect : Effect s .clock answer s') (hidle : s.current ≠ s.idle)
    (hcurrent : s'.current = s.current) : s' = s.wakeup.tick := by
  cases heffect with
  | tick => rfl
  | refill _ hnext =>
      have hwake := wakeup_current s
      have hne : s.wakeup.current ≠ s.wakeup.idle := by
        rw [hwake, show s.wakeup.idle = s.idle from (foldl_wakeOne_same s _).2.1]
        exact hidle
      exact absurd (hcurrent.trans hwake.symm) (hnext.ne_current hne)

theorem Keeps.counts (h : Timed x) (hidle : x.1.current ≠ x.1.idle) (hslept : x.1.current ∉ x.2)
    (hkeeps : Keeps x n y) : Timed y ∧ y.1.current = x.1.current ∧ y.1.idle = x.1.idle ∧
      y.1.current ∉ y.2 ∧ (y.1.tasks x.1.current).ticks + n = (x.1.tasks x.1.current).ticks := by
  induction hkeeps with
  | refl => exact ⟨h, rfl, rfl, hslept, by simp⟩
  | @call n y z call hkeeps hclock hrested hstep hcurrent ih =>
      obtain ⟨hy, hsame, hidle', hfresh, hcount⟩ := ih
      obtain ⟨answer, heffect⟩ := hstep.1.effect hy.toSound
      have hnosleep : ¬∃ ms, call = .sleep ms := by
        rintro ⟨ms, rfl⟩
        refine (heffect.sleep_current ?_) (hcurrent.trans hsame.symm)
        rw [hsame, hidle']
        exact hidle
      have hticks := (heffect.sameSlice hy.toSound hclock (fun hms => absurd hms hnosleep)
        hy.current).1
      refine ⟨hy.step hrested hstep, hcurrent, heffect.idle.trans hidle', ?_, ?_⟩
      · rw [hcurrent, ← hsame, hstep.2]
        unfold slept
        split
        · rename_i ms
          exact absurd ⟨ms, rfl⟩ hnosleep
        · exact hfresh
      · rw [← hsame, hticks, hsame]
        exact hcount
  | @tick n y z hkeeps hrested hstep hcurrent ih =>
      obtain ⟨hy, hsame, hidle', hfresh, hcount⟩ := ih
      obtain ⟨answer, heffect⟩ := hstep.1.effect hy.toSound
      refine ⟨hy.step hrested hstep, hcurrent, heffect.idle.trans hidle', ?_, ?_⟩
      · rw [hcurrent, ← hsame, hstep.2]
        exact hfresh
      · have hslice := hy.slice_current hfresh
        have hbound := hy.priority _ hy.current
        have htick := tick_current hy.toSound
        unfold Slice at hslice
        rw [int32_of_lt (by omega) (by omega)] at htick
        have hstay := heffect.tick_stays (by rw [hsame, hidle']; exact hidle)
          (hcurrent.trans hsame.symm)
        rw [← hsame] at hcount ⊢
        rw [hstay, htick]
        push_cast
        omega

end Runs

end Ylos.Sched
