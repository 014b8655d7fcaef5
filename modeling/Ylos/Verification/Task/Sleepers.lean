import Ylos.Verification.Task.Slices

/-! # Sleepers

`sleep_list` is sorted by the deadlines as `int`, and `task_wakeup` compares them as `u32`
up to the first that has not come. Both orders agree as long as no deadline wraps and no
task that is due has a sleeper with a deadline of the other sign before it. -/

namespace Ylos.Sched

open Exec

variable {s s' : State} {t u v : ℕ} {answer : Option (ℕ × ℤ)} {call : Call}

/-- When a task that calls `task_sleep` now wants to go on, as it would be without the wrap
of the counter. -/
def deadline (s : State) (ms : ℕ) : ℕ := s.jiffies + max 1 (ms / JIFFY)

/-- For every task the value of `jiffies` at which its last call of `task_sleep` ends. -/
def due (x : State × (ℕ → ℕ)) : Call → ℕ → ℕ
  | .sleep ms, u => if u = x.1.current then deadline x.1 ms % 2 ^ 32 else x.2 u
  | _, u => x.2 u

def DueStep (x : State × (ℕ → ℕ)) (call : Call) (x' : State × (ℕ → ℕ)) : Prop :=
  CallStep x.1 call x'.1 ∧ x'.2 = due x call

theorem DueStep.of_run {x : State × (ℕ → ℕ)} (hpossible : call.Possible x.1)
    (hcode : call.code.run x.1 = .ok (answer, s', [])) : DueStep x call (s', due x call) :=
  ⟨⟨hpossible, answer, hcode⟩, rfl⟩

/-- `task_wakeup` makes ready the sleepers whose time has come, and no others. -/
def Punctual (x : State × (ℕ → ℕ)) : Prop :=
  ∃ s', taskWakeup.run x.1 = .ok ((), s', []) ∧
    ∀ u ∈ x.1.lists .sleep, (s'.tasks u).state = .ready ↔ x.2 u = x.1.jiffies

/-- The time of a sleeper comes while another sleeps that has a deadline of the other
sign. -/
def Hidden (x : State × (ℕ → ℕ)) : Prop :=
  ∃ u ∈ x.1.lists .sleep, ∃ v ∈ x.1.lists .sleep,
    x.2 u = x.1.jiffies ∧ x.2 u < 2 ^ 31 ∧ 2 ^ 31 ≤ x.2 v

instance (x : State × (ℕ → ℕ)) : Decidable (Hidden x) :=
  inferInstanceAs (Decidable (∃ u ∈ x.1.lists .sleep, ∃ v ∈ x.1.lists .sleep, _ ∧ _ ∧ _))

/-- No deadline wraps, and no clock tick finds a sleeper hidden. -/
def InTime (x : State × (ℕ → ℕ)) (call : Call) : Prop :=
  (∀ ms, call = .sleep ms → deadline x.1 ms < 2 ^ 32) ∧ (call = .clock → ¬Hidden x)

/-- The sleepers are in order, and none of them is late. -/
structure OnTime (x : State × (ℕ → ℕ)) : Prop extends Sound x.1 where
  jiffies : x.1.jiffies < 2 ^ 32
  ticks : ∀ u ∈ x.1.lists .sleep, (x.1.tasks u).ticks = int32 (x.2 u)
  ahead : ∀ u ∈ x.1.lists .sleep, x.1.jiffies ≤ x.2 u ∧ x.2 u < 2 ^ 32
  sorted : (x.1.lists .sleep).Pairwise fun u v => (x.1.tasks u).ticks ≤ (x.1.tasks v).ticks

/-! ## Sorted lists -/

theorem pairwise_insertSort {β : Type} (key : β → ℤ) (x : β) {xs : List β}
    (h : xs.Pairwise fun a b => key a ≤ key b) :
    (insertSort key x xs).Pairwise fun a b => key a ≤ key b := by
  induction xs with
  | nil => exact List.pairwise_singleton _ x
  | cons y ys ih =>
      obtain ⟨hfirst, hrest⟩ := List.pairwise_cons.mp h
      unfold insertSort
      split
      · rename_i hlt
        refine List.pairwise_cons.mpr ⟨fun z hz => ?_, h⟩
        rcases List.mem_cons.mp hz with rfl | hz
        · exact hlt.le
        · exact hlt.le.trans (hfirst z hz)
      · rename_i hge
        refine List.pairwise_cons.mpr ⟨fun z hz => ?_, ih hrest⟩
        rcases List.mem_cons.mp ((perm_insertSort key x ys).mem_iff.mp hz) with rfl | hz
        · exact not_lt.mp hge
        · exact hfirst z hz

/-- `takeWhile` takes all that satisfy `p`, if `p` holds before each of them. -/
theorem mem_takeWhile_of_pairwise {β : Type} {p : β → Bool} {xs : List β} {x : β}
    (h : xs.Pairwise fun a b => p b = true → p a = true) :
    x ∈ xs.takeWhile p ↔ x ∈ xs ∧ p x = true := by
  induction xs with
  | nil => simp
  | cons y ys ih =>
      obtain ⟨hfirst, hrest⟩ := List.pairwise_cons.mp h
      by_cases hy : p y = true
      · rw [List.takeWhile_cons_of_pos hy, List.mem_cons, ih hrest, List.mem_cons]
        constructor
        · rintro (rfl | ⟨hx, hp⟩)
          · exact ⟨.inl rfl, hy⟩
          · exact ⟨.inr hx, hp⟩
        · rintro ⟨rfl | hx, hp⟩
          · exact .inl rfl
          · exact .inr ⟨hx, hp⟩
      · rw [List.takeWhile_cons_of_neg hy]
        refine ⟨fun hx => absurd hx List.not_mem_nil, ?_⟩
        rintro ⟨hx, hp⟩
        rcases List.mem_cons.mp hx with rfl | hx
        · exact absurd hp hy
        · exact absurd (hfirst x hx hp) hy

/-! ## Waking -/

theorem uint32_int32 {n : ℕ} (hn : n < 2 ^ 32) : uint32 (int32 n) = n := by
  unfold uint32 int32
  omega

section Wakeup

variable {x x' : State × (ℕ → ℕ)}

theorem OnTime.due_iff (h : OnTime x) (hu : u ∈ x.1.lists .sleep) :
    ¬(x.1.jiffies : ℤ) < uint32 (x.1.tasks u).ticks ↔ x.2 u = x.1.jiffies := by
  obtain ⟨hle, hlt⟩ := h.ahead u hu
  rw [h.ticks u hu, uint32_int32 hlt]
  omega

/-- The loop of `task_wakeup` takes just the sleepers that are due. -/
theorem OnTime.mem_dueSleepers (h : OnTime x) (hhidden : ¬Hidden x) :
    u ∈ dueSleepers x.1 (x.1.lists .sleep) ↔ u ∈ x.1.lists .sleep ∧ x.2 u = x.1.jiffies := by
  have hbefore : (x.1.lists .sleep).Pairwise fun u v =>
      decide (¬(x.1.jiffies : ℤ) < uint32 (x.1.tasks v).ticks) = true →
        decide (¬(x.1.jiffies : ℤ) < uint32 (x.1.tasks u).ticks) = true := by
    refine h.sorted.imp_of_mem ?_
    intro u v hu hv hle hdue
    rw [decide_eq_true_iff, h.due_iff hv] at hdue
    rw [decide_eq_true_iff, h.due_iff hu]
    rw [h.ticks u hu, h.ticks v hv] at hle
    have hahead := h.ahead u hu
    have hahead' := h.ahead v hv
    have hside : ¬(x.2 v < 2 ^ 31 ∧ 2 ^ 31 ≤ x.2 u) :=
      fun hside => hhidden ⟨v, hv, u, hu, hdue, hside.1, hside.2⟩
    unfold int32 at hle
    omega
  unfold dueSleepers
  rw [mem_takeWhile_of_pairwise hbefore]
  constructor
  · rintro ⟨hu, hdue⟩
    exact ⟨hu, (h.due_iff hu).mp (of_decide_eq_true hdue)⟩
  · rintro ⟨hu, hdue⟩
    exact ⟨hu, decide_eq_true ((h.due_iff hu).mpr hdue)⟩

theorem OnTime.run_taskWakeup (h : OnTime x) :
    taskWakeup.run x.1 = .ok ((), x.1.wakeup, []) := by
  unfold taskWakeup
  rw [run_bind _ (run_gets _ x.1)]
  exact run_wakeLoop (h.nodup .sleep) fun t ht => ((h.listed .sleep t).mp ht).2

/-- A linked task is not ready. -/
theorem Linked.not_ready (h : Linked s) {l : ListId} (hu : u ∈ s.lists l) :
    (s.tasks u).state ≠ .ready := by
  obtain ⟨htable, hnode⟩ := (h.listed l u).mp hu
  intro hready
  rw [h.node_eq_none htable (by rw [hready]; rfl)] at hnode
  cases hnode

theorem OnTime.wakeup_state (h : OnTime x) (hu : u ∈ x.1.lists .sleep) :
    (x.1.wakeup.tasks u).state = .ready ↔ u ∈ dueSleepers x.1 (x.1.lists .sleep) := by
  unfold State.wakeup
  rw [foldl_wakeOne_tasks]
  split
  · rename_i hdue
    exact ⟨fun _ => hdue, fun _ => rfl⟩
  · rename_i hwait
    exact ⟨fun hready => absurd hready (h.not_ready hu), fun hdue => absurd hdue hwait⟩

/-- A hidden sleeper is not reached: the list begins with a deadline that has not come. -/
theorem OnTime.dueSleepers_hidden (h : OnTime x) (hhidden : Hidden x) :
    dueSleepers x.1 (x.1.lists .sleep) = [] := by
  obtain ⟨u, hu, v, hv, hdue, hlow, hhigh⟩ := hhidden
  cases hlist : x.1.lists .sleep with
  | nil =>
      rw [hlist] at hu
      exact absurd hu List.not_mem_nil
  | cons w ws =>
      have hw : w ∈ x.1.lists .sleep := by
        rw [hlist]
        exact List.mem_cons_self
      have hle : (x.1.tasks w).ticks ≤ (x.1.tasks v).ticks := by
        have hsorted := h.sorted
        rw [hlist] at hsorted hv
        rcases List.mem_cons.mp hv with rfl | hv
        · exact Int.le_refl _
        · exact (List.pairwise_cons.mp hsorted).1 v hv
      have hnot : ¬¬(x.1.jiffies : ℤ) < uint32 (x.1.tasks w).ticks := by
        rw [h.due_iff hw]
        rw [h.ticks w hw, h.ticks v hv] at hle
        have hw := h.ahead w hw
        have hv := h.ahead v hv
        unfold int32 at hle
        omega
      exact List.takeWhile_cons_of_neg (by simpa using hnot)

/-- The sleepers wake on time just when none that is due is hidden. -/
theorem OnTime.punctual_iff (h : OnTime x) : Punctual x ↔ ¬Hidden x := by
  constructor
  · rintro ⟨s', hrun, hready⟩ hhidden
    rw [h.run_taskWakeup] at hrun
    cases hrun
    have hempty := h.dueSleepers_hidden hhidden
    obtain ⟨u, hu, -, -, hdue, -⟩ := hhidden
    have hmem := (h.wakeup_state hu).mp ((hready u hu).mpr hdue)
    rw [hempty] at hmem
    exact absurd hmem List.not_mem_nil
  · intro hhidden
    refine ⟨x.1.wakeup, h.run_taskWakeup, fun u hu => ?_⟩
    rw [h.wakeup_state hu, h.mem_dueSleepers hhidden]
    exact ⟨fun hdue => hdue.2, fun hdue => ⟨hu, hdue⟩⟩

end Wakeup

/-! ## Steps -/

theorem Effect.jiffies (heffect : Effect s call answer s') (hclock : call ≠ .clock) :
    s'.jiffies = s.jiffies := by
  have hover : ∀ status, (s.bury status).handOver.jiffies = s.jiffies := by
    intro status
    rw [handOver_same]
  cases heffect with
  | tick | refill => exact absurd rfl hclock
  | exitAwaited | exit => exact hover _
  | _ => rfl

theorem Effect.clock_jiffies (heffect : Effect s .clock answer s') :
    s'.jiffies = (s.jiffies + 1) % 2 ^ 32 := by
  have hwake : s.wakeup.jiffies = s.jiffies := (foldl_wakeOne_same s _).2.2.1
  cases heffect with
  | tick | refill =>
      change (s.wakeup.jiffies + 1) % 2 ^ 32 = _
      rw [hwake]

/-- The sleepers that a tick leaves keep their deadlines. -/
theorem Effect.clock_sleepers (h : Sound s) (heffect : Effect s .clock answer s')
    (hu : u ∈ s'.lists .sleep) : (u ∈ s.lists .sleep ∧ u ∉ dueSleepers s (s.lists .sleep)) ∧
      (s'.tasks u).ticks = (s.tasks u).ticks := by
  have hleft : u ∈ s.wakeup.lists .sleep := by
    cases heffect with
    | tick | refill => exact hu
  have hmem := (foldl_wakeOne_sleepers (h.nodup .sleep)).mp hleft
  have hne := h.ne_current ((h.listed .sleep u).mp hmem.1).2
  have hticks : (s.wakeup.tasks u).ticks = (s.tasks u).ticks := by
    unfold State.wakeup
    rw [foldl_wakeOne_tasks, if_neg hmem.2]
  have hwake := wakeup_current s
  refine ⟨hmem, ?_⟩
  cases heffect with
  | tick => rw [tick_tasks, hwake, if_neg hne, hticks]
  | refill =>
      change (s.wakeup.tick.refill.tasks u).ticks = _
      rw [refill_tasks, if_neg (by rw [show s.wakeup.tick.current = _ from hwake]; exact hne),
        tick_tasks, hwake, if_neg hne, hticks]

section Steps

variable {x x' : State × (ℕ → ℕ)}

theorem OnTime.clock (h : OnTime x) (hhidden : ¬Hidden x) (hsound : Sound s')
    (heffect : Effect x.1 .clock answer s') : OnTime (s', x.2) := by
  have hjiffies := heffect.clock_jiffies
  have hbound := h.jiffies
  have hstay : ∀ u ∈ s'.lists .sleep, u ∈ x.1.lists .sleep ∧ x.2 u ≠ x.1.jiffies ∧
      (s'.tasks u).ticks = (x.1.tasks u).ticks := by
    intro u hu
    obtain ⟨⟨hmem, hdue⟩, hticks⟩ := heffect.clock_sleepers h.toSound hu
    exact ⟨hmem, fun heq => hdue ((h.mem_dueSleepers hhidden).mpr ⟨hmem, heq⟩), hticks⟩
  refine ⟨hsound, ?_, fun u hu => ?_, fun u hu => ?_, ?_⟩
  · dsimp only
    omega
  · obtain ⟨hmem, -, hticks⟩ := hstay u hu
    rw [hticks]
    exact h.ticks u hmem
  · obtain ⟨hmem, hne, -⟩ := hstay u hu
    have hahead := h.ahead u hmem
    dsimp only
    omega
  · have hpossible : Call.Possible x.1 .clock := trivial
    have hsub := heffect.sleepers_sublist hpossible nofun
    refine (h.sorted.sublist hsub).imp_of_mem fun {u v} hu hv hle => ?_
    rw [(hstay u hu).2.2, (hstay v hv).2.2]
    exact hle

theorem OnTime.sleep {ms : ℕ} (h : OnTime x) (hwrap : deadline x.1 ms < 2 ^ 32)
    (hsound : Sound s') (heffect : Effect x.1 (.sleep ms) answer s') :
    OnTime (s', due x (.sleep ms)) := by
  have hnot : ∀ u ∈ x.1.lists .sleep, u ≠ x.1.current :=
    fun u hu => h.ne_current ((h.listed .sleep u).mp hu).2
  have hbound := h.jiffies
  cases heffect with
  | @sleep _ next =>
      have hkey : ∀ u, ((x.1.setDeadline (ms / JIFFY)).tasks u).ticks =
          if u = x.1.current then int32 (deadline x.1 ms) else (x.1.tasks u).ticks := by
        intro u
        unfold State.setDeadline
        rw [State.setTask_apply]
        split
        · have hmax : (if 0 < ms / JIFFY then ms / JIFFY else 1) = max 1 (ms / JIFFY) := by
            split <;> omega
          rw [hmax]
          rfl
        · rfl
      have hticks : ∀ u, ((((x.1.setDeadline (ms / JIFFY)).linkSleeper x.1.current).switchTo
          next).tasks u).ticks = ((x.1.setDeadline (ms / JIFFY)).tasks u).ticks := by
        intro u
        exact (sameSlice_link _ _ _ _ _ u).1
      have hmem : ∀ u, u ∈ insertSort (fun u => ((x.1.setDeadline (ms / JIFFY)).tasks u).ticks)
          x.1.current (x.1.lists .sleep) → u = x.1.current ∨ u ∈ x.1.lists .sleep :=
        fun u hu => List.mem_cons.mp ((perm_insertSort _ _ _).mem_iff.mp hu)
      refine ⟨hsound, hbound, fun u hu => ?_, fun u hu => ?_, ?_⟩
      · rw [hticks, hkey]
        rcases hmem u hu with rfl | hu
        · simp only [due, if_pos, Nat.mod_eq_of_lt hwrap]
        · rw [if_neg (hnot u hu), h.ticks u hu]
          simp only [due, if_neg (hnot u hu)]
      · rcases hmem u hu with rfl | hu
        · simp only [due, if_pos, Nat.mod_eq_of_lt hwrap]
          exact ⟨Nat.le_add_right _ _, hwrap⟩
        · simp only [due, if_neg (hnot u hu)]
          exact h.ahead u hu
      · simp only [hticks]
        refine pairwise_insertSort _ _ ?_
        refine h.sorted.imp_of_mem fun {u v} hu hv hle => ?_
        rw [hkey, hkey, if_neg (hnot u hu), if_neg (hnot v hv)]
        exact hle

theorem OnTime.step (h : OnTime x) (htime : InTime x call) (hstep : DueStep x call x') :
    OnTime x' := by
  obtain ⟨hcall, hdue⟩ := hstep
  obtain ⟨answer, heffect⟩ := hcall.effect h.toSound
  have hsound := hcall.sound h.toSound
  obtain ⟨s', due'⟩ := x'
  dsimp only at hcall hdue heffect hsound
  subst hdue
  by_cases hclock : call = .clock
  · subst hclock
    exact h.clock (htime.2 rfl) hsound heffect
  by_cases hsleep : ∃ ms, call = .sleep ms
  · obtain ⟨ms, rfl⟩ := hsleep
    exact h.sleep (htime.1 ms rfl) hsound heffect
  · have hno : ∀ ms, call ≠ .sleep ms := fun ms hms => hsleep ⟨ms, hms⟩
    have hsub := heffect.sleepers_sublist hcall.1 hno
    have hsame : due x call = x.2 := by
      funext u
      unfold due
      split
      · exact absurd rfl (hno _)
      · rfl
    have hticks : ∀ u ∈ s'.lists .sleep, (s'.tasks u).ticks = (x.1.tasks u).ticks := by
      intro u hu
      have htable := ((h.listed .sleep u).mp (hsub.subset hu)).1
      exact (heffect.sameSlice h.toSound hclock (fun hms => absurd hms hsleep) htable).1
    rw [hsame]
    refine ⟨hsound, ?_, fun u hu => ?_, fun u hu => ?_, ?_⟩
    · rw [heffect.jiffies hclock]
      exact h.jiffies
    · rw [hticks u hu]
      exact h.ticks u (hsub.subset hu)
    · rw [heffect.jiffies hclock]
      exact h.ahead u (hsub.subset hu)
    · refine (h.sorted.sublist hsub).imp_of_mem fun {u v} hu hv hle => ?_
      rw [hticks u hu, hticks v hv]
      exact hle

end Steps

theorem Started.onTime {s₀ : State} {due₀ : ℕ → ℕ} (h₀ : Started s₀)
    (hjiffies : s₀.jiffies < 2 ^ 32) : OnTime (s₀, due₀) := by
  have hnone : ∀ u, u ∉ s₀.lists .sleep := by
    intro u hu
    rw [h₀.lists] at hu
    exact absurd hu List.not_mem_nil
  refine ⟨h₀.sound, hjiffies, fun u hu => absurd hu (hnone u), fun u hu => absurd hu (hnone u), ?_⟩
  dsimp only
  rw [h₀.lists]
  exact List.Pairwise.nil

theorem OnTime.run {x y : State × (ℕ → ℕ)} (h : OnTime x) (hrun : Run DueStep InTime x y) :
    OnTime y := hrun.invariant (fun _ _ _ h htime hstep => h.step htime hstep) h

/-- While no deadline wraps and no sleeper that is due is hidden, every tick wakes the
sleepers whose time has come and no others, and a hidden one is the only reason not to. -/
theorem sleepers_wake {s₀ : State} {due₀ : ℕ → ℕ} {x : State × (ℕ → ℕ)} (h₀ : Started s₀)
    (hjiffies : s₀.jiffies < 2 ^ 32) (hrun : Run DueStep InTime (s₀, due₀) x) :
    Punctual x ↔ InTime x .clock := by
  have h : OnTime x := (h₀.onTime hjiffies).run hrun
  rw [h.punctual_iff]
  exact ⟨fun hhidden => ⟨nofun, fun _ => hhidden⟩, fun htime => htime.2 rfl⟩

/-- The sample tasks, at a given value of `jiffies`. -/
def bootedAt (jiffies : ℕ) : State := { booted with jiffies := jiffies }

theorem bootedAt_started (jiffies : ℕ) : Started (bootedAt jiffies) :=
  ⟨booted_started.created, booted_started.table, booted_started.idle, booted_started.current,
    booted_started.lists, booted_started.task⟩

/-- The last tick before the counter wraps wakes the first task. -/
theorem bootedAt_wakes : ∃ x, Run DueStep InTime (bootedAt (2 ^ 32 - 2), fun _ => 0) x ∧
    1 ∈ x.1.lists .sleep ∧ x.2 1 = x.1.jiffies ∧ (Punctual x ↔ InTime x .clock) ∧
    InTime x .clock := by
  have hrun : ∃ x, Run DueStep InTime (bootedAt (2 ^ 32 - 2), fun _ => 0) x ∧
      1 ∈ x.1.lists .sleep ∧ x.2 1 = x.1.jiffies ∧ ¬Hidden x := by
    refine ⟨_, Run.head (a := .sleep 10) ⟨?_, nofun⟩
        (DueStep.of_run ⟨by decide, by decide⟩ rfl) <|
      Run.head (a := .clock) ⟨nofun, fun _ => ?_⟩ (DueStep.of_run trivial rfl) <|
      Run.refl, by decide, rfl, ?_⟩
    · rintro ms ⟨⟩
      decide
    · decide
    · decide
  obtain ⟨x, hrun, hsleeps, hdue, hhidden⟩ := hrun
  have hpunctual := sleepers_wake (bootedAt_started _) (by decide) hrun
  exact ⟨x, hrun, hsleeps, hdue, hpunctual, nofun, fun _ => hhidden⟩

/-- The first task has a negative deadline: the test task, which is due before, sleeps on
behind it. -/
theorem exists_late_sleeper : ∃ jiffies due₀ x,
    Run DueStep (fun _ _ => True) (bootedAt jiffies, due₀) x ∧ ¬Punctual x := by
  have hrun : ∃ x, Run DueStep InTime (bootedAt (2 ^ 31 - 2), fun _ => 0) x ∧ Hidden x := by
    refine ⟨_, Run.head (a := .sleep 50) ⟨?_, nofun⟩
        (DueStep.of_run ⟨by decide, by decide⟩ rfl) <|
      Run.head (a := .sleep 10) ⟨?_, nofun⟩
        (DueStep.of_run ⟨by decide, by decide⟩ rfl) <|
      Run.head (a := .clock) ⟨nofun, fun _ => ?_⟩ (DueStep.of_run trivial rfl) <|
      Run.refl, ?_⟩
    · rintro ms ⟨⟩
      decide
    · rintro ms ⟨⟩
      decide
    · decide
    · decide
  obtain ⟨x, hrun, hhidden⟩ := hrun
  have h : OnTime x := ((bootedAt_started _).onTime (by decide)).run hrun
  exact ⟨_, _, x, hrun.weaken fun _ _ _ => trivial, fun hon => h.punctual_iff.mp hon hhidden⟩

end Ylos.Sched
