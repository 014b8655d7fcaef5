import Mathlib.Data.List.Nodup
import Ylos.Verification.Task.Family
import Ylos.Verification.Task.Slices

/-! # Reaping

Runs with a record of the calls of `task_exit` and of the tasks that have left the table. -/

namespace Ylos.Sched

open Exec

variable {s s' : State} {t u c i : ℕ} {answer : Option (ℕ × ℤ)} {call : Call} {pid status : ℤ}

/-- The tasks that have called `task_exit`, with their statuses, and the tasks that have left
the table, the latest first. -/
structure History where
  exited : List (ℕ × ℤ)
  reaped : List ℕ

/-- The tasks whose slots are empty afterwards. -/
def vanished (s s' : State) : List ℕ :=
  (List.range NR_TASKS).filterMap fun i => if (s'.table i).isNone then s.table i else none

def History.record (h : History) (s : State) (call : Call) (s' : State) : History where
  exited := match call with
    | .exit status => (s.current, status) :: h.exited
    | _ => h.exited
  reaped := vanished s s' ++ h.reaped

def FamilyStep (x : State × History) (call : Call) (x' : State × History) : Prop :=
  CallStep x.1 call x'.1 ∧ x'.2 = x.2.record x.1 call x'.1

/-- Only `task_waitpid` makes a task `TASK_WAITING`. -/
def OwnWaits (_ : State × History) (call : Call) : Prop := ∀ l, call ≠ .block l .waiting

theorem FamilyStep.of_run {x : State × History} (hpossible : call.Possible x.1)
    (hcode : call.code.run x.1 = .ok (answer, s', [])) :
    FamilyStep x call (s', x.2.record x.1 call s') := ⟨⟨hpossible, answer, hcode⟩, rfl⟩

/-- What the record says about the table. -/
structure Recorded (x : State × History) : Prop extends Sound x.1, Waits x.1 where
  exited : ∀ t, InTable x.1 t → (x.1.tasks t).state = .died →
    (t, (x.1.tasks t).status) ∈ x.2.exited
  once : (x.2.exited.map Prod.fst).Nodup
  past : ∀ t ∈ x.2.exited.map Prod.fst, t < x.1.created ∧
    (InTable x.1 t → (x.1.tasks t).state = .died)
  reaped : x.2.reaped.Nodup
  gone : ∀ t ∈ x.2.reaped, t < x.1.created ∧ ¬InTable x.1 t

/-! ## The table -/

theorem mem_vanished (h : Linked s) :
    t ∈ vanished s s' ↔ ∃ i, s.table i = some t ∧ s'.table i = none := by
  unfold vanished
  rw [List.mem_filterMap]
  constructor
  · rintro ⟨i, -, hi⟩
    split at hi
    · rename_i hnone
      exact ⟨i, hi, Option.isNone_iff_eq_none.mp hnone⟩
    · cases hi
  · rintro ⟨i, hi, hnone⟩
    refine ⟨i, List.mem_range.mpr (h.table_lt i t hi).1, ?_⟩
    rw [hnone]
    exact hi

theorem vanished_nodup (h : Linked s) : (vanished s s').Nodup := by
  refine List.Nodup.filterMap ?_ List.nodup_range
  intro i k t hi hk
  rw [Option.mem_def] at hi hk
  split at hi
  · split at hk
    · exact (h.pid i t hi).symm.trans (h.pid k t hk)
    · cases hk
  · cases hi

/-- A task that leaves the table is the dead child that a scan has found. -/
theorem Effect.vanished (h : Sound s) (heffect : Effect s call answer s')
    (ht : t ∈ vanished s s') : ¬InTable s' t ∧ (s.tasks t).state = .died ∧
      s.table (s.tasks t).ppid = some s.current ∧
      answer = some ((s.tasks t).pid, (s.tasks t).status) := by
  obtain ⟨k, hk, hnone⟩ := (mem_vanished h.toLinked).mp ht
  have hsame : s'.table k ≠ s.table k := by
    rw [hk, hnone]
    nofun
  cases heffect with
  | create _ hfree | fork _ hfree =>
      refine absurd (if_neg ?_) hsame
      rintro rfl
      rw [hfree] at hk
      cases hk
  | yield | block | unblock | sleep | wait | childless => exact absurd rfl hsame
  | tick | refill => exact absurd (congrFun (foldl_wakeOne_same s _).2.2.2.1 k) hsame
  | @reap pid i c hscan hc =>
      obtain ⟨-, -, d, hd, hwanted, hdied⟩ := scan_inl hscan
      rw [hc] at hd
      cases hd
      obtain rfl : k = i := by
        by_contra hne
        exact hsame (if_neg hne)
      rw [hc] at hk
      cases hk
      refine ⟨?_, hdied, ?_, rfl⟩
      · rintro ⟨j, hj⟩
        change (if j = k then none else s.table j) = some t at hj
        split at hj
        · cases hj
        · rename_i hne
          exact hne ((h.pid j t hj).symm.trans (h.pid k t hc))
      · rw [hwanted.1]
        exact h.slot h.current
  | exitAwaited | exit => exact absurd (congrFun (handOver_table s _) k) hsame

/-- Every answer of `task_waitpid` is about a task that leaves the table. -/
theorem Effect.answered (h : Sound s) {n : ℕ} (heffect : Effect s call (some (n, status)) s') :
    ∃ t, s.table n = some t ∧ t ∈ Sched.vanished s s' := by
  cases heffect with
  | @reap pid i c hscan hc =>
      refine ⟨c, ?_, (mem_vanished h.toLinked).mpr ⟨i, hc, if_pos rfl⟩⟩
      rw [h.pid i c hc]
      exact hc

theorem Effect.created (heffect : Effect s call answer s') : s.created ≤ s'.created := by
  have hover : ∀ status, (s.bury status).handOver.created = s.created := by
    intro status
    rw [handOver_same]
  cases heffect with
  | create | fork => exact Nat.le_succ _
  | tick | refill => exact (foldl_wakeOne_same s _).2.2.2.2.ge
  | exitAwaited | exit => exact (hover _).ge
  | _ => exact Nat.le_refl _

theorem Effect.inTable (heffect : Effect s call answer s') (ht : InTable s' t)
    (hold : t < s.created) : InTable s t := by
  by_contra hnew
  exact absurd (heffect.new ht hnew).1 (Nat.ne_of_lt hold)

/-! ## Steps -/

section Steps

variable {x x' : State × History}

theorem Recorded.step (h : Recorded x) (hown : OwnWaits x call) (hstep : FamilyStep x call x') :
    Recorded x' := by
  obtain ⟨hcall, hrecord⟩ := hstep
  obtain ⟨answer, heffect⟩ := hcall.effect h.toSound
  have hsound := hcall.sound h.toSound
  have hwaits := heffect.waits h.toSound h.toWaits hcall.1 hown
  obtain ⟨s', history⟩ := x'
  dsimp only at hcall hrecord heffect hsound hwaits
  subst hrecord
  have hgrow := heffect.created
  have hleave : ∀ t ∈ vanished x.1 s', InTable x.1 t := by
    intro t ht
    obtain ⟨i, hi, -⟩ := (mem_vanished h.toLinked).mp ht
    exact ⟨i, hi⟩
  have hreaped : (vanished x.1 s' ++ x.2.reaped).Nodup := by
    refine List.Nodup.append (vanished_nodup h.toLinked) h.reaped fun t ht ht' => ?_
    exact (h.gone t ht').2 (hleave t ht)
  have hgone : ∀ t ∈ vanished x.1 s' ++ x.2.reaped, t < s'.created ∧ ¬InTable s' t := by
    intro t ht
    rcases List.mem_append.mp ht with ht | ht
    · obtain ⟨i, hi⟩ := hleave t ht
      exact ⟨(h.table_lt i t hi).2.trans_le hgrow, (heffect.vanished h.toSound ht).1⟩
    · obtain ⟨hold, hgone⟩ := h.gone t ht
      exact ⟨hold.trans_le hgrow, fun hin => hgone (heffect.inTable hin hold)⟩
  by_cases hexit : ∃ status, call = .exit status
  · obtain ⟨status, rfl⟩ := hexit
    obtain ⟨hin, hdied, hstatus⟩ := heffect.exits h.toSound hcall.1 rfl
    obtain ⟨i, hi⟩ := h.current
    refine ⟨hsound, hwaits, fun t ht hdead => ?_, ?_, fun t ht => ?_, hreaped, hgone⟩
    · rw [hstatus t ((hin t).mp ht)]
      rcases (hdied t ((hin t).mp ht)).mp hdead with rfl | hdead
      · rw [if_pos rfl]
        exact List.mem_cons_self
      · rw [if_neg]
        · exact List.mem_cons_of_mem _ (h.exited t ((hin t).mp ht) hdead)
        · rintro rfl
          exact absurd (h.running.symm.trans hdead) (by decide)
    · refine List.nodup_cons.mpr ⟨fun hmem => ?_, h.once⟩
      exact absurd (h.running.symm.trans ((h.past _ hmem).2 h.current)) (by decide)
    · rcases List.mem_cons.mp ht with rfl | ht
      · exact ⟨(h.table_lt i _ hi).2.trans_le hgrow,
          fun hmember => (hdied _ ((hin _).mp hmember)).mpr (.inl rfl)⟩
      · obtain ⟨hold, hpast⟩ := h.past t ht
        exact ⟨hold.trans_le hgrow, fun hmember =>
          (hdied t ((hin t).mp hmember)).mpr (.inr (hpast ((hin t).mp hmember)))⟩
  · have hno : ∀ status, call ≠ .exit status := fun status heq => hexit ⟨status, heq⟩
    obtain ⟨hdied, hstatus⟩ := heffect.stays h.toSound hcall.1 hown hno
    have hexited : (x.2.record x.1 call s').exited = x.2.exited := by
      unfold History.record
      split
      · exact absurd rfl (hno _)
      · rfl
    refine ⟨hsound, hwaits, fun t ht hdead => ?_, ?_, fun t ht => ?_, hreaped, hgone⟩
    · obtain ⟨hin, hdead⟩ := (hdied t ht).mp hdead
      dsimp only
      rw [hexited, hstatus t hin]
      exact h.exited t hin hdead
    · dsimp only
      rw [hexited]
      exact h.once
    · dsimp only at ht ⊢
      rw [hexited] at ht
      obtain ⟨hold, hpast⟩ := h.past t ht
      refine ⟨hold.trans_le hgrow, fun hmember => (hdied t hmember).mpr ?_⟩
      have hin := heffect.inTable hmember hold
      exact ⟨hin, hpast hin⟩

end Steps

theorem Started.recorded {s₀ : State} (h₀ : Started s₀) : Recorded (s₀, ⟨[], []⟩) := by
  have halive : ∀ t, InTable s₀ t → (s₀.tasks t).state ≠ .died ∧
      (s₀.tasks t).state ≠ .waiting := by
    intro t ht
    rw [(h₀.task t (h₀.inTable.mp ht)).2.2.2]
    split
    · exact ⟨nofun, nofun⟩
    · exact ⟨nofun, nofun⟩
  exact ⟨h₀.sound, ⟨fun t c ht hwaiting => absurd hwaiting (halive t ht).2,
      fun t ht hwaiting => absurd hwaiting (halive t ht).2⟩,
    fun t ht hdead => absurd hdead (halive t ht).1, List.nodup_nil, nofun, List.nodup_nil, nofun⟩

/-- The parents are alive, nobody waits for a dead child, and the dead are reaped once, by
their parents, which get their pids and statuses. -/
theorem exit_and_wait {s₀ : State} {x : State × History} (h₀ : Started s₀)
    (hrun : Run FamilyStep OwnWaits (s₀, ⟨[], []⟩) x) :
    (∀ i t, 2 ≤ i → x.1.table i = some t → ∃ p, x.1.table (x.1.tasks t).ppid = some p ∧
      (x.1.tasks p).state ≠ .died) ∧
    (∀ t c, InTable x.1 t → (x.1.tasks t).state = .waiting → InTable x.1 c →
      (x.1.tasks c).state = .died → ¬Wanted x.1 t (x.1.tasks t).waitpid c) ∧
    (x.2.exited.map Prod.fst).Nodup ∧ x.2.reaped.Nodup ∧
    ∀ (call : Call) answer s', call.Possible x.1 → call.code.run x.1 = .ok (answer, s', []) →
      (∀ t ∈ vanished x.1 s', x.1.table (x.1.tasks t).ppid = some x.1.current ∧
        ∃ status, (t, status) ∈ x.2.exited ∧ answer = some ((x.1.tasks t).pid, status)) ∧
      ∀ pid status, answer = some (pid, status) →
        ∃ t, x.1.table pid = some t ∧ t ∈ vanished x.1 s' := by
  have h : Recorded x := hrun.invariant (fun _ _ _ h hown hstep => h.step hown hstep) h₀.recorded
  refine ⟨fun i t hi hslot => ?_, h.dead, h.once, h.reaped,
    fun call answer s' hpossible hcode => ⟨fun t ht => ?_, fun pid status hanswer => ?_⟩⟩
  · have hne : t ≠ x.1.idle := by
      rintro rfl
      have hzero := (h.pid i _ hslot).symm.trans (h.pid 0 _ h.idle)
      omega
    obtain ⟨p, hp, halive, -⟩ := h.parent t ⟨i, hslot⟩ hne
    exact ⟨p, hp, halive⟩
  · have heffect := Effect.of_run h.toSound hpossible hcode
    obtain ⟨-, hdied, hparent, hanswer⟩ := heffect.vanished h.toSound ht
    obtain ⟨i, hi, -⟩ := (mem_vanished h.toLinked).mp ht
    exact ⟨hparent, (x.1.tasks t).status, h.exited t ⟨i, hi⟩ hdied, hanswer⟩
  · subst hanswer
    exact (Effect.of_run h.toSound hpossible hcode).answered h.toSound

/-- The test task forks and waits; its child exits with status 7 and is reaped. -/
theorem booted_reaps : ∃ x, Run FamilyStep OwnWaits (booted, ⟨[], []⟩) x ∧
    x.2.exited = [(3, 7)] ∧ x.2.reaped = [3] ∧ (x.2.exited.map Prod.fst).Nodup ∧
    x.2.reaped.Nodup := by
  have hrun : ∃ x, Run FamilyStep OwnWaits (booted, ⟨[], []⟩) x ∧
      x.2.exited = [(3, 7)] ∧ x.2.reaped = [3] := by
    refine ⟨_, Run.head (a := .yield) nofun (FamilyStep.of_run trivial rfl) <|
      Run.head (a := .fork) nofun (FamilyStep.of_run (by decide : (2 : ℕ) ≠ 0) rfl) <|
      Run.head (a := .waitpid (-1)) nofun (FamilyStep.of_run (by decide : (2 : ℕ) ≠ 0) rfl) <|
      Run.head (a := .yield) nofun (FamilyStep.of_run trivial rfl) <|
      Run.head (a := .exit 7) nofun (FamilyStep.of_run (by decide : (3 : ℕ) ≠ 0) rfl) <|
      Run.head (a := .yield) nofun (FamilyStep.of_run trivial rfl) <|
      Run.head (a := .waitpid (-1)) nofun (FamilyStep.of_run (by decide : (2 : ℕ) ≠ 0) rfl) <|
      Run.refl, rfl, rfl⟩
  obtain ⟨x, hrun, hexited, hreaped⟩ := hrun
  obtain ⟨-, -, honce, honce', -⟩ := exit_and_wait booted_started hrun
  exact ⟨x, hrun, hexited, hreaped, honce, honce'⟩

end Ylos.Sched
