import Ylos.Model.Mutex
import Ylos.Verification.Mutex.Bystanders

/-! # Mutual exclusion

While a task is between `mutex_lock` and `mutex_unlock`, its place in the code and its depth
say what the fields of the lock are; else the lock is free. A task that is woken is linked
nowhere and still in the loop of `mutex_lock`. -/

namespace Ylos.Sched

open Exec

variable {x x' : Sync} {s s' : State} {t u l m d : ℕ} {stage : Stage} {call : SyncCall}

/-- Where task `t` is in the code of mutex `l`. -/
def Sync.stageAt (x : Sync) (t l : ℕ) : Option Stage :=
  match x.stage t with
  | some (k, stage) => if k = l then some stage else none
  | none => none

/-- Task `t` has got mutex `l` and not yet given it back. -/
def Inside (x : Sync) (t l : ℕ) : Prop :=
  0 < x.depth t l ∨ ∃ stage, x.stageAt t l = some stage ∧ stage ≠ .locking

/-- What the fields of the lock are while task `t` has it `d` times and is where it is. A
`bare` mutex has no holder and no repeat count. -/
def Tenure (bare : Bool) (lock : Lock) (t d : ℕ) : Option Stage → Prop
  | none => (bare = true ∧ lock = ⟨true, none, 0⟩ ∧ d = 1) ∨
      (bare = false ∧ lock = ⟨true, some t, d⟩ ∧ 1 ≤ d)
  | some .again => bare = false ∧ lock = ⟨true, some t, d⟩ ∧ 1 ≤ d ∧ d + 1 < 2 ^ 32
  | some .locking => bare = true ∧ lock = ⟨true, none, 0⟩ ∧ d = 1
  | some .taking => bare = false ∧ lock = ⟨true, none, 0⟩ ∧ d = 0
  | some .counting | some .starting => bare = false ∧ lock = ⟨true, some t, 0⟩ ∧ d = 0
  | some .testing => bare = false ∧ lock = ⟨true, some t, d⟩ ∧ 1 ≤ d
  | some .lessening => bare = false ∧ lock = ⟨true, some t, d⟩ ∧ 2 ≤ d
  | some .dropping => bare = false ∧ lock = ⟨true, some t, 1⟩ ∧ d = 1
  | some .clearing => bare = false ∧ lock = ⟨true, none, 1⟩ ∧ d = 1
  | some .unlocking => lock = ⟨true, none, 0⟩ ∧ d = 1

/-- Nobody has mutex `l`, or one task has it and its fields say so. -/
def Held (x : Sync) (l : ℕ) : Prop :=
  (x.sched.locks l = ⟨false, none, 0⟩ ∧ ∀ t, ¬Inside x t l) ∨
    ∃ t, (∀ u, Inside x u l → u = t) ∧
      Tenure (x.bare l) (x.sched.locks l) t (x.depth t l) (x.stageAt t l)

/-- Every task inside the functions can run or waits for the mutex it wants. -/
structure Placed (x : Sync) : Prop extends Sound x.sched where
  busy : ∀ t l stage, x.stage t = some (l, stage) → InTable x.sched t ∧ t ≠ x.sched.idle ∧
    (Active x.sched t ∨ t ∈ x.sched.lists (.waiters l))
  waiters : ∀ l t, t ∈ x.sched.lists (.waiters l) →
    x.stage t = some (l, .locking) ∧ (x.sched.tasks t).state = .blocked
  old : ∀ t l, 0 < x.depth t l → t < x.sched.created
  held : ∀ l, Held x l
  depth : ∀ t l, x.depth t l < 2 ^ 32

/-- What holds between two steps. -/
structure Ordered (x : Sync) : Prop extends Placed x where
  woken : ∀ l, (x.sched.locks l).value = false → x.sched.lists (.waiters l) ≠ [] →
    ∃ t, x.stage t = some (l, .locking) ∧ Active x.sched t

/-! ## One mutex -/

theorem Tenure.value {bare : Bool} {lock : Lock} {o : Option Stage}
    (h : Tenure bare lock t d o) : lock.value = true := by
  cases o with
  | none =>
      rcases h with h | h
      · rw [h.2.1]
      · rw [h.2.1]
  | some stage =>
      cases stage with
      | again => rw [h.2.1]
      | unlocking => rw [h.1]
      | _ => rw [h.2.1]

/-- A lock is held by the task that has it, as long as that is not giving it back. -/
theorem Tenure.holder {bare : Bool} {lock : Lock} {o : Option Stage}
    (h : Tenure bare lock t d o) : lock.holder = some t ∨ lock.holder = none := by
  cases o with
  | none =>
      rcases h with h | h
      · rw [h.2.1]
        exact .inr rfl
      · rw [h.2.1]
        exact .inl rfl
  | some stage =>
      cases stage with
      | again | counting | starting | testing | lessening | dropping =>
          rw [h.2.1]
          exact .inl rfl
      | unlocking =>
          rw [h.1]
          exact .inr rfl
      | locking | taking | clearing =>
          rw [h.2.1]
          exact .inr rfl

theorem Sync.stageAt_of_stage (h : x.stage t = some (l, stage)) :
    x.stageAt t l = some stage := by
  unfold stageAt
  rw [h]
  exact if_pos rfl

theorem Sync.stageAt_none (h : x.stage t = none) : x.stageAt t l = none := by
  unfold stageAt
  rw [h]

/-- The task whose tenure it is has the mutex. -/
theorem Tenure.inside {lock : Lock}
    (h : Tenure (x.bare l) lock t (x.depth t l) (x.stageAt t l)) : Inside x t l := by
  cases ho : x.stageAt t l with
  | none =>
      rw [ho] at h
      rcases h with ⟨-, -, hdepth⟩ | ⟨-, -, hdepth⟩
      · exact .inl hdepth.ge
      · exact .inl hdepth
  | some stage =>
      by_cases hstage : stage = .locking
      · subst hstage
        rw [ho] at h
        exact .inl h.2.2.ge
      · exact .inr ⟨stage, ho, hstage⟩

/-- Who is the one that has the mutex. -/
theorem Held.of_inside (h : Held x l) (hinside : Inside x t l) :
    (∀ u, Inside x u l → u = t) ∧
      Tenure (x.bare l) (x.sched.locks l) t (x.depth t l) (x.stageAt t l) := by
  rcases h with ⟨-, hnone⟩ | ⟨u, hall, htenure⟩
  · exact absurd hinside (hnone t)
  · obtain rfl := hall t hinside
    exact ⟨hall, htenure⟩

theorem Held.of_free (h : Held x l) (hvalue : (x.sched.locks l).value = false) :
    x.sched.locks l = ⟨false, none, 0⟩ ∧ ∀ t, ¬Inside x t l := by
  rcases h with hfree | ⟨u, -, htenure⟩
  · exact hfree
  · rw [htenure.value] at hvalue
    cases hvalue

/-- The mutex stays with whom it is, when nothing about it changes. -/
theorem Held.congr (h : Held x l) (hlock : x'.sched.locks l = x.sched.locks l)
    (hbare : x'.bare l = x.bare l) (hdepth : ∀ u, x'.depth u l = x.depth u l)
    (hstage : ∀ u, x'.stageAt u l = x.stageAt u l) : Held x' l := by
  have hinside : ∀ u, Inside x' u l ↔ Inside x u l := by
    intro u
    unfold Inside
    rw [hdepth, hstage]
  rcases h with ⟨hfree, hnone⟩ | ⟨t, hall, htenure⟩
  · exact .inl ⟨hlock.trans hfree, fun u hu => hnone u ((hinside u).mp hu)⟩
  · refine .inr ⟨t, fun u hu => hall u ((hinside u).mp hu), ?_⟩
    rw [hlock, hbare, hdepth, hstage]
    exact htenure

/-! ## Steps at one mutex -/

/-- The running task makes a step at mutex `l`. -/
structure Moves (x x' : Sync) (l : ℕ) : Prop where
  locks : ∀ m, m ≠ l → x'.sched.locks m = x.sched.locks m
  bare : x'.bare = x.bare
  depth : ∀ u m, ¬(u = x.sched.current ∧ m = l) → x'.depth u m = x.depth u m
  other : ∀ u, u ≠ x.sched.current → x'.stage u = x.stage u
  stage : x.stage x.sched.current = none ∨
    ∃ stage, x.stage x.sched.current = some (l, stage)
  stage' : x'.stage x.sched.current = none ∨
    ∃ stage, x'.stage x.sched.current = some (l, stage)

theorem stageAt_eq_none (hm : m ≠ l)
    (h : x.stage t = none ∨ ∃ stage, x.stage t = some (l, stage)) : x.stageAt t m = none := by
  unfold Sync.stageAt
  rcases h with h | ⟨stage, h⟩
  · rw [h]
  · rw [h]
    exact if_neg hm.symm

theorem Moves.stageAt (h : Moves x x' l) {u : ℕ} (hu : ¬(u = x.sched.current ∧ m = l)) :
    x'.stageAt u m = x.stageAt u m := by
  by_cases hcurrent : u = x.sched.current
  · subst hcurrent
    have hm : m ≠ l := fun hm => hu ⟨rfl, hm⟩
    rw [stageAt_eq_none hm h.stage, stageAt_eq_none hm h.stage']
  · unfold Sync.stageAt
    rw [h.other u hcurrent]

theorem Moves.inside (h : Moves x x' l) {u : ℕ} (hu : ¬(u = x.sched.current ∧ m = l)) :
    Inside x' u m ↔ Inside x u m := by
  unfold Inside
  rw [h.depth u m hu, h.stageAt hu]

theorem Moves.held (h : Moves x x' l) (hm : m ≠ l) (hheld : Held x m) : Held x' m :=
  hheld.congr (h.locks m hm) (by rw [h.bare]) (fun u => h.depth u m fun hu => hm hu.2)
    fun u => h.stageAt fun hu => hm hu.2

/-- The running task gets or keeps the mutex. -/
theorem Moves.owned (h : Moves x x' l) (hall : ∀ u, Inside x u l → u = x.sched.current)
    (htenure : Tenure (x.bare l) (x'.sched.locks l) x.sched.current
      (x'.depth x.sched.current l) (x'.stageAt x.sched.current l)) : Held x' l := by
  refine .inr ⟨x.sched.current, fun u hu => ?_, ?_⟩
  · by_contra hne
    exact hne (hall u ((h.inside fun heq => hne heq.1).mp hu))
  · rw [h.bare]
    exact htenure

/-- Another task has the mutex, or nobody, and the running task has not got it. -/
theorem Moves.unowned (h : Moves x x' l) (hheld : Held x l)
    (hlock : x'.sched.locks l = x.sched.locks l)
    (hnot : ¬Inside x x.sched.current l) (hnot' : ¬Inside x' x.sched.current l) : Held x' l := by
  have hinside : ∀ u, Inside x' u l → Inside x u l := by
    intro u hu
    refine (h.inside ?_).mp hu
    rintro ⟨rfl, -⟩
    exact hnot' hu
  rcases hheld with ⟨hfree, hnone⟩ | ⟨t, hall, htenure⟩
  · exact .inl ⟨hlock.trans hfree, fun u hu => hnone u (hinside u hu)⟩
  · by_cases ht : t = x.sched.current
    · subst ht
      exact absurd htenure.inside hnot
    · have hu : ¬(t = x.sched.current ∧ l = l) := fun heq => ht heq.1
      refine .inr ⟨t, fun u hu => hall u (hinside u hu), ?_⟩
      rw [hlock, h.bare, h.depth t l hu, h.stageAt hu]
      exact htenure

theorem Sound.setLocks (h : Sound s) (hsame : s' = { s with locks := s'.locks }) : Sound s' := by
  rw [hsame]
  exact ⟨h.toConsistent.congr rfl rfl rfl rfl rfl fun _ => ⟨rfl, rfl, rfl⟩,
    h.toLineage.congr rfl rfl (fun _ => rfl) fun _ _ => id⟩

theorem Consistent.active (h : Consistent s) : Active s s.current :=
  ⟨h.node_current, .inr h.running⟩

/-- A step that changes no task. -/
theorem Placed.quiet (h : Placed x) (hmoves : Moves x x' l)
    (hidle : x.sched.current ≠ x.sched.idle)
    (hsched : x'.sched = { x.sched with locks := x'.sched.locks }) (hheld : Held x' l)
    (hcount : x'.depth x.sched.current l < 2 ^ 32) : Placed x' := by
  have htasks : x'.sched.tasks = x.sched.tasks := by rw [hsched]
  have htable : x'.sched.table = x.sched.table := by rw [hsched]
  have hlists : x'.sched.lists = x.sched.lists := by rw [hsched]
  have hidle' : x'.sched.idle = x.sched.idle := by rw [hsched]
  have hcreated : x'.sched.created = x.sched.created := by rw [hsched]
  refine ⟨h.toSound.setLocks hsched, fun u m stage hu => ?_, fun m u hu => ?_, fun u m hu => ?_,
    fun m => ?_, fun u m => ?_⟩
  · rw [InTable, htable, hidle', Active, htasks, hlists]
    by_cases hcurrent : u = x.sched.current
    · subst hcurrent
      exact ⟨h.current, hidle, .inl h.active⟩
    · exact h.busy u m stage ((hmoves.other u hcurrent).symm.trans hu)
  · rw [hlists] at hu
    have hne : u ≠ x.sched.current := h.ne_current ((h.listed _ u).mp hu).2
    rw [hmoves.other u hne, htasks]
    exact h.waiters m u hu
  · rw [hcreated]
    by_cases heq : u = x.sched.current ∧ m = l
    · rw [heq.1]
      obtain ⟨i, hi⟩ := h.current
      exact (h.table_lt i _ hi).2
    · rw [hmoves.depth u m heq] at hu
      exact h.old u m hu
  · by_cases hm : m = l
    · rw [hm]
      exact hheld
    · exact hmoves.held hm (h.held m)
  · by_cases heq : u = x.sched.current ∧ m = l
    · rw [heq.1, heq.2]
      exact hcount
    · rw [hmoves.depth u m heq]
      exact h.depth u m

/-- A step at `l` leaves the woken tasks of the other mutexes as they are. -/
theorem Moves.woken (hmoves : Moves x x' l) (h : Ordered x) (hm : m ≠ l)
    (hfree : (x'.sched.locks m).value = false) (hwaiters : x.sched.lists (.waiters m) ≠ []) :
    ∃ t, x'.stage t = some (m, .locking) ∧ Active x.sched t ∧ t ≠ x.sched.current := by
  rw [hmoves.locks m hm] at hfree
  obtain ⟨t, ht, hactive⟩ := h.woken m hfree hwaiters
  have hne : t ≠ x.sched.current := by
    rintro rfl
    rcases hmoves.stage with hstage | ⟨stage, hstage⟩
    · rw [hstage] at ht
      cases ht
    · rw [hstage] at ht
      cases ht
      exact hm rfl
  exact ⟨t, (hmoves.other t hne).trans ht, hactive, hne⟩

/-- A step without a switch, after which the mutex is held or is as free as it was. -/
theorem Ordered.quiet (h : Ordered x) (hmoves : Moves x x' l)
    (hidle : x.sched.current ≠ x.sched.idle)
    (hsched : x'.sched = { x.sched with locks := x'.sched.locks }) (hheld : Held x' l)
    (hcount : x'.depth x.sched.current l < 2 ^ 32)
    (hvalue : (x'.sched.locks l).value = true ∨
      x'.sched.locks l = x.sched.locks l ∧ x.stage x.sched.current = none) : Ordered x' := by
  refine ⟨h.toPlaced.quiet hmoves hidle hsched hheld hcount, fun m hfree hwaiters => ?_⟩
  have htasks : x'.sched.tasks = x.sched.tasks := by rw [hsched]
  have hlists : x'.sched.lists = x.sched.lists := by rw [hsched]
  rw [hlists] at hwaiters
  have hwoken : ∃ t, x'.stage t = some (m, .locking) ∧ Active x.sched t := by
    by_cases hm : m = l
    · subst hm
      rcases hvalue with hvalue | ⟨hlock, hstage⟩
      · rw [hvalue] at hfree
        cases hfree
      · rw [hlock] at hfree
        obtain ⟨t, ht, hactive⟩ := h.woken m hfree hwaiters
        refine ⟨t, (hmoves.other t ?_).trans ht, hactive⟩
        rintro rfl
        rw [hstage] at ht
        cases ht
    · obtain ⟨t, ht, hactive, -⟩ := hmoves.woken h hm hfree hwaiters
      exact ⟨t, ht, hactive⟩
  obtain ⟨t, ht, hactive⟩ := hwoken
  refine ⟨t, ht, ?_⟩
  rw [Active, htasks]
  exact hactive

/-- A switch, or another call: nothing about the locks changes. -/
theorem Placed.switch (h : Placed x) (hsound : Sound s') (hlocks : s'.locks = x.sched.locks)
    (hidle : s'.idle = x.sched.idle) (hcreated : x.sched.created ≤ s'.created)
    (hwaiters : ∀ m t, t ∈ s'.lists (.waiters m) →
      x.stage t = some (m, .locking) ∧ (s'.tasks t).state = .blocked)
    (hbusy : ∀ t m stage, x.stage t = some (m, stage) →
      InTable s' t ∧ (Active s' t ∨ t ∈ s'.lists (.waiters m))) :
    Placed { x with sched := s' } := by
  refine ⟨hsound, fun t m stage ht => ?_, hwaiters, fun t m ht => ?_, fun m => ?_, h.depth⟩
  · obtain ⟨hin, hplace⟩ := hbusy t m stage ht
    refine ⟨hin, ?_, hplace⟩
    dsimp only
    rw [hidle]
    exact (h.busy t m stage ht).2.1
  · exact (h.old t m ht).trans_le hcreated
  · exact (h.held m).congr (congrFun hlocks m) rfl (fun _ => rfl) fun _ => rfl

end Ylos.Sched
