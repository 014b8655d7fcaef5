import Ylos.Lib.Runs
import Ylos.Verification.Mutex.Steps

/-! # Runs with locks

Mutual exclusion without lost wake-ups, in every run in which no task takes a lock 2^32
times. A task that does finds `repeat` at 0. -/

namespace Ylos.Sched

open Exec

variable {x x' x₀ : Sync} {l n : ℕ}

/-- Mutual exclusion without lost wake-ups. -/
structure Exclusive (x : Sync) : Prop where
  /-- At most one task has a mutex. -/
  one : ∀ l t u, Inside x t l → Inside x u l → t = u
  /-- Outside of the functions a lock says who has it, and how often. -/
  fields : ∀ l t, x.bare l = false → x.stageAt t l = none → 0 < x.depth t l →
    x.sched.locks l = ⟨true, some t, x.depth t l⟩
  holder : ∀ l t, (x.sched.locks l).holder = some t → Inside x t l
  free : ∀ l, (∀ t, ¬Inside x t l) → x.sched.locks l = ⟨false, none, 0⟩
  /-- No assertion fails. -/
  asserts : ∀ call, (∀ c, call ≠ .other c) → call.Possible x → ∃ x', x.next call = .ok x'
  /-- While a free mutex has waiters, a task that has been woken is about to try again. -/
  woken : ∀ l, (x.sched.locks l).value = false → x.sched.lists (.waiters l) ≠ [] →
    ∃ t, x.stage t = some (l, .locking) ∧ InTable x.sched t ∧ Active x.sched t

/-- The scheduler has started, and nobody has used a mutex yet. -/
structure Unused (x : Sync) : Prop extends Started x.sched where
  locks : ∀ l, x.sched.locks l = ⟨false, none, 0⟩
  stage : ∀ t, x.stage t = none
  depth : ∀ t l, x.depth t l = 0

theorem Unused.ordered (h : Unused x) : Ordered x := by
  have hlists : ∀ m, x.sched.lists m = [] := h.lists
  refine ⟨⟨h.toStarted.sound, fun t m stage ht => ?_, fun m t ht => ?_, fun t m ht => ?_,
    fun m => .inl ⟨h.locks m, fun t ht => ?_⟩, fun t m => ?_⟩, fun m _ hwaiters => ?_⟩
  · rw [h.stage] at ht
    cases ht
  · rw [hlists] at ht
    exact absurd ht List.not_mem_nil
  · rw [h.depth] at ht
    exact absurd ht (Nat.lt_irrefl 0)
  · rcases ht with ht | ⟨stage, ht, -⟩
    · rw [h.depth] at ht
      exact absurd ht (Nat.lt_irrefl 0)
    · rw [Sync.stageAt_none (h.stage t)] at ht
      cases ht
  · rw [h.depth]
    decide
  · exact absurd (hlists _) hwaiters

/-- Calling `lock_acquire` itself needs no room in `repeat`. -/
theorem next_acquire (x : Sync) (l : ℕ) : ∃ x', x.next (.enter .acquire l) = .ok x' := by
  by_cases hholder : (x.sched.locks l).holder = some x.sched.current
  · have hrun : (Entry.acquire.code x.sched.current l).run x.sched = .ok (.again, x.sched, []) := by
      unfold Entry.code
      rw [run_bind _ (run_gets _ x.sched), if_neg (not_not.mpr hholder)]
      rfl
    exact ⟨_, next_enter hrun⟩
  · have hrun : (Entry.acquire.code x.sched.current l).run x.sched =
        .ok (.locking, x.sched, []) := by
      unfold Entry.code
      rw [run_bind _ (run_gets _ x.sched), if_pos hholder]
      rfl
    exact ⟨_, next_enter hrun⟩

theorem Ordered.exclusive (h : Ordered x) : Exclusive x := by
  refine ⟨fun l t u ht hu => ?_, fun l t hbare hstage hdepth => ?_,
    fun l t => h.inside_of_holder, fun l hnone => ?_, fun call hother hpossible => ?_,
    fun l hfree hwaiters => ?_⟩
  · exact ((h.held l).of_inside hu).1 t ht
  · have htenure := ((h.held l).of_inside (.inl hdepth)).2
    rw [hstage] at htenure
    rcases htenure with htenure | htenure
    · rw [htenure.1] at hbare
      cases hbare
    · exact htenure.2.1
  · rcases h.held l with ⟨hlock, -⟩ | ⟨t, -, htenure⟩
    · exact hlock
    · exact absurd htenure.inside (hnone t)
  · cases call with
    | enter e l =>
        cases e with
        | acquire => exact next_acquire x l
        | release | lock | unlock =>
            obtain ⟨x', hnext, -⟩ := h.enter hpossible nofun
            exact ⟨x', hnext⟩
    | go =>
        obtain ⟨x', hnext, -⟩ := h.go hpossible
        exact ⟨x', hnext⟩
    | other c => exact absurd rfl (hother c)
  · obtain ⟨t, ht, hactive⟩ := h.woken l hfree hwaiters
    exact ⟨t, ht, (h.busy t l _ ht).1, hactive⟩

/-- While nobody takes a lock 2^32 times, the locks exclude and no waiter is forgotten. -/
theorem locks_exclude (h₀ : Unused x₀) (hrun : Run SyncStep Shallow x₀ x) : Exclusive x := by
  have h : Ordered x :=
    hrun.invariant (fun _ _ _ h hshallow hstep => h.step hshallow hstep) h₀.ordered
  exact h.exclusive

/-! ## A lock taken 2^32 times -/

/-- The sample tasks, with mutex 1 used without a lock. -/
def bootedSync : Sync where
  sched := booted
  stage _ := none
  bare l := l = 1
  depth _ _ := 0

theorem bootedSync_unused : Unused bootedSync where
  toStarted := booted_started
  locks _ := rfl
  stage _ := rfl
  depth _ _ := rfl

/-- The first task takes lock 0, and the test task waits for it. -/
theorem bootedSync_exclusive : ∃ x, Run SyncStep Shallow bootedSync x ∧
    x.sched.lists (.waiters 0) = [2] ∧ Exclusive x := by
  have hrun : ∃ x, Run SyncStep Shallow bootedSync x ∧ x.sched.lists (.waiters 0) = [2] := by
    refine ⟨_, Run.head (a := .enter .acquire 0) ?_ ⟨⟨rfl, by decide, rfl⟩, rfl⟩ <|
      Run.head (a := .go) nofun ⟨nofun, rfl⟩ <| Run.head (a := .go) nofun ⟨nofun, rfl⟩ <|
      Run.head (a := .go) nofun ⟨nofun, rfl⟩ <| Run.head (a := .go) nofun ⟨nofun, rfl⟩ <|
      Run.head (a := .other .yield) nofun ⟨⟨trivial, .inl rfl, nofun, nofun⟩, rfl⟩ <|
      Run.head (a := .enter .acquire 0) ?_ ⟨⟨rfl, by decide, rfl⟩, rfl⟩ <|
      Run.head (a := .go) nofun ⟨nofun, rfl⟩ Run.refl, rfl⟩
    · rintro l ⟨⟩
      decide
    · rintro l ⟨⟩
      decide
  obtain ⟨x, hrun, hwaiters⟩ := hrun
  exact ⟨x, hrun, hwaiters, locks_exclude bootedSync_unused hrun⟩

/-- The first task has lock 0 `n` times. -/
structure Nested (x : Sync) (n : ℕ) : Prop where
  current : x.sched.current = 1
  idle : x.sched.idle = 0
  bare : x.bare 0 = false
  stage : x.stage 1 = none
  lock : x.sched.locks 0 = ⟨true, some 1, n % 2 ^ 32⟩
  depth : x.depth 1 0 = n

/-- Another `lock_acquire` by the task that has the lock. -/
theorem Nested.again (h : Nested x n) (hrun : Run SyncStep (fun _ _ => True) x₀ x) :
    ∃ x', Run SyncStep (fun _ _ => True) x₀ x' ∧ Nested x' (n + 1) := by
  have hstage : x.stage x.sched.current = none := by
    rw [h.current]
    exact h.stage
  have henter : (Entry.acquire.code x.sched.current 0).run x.sched = .ok (.again, x.sched, []) := by
    have hholder : (x.sched.locks 0).holder = some x.sched.current := by rw [h.lock, h.current]
    unfold Entry.code
    rw [run_bind _ (run_gets _ x.sched), if_neg (not_not.mpr hholder)]
    rfl
  have hfirst : SyncStep x (.enter .acquire 0)
      (x.setStage x.sched.current (some (0, .again))) := by
    refine ⟨⟨hstage, ?_, h.bare⟩, next_enter henter⟩
    rw [h.current, h.idle]
    decide
  generalize hy : x.setStage x.sched.current (some (0, .again)) = y at hfirst
  have hsched : y.sched = x.sched := by rw [← hy]; rfl
  have hagain : y.stage y.sched.current = some (0, .again) := by
    rw [hsched, ← hy]
    exact if_pos rfl
  have hdepth : y.depth = x.depth := by rw [← hy]; rfl
  have hsecond : SyncStep y .go _ :=
    ⟨fun hnone => absurd (hagain.symm.trans hnone) nofun, next_go hagain rfl⟩
  refine ⟨_, (hrun.tail trivial hfirst).tail trivial hsecond, ?_⟩
  have hcurrent : y.sched.current = 1 := by rw [hsched, h.current]
  refine ⟨hcurrent, ?_, ?_, ?_, ?_, ?_⟩
  · change y.sched.idle = 0
    rw [hsched, h.idle]
  · change y.bare 0 = false
    rw [← hy]
    exact h.bare
  · dsimp only
    rw [advance_stage, hcurrent, if_pos rfl]
    rfl
  · change (y.sched.setLock 0 _).locks 0 = _
    rw [setLock_self, hsched, h.lock]
    dsimp only
    rw [Nat.mod_add_mod]
  · dsimp only
    rw [advance_depth, hcurrent, if_pos ⟨rfl, rfl⟩, Sync.depthAfter, hcurrent, hdepth, h.depth]
    rfl

theorem exists_nested (n : ℕ) :
    ∃ x, Run SyncStep (fun _ _ => True) bootedSync x ∧ Nested x (n + 1) := by
  induction n with
  | zero =>
      refine ⟨_, Run.head (a := .enter .acquire 0) trivial ⟨⟨rfl, by decide, rfl⟩, rfl⟩ <|
        Run.head (a := .go) trivial ⟨nofun, rfl⟩ <| Run.head (a := .go) trivial ⟨nofun, rfl⟩ <|
        Run.head (a := .go) trivial ⟨nofun, rfl⟩ <| Run.head (a := .go) trivial ⟨nofun, rfl⟩ <|
        Run.refl, rfl, rfl, rfl, rfl, rfl, rfl⟩
  | succ n ih =>
      obtain ⟨x, hrun, hnested⟩ := ih
      exact hnested.again hrun

/-- After 2^32 calls of `lock_acquire` the lock says that it is taken no time at all. -/
theorem exists_wrapped_lock : ∃ x₀ x, Unused x₀ ∧ Run SyncStep (fun _ _ => True) x₀ x ∧
    ¬Exclusive x := by
  obtain ⟨x, hrun, hnested⟩ := exists_nested (2 ^ 32 - 1)
  refine ⟨bootedSync, x, bootedSync_unused, hrun, fun hexclusive => ?_⟩
  have hfields := hexclusive.fields 0 1 hnested.bare (Sync.stageAt_none hnested.stage) (by
    rw [hnested.depth]
    decide)
  rw [hnested.lock, hnested.depth] at hfields
  exact absurd (congrArg Lock.repeats hfields) (by decide)

end Ylos.Sched
