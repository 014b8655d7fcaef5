import Ylos.Lib.Scan
import Ylos.Verification.Task.Scheduler
import Mathlib.Data.List.Pairwise

/-! # The task that `task_search` prefers -/

namespace Ylos.Sched

open Exec Scan

variable {s s' : State} {state : TaskState} {t p i j k : ℕ}

/-! ## The scan over the table -/

/-- Another task in the state looked for stands in slot `i`. -/
def Candidate (s : State) (state : TaskState) (i t : ℕ) : Prop :=
  i < NR_TASKS ∧ s.table i = some t ∧ (s.tasks t).state = state ∧ s.current ≠ t

/-- The task of a slot that is in use. -/
def taskOf (s : State) (i : ℕ) : ℕ := (s.table i).getD 0

/-- The test by which `task_search` replaces `b` by `q`. -/
def Beats (s : State) (q b : ℕ) : Prop :=
  (s.tasks b).ticks < (s.tasks q).ticks ∨ (s.tasks q).jiffies < (s.tasks b).jiffies

/-- More ticks left and a last run longer ago. -/
def Dominates (s : State) (p t : ℕ) : Prop :=
  (s.tasks t).ticks < (s.tasks p).ticks ∧ (s.tasks p).jiffies < (s.tasks t).jiffies

/-- The test, on slots. -/
def SlotBeats (s : State) (j i : ℕ) : Prop := Beats s (taskOf s j) (taskOf s i)

instance : DecidableRel (SlotBeats s) := fun _ _ => inferInstanceAs (Decidable (_ ∨ _))

/-- The tests of `task_search` that pass over a slot. -/
def isCandidate (s : State) (state : TaskState) (i : ℕ) : Bool :=
  match s.table i with
  | none => false
  | some t => (s.tasks t).state = state ∧ s.current ≠ t

/-- The slots that `task_search` looks at, in order. -/
def slots (s : State) (state : TaskState) : List ℕ :=
  (List.range NR_TASKS).filter (isCandidate s state)

theorem mem_slots : i ∈ slots s state ↔ Candidate s state i (taskOf s i) := by
  unfold slots Candidate taskOf isCandidate
  rw [List.mem_filter, List.mem_range]
  cases s.table i <;> simp

theorem Candidate.taskOf_eq (h : Candidate s state i t) : taskOf s i = t := by
  unfold taskOf
  rw [h.2.1]
  rfl

theorem Candidate.mem (h : Candidate s state i t) : i ∈ slots s state := by
  rw [mem_slots, h.taskOf_eq]
  exact h

theorem slots_increasing (s : State) (state : TaskState) : (slots s state).Pairwise (· < ·) :=
  List.pairwise_lt_range.filter _

/-- The loop keeps one slot. -/
theorem searchStep_map (best : Option ℕ) (i : ℕ) :
    searchStep s state (best.map (taskOf s)) i =
      (if isCandidate s state i then keep (SlotBeats s) best i else best).map (taskOf s) := by
  unfold searchStep isCandidate
  cases htable : s.table i with
  | none => simp
  | some t =>
      have htask : taskOf s i = t := by simp [taskOf, htable]
      by_cases hstate : (s.tasks t).state = state
      · by_cases hcurrent : s.current = t
        · simp [hcurrent]
        · cases best with
          | none => simp [hstate, hcurrent, keep, htask]
          | some b =>
              by_cases hbeats : SlotBeats s i b
              · have hbeats' := hbeats
                unfold SlotBeats Beats at hbeats'
                rw [htask] at hbeats'
                simp [hstate, hcurrent, hbeats, hbeats', htask]
              · have hbeats' := hbeats
                unfold SlotBeats Beats at hbeats'
                rw [htask] at hbeats'
                simp only [Option.map_some, hstate, hcurrent, hbeats, hbeats', keep_some]
                simp
      · simp [hstate]

theorem foldl_searchStep (s : State) (state : TaskState) :
    (List.range NR_TASKS).foldl (searchStep s state) none =
      ((slots s state).foldl (keep (SlotBeats s)) none).map (taskOf s) := by
  unfold slots
  rw [List.foldl_filter]
  change List.foldl _ (Option.map (taskOf s) none) _ = _
  exact List.foldl_hom _ searchStep_map

/-! ## Domination -/

/-- What beats a task that another does not beat, beats the other. -/
theorem SlotBeats.trans (p b q : ℕ) (hp : ¬SlotBeats s p b) (hq : SlotBeats s q b) :
    SlotBeats s q p := by
  unfold SlotBeats Beats at *
  omega

theorem Dominates.beats (h : Dominates s p t) : Beats s p t := .inl h.1

theorem Dominates.not_beats (h : Dominates s p t) : ¬Beats s t p := by
  unfold Dominates at h
  unfold Beats
  omega

/-- A ready task that dominates the chosen one stands before it, and a task between the two beats
it. -/
theorem taskSearch_dominated {l : List Empty} (h : (taskSearch .ready).run s = .ok (some t, s', l))
    (hp : Candidate s .ready i p) (hdom : Dominates s p t) :
    ∃ j k q, i < j ∧ j < k ∧ Candidate s .ready j q ∧ Candidate s .ready k t ∧ Beats s q p := by
  unfold taskSearch at h
  rw [run_bind _ (run_get s), foldl_searchStep] at h
  cases hfold : (slots s .ready).foldl (keep (SlotBeats s)) none with
  | none =>
      have hslots : slots s .ready = [] := foldl_keep_eq_none.mp hfold
      have hi := hp.mem
      simp [hslots] at hi
  | some k =>
      rw [hfold] at h
      obtain rfl : taskOf s k = t := by
        cases h
        rfl
      obtain ⟨before, after, hkept⟩ := exists_kept SlotBeats.trans hfold
      have hk : Candidate s .ready k (taskOf s k) := mem_slots.mp (by simp [hkept.split])
      have hi := hp.mem
      rw [hkept.split] at hi
      rcases List.mem_append.mp hi with hbefore | hrest
      · obtain ⟨pre, post, hsplit⟩ := List.append_of_mem hbefore
        rcases hkept.earlier pre i post hsplit with hbeats | ⟨j, hj, hbeats⟩
        · unfold SlotBeats at hbeats
          rw [hp.taskOf_eq] at hbeats
          exact absurd hbeats hdom.not_beats
        · have horder := slots_increasing s .ready
          rw [hkept.split, hsplit, List.append_assoc, List.cons_append] at horder
          have hrow := (List.pairwise_append.mp horder).2.1
          have hij : i < j := (List.pairwise_cons.mp hrow).1 j (by simp [hj])
          have hjk : j < k :=
            (List.pairwise_append.mp (List.pairwise_cons.mp hrow).2).2.2 j hj k (by simp)
          unfold SlotBeats at hbeats
          rw [hp.taskOf_eq] at hbeats
          exact ⟨j, k, taskOf s j, hij, hjk,
            mem_slots.mp (by simp [hkept.split, hsplit, hj]), hk, hbeats⟩
      · rcases List.mem_cons.mp hrest with rfl | hafter
        · rw [← hp.taskOf_eq] at hdom
          exact absurd hdom.1 (Int.lt_irrefl _)
        · have hnot := hkept.later i hafter
          unfold SlotBeats at hnot
          rw [hp.taskOf_eq] at hnot
          exact absurd hdom.beats hnot

/-! ## A dominated task -/

/-- Task 3 runs, and the others are ready: 0 with 5 ticks left and a last run at 5, 1 with 1 and 1,
and 2 with 2 and 10. -/
def crossed : State :=
  { booted with
    tasks := fun t =>
      if t = 0 then ⟨.ready, none, 5, 5, 5, 0, 0, 0, 0, .run, false⟩
      else if t = 1 then ⟨.ready, none, 5, 1, 1, 1, 0, 0, 0, .run, false⟩
      else if t = 2 then ⟨.ready, none, 5, 2, 10, 2, 0, 0, 0, .run, false⟩
      else ⟨.running, none, 5, 5, 11, 3, 0, 0, 0, .run, false⟩
    created := 4
    table := fun i => if i < 4 then some i else none
    current := 3 }

theorem run_taskSearch_crossed : (taskSearch .ready).run crossed = .ok (some 2, crossed, []) := by
  have hfold : (List.range NR_TASKS).foldl (searchStep crossed .ready) none = some 2 := by decide
  unfold taskSearch
  rw [run_bind _ (run_get crossed), hfold]
  rfl

theorem candidate_crossed : Candidate crossed .ready 0 0 := ⟨by decide, rfl, rfl, by decide⟩

theorem dominates_crossed : Dominates crossed 0 2 := ⟨by decide, by decide⟩

theorem taskSearch_dominated_crossed : ∃ j k q, 0 < j ∧ j < k ∧ Candidate crossed .ready j q ∧
    Candidate crossed .ready k 2 ∧ Beats crossed q 0 :=
  taskSearch_dominated run_taskSearch_crossed candidate_crossed dominates_crossed

theorem exists_dominated : ¬∀ s s' t l, (taskSearch .ready).run s = .ok (some t, s', l) →
    ∀ i p, Candidate s .ready i p → ¬Dominates s p t :=
  fun h => h _ _ _ _ run_taskSearch_crossed _ _ candidate_crossed dominates_crossed

end Ylos.Sched
