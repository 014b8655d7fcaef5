import Ylos.Verification.Task.Family

/-! # What other calls leave alone

A call of the scheduler changes no lock and no list of waiters, and a task that it is not
about stays where it is or becomes ready. -/

namespace Ylos.Sched

open Exec

variable {s s' s'' : State} {t u p next i m : ℕ} {l : ListId} {state : TaskState}
  {answer : Option (ℕ × ℤ)} {call : Call}

/-- Task `t` can run. -/
def Active (s : State) (t : ℕ) : Prop :=
  (s.tasks t).node = none ∧ ((s.tasks t).state = .ready ∨ (s.tasks t).state = .running)

/-- Task `t` can run afterwards, or its state and its node are what they were. -/
def Like (s s' : State) (t : ℕ) : Prop :=
  Active s' t ∨ ((s'.tasks t).node = (s.tasks t).node ∧ (s'.tasks t).state = (s.tasks t).state)

theorem Like.refl (s : State) (t : ℕ) : Like s s t := .inr ⟨rfl, rfl⟩

theorem Like.trans (h : Like s s' t) (h' : Like s' s'' t) : Like s s'' t := by
  rcases h' with hactive | ⟨hnode, hstate⟩
  · exact .inl hactive
  · rcases h with hactive | ⟨hnode', hstate'⟩
    · left
      unfold Active at hactive ⊢
      rw [hnode, hstate]
      exact hactive
    · exact .inr ⟨hnode.trans hnode', hstate.trans hstate'⟩

theorem Like.active (h : Like s s' t) (hactive : Active s t) : Active s' t := by
  rcases h with h | ⟨hnode, hstate⟩
  · exact h
  · unfold Active at hactive ⊢
    rw [hnode, hstate]
    exact hactive

/-! ## Changes of the state -/

/-- The task that gets the processor is linked nowhere. -/
theorem Like.switchTo (h : Linked s) (hnext : Next s next) (ht : InTable s t) :
    Like s (s.switchTo next) t := by
  unfold Like Active
  rw [State.switchTo_tasks]
  dsimp only
  by_cases hnode : (s.tasks t).node = none
  · by_cases heq : t = next
    · rw [if_pos heq]
      exact .inl ⟨hnode, .inr rfl⟩
    · rw [if_neg heq]
      split
      · exact .inl ⟨hnode, .inl rfl⟩
      · exact .inr ⟨rfl, rfl⟩
  · have hwaits := h.waits t ht
    rw [Option.isSome_iff_ne_none.mpr hnode] at hwaits
    have hne : t ≠ next := by
      rintro rfl
      rcases hnext with rfl | hnext
      · exact h.idle_ne_of_waits hwaits.symm rfl
      · rw [hnext.1] at hwaits
        cases hwaits
    rw [if_neg hne, if_neg]
    · exact .inr ⟨rfl, rfl⟩
    · rintro ⟨-, hrunning⟩
      rw [hrunning] at hwaits
      cases hwaits

theorem Like.link {ts : List ℕ} (hne : t ≠ u) : Like s (s.link u l ts state) t := by
  right
  rw [State.link_tasks, if_neg hne]
  exact ⟨rfl, rfl⟩

theorem Like.unlink (s : State) (u : ℕ) (l : ListId) (t : ℕ) : Like s (s.unlink u l) t := by
  unfold Like Active
  rw [State.unlink_tasks]
  split
  · exact .inl ⟨rfl, .inl rfl⟩
  · exact .inr ⟨rfl, rfl⟩

theorem Like.setTask {v : Task} (hnode : v.node = (s.tasks u).node)
    (hstate : v.state = (s.tasks u).state) : Like s (s.setTask u v) t := by
  right
  rw [State.setTask_apply]
  split
  · rename_i heq
    rw [heq]
    exact ⟨hnode, hstate⟩
  · exact ⟨rfl, rfl⟩

theorem Like.wakeup (s : State) (t : ℕ) : Like s s.wakeup t := by
  unfold Like Active State.wakeup
  rw [foldl_wakeOne_tasks]
  split
  · exact .inl ⟨rfl, .inl rfl⟩
  · exact .inr ⟨rfl, rfl⟩

theorem Like.tick (s : State) (t : ℕ) : Like s s.tick t := by
  have hcounters : Like { s with jiffies := (s.jiffies + 1) % 2 ^ 32 } s.tick t :=
    Like.setTask rfl rfl
  exact hcounters

theorem Like.handOver {status : ℤ} (hne : t ≠ s.current) :
    Like s (s.bury status).handOver t := by
  have htask := handOver_task s status t
  refine .inr ⟨htask.2.2.1, ?_⟩
  rw [htask.2.2.2.1, if_neg hne]

/-! ## Calls -/

/-- The call is not made by task `t`: it is made by another, or it is an interrupt. -/
def Apart (s : State) (call : Call) (t : ℕ) : Prop :=
  t ≠ s.current ∨ call = .clock ∨ ∃ u, call = .unblock u

theorem Effect.like (h : Sound s) (hpossible : call.Possible s)
    (heffect : Effect s call answer s') (hapart : Apart s call t) (ht : InTable s t) :
    Like s s' t := by
  have hnew : t ≠ s.created := by
    obtain ⟨i, hi⟩ := ht
    exact Nat.ne_of_lt (h.table_lt i t hi).2
  have hother : call ≠ .clock → (∀ u, call ≠ .unblock u) → t ≠ s.current := by
    intro hclock hunblock
    rcases hapart with hne | heq | ⟨u, heq⟩
    · exact hne
    · exact absurd heq hclock
    · exact absurd heq (hunblock u)
  cases heffect with
  | create | fork =>
      right
      rw [show (s.occupy _ _).tasks t = s.tasks t from if_neg hnew]
      exact ⟨rfl, rfl⟩
  | yield hnext => exact Like.switchTo h.toLinked hnext ht
  | @block l state next hnext =>
      have hstate : state.waits = true := by
        rcases hpossible.2.2 with rfl | rfl | rfl <;> rfl
      have hlinked := h.toConsistent.link hpossible.1 (List.Perm.refl (s.current :: s.lists l))
        hstate
      exact (Like.link (hother nofun nofun)).trans (Like.switchTo hlinked hnext ht)
  | unblock => exact Like.unlink s _ _ t
  | @sleep ms next hnext =>
      have hcounter : Sound (s.setDeadline (ms / JIFFY)) := h.setCounters rfl rfl rfl rfl
      have hdeadline : Like s (s.setDeadline (ms / JIFFY)) t := Like.setTask rfl rfl
      have hlinked : Linked ((s.setDeadline (ms / JIFFY)).linkSleeper s.current) :=
        hcounter.toConsistent.link hpossible.1 (perm_insertSort _ _ _) rfl
      exact hdeadline.trans ((Like.link (hother nofun nofun)).trans
        (Like.switchTo hlinked hnext ht))
  | tick => exact (Like.wakeup s t).trans (Like.tick _ t)
  | refill _ hnext =>
      have hrefill : Sound s.wakeup.tick.refill := h.wakeup.tick.setCounters rfl rfl rfl rfl
      have hcounter : Like s.wakeup.tick s.wakeup.tick.refill t := Like.setTask rfl rfl
      have htable : InTable s.wakeup.tick.refill t := by
        obtain ⟨i, hi⟩ := ht
        exact ⟨i, (congrFun (foldl_wakeOne_same s _).2.2.2.1 i).trans hi⟩
      exact (Like.wakeup s t).trans ((Like.tick _ t).trans
        (hcounter.trans (Like.switchTo hrefill.toLinked hnext htable)))
  | reap | childless => exact Like.refl s t
  | @wait pid next _ hnext =>
      have hcounter : Sound (s.setWaitpid pid) := h.setCounters rfl rfl rfl rfl
      have hwaitpid : Like s (s.setWaitpid pid) t := Like.setTask rfl rfl
      have hlinked := hcounter.toConsistent.link (l := .block) hpossible
        (List.Perm.refl (s.current :: s.lists .block))
        (show TaskState.waiting.waits = true from rfl)
      exact hwaitpid.trans ((Like.link (hother nofun nofun)).trans
        (Like.switchTo hlinked hnext ht))
  | @exitAwaited status p next l hparent _ hnode hnext =>
      have hin := inTable_handOver s status
      have hlinked := (h.bury hpossible status).handOver.unlink hnode ((hin p).mpr ⟨_, hparent⟩)
      have hfinish : Like ((s.bury status).handOver.unlink p l)
          ((s.bury status).handOver.unlink p l).finish t := Like.setTask rfl rfl
      exact (Like.handOver (hother nofun nofun)).trans ((Like.unlink _ p l t).trans
        (hfinish.trans (Like.switchTo hlinked.finish hnext ((hin t).mpr ht))))
  | @exit status p next _ _ hnext =>
      have hin := inTable_handOver s status
      have hfinish : Like (s.bury status).handOver (s.bury status).handOver.finish t :=
        Like.setTask rfl rfl
      exact (Like.handOver (hother nofun nofun)).trans (hfinish.trans
        (Like.switchTo (h.bury hpossible status).handOver.finish hnext ((hin t).mpr ht)))

/-- Only the dead leave the table. -/
theorem Effect.inTable_alive (heffect : Effect s call answer s')
    (ht : InTable s t) (halive : (s.tasks t).state ≠ .died) : InTable s' t := by
  obtain ⟨k, hk⟩ := ht
  cases heffect with
  | create _ hfree | fork _ hfree =>
      refine ⟨k, (if_neg ?_).trans hk⟩
      rintro rfl
      rw [hfree] at hk
      cases hk
  | tick | refill => exact ⟨k, (congrFun (foldl_wakeOne_same s _).2.2.2.1 k).trans hk⟩
  | @reap pid i c hscan hc =>
      obtain ⟨-, -, d, hd, -, hdied⟩ := scan_inl hscan
      refine ⟨k, (if_neg ?_).trans hk⟩
      rintro rfl
      rw [hk] at hd
      cases hd
      exact halive hdied
  | exitAwaited | exit => exact ⟨k, (congrFun (handOver_table s _) k).trans hk⟩
  | _ => exact ⟨k, hk⟩

theorem foldl_wakeOne_frame (s : State) (ts : List ℕ) :
    (ts.foldl State.wakeOne s).locks = s.locks ∧
      ∀ l, l ≠ .sleep → (ts.foldl State.wakeOne s).lists l = s.lists l := by
  induction ts generalizing s with
  | nil => exact ⟨rfl, fun _ _ => rfl⟩
  | cons t ts ih =>
      obtain ⟨hlocks, hlists⟩ := ih (s.wakeOne t)
      exact ⟨hlocks, fun l hl => (hlists l hl).trans (if_neg hl)⟩

theorem Effect.locks (heffect : Effect s call answer s') : s'.locks = s.locks := by
  have hover : ∀ status, (s.bury status).handOver.locks = s.locks := by
    intro status
    rw [handOver_same]
  cases heffect with
  | tick | refill => exact (foldl_wakeOne_frame s _).1
  | exitAwaited | exit => exact hover _
  | _ => rfl

/-- The waiters of a mutex stay in its list, if they are blocked and the call is not about
them. -/
theorem Effect.waiters (h : Sound s) (hpossible : call.Possible s)
    (heffect : Effect s call answer s')
    (hblocked : ∀ t ∈ s.lists (.waiters m), (s.tasks t).state = .blocked)
    (hblock : ∀ state, call ≠ .block (.waiters m) state)
    (hunblock : ∀ t, call = .unblock t → t ∉ s.lists (.waiters m)) :
    s'.lists (.waiters m) = s.lists (.waiters m) := by
  have hover : ∀ status, (s.bury status).handOver.lists = s.lists := by
    intro status
    rw [handOver_same]
  cases heffect with
  | @block l state next =>
      refine if_neg ?_
      rintro rfl
      exact hblock state rfl
  | @unblock t l hnode =>
      obtain ⟨k, hk⟩ := hpossible
      refine if_neg ?_
      rintro rfl
      exact hunblock t rfl ((h.listed _ t).mpr ⟨((h.listed k t).mp hk).1, hnode⟩)
  | tick | refill => exact (foldl_wakeOne_frame s _).2 _ nofun
  | @exitAwaited status p next l hparent hawaited hnode =>
      have htask := handOver_task s status p
      have hl : ListId.waiters m ≠ l := by
        rintro rfl
        rw [htask.2.2.1] at hnode
        have hmem := (h.listed _ p).mpr ⟨⟨_, hparent⟩, hnode⟩
        have hwaiting := hawaited.1
        rw [htask.2.2.2.1, hblocked p hmem] at hwaiting
        split at hwaiting
        · cases hwaiting
        · cases hwaiting
      change (if ListId.waiters m = l then _ else (s.bury status).handOver.lists _) = _
      rw [if_neg hl, hover]
  | exit => exact congrFun (hover _) _
  | _ => rfl

end Ylos.Sched
