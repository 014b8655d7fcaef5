import Ylos.Verification.Task.Calls

/-! # The states of the tasks

One task runs, and the waiting tasks are the linked ones. Every task but the idle task
has a living parent that was created before it. -/

namespace Ylos.Sched

open Exec

/-- The states of a task that waits in a list. -/
def TaskState.waits : TaskState → Bool
  | .blocked | .sleeping | .waiting => true
  | _ => false

/-- What holds whenever `schedule` is called. -/
structure Linked (s : State) : Prop where
  table_lt : ∀ i t, s.table i = some t → i < NR_TASKS ∧ t < s.created
  pid : ∀ i t, s.table i = some t → (s.tasks t).pid = i
  idle : s.table 0 = some s.idle
  idle_state : (s.tasks s.idle).state = .running ∨ (s.tasks s.idle).state = .ready
  current : InTable s s.current
  alone : ∀ t, InTable s t → (s.tasks t).state = .running → t = s.current
  waits : ∀ t, InTable s t → (s.tasks t).node.isSome = (s.tasks t).state.waits
  listed : ∀ l t, t ∈ s.lists l ↔ InTable s t ∧ (s.tasks t).node = some l
  nodup : ∀ l, (s.lists l).Nodup

/-- What holds between two calls. -/
structure Consistent (s : State) : Prop extends Linked s where
  running : (s.tasks s.current).state = .running

/-- The parents are alive, and older than their children. -/
structure Lineage (s : State) : Prop where
  orphan : (s.tasks s.idle).ppid = 0
  init : ∃ t, s.table 1 = some t ∧ (s.tasks t).ppid = 0
  parent : ∀ t, InTable s t → t ≠ s.idle → ∃ p, s.table (s.tasks t).ppid = some p ∧
    (s.tasks p).state ≠ .died ∧ p < t

structure Sound (s : State) : Prop extends Consistent s, Lineage s

variable {s s' : State} {t u next i : ℕ} {l : ListId} {state : TaskState} {ts : List ℕ}

/-! ## Tasks in one slot and one list -/

theorem Linked.inTable_idle (h : Linked s) : InTable s s.idle := ⟨0, h.idle⟩

theorem Linked.slot (h : Linked s) (ht : InTable s t) : s.table (s.tasks t).pid = some t := by
  obtain ⟨i, hi⟩ := ht
  rw [h.pid i t hi]
  exact hi

theorem Linked.node_eq_none (h : Linked s) (ht : InTable s t)
    (hstate : (s.tasks t).state.waits = false) : (s.tasks t).node = none := by
  have hwaits := h.waits t ht
  rw [hstate] at hwaits
  simpa using hwaits

theorem Linked.node_of_waits (h : Linked s) (ht : InTable s t)
    (hstate : (s.tasks t).state.waits = true) : ∃ l, (s.tasks t).node = some l := by
  have hwaits := h.waits t ht
  rw [hstate] at hwaits
  exact Option.isSome_iff_exists.mp hwaits

theorem Linked.idle_ne_of_waits (h : Linked s) (hstate : (s.tasks t).state.waits = true) :
    t ≠ s.idle := by
  rintro rfl
  rcases h.idle_state with hidle | hidle
  · rw [hidle] at hstate
    cases hstate
  · rw [hidle] at hstate
    cases hstate

theorem Linked.not_listed (h : Linked s) (hnode : (s.tasks t).node = none) :
    t ∉ s.lists l := fun ht => by
  rw [((h.listed l t).mp ht).2] at hnode
  cases hnode

theorem Consistent.node_current (h : Consistent s) : (s.tasks s.current).node = none :=
  h.node_eq_none h.current (by rw [h.running]; rfl)

theorem Consistent.ne_current (h : Consistent s) (hnode : (s.tasks t).node = some l) :
    t ≠ s.current := by
  rintro rfl
  rw [h.node_current] at hnode
  cases hnode

/-! ## Changes that keep the lists -/

/-- Only counters and parents change. -/
theorem Linked.congr (h : Linked s) (htable : s'.table = s.table) (hlists : s'.lists = s.lists)
    (hcurrent : s'.current = s.current) (hidle : s'.idle = s.idle)
    (hcreated : s'.created = s.created)
    (htasks : ∀ t, (s'.tasks t).state = (s.tasks t).state ∧
      (s'.tasks t).node = (s.tasks t).node ∧ (s'.tasks t).pid = (s.tasks t).pid) :
    Linked s' := by
  have hin : ∀ t, InTable s' t ↔ InTable s t := by
    intro t
    unfold InTable
    rw [htable]
  refine ⟨?_, ?_, ?_, ?_, ?_, ?_, ?_, ?_, ?_⟩
  · rw [htable, hcreated]
    exact h.table_lt
  · rw [htable]
    intro i t hi
    rw [(htasks t).2.2]
    exact h.pid i t hi
  · rw [htable, hidle]
    exact h.idle
  · rw [hidle, (htasks _).1]
    exact h.idle_state
  · rw [hin, hcurrent]
    exact h.current
  · intro t ht hstate
    rw [hcurrent]
    exact h.alone t ((hin t).mp ht) (by rwa [← (htasks t).1])
  · intro t ht
    rw [(htasks t).1, (htasks t).2.1]
    exact h.waits t ((hin t).mp ht)
  · intro l t
    rw [hlists, hin, (htasks t).2.1]
    exact h.listed l t
  · rw [hlists]
    exact h.nodup

theorem Consistent.congr (h : Consistent s) (htable : s'.table = s.table)
    (hlists : s'.lists = s.lists) (hcurrent : s'.current = s.current) (hidle : s'.idle = s.idle)
    (hcreated : s'.created = s.created)
    (htasks : ∀ t, (s'.tasks t).state = (s.tasks t).state ∧
      (s'.tasks t).node = (s.tasks t).node ∧ (s'.tasks t).pid = (s.tasks t).pid) :
    Consistent s' :=
  ⟨h.toLinked.congr htable hlists hcurrent hidle hcreated htasks, by
    rw [hcurrent, (htasks _).1]
    exact h.running⟩

/-- The parents and who is dead stay what they are. -/
theorem Lineage.congr (h : Lineage s) (htable : s'.table = s.table) (hidle : s'.idle = s.idle)
    (hppid : ∀ t, (s'.tasks t).ppid = (s.tasks t).ppid)
    (hdied : ∀ t, InTable s t → (s'.tasks t).state = .died → (s.tasks t).state = .died) :
    Lineage s' := by
  refine ⟨?_, ?_, ?_⟩
  · rw [hidle, hppid]
    exact h.orphan
  · obtain ⟨t, ht, hzero⟩ := h.init
    exact ⟨t, by rwa [htable], by rwa [hppid]⟩
  · intro t ht hne
    rw [hidle] at hne
    obtain ⟨i, hi⟩ := ht
    obtain ⟨p, hp, halive, hlt⟩ := h.parent t ⟨i, by rwa [htable] at hi⟩ hne
    refine ⟨p, by rwa [htable, hppid], fun hdead => halive (hdied p ⟨_, hp⟩ hdead), hlt⟩

/-! ## The scheduler -/

/-- The task that gets the processor runs, and no other. -/
theorem Linked.switchTo (h : Linked s) (hnext : Next s next) : Consistent (s.switchTo next) := by
  have hin : InTable s next := by
    rcases hnext with rfl | hnext
    · exact h.inTable_idle
    · exact hnext.2.1
  have hwaits : (s.tasks next).state.waits = false := by
    rcases hnext with rfl | hnext
    · rcases h.idle_state with hidle | hidle
      · rw [hidle]
        rfl
      · rw [hidle]
        rfl
    · rw [hnext.1]
      rfl
  refine ⟨⟨h.table_lt, fun i t hi => h.pid i t hi, h.idle, ?_, hin, ?_, ?_, ?_, h.nodup⟩, ?_⟩
  · rw [State.switchTo_tasks, show (s.switchTo next).idle = s.idle from rfl]
    dsimp only
    by_cases hidle : s.idle = next
    · exact .inl (if_pos hidle)
    · rw [if_neg hidle]
      by_cases hrun : s.idle = s.current ∧ (s.tasks s.idle).state = .running
      · exact .inr (if_pos hrun)
      · rw [if_neg hrun]
        exact h.idle_state
  · intro t ht hstate
    rw [State.switchTo_tasks] at hstate
    dsimp only at hstate
    split at hstate
    · assumption
    · split at hstate
      · cases hstate
      · rename_i hno
        exact absurd ⟨h.alone t ht hstate, hstate⟩ hno
  · intro t ht
    rw [State.switchTo_tasks]
    dsimp only
    split
    · rename_i heq
      rw [heq, h.waits next hin, hwaits]
      rfl
    · split
      · rename_i hrunning
        rw [h.waits t ht, hrunning.2]
        rfl
      · exact h.waits t ht
  · intro l t
    exact h.listed l t
  · rw [State.switchTo_tasks]
    exact if_pos rfl

theorem Lineage.switchTo (h : Lineage s) (next : ℕ) : Lineage (s.switchTo next) := by
  refine h.congr rfl rfl (fun _ => rfl) fun t _ hdead => ?_
  rw [State.switchTo_tasks] at hdead
  dsimp only at hdead
  split at hdead
  · cases hdead
  · split at hdead
    · cases hdead
    · exact hdead

/-! ## Lists -/

/-- The running task goes into a list. -/
theorem Consistent.link (h : Consistent s) (hidle : s.current ≠ s.idle)
    (hperm : ts.Perm (s.current :: s.lists l)) (hstate : state.waits = true) :
    Linked (s.link s.current l ts state) := by
  have hnode := h.node_current
  have hnew : ∀ k, s.current ∉ s.lists k := fun k => h.not_listed hnode
  have hrunning : state ≠ .running := by
    rintro rfl
    cases hstate
  refine ⟨h.table_lt, ?_, h.idle, ?_, h.current, ?_, ?_, ?_, ?_⟩
  · intro i t hi
    rw [State.link_tasks]
    split
    · rename_i heq
      rw [← heq]
      exact h.pid i t hi
    · exact h.pid i t hi
  · rw [State.link_tasks, if_neg (show (s.link s.current l ts state).idle ≠ s.current from
      Ne.symm hidle)]
    exact h.idle_state
  · intro t ht hrun
    rw [State.link_tasks] at hrun
    split at hrun
    · exact absurd hrun hrunning
    · exact h.alone t ht hrun
  · intro t ht
    rw [State.link_tasks]
    split
    · exact hstate.symm
    · exact h.waits t ht
  · intro k t
    have hlisted : t ∈ s.lists k ↔ InTable s t ∧ (s.tasks t).node = some k := h.listed k t
    change t ∈ (s.link s.current l ts state).lists k ↔ InTable s t ∧ _
    rw [State.link_lists, State.link_tasks]
    by_cases ht : t = s.current
    · subst ht
      rw [if_pos rfl]
      by_cases hk : k = l
      · simp [hk, hperm.mem_iff, h.current]
      · simp [hk, hnew k, Ne.symm hk]
    · rw [if_neg ht]
      by_cases hk : k = l
      · subst hk
        rw [if_pos rfl, hperm.mem_iff, List.mem_cons, hlisted]
        simp [ht]
      · rw [if_neg hk]
        exact hlisted
  · intro k
    rw [State.link_lists]
    split
    · exact (hperm.nodup_iff).mpr (List.nodup_cons.mpr ⟨hnew l, h.nodup l⟩)
    · exact h.nodup k

theorem Lineage.link (h : Lineage s) (hstate : state.waits = true) :
    Lineage (s.link t l ts state) := by
  refine h.congr rfl rfl (fun u => ?_) fun u _ hdead => ?_
  · rw [State.link_tasks]
    split
    · rename_i heq
      rw [heq]
    · rfl
  · rw [State.link_tasks] at hdead
    split at hdead
    · rw [show state = .died from hdead] at hstate
      cases hstate
    · exact hdead

/-- A linked task comes out of its list. -/
theorem Linked.unlink (h : Linked s) (hnode : (s.tasks t).node = some l) (ht : InTable s t) :
    Linked (s.unlink t l) := by
  have hwaits : (s.tasks t).state.waits = true := by
    rw [← h.waits t ht, hnode]
    rfl
  have hidle : s.idle ≠ t := (h.idle_ne_of_waits hwaits).symm
  refine ⟨h.table_lt, ?_, h.idle, ?_, h.current, ?_, ?_, ?_, ?_⟩
  · intro i u hi
    rw [State.unlink_tasks]
    split
    · rename_i heq
      rw [← heq]
      exact h.pid i u hi
    · exact h.pid i u hi
  · rw [State.unlink_tasks, if_neg (show (s.unlink t l).idle ≠ t from hidle)]
    exact h.idle_state
  · intro u hu hrun
    rw [State.unlink_tasks] at hrun
    split at hrun
    · cases hrun
    · exact h.alone u hu hrun
  · intro u hu
    rw [State.unlink_tasks]
    split
    · rfl
    · exact h.waits u hu
  · intro k u
    have hlisted : u ∈ s.lists k ↔ InTable s u ∧ (s.tasks u).node = some k := h.listed k u
    change u ∈ (s.unlink t l).lists k ↔ InTable s u ∧ _
    rw [State.unlink_lists, State.unlink_tasks]
    by_cases hut : u = t
    · subst hut
      rw [if_pos rfl]
      by_cases hk : k = l
      · simp [hk, (h.nodup l).mem_erase_iff]
      · simp [hk, hlisted, hnode, Ne.symm hk]
    · rw [if_neg hut]
      by_cases hk : k = l
      · subst hk
        rw [if_pos rfl, List.mem_erase_of_ne hut, hlisted]
      · rw [if_neg hk]
        exact hlisted
  · intro k
    rw [State.unlink_lists]
    split
    · exact (h.nodup l).erase t
    · exact h.nodup k

theorem Lineage.unlink (h : Lineage s) (t : ℕ) (l : ListId) : Lineage (s.unlink t l) := by
  refine h.congr rfl rfl (fun u => ?_) fun u _ hdead => ?_
  · rw [State.unlink_tasks]
    split
    · rename_i heq
      rw [heq]
    · rfl
  · rw [State.unlink_tasks] at hdead
    split at hdead
    · cases hdead
    · exact hdead

theorem Consistent.unlink (h : Consistent s) (hnode : (s.tasks t).node = some l)
    (ht : InTable s t) : Consistent (s.unlink t l) := by
  refine ⟨h.toLinked.unlink hnode ht, ?_⟩
  rw [State.unlink_tasks, if_neg (show (s.unlink t l).current ≠ t from (h.ne_current hnode).symm)]
  exact h.running

/-! ## Slots of the table -/

/-- A ready task goes into a free slot. -/
theorem Consistent.occupy {v : Task} (h : Consistent s) (hi : i < NR_TASKS)
    (hfree : s.table i = none) (hready : v.state = .ready) (hnode : v.node = none)
    (hpid : v.pid = i) : Consistent (s.occupy i v) := by
  have hold : ∀ t, InTable s t → t ≠ s.created := by
    rintro t ⟨k, hk⟩ rfl
    exact absurd (h.table_lt k _ hk).2 (Nat.lt_irrefl _)
  have htasks : ∀ t, (s.occupy i v).tasks t = if t = s.created then v else s.tasks t :=
    fun _ => rfl
  have htable : ∀ k, (s.occupy i v).table k = if k = i then some s.created else s.table k :=
    fun _ => rfl
  have hin : ∀ t, InTable (s.occupy i v) t ↔ t = s.created ∨ InTable s t := by
    intro t
    constructor
    · rintro ⟨k, hk⟩
      rw [htable] at hk
      split at hk
      · exact .inl (Option.some.inj hk).symm
      · exact .inr ⟨k, hk⟩
    · rintro (rfl | ⟨k, hk⟩)
      · exact ⟨i, if_pos rfl⟩
      · refine ⟨k, (if_neg ?_).trans hk⟩
        rintro rfl
        rw [hfree] at hk
        cases hk
  have hkeep : ∀ t, InTable s t → (s.occupy i v).tasks t = s.tasks t := by
    intro t ht
    rw [htasks, if_neg (hold t ht)]
  have hnew : (s.occupy i v).tasks s.created = v := by rw [htasks, if_pos rfl]
  refine ⟨⟨?_, ?_, ?_, ?_, ?_, ?_, ?_, ?_, h.nodup⟩, ?_⟩
  · intro k t hk
    rw [htable] at hk
    split at hk
    · rename_i heq
      cases hk
      exact ⟨heq ▸ hi, Nat.lt_succ_self _⟩
    · exact ⟨(h.table_lt k t hk).1, Nat.lt_succ_of_lt (h.table_lt k t hk).2⟩
  · intro k t hk
    rw [htable] at hk
    split at hk
    · rename_i heq
      cases hk
      rw [hnew, hpid, heq]
    · rw [hkeep t ⟨k, hk⟩]
      exact h.pid k t hk
  · rw [htable, if_neg]
    · exact h.idle
    · rintro rfl
      rw [h.idle] at hfree
      cases hfree
  · rw [show (s.occupy i v).idle = s.idle from rfl, hkeep _ h.inTable_idle]
    exact h.idle_state
  · exact (hin _).mpr (.inr h.current)
  · intro t ht hstate
    rcases (hin t).mp ht with rfl | ht
    · rw [hnew, hready] at hstate
      cases hstate
    · rw [hkeep t ht] at hstate
      exact h.alone t ht hstate
  · intro t ht
    rcases (hin t).mp ht with rfl | ht
    · rw [hnew, hready, hnode]
      rfl
    · rw [hkeep t ht]
      exact h.waits t ht
  · intro l t
    change t ∈ s.lists l ↔ _
    rw [hin, h.listed]
    by_cases ht : InTable s t
    · rw [hkeep t ht]
      simp [ht]
    · by_cases hcreated : t = s.created
      · simp [hcreated, hnew, hnode]
        rw [← hcreated]
        exact fun hin => absurd hin ht
      · simp [ht, hcreated]
  · rw [show (s.occupy i v).current = s.current from rfl, hkeep _ h.current]
    exact h.running

theorem Sound.occupy {v : Task} (h : Sound s) (hi : i < NR_TASKS) (hfree : s.table i = none)
    (hready : v.state = .ready) (hnode : v.node = none) (hpid : v.pid = i)
    (hparent : ∃ p, s.table v.ppid = some p ∧ (s.tasks p).state ≠ .died) :
    Sound (s.occupy i v) := by
  have hold : ∀ t, InTable s t → (s.occupy i v).tasks t = s.tasks t := by
    rintro t ⟨k, hk⟩
    exact if_neg (Nat.ne_of_lt (h.table_lt k t hk).2)
  have hslot : ∀ k t, s.table k = some t → (s.occupy i v).table k = some t := by
    intro k t hk
    refine (if_neg ?_).trans hk
    rintro rfl
    rw [hfree] at hk
    cases hk
  refine ⟨h.toConsistent.occupy hi hfree hready hnode hpid, ?_, ?_, ?_⟩
  · rw [show (s.occupy i v).idle = s.idle from rfl, hold _ h.inTable_idle]
    exact h.orphan
  · obtain ⟨t, ht, hzero⟩ := h.init
    exact ⟨t, hslot 1 t ht, by rwa [hold t ⟨1, ht⟩]⟩
  · intro t ht hne
    by_cases hcreated : t = s.created
    · obtain ⟨p, hp, halive⟩ := hparent
      have hnew : (s.occupy i v).tasks t = v := if_pos hcreated
      refine ⟨p, ?_, ?_, ?_⟩
      · rw [hnew]
        exact hslot _ p hp
      · rwa [hold p ⟨_, hp⟩]
      · rw [hcreated]
        exact (h.table_lt _ p hp).2
    · have hin : InTable s t := by
        obtain ⟨k, hk⟩ := ht
        change (if k = i then some s.created else s.table k) = some t at hk
        split at hk
        · exact absurd (Option.some.inj hk).symm hcreated
        · exact ⟨k, hk⟩
      obtain ⟨p, hp, halive, hlt⟩ := h.parent t hin hne
      refine ⟨p, ?_, ?_, hlt⟩
      · rw [hold t hin]
        exact hslot _ p hp
      · rwa [hold p ⟨_, hp⟩]

/-- A dead task leaves its slot. -/
theorem Sound.vacate {c : ℕ} (h : Sound s) (hslot : s.table i = some c)
    (hdead : (s.tasks c).state = .died) (hi : 2 ≤ i) : Sound (s.vacate i) := by
  have htable : ∀ k, (s.vacate i).table k = if k = i then none else s.table k := fun _ => rfl
  have hin : ∀ t, InTable (s.vacate i) t ↔ InTable s t ∧ t ≠ c := by
    intro t
    constructor
    · rintro ⟨k, hk⟩
      rw [htable] at hk
      split at hk
      · cases hk
      · rename_i hne
        refine ⟨⟨k, hk⟩, ?_⟩
        rintro rfl
        exact hne ((h.pid k t hk).symm.trans (h.pid i t hslot))
    · rintro ⟨⟨k, hk⟩, hne⟩
      refine ⟨k, (if_neg ?_).trans hk⟩
      rintro rfl
      rw [hslot] at hk
      exact hne (Option.some.inj hk).symm
  have halive : ∀ t, InTable s t → (s.tasks t).state ≠ .died → InTable (s.vacate i) t := by
    intro t ht hstate
    refine (hin t).mpr ⟨ht, ?_⟩
    rintro rfl
    exact hstate hdead
  have hnode : (s.tasks c).node = none := h.node_eq_none ⟨i, hslot⟩ (by rw [hdead]; rfl)
  refine ⟨⟨⟨?_, ?_, ?_, h.idle_state, ?_, ?_, ?_, ?_, h.nodup⟩, h.running⟩, h.orphan, ?_, ?_⟩
  · intro k t hk
    rw [htable] at hk
    split at hk
    · cases hk
    · exact h.table_lt k t hk
  · intro k t hk
    rw [htable] at hk
    split at hk
    · cases hk
    · exact h.pid k t hk
  · rw [htable, if_neg (by omega)]
    exact h.idle
  · exact halive _ h.current fun hstate => absurd (h.running.symm.trans hstate) (by decide)
  · exact fun t ht => h.alone t ((hin t).mp ht).1
  · exact fun t ht => h.waits t ((hin t).mp ht).1
  · intro l t
    rw [hin]
    change t ∈ s.lists l ↔ (InTable s t ∧ t ≠ c) ∧ (s.tasks t).node = some l
    rw [h.listed]
    constructor
    · rintro ⟨ht, hl⟩
      refine ⟨⟨ht, ?_⟩, hl⟩
      rintro rfl
      rw [hnode] at hl
      cases hl
    · rintro ⟨⟨ht, -⟩, hl⟩
      exact ⟨ht, hl⟩
  · obtain ⟨t, ht, hzero⟩ := h.init
    exact ⟨t, (if_neg (by omega)).trans ht, hzero⟩
  · intro t ht hne
    obtain ⟨p, hp, hstate, hlt⟩ := h.parent t ((hin t).mp ht).1 hne
    refine ⟨p, (if_neg ?_).trans hp, hstate, hlt⟩
    change (s.tasks t).ppid ≠ i
    intro heq
    rw [heq, hslot] at hp
    cases hp
    exact hstate hdead

/-! ## Exit -/

/-- The task that exits waits for nothing. -/
theorem Consistent.bury (h : Consistent s) (hidle : s.current ≠ s.idle) (status : ℤ) :
    Linked (s.bury status) := by
  have htasks : ∀ t, (s.bury status).tasks t = if t = s.current then
      { s.tasks s.current with state := .died, status := status, dying := true }
      else s.tasks t := fun _ => rfl
  have hnode : ∀ t, ((s.bury status).tasks t).node = (s.tasks t).node := by
    intro t
    rw [htasks]
    split
    · rename_i heq
      rw [heq]
    · rfl
  refine ⟨h.table_lt, ?_, h.idle, ?_, h.current, ?_, ?_, ?_, h.nodup⟩
  · intro i t hi
    rw [htasks]
    split
    · rename_i heq
      rw [← heq]
      exact h.pid i t hi
    · exact h.pid i t hi
  · rw [htasks, if_neg (show (s.bury status).idle ≠ s.current from Ne.symm hidle)]
    exact h.idle_state
  · intro t ht hstate
    rw [htasks] at hstate
    split at hstate
    · cases hstate
    · exact h.alone t ht hstate
  · intro t ht
    rw [hnode, htasks]
    split
    · rename_i heq
      rw [heq, h.node_current]
      rfl
    · exact h.waits t ht
  · intro l t
    rw [hnode]
    exact h.listed l t

theorem Linked.handOver (h : Linked s) : Linked s.handOver := by
  have hsame := s.handedOver.same
  refine h.congr (by rw [hsame]) (by rw [hsame]) (by rw [hsame]) (by rw [hsame]) (by rw [hsame])
    fun t => ?_
  rw [s.handedOver.task t]
  exact ⟨rfl, rfl, rfl⟩

theorem bury_current (s : State) (status : ℤ) : (s.bury status).tasks s.current =
    { s.tasks s.current with state := .died, status := status, dying := true } := if_pos rfl

theorem bury_ppid (s : State) (status : ℤ) (t : ℕ) :
    ((s.bury status).tasks t).ppid = (s.tasks t).ppid := by
  change (if t = s.current then _ else s.tasks t : Task).ppid = _
  split
  · rename_i heq
    rw [heq]
  · rfl

/-- Only tasks change. -/
theorem handOver_same (s : State) (status : ℤ) : (s.bury status).handOver =
    { s with tasks := (s.bury status).handOver.tasks } := (s.bury status).handedOver.same

theorem handOver_table (s : State) (status : ℤ) : (s.bury status).handOver.table = s.table := by
  rw [handOver_same]

/-- The task that exits is not its own parent. -/
theorem Sound.handOver_ppid {status : ℤ} (h : Sound s) (hidle : s.current ≠ s.idle) :
    ((s.bury status).handOver.tasks s.current).ppid = (s.tasks s.current).ppid := by
  rw [(s.bury status).handedOver.stayed s.current (.inl ?_), bury_ppid]
  rw [bury_ppid, show (s.bury status).current = s.current from rfl, bury_current]
  intro heq
  obtain ⟨p, hp, -, hlt⟩ := h.parent s.current h.current hidle
  rw [show (s.tasks s.current).ppid = (s.tasks s.current).pid from heq, h.slot h.current] at hp
  cases hp
  exact absurd hlt (Nat.lt_irrefl _)

/-- The children of the task that exits get its parent, which is older still. -/
theorem Sound.handOver (h : Sound s) (hidle : s.current ≠ s.idle) (status : ℤ) :
    Lineage (s.bury status).handOver := by
  have hover := (s.bury status).handedOver
  have hppid := bury_ppid s status
  rw [show (s.bury status).current = s.current from rfl, bury_current] at hover
  dsimp only at hover
  have htable := handOver_table s status
  have hidle' : (s.bury status).handOver.idle = s.idle := by rw [hover.same]; rfl
  have hstate : ∀ p, p ≠ s.current →
      ((s.bury status).handOver.tasks p).state = (s.tasks p).state := by
    intro p hp
    rw [hover.task p]
    change ((s.bury status).tasks p).state = _
    exact congrArg Task.state (if_neg hp)
  have hslot := h.slot h.current
  -- the slots 0 and 1 keep the parent 0, which does not exit
  have hpid : (s.tasks s.current).pid ≠ 0 := by
    intro hzero
    rw [hzero, h.idle] at hslot
    exact hidle (Option.some.inj hslot).symm
  refine ⟨?_, ?_, ?_⟩
  · rw [hidle', hover.stayed, hppid]
    · exact h.orphan
    · left
      rw [hppid, h.orphan]
      exact hpid.symm
  · obtain ⟨t, ht, hzero⟩ := h.init
    refine ⟨t, by rw [htable]; exact ht, ?_⟩
    rw [hover.stayed, hppid, hzero]
    left
    rw [hppid, hzero]
    exact hpid.symm
  · intro t ht hne
    rw [hidle'] at hne
    obtain ⟨i, hi⟩ := ht
    rw [htable] at hi
    obtain ⟨p, hp, halive, hlt⟩ := h.parent t ⟨i, hi⟩ hne
    by_cases hchild : (s.tasks t).ppid = (s.tasks s.current).pid
    · obtain rfl : p = s.current := by
        rw [hchild, hslot] at hp
        exact (Option.some.inj hp).symm
      obtain ⟨q, hq, halive', hlt'⟩ := h.parent s.current h.current hidle
      have hmember : i ∈ List.range' 2 (NR_TASKS - 2) := by
        have hi' := (h.table_lt i t hi).1
        have hnr : NR_TASKS = 64 := rfl
        rw [List.mem_range'_1]
        rcases Nat.lt_or_ge i 2 with hlow | hhigh
        · exfalso
          obtain rfl | rfl : i = 0 ∨ i = 1 := by omega
          · rw [h.idle] at hi
            exact hne (Option.some.inj hi).symm
          · obtain ⟨u, hu, hzero⟩ := h.init
            rw [hu] at hi
            cases hi
            exact hpid (hchild.symm.trans hzero)
        · omega
      refine ⟨q, ?_, ?_, Nat.lt_trans hlt' hlt⟩
      · rw [htable, hover.moved t ⟨i, hmember, hi⟩ ((hppid t).trans hchild)]
        exact hq
      · rwa [hstate q (by omega)]
    · have hother : p ≠ s.current := by
        rintro rfl
        rw [← h.pid _ _ hp] at hchild
        exact hchild rfl
      refine ⟨p, ?_, ?_, hlt⟩
      · rw [htable, hover.stayed t (.inl (by rwa [hppid])), hppid]
        exact hp
      · rwa [hstate p hother]

theorem inTable_handOver (s : State) (status : ℤ) (t : ℕ) :
    InTable (s.bury status).handOver t ↔ InTable s t := by
  rw [InTable, handOver_table]
  rfl

theorem Linked.finish (h : Linked s) : Linked s.finish := by
  refine h.congr rfl rfl rfl rfl rfl fun t => ?_
  unfold State.finish
  rw [State.setTask_apply]
  split
  · rename_i heq
    rw [heq]
    exact ⟨rfl, rfl, rfl⟩
  · exact ⟨rfl, rfl, rfl⟩

theorem Lineage.finish (h : Lineage s) : Lineage s.finish := by
  have htasks : ∀ t, (s.finish.tasks t).ppid = (s.tasks t).ppid ∧
      (s.finish.tasks t).state = (s.tasks t).state := by
    intro t
    unfold State.finish
    rw [State.setTask_apply]
    split
    · rename_i heq
      rw [heq]
      exact ⟨rfl, rfl⟩
    · exact ⟨rfl, rfl⟩
  exact h.congr rfl rfl (fun t => (htasks t).1) fun t _ hdead => (htasks t).2 ▸ hdead

/-! ## Sleepers -/

theorem Sound.unlink (h : Sound s) (hnode : (s.tasks t).node = some l) (ht : InTable s t) :
    Sound (s.unlink t l) :=
  ⟨h.toConsistent.unlink hnode ht, h.toLineage.unlink t l⟩

/-- Only counters change. -/
theorem Sound.setCounters {v : Task} (h : Sound s) (hstate : v.state = (s.tasks t).state)
    (hnode : v.node = (s.tasks t).node) (hpid : v.pid = (s.tasks t).pid)
    (hppid : v.ppid = (s.tasks t).ppid) : Sound (s.setTask t v) := by
  have htasks : ∀ u, ((s.setTask t v).tasks u).state = (s.tasks u).state ∧
      ((s.setTask t v).tasks u).node = (s.tasks u).node ∧
      ((s.setTask t v).tasks u).pid = (s.tasks u).pid ∧
      ((s.setTask t v).tasks u).ppid = (s.tasks u).ppid := by
    intro u
    rw [State.setTask_apply]
    split
    · rename_i heq
      rw [heq]
      exact ⟨hstate, hnode, hpid, hppid⟩
    · exact ⟨rfl, rfl, rfl, rfl⟩
  exact ⟨h.toConsistent.congr rfl rfl rfl rfl rfl
      fun u => ⟨(htasks u).1, (htasks u).2.1, (htasks u).2.2.1⟩,
    h.toLineage.congr rfl rfl (fun u => (htasks u).2.2.2)
      fun u _ hdead => (htasks u).1 ▸ hdead⟩

/-- The counters of the clock. -/
theorem Sound.tick (h : Sound s) : Sound s.tick := by
  have hclock : Sound { s with jiffies := (s.jiffies + 1) % 2 ^ 32 } :=
    ⟨h.toConsistent.congr rfl rfl rfl rfl rfl fun _ => ⟨rfl, rfl, rfl⟩,
      h.toLineage.congr rfl rfl (fun _ => rfl) fun _ _ => id⟩
  exact hclock.setCounters rfl rfl rfl rfl

theorem Sound.wakeOne (h : Sound s) (ht : t ∈ s.lists .sleep) : Sound (s.wakeOne t) := by
  obtain ⟨hin, hnode⟩ := (h.listed .sleep t).mp ht
  refine (h.setCounters (v := { s.tasks t with ticks := 0 }) rfl rfl rfl rfl).unlink ?_ hin
  rw [State.setTask_tasks]
  exact hnode

theorem Sound.foldl_wakeOne (h : Sound s) (hnodup : ts.Nodup)
    (hsub : ∀ t ∈ ts, t ∈ s.lists .sleep) : Sound (ts.foldl State.wakeOne s) := by
  induction ts generalizing s with
  | nil => exact h
  | cons t ts ih =>
      obtain ⟨hnew, hnodup⟩ := List.nodup_cons.mp hnodup
      refine ih (h.wakeOne (hsub t List.mem_cons_self)) hnodup fun u hu => ?_
      have hne : u ≠ t := fun heq => hnew (heq ▸ hu)
      rw [wakeOne_sleepers, List.mem_erase_of_ne hne]
      exact hsub u (List.mem_cons_of_mem _ hu)

theorem Sound.wakeup (h : Sound s) : Sound s.wakeup :=
  h.foldl_wakeOne ((List.takeWhile_sublist _).nodup (h.nodup .sleep))
    fun _ ht => (List.takeWhile_sublist _).subset ht

end Ylos.Sched
