import Ylos.Lib.Runs
import Ylos.Model.Request
import Ylos.Verification.Task.Calls

/-! # The request queue serves one request at a time -/

namespace Ylos.Requests

open Exec Sched

def askedOf (t : ℕ) : Event → Option Request
  | .asked req => if req.owner = t then some req else none
  | .served _ => none

def servedOf (t : ℕ) : Event → Option Request
  | .served req => if req.owner = t then some req else none
  | .asked _ => none

/-- The request of a task that `do_request` has not been called for. -/
def State.pending (s : State) (t : ℕ) : List Request :=
  s.device.requests.filter fun r => r.owner = t ∧ (s.phase t = .queued ∨ s.phase t = .woken)

/-- Every task has the request that it is busy with, one task is active as long as there
are requests, and the others can be woken by their requests. -/
structure Inv (s : State) : Prop where
  owners : (s.device.requests.map Request.owner).Nodup
  busy : ∀ t, s.phase t ≠ .idle ↔ ∃ r ∈ s.device.requests, r.owner = t
  active : s.device.requests ≠ [] → ∃ t, (s.phase t).Active
  unique : ∀ t u, (s.phase t).Active → (s.phase u).Active → t = u
  queued : ∀ r ∈ s.device.requests, s.phase r.owner = .queued → r.task = some r.owner

variable {s s' : State} {t u : ℕ} {r r' req : Request} {h l : List Event}

/-! ## Lists -/

theorem nextRequest_some {device : Device} {i : ℕ}
    (hnext : (nextRequest device i).1 = some req) :
    ∃ j, j ≠ i ∧ device.requests[j]? = some req := by
  unfold nextRequest at hnext
  extract_lets up at hnext
  generalize up = up at hnext
  split at hnext
  · exact ⟨i + 1, Nat.succ_ne_self i, hnext⟩
  · split at hnext
    · cases hnext
    · exact ⟨i - 1, by omega, hnext⟩

/-- The direction turns at either end, so that only a request that is alone has no next. -/
theorem nextRequest_none {device : Device} {i : ℕ} (hi : i < device.requests.length) :
    (nextRequest device i).1 = none ↔ device.requests.length = 1 := by
  unfold nextRequest
  cases device.up with
  | true =>
      by_cases hlast : i + 1 = device.requests.length
      · by_cases hfirst : i = 0
        · simp only [hfirst, true_and, Bool.false_eq_true, if_false, if_true, hlast.symm]
        · simp [hlast, hfirst]
          omega
      · simp [hlast]
        omega
  | false =>
      by_cases hfirst : i = 0
      · simp [hfirst]
        omega
      · simp [hfirst]
        omega

theorem Inv.eq_of_owner (hinv : Inv s) (hr : r ∈ s.device.requests) (hr' : r' ∈ s.device.requests)
    (howner : r.owner = r'.owner) : r = r' :=
  List.inj_on_of_nodup_map hinv.owners hr hr' howner

theorem Inv.find_owner (hinv : Inv s) (hr : r ∈ s.device.requests) (howner : r.owner = t) :
    (s.device.requests.find? fun r => r.owner = t) = some r := by
  cases hfind : s.device.requests.find? fun r => r.owner = t with
  | none =>
      have hnone := List.find?_eq_none.mp hfind r hr
      exact absurd howner (by simpa using hnone)
  | some r' =>
      have howner' : r'.owner = t := by simpa using List.find?_some hfind
      rw [hinv.eq_of_owner (List.mem_of_find?_eq_some hfind) hr (howner'.trans howner.symm)]

theorem Inv.after_findRequest {Q : Request → State → List Event → Prop} (hinv : Inv s)
    (hr : r ∈ s.device.requests) (howner : r.owner = t) (hQ : Q r s []) :
    after (findRequest t) Q s := by
  unfold findRequest
  simp only [after_bind, after_gets, after_deref, hinv.find_owner hr howner]
  rintro _ ⟨⟩
  exact hQ

/-- The request of a busy task. -/
theorem Inv.request (hinv : Inv s) (ht : s.phase t ≠ .idle) :
    ∃ r ∈ s.device.requests, r.owner = t := (hinv.busy t).mp ht

/-! ## Changes of one phase -/

@[simp] theorem setPhase_self (p : Phase) : (s.setPhase t p).phase t = p := if_pos rfl

theorem setPhase_ne (p : Phase) (hu : u ≠ t) : (s.setPhase t p).phase u = s.phase u := if_neg hu

@[simp] theorem setPhase_device (p : Phase) : (s.setPhase t p).device = s.device := rfl

/-- The active task goes on to another phase. -/
theorem Inv.setActive (hinv : Inv s) {p : Phase} (ht : (s.phase t).Active) (hp : p.Active) :
    Inv (s.setPhase t p) := by
  have hidle : ∀ {q : Phase}, q.Active → q ≠ .idle ∧ q ≠ .queued := by
    rintro (_ | _ | _ | _ | _) hq
    all_goals first | exact hq.elim | exact ⟨nofun, nofun⟩
  have hactive : ∀ {u}, ((s.setPhase t p).phase u).Active → (s.phase u).Active := by
    intro u hu
    by_cases hut : u = t
    · exact hut ▸ ht
    · rwa [setPhase_ne p hut] at hu
  refine ⟨hinv.owners, fun u => ?_, fun _ => ⟨t, by rwa [setPhase_self]⟩,
    fun u v hu hv => hinv.unique u v (hactive hu) (hactive hv), fun r hr hqueued => ?_⟩
  · rw [setPhase_device, ← hinv.busy u]
    by_cases hut : u = t
    · rw [hut, setPhase_self]
      exact iff_of_true (hidle hp).1 (hidle ht).1
    · rw [setPhase_ne p hut]
  · by_cases hrt : r.owner = t
    · rw [hrt, setPhase_self] at hqueued
      exact absurd hqueued (hidle hp).2
    · rw [setPhase_ne p hrt] at hqueued
      exact hinv.queued r hr hqueued

/-! ## Steps -/

/-- All requests that were made have been served, but for those that wait. -/
def Accounted (s : State) (h : List Event) : Prop :=
  ∀ t, h.filterMap (askedOf t) = h.filterMap (servedOf t) ++ s.pending t

/-- What a step has to say about its events, for a run to be accounted. -/
theorem Accounted.step (hacc : Accounted s h)
    (hl : ∀ t, s.pending t ++ l.filterMap (askedOf t) =
      l.filterMap (servedOf t) ++ s'.pending t) : Accounted s' (h ++ l) := by
  intro t
  rw [List.filterMap_append, List.filterMap_append, hacc t, List.append_assoc, hl t,
    List.append_assoc]

theorem pending_eq_nil (ht : ¬(s.phase t = .queued ∨ s.phase t = .woken)) :
    s.pending t = [] := by
  refine List.filter_eq_nil_iff.mpr fun r _ => ?_
  simp [ht]

theorem Inv.pending_eq (hinv : Inv s) (hr : r ∈ s.device.requests) (howner : r.owner = t)
    (ht : s.phase t = .queued ∨ s.phase t = .woken) : s.pending t = [r] := by
  have hnodup : s.device.requests.Nodup := List.Nodup.of_map _ hinv.owners
  have hfilter : s.pending t = s.device.requests.filter (· = r) := by
    refine List.filter_congr fun r' hr' => ?_
    simp only [ht, and_true, decide_eq_decide]
    exact ⟨fun h' => hinv.eq_of_owner hr' hr (h'.trans howner.symm), fun h' => h' ▸ howner⟩
  rw [hfilter, List.filter_eq, List.count_eq_one_of_mem hnodup hr, List.replicate_one]

/-- A task that neither comes to wait nor ceases to has the same requests as before. -/
theorem Inv.pending_congr (hinv : Inv s) (hinv' : Inv s')
    (hwaits : (s'.phase u = .queued ∨ s'.phase u = .woken) ↔
      (s.phase u = .queued ∨ s.phase u = .woken))
    (hmem : ∀ r ∈ s.device.requests, r.owner = u → r ∈ s'.device.requests) :
    s'.pending u = s.pending u := by
  by_cases hu : s.phase u = .queued ∨ s.phase u = .woken
  · have hbusy : s.phase u ≠ .idle := by
      rcases hu with hu | hu <;> rw [hu] <;> exact nofun
    obtain ⟨r, hr, howner⟩ := hinv.request hbusy
    rw [hinv.pending_eq hr howner hu, hinv'.pending_eq (hmem r hr howner) howner (hwaits.mpr hu)]
  · rw [pending_eq_nil hu, pending_eq_nil (hwaits.not.mpr hu)]

theorem after_doRequest (hinv : Inv s) (ht : s.phase t = .woken) :
    after (doRequest t) (fun _ s' l => Inv s' ∧ ∀ u, s.pending u ++ l.filterMap (askedOf u) =
      l.filterMap (servedOf u) ++ s'.pending u) s := by
  obtain ⟨r, hr, howner⟩ := hinv.request (t := t) (by rw [ht]; exact nofun)
  unfold doRequest setPhase
  rw [after_bind]
  refine hinv.after_findRequest hr howner ?_
  simp only [after_bind, after_note, after_modify]
  refine ⟨hinv.setActive (by rw [ht]; trivial) trivial, fun u => ?_⟩
  by_cases hu : u = t
  · subst u
    rw [hinv.pending_eq hr howner (.inr ht), pending_eq_nil (by simp)]
    simp [askedOf, servedOf, howner]
  · have hne : r.owner ≠ u := fun h' => hu (h'.symm.trans howner)
    simp [askedOf, servedOf, hne, State.pending, setPhase_ne _ hu]

theorem Inv.idle_of_nil (hinv : Inv s) (hnil : s.device.requests = []) (u : ℕ) :
    s.phase u = .idle := by
  by_contra hu
  obtain ⟨r, hr, _⟩ := hinv.request hu
  rw [hnil] at hr
  cases hr

/-- A request comes into an empty queue and is served at once. -/
theorem Inv.first (hreq : s'.device.requests = [req]) (howner : req.owner = t)
    (ht : s'.phase t = .serving) (hother : ∀ u, u ≠ t → s'.phase u = .idle) : Inv s' := by
  have hactive : ∀ {u}, (s'.phase u).Active → u = t := by
    intro u hu
    by_contra hne
    rw [hother u hne] at hu
    exact hu
  refine ⟨?_, fun u => ?_, fun _ => ⟨t, ?_⟩, fun u v hu hv => ?_, fun r hr hqueued => ?_⟩
  · rw [hreq]
    exact List.nodup_singleton _
  · simp only [hreq, List.mem_singleton, exists_eq_left, howner]
    by_cases hu : u = t
    · simp [hu, ht]
    · simp [hother u hu, Ne.symm hu]
  · rw [ht]
    trivial
  · rw [hactive hu, hactive hv]
  · rw [hreq, List.mem_singleton] at hr
    rw [hr, howner, ht] at hqueued
    cases hqueued

/-- A request comes into a queue that is not empty, and its task blocks. -/
theorem Inv.enqueue (hinv : Inv s) (hreq : s'.device.requests.Perm (req :: s.device.requests))
    (hsome : s.device.requests ≠ []) (howner : req.owner = t) (htask : req.task = some t)
    (ht : s.phase t = .idle) (ht' : s'.phase t = .queued)
    (hother : ∀ u, u ≠ t → s'.phase u = s.phase u) : Inv s' := by
  have hnew : ∀ r ∈ s.device.requests, r.owner ≠ t :=
    fun r hr hrt => (hinv.busy t).mpr ⟨r, hr, hrt⟩ ht
  have hmem : ∀ r, r ∈ s'.device.requests ↔ r = req ∨ r ∈ s.device.requests := by
    intro r
    rw [hreq.mem_iff, List.mem_cons]
  have hactive : ∀ {u}, (s'.phase u).Active → (s.phase u).Active := by
    intro u hu
    by_cases hut : u = t
    · rw [hut, ht'] at hu
      exact hu.elim
    · rwa [hother u hut] at hu
  refine ⟨?_, fun u => ?_, fun _ => ?_, fun u v hu hv => hinv.unique u v (hactive hu) (hactive hv),
    fun r hr hqueued => ?_⟩
  · refine (hreq.map Request.owner).nodup_iff.mpr (List.nodup_cons.mpr ⟨?_, hinv.owners⟩)
    rw [howner, List.mem_map]
    rintro ⟨r, hr, hrt⟩
    exact hnew r hr hrt
  · by_cases hu : u = t
    · rw [hu, ht']
      exact iff_of_true nofun ⟨req, (hmem req).mpr (.inl rfl), howner⟩
    · rw [hother u hu, hinv.busy u]
      constructor
      · rintro ⟨r, hr, hru⟩
        exact ⟨r, (hmem r).mpr (.inr hr), hru⟩
      · rintro ⟨r, hr, hru⟩
        rcases (hmem r).mp hr with rfl | hr
        · exact absurd (hru.symm.trans howner) hu
        · exact ⟨r, hr, hru⟩
  · obtain ⟨u, hu⟩ := hinv.active hsome
    have hut : u ≠ t := by
      rintro rfl
      rw [ht] at hu
      exact hu
    exact ⟨u, by rwa [hother u hut]⟩
  · rcases (hmem r).mp hr with rfl | hr
    · rw [howner, htask]
    · rw [hother _ (hnew r hr)] at hqueued
      exact hinv.queued r hr hqueued

theorem after_deviceRequest {type : ReqType} {idx count : ℕ} (hinv : Inv s)
    (ht : s.phase t = .idle) :
    after (deviceRequest t type idx count) (fun _ s' l => Inv s' ∧
      ∀ u, s.pending u ++ l.filterMap (askedOf u) =
        l.filterMap (servedOf u) ++ s'.pending u) s := by
  unfold deviceRequest setRequests
  rw [after_bind, after_gets]
  by_cases hnil : s.device.requests = []
  · unfold doRequest findRequest setPhase
    simp only [hnil, List.isEmpty_nil, if_true, insertSort, after_bind, after_note, after_modify,
      after_gets, after_deref, List.find?_cons, decide_true, List.append_nil, List.nil_append,
      List.cons_append]
    rintro _ ⟨⟩
    have hidle := hinv.idle_of_nil hnil
    refine ⟨Inv.first rfl rfl (setPhase_self _) fun u hu => ?_, fun u => ?_⟩
    · rw [setPhase_ne _ hu]
      exact hidle u
    · rw [pending_eq_nil (by simp [hidle u]), pending_eq_nil]
      · by_cases hu : t = u <;> simp [List.filterMap_cons, askedOf, servedOf, hu]
      · by_cases hu : u = t
        · simp [hu]
        · simp [setPhase_ne _ hu, hidle u]
  · have hempty : s.device.requests.isEmpty = false := by simpa using hnil
    unfold setPhase
    simp only [hempty, Bool.false_eq_true, if_false, after_bind, after_note, after_modify,
      List.append_nil, List.nil_append]
    generalize hreq : (⟨t, type, idx, count, some t⟩ : Request) = req
    have howner : req.owner = t := by rw [← hreq]
    have hperm := perm_insertSort (fun r => int32 r.idx) req s.device.requests
    have hinv' : Inv (State.setPhase { s with device := { s.device with
        requests := insertSort (fun r => int32 r.idx) req s.device.requests } } t .queued) := by
      refine hinv.enqueue hperm hnil howner (by rw [← hreq]) ht (setPhase_self _) fun u hu => ?_
      exact setPhase_ne _ hu
    refine ⟨hinv', fun u => ?_⟩
    by_cases hu : u = t
    · subst u
      rw [pending_eq_nil (by simp [ht]), hinv'.pending_eq (hperm.mem_iff.mpr List.mem_cons_self) howner
        (.inl (setPhase_self _))]
      simp [askedOf, servedOf, howner]
    · have hne : req.owner ≠ u := fun h' => hu (h'.symm.trans howner)
      simp only [askedOf, servedOf, hne, if_false, List.filterMap_cons, List.filterMap_nil,
        List.append_nil, List.nil_append]
      refine (hinv.pending_congr hinv' ?_ fun r hr _ =>
        hperm.mem_iff.mpr (List.mem_cons_of_mem _ hr)).symm
      rw [setPhase_ne _ hu]

/-- The active request goes, and the task of the next one is woken. -/
theorem Inv.remove (hinv : Inv s) (hr : r ∈ s.device.requests) (howner : r.owner = t)
    (ht : (s.phase t).Active) (hreq : s'.device.requests = s.device.requests.erase r)
    (ht' : s'.phase t = .idle) {next : Request} (hnext : next ∈ s.device.requests)
    (hne : next ≠ r) (hwoken : s'.phase next.owner = .woken)
    (hother : ∀ u, u ≠ t → u ≠ next.owner → s'.phase u = s.phase u) : Inv s' := by
  have hmem : ∀ r', r' ∈ s'.device.requests ↔ r' ≠ r ∧ r' ∈ s.device.requests := by
    intro r'
    rw [hreq, (List.Nodup.of_map _ hinv.owners).mem_erase_iff]
  have howners : ∀ r', r' ∈ s.device.requests → r' ≠ r → r'.owner ≠ t :=
    fun r' hr' hne' h' => hne' (hinv.eq_of_owner hr' hr (h'.trans howner.symm))
  -- The task that is woken is the only active one now.
  have hactive : ∀ {u}, (s'.phase u).Active → u = next.owner := by
    intro u hu
    by_contra hun
    by_cases hut : u = t
    · rw [hut, ht'] at hu
      exact hu
    · rw [hother u hut hun] at hu
      exact hut (hinv.unique u t hu ht)
  refine ⟨?_, fun u => ?_, fun _ => ⟨next.owner, by rw [hwoken]; trivial⟩,
    fun u v hu hv => (hactive hu).trans (hactive hv).symm, fun r' hr' hqueued => ?_⟩
  · rw [hreq]
    exact hinv.owners.sublist (List.erase_sublist.map _)
  · by_cases hut : u = t
    · refine iff_of_false (by simp [hut, ht']) ?_
      rintro ⟨r', hr', hru⟩
      obtain ⟨hne', hr'⟩ := (hmem r').mp hr'
      exact howners r' hr' hne' (hru.trans hut)
    · have hbusy : s'.phase u ≠ .idle ↔ s.phase u ≠ .idle := by
        by_cases hun : u = next.owner
        · rw [hun, hwoken]
          exact iff_of_true nofun ((hinv.busy _).mpr ⟨next, hnext, rfl⟩)
        · rw [hother u hut hun]
      rw [hbusy, hinv.busy u]
      constructor
      · rintro ⟨r', hr', hru⟩
        refine ⟨r', (hmem r').mpr ⟨?_, hr'⟩, hru⟩
        rintro rfl
        exact hut (hru.symm.trans howner)
      · rintro ⟨r', hr', hru⟩
        exact ⟨r', ((hmem r').mp hr').2, hru⟩
  · obtain ⟨hne', hr'⟩ := (hmem r').mp hr'
    by_cases hun : r'.owner = next.owner
    · rw [hun, hwoken] at hqueued
      cases hqueued
    · rw [hother _ (howners r' hr' hne') hun] at hqueued
      exact hinv.queued r' hr' hqueued

/-- The last request goes. -/
theorem Inv.removeLast (hinv : Inv s) (hr : s.device.requests = [r]) (howner : r.owner = t)
    (hreq : s'.device.requests = []) (ht' : s'.phase t = .idle)
    (hother : ∀ u, u ≠ t → s'.phase u = s.phase u) : Inv s' := by
  have hidle : ∀ u, s'.phase u = .idle := by
    intro u
    by_cases hut : u = t
    · rw [hut, ht']
    · rw [hother u hut]
      by_contra hu
      obtain ⟨r', hr', hru⟩ := hinv.request hu
      rw [hr, List.mem_singleton] at hr'
      exact hut (hru.symm.trans (hr' ▸ howner))
  have hinactive : ∀ {u}, ¬(s'.phase u).Active := by
    intro u hu
    rw [hidle u] at hu
    exact hu
  refine ⟨by simp [hreq], fun u => ?_, fun hne => absurd hreq hne,
    fun u v hu _ => absurd hu hinactive, fun r' hr' _ => ?_⟩
  · simp [hidle u, hreq]
  · rw [hreq] at hr'
    cases hr'

theorem Inv.queued_of_ne (hinv : Inv s) (hu : s.phase u ≠ .idle) (ht : (s.phase t).Active)
    (hne : u ≠ t) : s.phase u = .queued := by
  by_contra hqueued
  refine hne (hinv.unique u t ?_ ht)
  cases hp : s.phase u with
  | idle => exact hu hp
  | queued => exact hqueued hp
  | woken | serving | waiting => trivial

/-- `request_nextreq` finds a task that is blocked in the queue, unless the request is alone. -/
theorem Inv.next (hinv : Inv s) (hr : r ∈ s.device.requests) (ht : (s.phase r.owner).Active) :
    (nextRequest s.device (s.device.requests.idxOf r)).1 = none ∧ s.device.requests = [r] ∨
      ∃ next, (nextRequest s.device (s.device.requests.idxOf r)).1 = some next ∧
        next ∈ s.device.requests ∧ next ≠ r ∧ s.phase next.owner = .queued ∧
          next.task = some next.owner := by
  have hnodup : s.device.requests.Nodup := List.Nodup.of_map _ hinv.owners
  cases hfound : (nextRequest s.device (s.device.requests.idxOf r)).1 with
  | none =>
      have hone := (nextRequest_none (List.idxOf_lt_length_iff.mpr hr)).mp hfound
      obtain ⟨r', hr'⟩ := List.length_eq_one_iff.mp hone
      obtain rfl : r = r' := by simpa [hr'] using hr
      exact .inl ⟨rfl, hr'⟩
  | some next =>
      obtain ⟨j, hj, hget⟩ := nextRequest_some hfound
      obtain ⟨hlt, hnext⟩ := List.getElem?_eq_some_iff.mp hget
      have hmem : next ∈ s.device.requests := hnext ▸ List.getElem_mem hlt
      have hne : next ≠ r := by
        rintro rfl
        exact hj (hnext ▸ (hnodup.idxOf_getElem j hlt)).symm
      have hqueued : s.phase next.owner = .queued :=
        hinv.queued_of_ne ((hinv.busy _).mpr ⟨next, hmem, rfl⟩) ht
          fun h' => hne (hinv.eq_of_owner hmem hr h')
      exact .inr ⟨next, rfl, hmem, hne, hqueued, hinv.queued next hmem hqueued⟩

/-- The request is off the queue, and the task of the next one may run. -/
structure Finished (s : State) (r : Request) (s' : State) : Prop where
  requests : s'.device.requests = s.device.requests.erase r
  up : s'.device.up = (nextRequest s.device (s.device.requests.idxOf r)).2
  idle : s'.phase r.owner = .idle
  woken : ∀ next, (nextRequest s.device (s.device.requests.idxOf r)).1 = some next →
    s'.phase next.owner = .woken
  other : ∀ u, u ≠ r.owner →
    (∀ next, (nextRequest s.device (s.device.requests.idxOf r)).1 = some next → u ≠ next.owner) →
    s'.phase u = s.phase u

theorem after_requestDone_finished (hinv : Inv s) (hr : r ∈ s.device.requests)
    (howner : r.owner = t) (ht : (s.phase t).Active) :
    after (requestDone t) (fun _ s' l => l = [] ∧ Finished s r s') s := by
  unfold requestDone setRequests setPhase
  rw [after_bind, after_gets, after_bind]
  refine hinv.after_findRequest hr howner ?_
  cases hfound : nextRequest s.device (s.device.requests.idxOf r) with
  | mk found up =>
    rcases hinv.next hr (howner ▸ ht) with
      ⟨hnone, -⟩ | ⟨next, hsome, hmem, hne, hqueued, htask⟩
    · rw [hfound] at hnone
      obtain rfl : found = none := hnone
      simp only [after_bind, after_modify, after_pure]
      refine ⟨rfl, rfl, by rw [hfound]; rfl, ?_, ?_, ?_⟩
      · rw [howner]
        exact setPhase_self _
      · rw [hfound]
        exact nofun
      · intro u hu _
        exact setPhase_ne _ (howner ▸ hu)
    · rw [hfound] at hsome
      obtain rfl : found = some next := hsome
      have hnt : next.owner ≠ t :=
        fun h' => hne (hinv.eq_of_owner hmem hr (h'.trans howner.symm))
      simp only [after_bind, after_modify, after_deref, htask]
      rintro _ ⟨⟩
      unfold taskUnblock setPhase
      rw [after_bind, after_get, setPhase_ne _ hnt]
      simp only [hqueued, after_modify, List.append_nil]
      refine ⟨trivial, rfl, by rw [hfound]; rfl, ?_, ?_, ?_⟩
      · rw [howner, setPhase_ne _ (Ne.symm hnt)]
        exact setPhase_self _
      · rw [hfound]
        rintro _ ⟨⟩
        exact setPhase_self _
      · intro u hu hnext
        rw [setPhase_ne _ (hnext next (by rw [hfound])), setPhase_ne _ (howner ▸ hu)]

theorem after_requestDone (hinv : Inv s) (ht : s.phase t = .serving) :
    after (requestDone t) (fun _ s' l => Inv s' ∧
      ∀ u, s.pending u ++ l.filterMap (askedOf u) =
        l.filterMap (servedOf u) ++ s'.pending u) s := by
  obtain ⟨r, hr, howner⟩ := hinv.request (t := t) (by rw [ht]; exact nofun)
  have hactive : (s.phase t).Active := by rw [ht]; trivial
  refine after_mono (after_requestDone_finished hinv hr howner hactive) ?_
  rintro _ s' l ⟨rfl, hfinished⟩
  have hidle : s'.phase t = .idle := howner ▸ hfinished.idle
  rcases hinv.next hr (howner ▸ hactive) with
    ⟨hnone, halone⟩ | ⟨next, hsome, hmem, hne, hqueued, htask⟩
  · have hnil : s'.device.requests = [] := by simp [hfinished.requests, halone]
    refine ⟨hinv.removeLast halone howner hnil hidle fun u hu =>
      hfinished.other u (howner ▸ hu) (by simp [hnone]), fun u => ?_⟩
    have hpending : s.pending u = [] := by
      by_cases hu : u = t
      · exact pending_eq_nil (by simp [hu, ht])
      · simp [State.pending, halone, howner, Ne.symm hu]
    rw [hpending]
    simp [State.pending, hnil]
  · have hwoken := hfinished.woken next hsome
    have hother : ∀ u, u ≠ t → u ≠ next.owner → s'.phase u = s.phase u := by
      intro u hut hun
      refine hfinished.other u (howner ▸ hut) fun next' hnext' => ?_
      obtain rfl : next = next' := Option.some.inj (hsome.symm.trans hnext')
      exact hun
    have hreq := hfinished.requests
    have hinv' := hinv.remove hr howner hactive hreq hidle hmem hne hwoken hother
    refine ⟨hinv', fun u => ?_⟩
    by_cases hut : u = t
    · rw [pending_eq_nil (by simp [hut, ht]), pending_eq_nil (by simp [hut, hidle])]
      rfl
    · refine (List.append_nil _).trans (hinv.pending_congr hinv' ?_ ?_).symm
      · by_cases hun : u = next.owner
        · simp [hun, hwoken, hqueued]
        · rw [hother u hut hun]
      · intro r' hr' hru
        rw [hreq, (List.Nodup.of_map _ hinv.owners).mem_erase_iff]
        refine ⟨?_, hr'⟩
        rintro rfl
        exact hut (hru.symm.trans howner)

/-- Waiting for the disk is between the active task and the disk. -/
theorem after_setActive {p : Phase} (hinv : Inv s) (ht : (s.phase t).Active)
    (hwoken : s.phase t ≠ .woken) (hp : p.Active) (hp' : p ≠ .woken) :
    after (setPhase t p) (fun _ s' l => Inv s' ∧ ∀ u, s.pending u ++ l.filterMap (askedOf u) =
      l.filterMap (servedOf u) ++ s'.pending u) s := by
  have hinv' := hinv.setActive ht hp
  unfold setPhase
  rw [after_modify]
  refine ⟨hinv', fun u => (List.append_nil _).trans
    (hinv.pending_congr hinv' ?_ fun r hr _ => hr).symm⟩
  by_cases hu : u = t
  · rw [hu, setPhase_self]
    refine iff_of_false ?_ ?_
    · rintro (rfl | rfl)
      · exact hp
      · exact hp' rfl
    · rintro (h' | h')
      · rw [h'] at ht
        exact ht
      · exact hwoken h'
  · rw [setPhase_ne _ hu]

/-- What one step keeps. -/
theorem after_code {a : Action} (hinv : Inv s) (ha : a.Possible s) :
    after a.code (fun _ s' l => Inv s' ∧ ∀ u, s.pending u ++ l.filterMap (askedOf u) =
      l.filterMap (servedOf u) ++ s'.pending u) s := by
  cases a with
  | request t type idx count => exact after_deviceRequest hinv ha
  | resume t => exact after_doRequest hinv ha
  | wait t =>
      change s.phase t = .serving at ha
      exact after_setActive hinv (by rw [ha]; trivial) (by rw [ha]; exact nofun) trivial nofun
  | disk t =>
      change s.phase t = .waiting at ha
      unfold Action.code taskUnblock
      simp only [after_bind, after_get, ha]
      exact after_setActive hinv (by rw [ha]; trivial) (by rw [ha]; exact nofun) trivial nofun
  | finish t => exact after_requestDone hinv ha

theorem Inv.returns_findRequest (hinv : Inv s) {Q : Request → State → Prop}
    (hr : r ∈ s.device.requests) (howner : r.owner = t) (hQ : Q r s) :
    Returns (findRequest t) Q s := by
  unfold findRequest
  refine returns_bind (returns_gets ?_)
  rw [hinv.find_owner hr howner]
  exact returns_pure hQ

theorem returns_deviceRequest {type : ReqType} {idx count : ℕ} :
    Returns (deviceRequest t type idx count) (fun _ _ => True) s := by
  refine returns_bind (returns_gets ?_)
  refine returns_bind (returns_note (returns_bind (returns_modify (returns_ite ?_ ?_))))
  · intro hempty
    refine returns_bind (returns_bind (returns_gets ?_))
    rw [List.isEmpty_iff.mp hempty]
    simp only [insertSort, List.find?_cons, decide_true]
    exact returns_pure (returns_bind (returns_note (returns_modify trivial)))
  · exact fun _ => returns_modify trivial

/-- No assertion fails. -/
theorem returns_code {a : Action} (hinv : Inv s) (ha : a.Possible s) :
    Returns a.code (fun _ _ => True) s := by
  cases a with
  | request t type idx count => exact returns_deviceRequest
  | resume t =>
      change s.phase t = .woken at ha
      obtain ⟨r, hr, howner⟩ := hinv.request (t := t) (by rw [ha]; exact nofun)
      refine returns_bind (hinv.returns_findRequest hr howner ?_)
      exact returns_bind (returns_note (returns_modify trivial))
  | wait t => exact returns_modify trivial
  | disk t =>
      change s.phase t = .waiting at ha
      refine returns_bind (returns_get ?_)
      rw [ha]
      exact returns_modify trivial
  | finish t =>
      change s.phase t = .serving at ha
      obtain ⟨r, hr, howner⟩ := hinv.request (t := t) (by rw [ha]; exact nofun)
      refine returns_bind (returns_gets (returns_bind (hinv.returns_findRequest hr howner ?_)))
      cases hfound : nextRequest s.device (s.device.requests.idxOf r) with
      | mk found up =>
        refine returns_bind (returns_modify (returns_bind (returns_modify ?_)))
        rcases hinv.next hr (by rw [howner, ha]; trivial) with
          ⟨hnone, _⟩ | ⟨next, hsome, hmem, hne, hqueued, htask⟩
        · rw [hfound] at hnone
          obtain rfl : found = none := hnone
          exact returns_pure trivial
        · rw [hfound] at hsome
          obtain rfl : found = some next := hsome
          have hnt : next.owner ≠ t :=
            fun h' => hne (hinv.eq_of_owner hmem hr (h'.trans howner.symm))
          dsimp only
          rw [htask]
          refine returns_bind (returns_pure (returns_bind (returns_get ?_)))
          rw [setPhase_ne _ hnt]
          dsimp only
          rw [hqueued]
          exact returns_modify trivial

/-! ## Runs -/

def Initial (s : State) : Prop := s.device.requests = [] ∧ ∀ t, s.phase t = .idle

theorem Initial.inv (hinit : Initial s) : Inv s := by
  refine ⟨?_, fun t => ?_, fun hne => absurd hinit.1 hne, fun t u ht _ => ?_, fun r hr _ => ?_⟩
  · rw [hinit.1]
    exact List.nodup_nil
  · simp [hinit.1, hinit.2 t]
  · rw [hinit.2 t] at ht
    exact ht.elim
  · rw [hinit.1] at hr
    cases hr

theorem inv_of_run (hinit : Initial s) (hrun : Run Step (fun _ _ => True) (s, []) (s', h)) :
    Inv s' ∧ Accounted s' h := by
  refine hrun.invariant (P := fun x => Inv x.1 ∧ Accounted x.1 x.2)
    (fun x a x' hx _ hstep => ?_) ⟨hinit.inv, fun t => ?_⟩
  · obtain ⟨ha, l, hcode, hl⟩ := hstep
    obtain ⟨hinv, hpending⟩ := after_code hx.1 ha _ _ _ hcode
    rw [hl]
    exact ⟨hinv, hx.2.step hpending⟩
  · simp [State.pending, hinit.1]

/-- What holds of the queue in every state that is reached. -/
structure Orderly (s : State) (h : List Event) : Prop where
  /-- As long as there are requests, the device is at exactly one of them. -/
  active : s.device.requests ≠ [] ↔ ∃! r, r ∈ s.device.requests ∧ (s.phase r.owner).Active
  blocked : ∀ r ∈ s.device.requests, ¬(s.phase r.owner).Active →
    s.phase r.owner = .queued ∧ r.task = some r.owner
  served : ∀ t, h.filterMap (askedOf t) = h.filterMap (servedOf t) ++ s.pending t
  attended : ∀ t, s.phase t = .queued → ∃ r ∈ s.device.requests, (s.phase r.owner).Active
  last : ∀ r ∈ s.device.requests, s.phase r.owner = .serving →
    ((nextRequest s.device (s.device.requests.idxOf r)).1 = none ↔ s.device.requests = [r])
  returns : ∀ a : Action, a.Possible s → Returns a.code (fun _ _ => True) s

theorem Inv.orderly (hinv : Inv s) (hacc : Accounted s h) : Orderly s h := by
  have hattended : s.device.requests ≠ [] →
      ∃ r ∈ s.device.requests, (s.phase r.owner).Active := by
    intro hne
    obtain ⟨t, ht⟩ := hinv.active hne
    have hbusy : s.phase t ≠ .idle := by
      intro hidle
      rw [hidle] at ht
      exact ht
    obtain ⟨r, hr, rfl⟩ := hinv.request hbusy
    exact ⟨r, hr, ht⟩
  refine ⟨⟨fun hne => ?_, ?_⟩, fun r hr hactive => ?_, hacc, fun t ht => ?_, fun r hr ht => ?_,
    fun a ha => returns_code hinv ha⟩
  · obtain ⟨r, hr, hactive⟩ := hattended hne
    exact ⟨r, ⟨hr, hactive⟩, fun r' hr' =>
      hinv.eq_of_owner hr'.1 hr (hinv.unique _ _ hr'.2 hactive)⟩
  · rintro ⟨r, ⟨hr, _⟩, _⟩ hnil
    rw [hnil] at hr
    cases hr
  · have hqueued : s.phase r.owner = .queued := by
      have hbusy := (hinv.busy r.owner).mpr ⟨r, hr, rfl⟩
      cases hp : s.phase r.owner with
      | idle => exact absurd hp hbusy
      | queued => rfl
      | woken | serving | waiting => exact absurd (by rw [hp]; trivial) hactive
    exact ⟨hqueued, hinv.queued r hr hqueued⟩
  · obtain ⟨r, hr, _⟩ := hinv.request (t := t) (by rw [ht]; exact nofun)
    exact hattended (List.ne_nil_of_mem hr)
  · rcases hinv.next hr (by rw [ht]; trivial) with ⟨hnone, halone⟩ | ⟨next, hsome, hmem, hne, _⟩
    · exact iff_of_true hnone halone
    · rw [hsome]
      refine iff_of_false nofun fun halone => hne ?_
      rw [halone, List.mem_singleton] at hmem
      exact hmem

/-- In every order of steps the requests are served one at a time, and none is forgotten. -/
theorem requests_served (hinit : Initial s)
    (hrun : Run Step (fun _ _ => True) (s, []) (s', h)) : Orderly s' h := by
  obtain ⟨hinv, hacc⟩ := inv_of_run hinit hrun
  exact hinv.orderly hacc

def unused : State := ⟨⟨0, [], true, none⟩, fun _ => .idle⟩

/-- The request of task 1 is served. -/
def serving : State :=
  ⟨⟨0, [⟨1, .read, 5, 1, none⟩], true, none⟩, fun u => if u = 1 then .serving else .idle⟩

theorem unused_serves : Step (unused, []) (.request 1 .read 5 1)
    (serving, [.asked ⟨1, .read, 5, 1, none⟩, .served ⟨1, .read, 5, 1, none⟩]) :=
  ⟨rfl, _, rfl, rfl⟩

theorem serving_orderly :
    Orderly serving [.asked ⟨1, .read, 5, 1, none⟩, .served ⟨1, .read, 5, 1, none⟩] :=
  requests_served ⟨rfl, fun _ => rfl⟩ (Run.refl.tail trivial unused_serves)

end Ylos.Requests
