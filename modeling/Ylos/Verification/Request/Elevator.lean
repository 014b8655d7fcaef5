import Ylos.Verification.Request.Queue
import Ylos.Verification.Task.Sleepers

/-! # The elevator order of the request queue -/

namespace Ylos.Requests

open Exec Sched

variable {s s' : State} {t u i k : ℕ} {r req next : Request} {h l : List Event} {up : Bool}
  {requests pre post : List Request} {device : Device}

/-! ## Sorted queues -/

/-- A value goes behind all those with its key: insertion keeps the order of arrival. -/
theorem filter_insertSort {β : Type} (key : β → ℤ) (x : β) (c : ℤ) {xs : List β}
    (h : xs.Pairwise fun a b => key a ≤ key b) :
    (insertSort key x xs).filter (fun y => key y = c) =
      xs.filter (fun y => key y = c) ++ [x].filter fun y => key y = c := by
  induction xs with
  | nil => rfl
  | cons y ys ih =>
      obtain ⟨hfirst, hrest⟩ := List.pairwise_cons.mp h
      unfold insertSort
      split
      · rename_i hlt
        by_cases hx : key x = c
        · have hnone : (y :: ys).filter (fun y => key y = c) = [] := by
            apply List.filter_eq_nil_iff.mpr
            intro z hz
            have hle : key y ≤ key z := by
              rcases List.mem_cons.mp hz with rfl | hz
              · exact le_rfl
              · exact hfirst z hz
            simp only [decide_eq_true_eq]
            omega
          rw [List.filter_cons_of_pos (by simpa using hx), hnone]
          simp [hx]
        · simp [hx]
      · rw [List.filter_cons, ih hrest]
        split <;> simp [List.filter_cons, *]

/-- The queue is sorted by the sectors. -/
def Sorted (requests : List Request) : Prop := requests.Pairwise fun r r' => r.idx ≤ r'.idx

/-- Below `2^31` an `int` has the value of the sector. -/
theorem int32_of_lt (h : k < 2 ^ 31) : int32 k = k := by
  unfold int32
  omega

/-- The sector numbers of a queue are below `2^31`. -/
def InRange (requests : List Request) : Prop := ∀ r ∈ requests, r.idx < 2 ^ 31

theorem Sorted.keys (hsorted : Sorted requests) (hrange : InRange requests) :
    requests.Pairwise fun r r' => int32 r.idx ≤ int32 r'.idx := by
  apply List.Pairwise.imp_of_mem _ hsorted
  intro r r' hr hr' hle
  rw [int32_of_lt (hrange r hr), int32_of_lt (hrange r' hr')]
  exact_mod_cast hle

theorem InRange.insert (hrange : InRange requests) (hreq : req.idx < 2 ^ 31) :
    InRange (insertSort (fun r => int32 r.idx) req requests) := by
  intro r hr
  rcases List.mem_cons.mp ((perm_insertSort _ _ _).mem_iff.mp hr) with rfl | hr
  · exact hreq
  · exact hrange r hr

theorem Sorted.insert (hsorted : Sorted requests) (hrange : InRange requests)
    (hreq : req.idx < 2 ^ 31) : Sorted (insertSort (fun r => int32 r.idx) req requests) := by
  have hkeys := pairwise_insertSort (fun r : Request => int32 r.idx) req (hsorted.keys hrange)
  have hrange' := hrange.insert hreq
  apply List.Pairwise.imp_of_mem _ hkeys
  intro r r' hr hr' hle
  rw [int32_of_lt (hrange' r hr), int32_of_lt (hrange' r' hr')] at hle
  exact_mod_cast hle

theorem filter_insert (hsorted : Sorted requests) (hrange : InRange requests)
    (hreq : req.idx < 2 ^ 31) (k : ℕ) :
    (insertSort (fun r => int32 r.idx) req requests).filter (fun r => r.idx = k) =
      requests.filter (fun r => r.idx = k) ++ [req].filter fun r => r.idx = k := by
  have hkey : ∀ {l : List Request}, InRange l →
      l.filter (fun r => r.idx = k) = l.filter fun r => int32 r.idx = (k : ℤ) := by
    intro l hl
    apply List.filter_congr
    intro r hr
    rw [int32_of_lt (hl r hr), decide_eq_decide]
    omega
  have hone : InRange [req] := by
    intro r hr
    rw [List.mem_singleton.mp hr]
    exact hreq
  rw [hkey (hrange.insert hreq), hkey hrange, hkey hone]
  exact filter_insertSort (fun r : Request => int32 r.idx) req k (hsorted.keys hrange)

/-! ## The neighbours of a request -/

/-- Whether the elevator goes up after a request with these before and behind it. -/
def turned (up : Bool) (pre post : List Request) : Bool :=
  if up ∧ post = [] then false else if !up ∧ pre = [] then true else up

theorem nextRequest_append (hsplit : device.requests = pre ++ r :: post) :
    nextRequest device pre.length = (if turned device.up pre post then post.head?
      else pre.getLast?, turned device.up pre post) := by
  have hlast : pre.length + 1 = device.requests.length ↔ post = [] := by
    rw [hsplit, List.length_append, List.length_cons, ← List.length_eq_zero_iff]
    omega
  have hnext : device.requests[pre.length + 1]? = post.head? := by
    rw [hsplit, List.getElem?_append_right (by omega), Nat.add_sub_cancel_left,
      List.getElem?_cons_succ, List.head?_eq_getElem?]
  have hprev : pre.length ≠ 0 → device.requests[pre.length - 1]? = pre.getLast? := by
    intro hpos
    rw [hsplit, List.getElem?_append_left (by omega), List.getLast?_eq_getElem?]
  unfold nextRequest
  simp only [hlast, List.length_eq_zero_iff]
  change (if turned device.up pre post then (_, turned device.up pre post) else
    if pre = [] then (none, turned device.up pre post) else
      (_, turned device.up pre post)) = _
  split
  · rw [hnext]
  · split
    · rename_i hnil
      simp [hnil]
    · rename_i hne
      rw [hprev (by simpa using hne)]

/-- `next` is where the elevator comes from `r`, on its way up or down. -/
structure Neighbour (requests : List Request) (r next : Request) (up : Bool) : Prop where
  beside : ∃ pre post, requests =
    if up then pre ++ r :: next :: post else pre ++ next :: r :: post
  ahead : if up then r.idx ≤ next.idx else next.idx ≤ r.idx
  between : ∀ q ∈ requests, if up then ¬(r.idx < q.idx ∧ q.idx < next.idx)
    else ¬(next.idx < q.idx ∧ q.idx < r.idx)

/-- A request lies beyond `r` on the way of the elevator. -/
def Beyond (requests : List Request) (r : Request) (up : Bool) : Prop :=
  ∃ q ∈ requests, if up then r.idx < q.idx else q.idx < r.idx

theorem Sorted.between {r r' : Request} (hsorted : Sorted (pre ++ r :: r' :: post)) :
    r.idx ≤ r'.idx ∧ ∀ q ∈ pre ++ r :: r' :: post, q.idx ≤ r.idx ∨ r'.idx ≤ q.idx := by
  obtain ⟨-, hright, hcross⟩ := List.pairwise_append.mp hsorted
  obtain ⟨hr, hright⟩ := List.pairwise_cons.mp hright
  obtain ⟨hr', -⟩ := List.pairwise_cons.mp hright
  refine ⟨hr r' List.mem_cons_self, ?_⟩
  intro q hq
  rcases List.mem_append.mp hq with hq | hq
  · exact .inl (hcross q hq r List.mem_cons_self)
  · rcases List.mem_cons.mp hq with rfl | hq
    · exact .inl le_rfl
    · rcases List.mem_cons.mp hq with rfl | hq
      · exact .inr le_rfl
      · exact .inr (hr' q hq)

/-- The request that comes next is the neighbour in the direction that is left. -/
theorem neighbour_of_next (hsorted : Sorted device.requests)
    (hsplit : device.requests = pre ++ r :: post)
    (hnext : (nextRequest device pre.length).1 = some next) :
    Neighbour device.requests r next (nextRequest device pre.length).2 := by
  rw [nextRequest_append hsplit] at hnext ⊢
  simp only at hnext ⊢
  cases hup : turned device.up pre post with
  | true =>
      rw [hup, if_pos rfl] at hnext
      obtain ⟨rest, rfl⟩ := List.head?_eq_some_iff.mp hnext
      rw [hsplit] at hsorted ⊢
      obtain ⟨hle, hbetween⟩ := hsorted.between
      refine ⟨⟨pre, rest, rfl⟩, hle, fun q hq => ?_⟩
      have hq' := hbetween q hq
      simp only [if_true]
      omega
  | false =>
      rw [hup, if_neg (by simp)] at hnext
      obtain ⟨front, rfl⟩ := List.getLast?_eq_some_iff.mp hnext
      rw [hsplit, List.append_assoc, List.singleton_append] at hsorted ⊢
      obtain ⟨hle, hbetween⟩ := hsorted.between
      refine ⟨⟨front, post, rfl⟩, hle, fun q hq => ?_⟩
      have hq' := hbetween q hq
      simp only [Bool.false_eq_true, if_false]
      omega

/-- The elevator turns only at the end of its way. -/
theorem not_beyond_of_turn (hsorted : Sorted device.requests)
    (hsplit : device.requests = pre ++ r :: post)
    (hturn : (nextRequest device pre.length).2 ≠ device.up) :
    ¬Beyond device.requests r device.up := by
  rw [nextRequest_append hsplit] at hturn
  rw [hsplit] at hsorted ⊢
  obtain ⟨-, hright, hcross⟩ := List.pairwise_append.mp hsorted
  obtain ⟨hr, -⟩ := List.pairwise_cons.mp hright
  rintro ⟨q, hq, hlt⟩
  unfold turned at hturn
  cases hup : device.up with
  | true =>
      rw [hup] at hturn hlt
      have hpost : post = [] := by
        by_contra hne
        simp [hne] at hturn
      simp only [if_true] at hlt
      rw [hpost] at hq
      rcases List.mem_append.mp hq with hq | hq
      · have hle := hcross q hq r List.mem_cons_self
        omega
      · rw [List.mem_singleton.mp hq] at hlt
        exact absurd hlt (lt_irrefl _)
  | false =>
      rw [hup] at hturn hlt
      have hpre : pre = [] := by
        by_contra hne
        simp [hne] at hturn
      simp only [Bool.false_eq_true, if_false] at hlt
      rw [hpre, List.nil_append] at hq
      rcases List.mem_cons.mp hq with rfl | hq
      · exact absurd hlt (lt_irrefl _)
      · have hle := hr q hq
        omega

/-! ## The order of arrival -/

/-- The latest request of each task, in the order in which they came. -/
def arrive (arrived : List Request) : Event → List Request
  | .asked req => arrived.filter (fun r => r.owner ≠ req.owner) ++ [req]
  | .served _ => arrived

def arrivals (h : List Event) : List Request := h.foldl arrive []

def Event.request : Event → Option Request
  | .served req => some req
  | .asked _ => none

/-- The requests that `do_request` was called for, in order. -/
def started (h : List Event) : List Request := h.filterMap Event.request

/-- No request was made. -/
def Silent (l : List Event) : Prop := ∀ e ∈ l, ∃ req, e = .served req

theorem arrivals_silent (hl : Silent l) : arrivals (h ++ l) = arrivals h := by
  unfold arrivals
  rw [List.foldl_append]
  generalize h.foldl arrive [] = arrived
  induction l generalizing arrived with
  | nil => rfl
  | cons e l ih =>
      obtain ⟨req, rfl⟩ := hl e List.mem_cons_self
      exact ih (fun e' he' => hl e' (List.mem_cons_of_mem _ he')) arrived

theorem arrivals_asked (hl : Silent l) : arrivals (h ++ .asked req :: l) =
    (arrivals h).filter (fun r => r.owner ≠ req.owner) ++ [req] := by
  rw [List.append_cons, arrivals_silent hl]
  unfold arrivals
  rw [List.foldl_append]
  rfl

/-- The queue is sorted, and requests for one sector stand in the order of arrival. -/
structure Ordered (s : State) (h : List Event) : Prop where
  sorted : Sorted s.device.requests
  arrival : ∀ k, s.device.requests.filter (fun r => r.idx = k) =
    (arrivals h).filter fun r => r ∈ s.device.requests ∧ r.idx = k

/-! ## What the steps do to the queue -/

/-- A request comes in. -/
structure Arrived (s : State) (req : Request) (s' : State) (l : List Event) : Prop where
  idle : s.phase req.owner = .idle
  requests : s'.device.requests = insertSort (fun r => int32 r.idx) req s.device.requests
  up : s'.device.up = s.device.up
  phase : ∀ u, u ≠ req.owner → s'.phase u = s.phase u
  events : ∃ l', l = .asked req :: l' ∧ Silent l' ∧ (s.device.requests ≠ [] → l' = [])

/-- The queue stays as it is. -/
structure Unmoved (s s' : State) (l : List Event) : Prop where
  requests : s'.device.requests = s.device.requests
  up : s'.device.up = s.device.up
  events : Silent l

theorem after_deviceRequest_arrived {type : ReqType} {idx count : ℕ} (ht : s.phase t = .idle) :
    after (deviceRequest t type idx count) (fun _ s' l =>
      ∃ req, req.owner = t ∧ req.idx = idx ∧ Arrived s req s' l) s := by
  unfold deviceRequest setRequests
  simp only [after_bind, after_gets, after_note, after_modify, after_ite]
  constructor
  · intro hnil
    unfold doRequest findRequest setPhase
    simp only [after_bind, after_gets, after_deref, after_note, after_modify]
    intro first _
    refine ⟨_, rfl, rfl, ht, rfl, rfl, fun u hu => setPhase_ne _ hu, [.served first], ?_,
      by simp [Silent], fun hne => ?_⟩
    · simp
    · exact absurd (List.isEmpty_iff.mp hnil) hne
  · intro _
    unfold setPhase
    rw [after_modify]
    refine ⟨_, rfl, rfl, ht, rfl, rfl, fun u hu => setPhase_ne _ hu, [], ?_, by simp [Silent],
      fun _ => rfl⟩
    simp

/-- What a step does to the queue. -/
theorem after_code_queue {a : Action} (hinv : Inv s) (ha : a.Possible s) :
    after a.code (fun _ s' l =>
      (∃ t type idx count req, a = .request t type idx count ∧ req.owner = t ∧ req.idx = idx ∧
        Arrived s req s' l) ∨
      (∃ r ∈ s.device.requests, a = .finish r.owner ∧ s.phase r.owner = .serving ∧ l = [] ∧
        Finished s r s') ∨
      Unmoved s s' l ∧ ∀ t, a ≠ .finish t) s := by
  cases a with
  | request t type idx count =>
      refine after_mono (after_deviceRequest_arrived ha) ?_
      rintro _ s' l ⟨req, howner, hidx, harrived⟩
      exact .inl ⟨t, type, idx, count, req, rfl, howner, hidx, harrived⟩
  | finish t =>
      change s.phase t = .serving at ha
      obtain ⟨r, hr, rfl⟩ := hinv.request (t := t) (by rw [ha]; exact nofun)
      refine after_mono (after_requestDone_finished hinv hr rfl (by rw [ha]; trivial)) ?_
      rintro _ s' l ⟨hl, hfinished⟩
      exact .inr (.inl ⟨r, hr, rfl, ha, hl, hfinished⟩)
  | resume t =>
      unfold Action.code doRequest findRequest setPhase
      simp only [after_bind, after_gets, after_deref, after_note, after_modify]
      intro r _
      exact .inr (.inr ⟨⟨rfl, rfl, by simp [Silent]⟩, by simp⟩)
  | wait t =>
      unfold Action.code setPhase
      rw [after_modify]
      exact .inr (.inr ⟨⟨rfl, rfl, by simp [Silent]⟩, by simp⟩)
  | disk t =>
      change s.phase t = .waiting at ha
      unfold Action.code taskUnblock setPhase
      simp only [after_bind, after_get, ha, after_modify]
      exact .inr (.inr ⟨⟨rfl, rfl, by simp [Silent]⟩, by simp⟩)

/-! ## Steps -/

theorem Inv.owner_ne (hinv : Inv s) (ht : s.phase t = .idle) (hr : r ∈ s.device.requests) :
    r.owner ≠ t :=
  fun howner => (hinv.busy t).mpr ⟨r, hr, howner⟩ ht

theorem Ordered.arrived (hordered : Ordered s h) (hinv : Inv s)
    (hrange : InRange s.device.requests) (hreq : req.idx < 2 ^ 31)
    (harrived : Arrived s req s' l) : Ordered s' (h ++ l) := by
  obtain ⟨l', rfl, hsilent, -⟩ := harrived.events
  have hmem : ∀ r, r ∈ s'.device.requests ↔ r = req ∨ r ∈ s.device.requests := by
    intro r
    rw [harrived.requests, (perm_insertSort _ _ _).mem_iff, List.mem_cons]
  constructor
  · rw [harrived.requests]
    exact hordered.sorted.insert hrange hreq
  · intro k
    have hold : ((arrivals h).filter (fun r => r.owner ≠ req.owner)).filter
        (fun r => r ∈ s'.device.requests ∧ r.idx = k) =
        (arrivals h).filter fun r => r ∈ s.device.requests ∧ r.idx = k := by
      rw [List.filter_filter]
      apply List.filter_congr
      intro r _
      rw [← Bool.decide_and, decide_eq_decide, hmem]
      have hne := fun hr => hinv.owner_ne (r := r) harrived.idle hr
      constructor
      · rintro ⟨⟨rfl | hr, hk⟩, howner⟩
        · exact absurd rfl howner
        · exact ⟨hr, hk⟩
      · rintro ⟨hr, hk⟩
        exact ⟨⟨.inr hr, hk⟩, hne hr⟩
    have hnew : [req].filter (fun r => r ∈ s'.device.requests ∧ r.idx = k) =
        [req].filter fun r => r.idx = k := by
      apply List.filter_congr
      intro r hr
      rw [List.mem_singleton.mp hr]
      simp [(hmem req).mpr (.inl rfl)]
    rw [arrivals_asked hsilent, List.filter_append, hold, hnew, harrived.requests,
      filter_insert hordered.sorted hrange hreq, hordered.arrival]

theorem Ordered.finished (hordered : Ordered s h) (hinv : Inv s)
    (hfinished : Finished s r s') : Ordered s' h := by
  have hnodup : s.device.requests.Nodup := List.Nodup.of_map _ hinv.owners
  have hreq : s'.device.requests = s.device.requests.filter (· ≠ r) := by
    rw [hfinished.requests, hnodup.erase_eq_filter]
    apply List.filter_congr
    intro q _
    rw [Bool.eq_iff_iff]
    simp
  constructor
  · rw [hreq]
    exact List.Pairwise.filter _ hordered.sorted
  · intro k
    calc s'.device.requests.filter (fun r => r.idx = k)
        = (s.device.requests.filter fun r => r.idx = k).filter (· ≠ r) := by
          rw [hreq, List.filter_filter, List.filter_filter]
          exact List.filter_congr fun _ _ => Bool.and_comm _ _
      _ = ((arrivals h).filter fun r => r ∈ s.device.requests ∧ r.idx = k).filter (· ≠ r) := by
          rw [hordered.arrival]
      _ = (arrivals h).filter fun r => r ∈ s'.device.requests ∧ r.idx = k := by
          rw [List.filter_filter]
          apply List.filter_congr
          intro q _
          rw [← Bool.decide_and, decide_eq_decide, hreq]
          simp only [List.mem_filter, decide_eq_true_eq]
          tauto

theorem Ordered.unmoved (hordered : Ordered s h) (hunmoved : Unmoved s s' l) :
    Ordered s' (h ++ l) := by
  constructor
  · rw [hunmoved.requests]
    exact hordered.sorted
  · intro k
    rw [hunmoved.requests, arrivals_silent hunmoved.events]
    exact hordered.arrival k

/-- Only sectors below `2^31` are asked for. -/
def Low : Action → Prop
  | .request _ _ idx _ => idx < 2 ^ 31
  | _ => True

/-- What one step keeps. -/
theorem Ordered.step {a : Action} (hordered : Ordered s h) (hinv : Inv s)
    (hrange : InRange s.device.requests) (ha : a.Possible s) (hlow : Low a) :
    after a.code (fun _ s' l => Ordered s' (h ++ l) ∧ InRange s'.device.requests) s := by
  refine after_mono (after_code_queue hinv ha) ?_
  rintro _ s' l (⟨t, type, idx, count, req, rfl, howner, rfl, harrived⟩ |
    ⟨r, hr, rfl, hserving, rfl, hfinished⟩ | ⟨hunmoved, -⟩)
  · refine ⟨hordered.arrived hinv hrange hlow harrived, ?_⟩
    rw [harrived.requests]
    exact hrange.insert hlow
  · refine ⟨by simpa using hordered.finished hinv hfinished, ?_⟩
    rw [hfinished.requests]
    exact fun q hq => hrange q (List.mem_of_mem_erase hq)
  · refine ⟨hordered.unmoved hunmoved, ?_⟩
    rw [hunmoved.requests]
    exact hrange

theorem ordered_of_run (hinit : Initial s)
    (hrun : Run Step (fun _ a => Low a) (s, []) (s', h)) :
    Inv s' ∧ Ordered s' h ∧ InRange s'.device.requests := by
  refine hrun.invariant (P := fun x => Inv x.1 ∧ Ordered x.1 x.2 ∧ InRange x.1.device.requests)
    ?_ ⟨hinit.inv, ⟨?_, ?_⟩, ?_⟩
  · rintro x a x' ⟨hinv, hordered, hrange⟩ hlow ⟨ha, l, hcode, hl⟩
    rw [hl]
    exact ⟨(after_code hinv ha _ _ _ hcode).1, hordered.step hinv hrange ha hlow _ _ _ hcode⟩
  · simp [Sorted, hinit.1]
  · simp [hinit.1, arrivals]
  · simp [InRange, hinit.1]

/-! ## What is served next -/

theorem Inv.split (hinv : Inv s) (hr : r ∈ s.device.requests) :
    ∃ pre post, s.device.requests = pre ++ r :: post ∧
      s.device.requests.idxOf r = pre.length := by
  have hnodup : s.device.requests.Nodup := List.Nodup.of_map _ hinv.owners
  obtain ⟨pre, post, hsplit⟩ := List.append_of_mem hr
  refine ⟨pre, post, hsplit, ?_⟩
  have hnot : r ∉ pre := by
    intro hmem
    rw [hsplit, List.nodup_append] at hnodup
    exact hnodup.2.2 r hmem r List.mem_cons_self rfl
  rw [hsplit, List.idxOf_append_of_notMem hnot]
  simp

/-- The device is about to serve the request. -/
def Next (s : State) (next : Request) : Prop :=
  next ∈ s.device.requests ∧ s.phase next.owner = .woken

/-- Other requests come in, or the request is served. -/
theorem after_next {a : Action} (hinv : Inv s) (ha : a.Possible s) (hnext : Next s next) :
    after a.code (fun _ s' l => Next s' next ∧ started l = [] ∨ started l = [next]) s := by
  obtain ⟨hmem, hwoken⟩ := hnext
  have hserving : ∀ t, (s.phase t).Active → s.phase t = .woken := by
    intro t ht
    rw [hinv.unique t next.owner ht (by rw [hwoken]; trivial), hwoken]
  cases a with
  | request t type idx count =>
      refine after_mono (after_deviceRequest_arrived ha) ?_
      rintro _ s' l ⟨req, howner, -, harrived⟩
      obtain ⟨l', rfl, -, hnil⟩ := harrived.events
      rw [hnil (List.ne_nil_of_mem hmem)]
      refine .inl ⟨⟨?_, ?_⟩, rfl⟩
      · rw [harrived.requests, (perm_insertSort _ _ _).mem_iff]
        exact List.mem_cons_of_mem _ hmem
      · rw [harrived.phase _ (hinv.owner_ne harrived.idle hmem), hwoken]
  | resume t =>
      change s.phase t = .woken at ha
      have howner : next.owner = t :=
        hinv.unique _ _ (by rw [hwoken]; trivial) (by rw [ha]; trivial)
      unfold Action.code doRequest
      rw [after_bind]
      refine hinv.after_findRequest hmem howner ?_
      unfold setPhase
      simp only [after_bind, after_note, after_modify]
      exact .inr rfl
  | wait t =>
      change s.phase t = .serving at ha
      have hcontra := hserving t (by rw [ha]; trivial)
      rw [ha] at hcontra
      cases hcontra
  | disk t =>
      change s.phase t = .waiting at ha
      have hcontra := hserving t (by rw [ha]; trivial)
      rw [ha] at hcontra
      cases hcontra
  | finish t =>
      change s.phase t = .serving at ha
      have hcontra := hserving t (by rw [ha]; trivial)
      rw [ha] at hcontra
      cases hcontra

/-- In every run that follows, the request is the first that is served. -/
theorem next_of_run {y : State × List Event} (hinv : Inv s) (hnext : Next s next)
    (hrun : Run Step (fun _ _ => True) (s, h) y) :
    ∃ l, y.2 = h ++ l ∧ Inv y.1 ∧
      (Next y.1 next ∧ started l = [] ∨ (started l).head? = some next) := by
  induction hrun with
  | refl => exact ⟨[], (List.append_nil h).symm, hinv, .inl ⟨hnext, rfl⟩⟩
  | tail _ _ hstep ih =>
      obtain ⟨l, hl, hinv', hcase⟩ := ih
      obtain ⟨ha, l', hcode, hl'⟩ := hstep
      have hinv'' := (after_code hinv' ha _ _ _ hcode).1
      refine ⟨l ++ l', by rw [hl', hl, List.append_assoc], hinv'', ?_⟩
      unfold started
      rw [List.filterMap_append]
      change Next _ next ∧ started l ++ started l' = [] ∨
        (started l ++ started l').head? = some next
      rcases hcase with ⟨hnext', hnil⟩ | hhead
      · rw [hnil, List.nil_append]
        rcases after_next hinv' ha hnext' _ _ _ hcode with hnext'' | hserved
        · exact .inl hnext''
        · exact .inr (by rw [hserved]; rfl)
      · obtain ⟨rest, hrest⟩ := List.head?_eq_some_iff.mp hhead
        exact .inr (by rw [hrest]; rfl)

/-! ## Runs -/

/-- The device has finished `r` and goes on to its neighbour. -/
def Elevates (s : State) (r : Request) (x : State × List Event) : Prop :=
  ∃ next, Neighbour s.device.requests r next x.1.device.up ∧
    ∀ y, Run Step (fun _ _ => True) x y →
      ∃ l, y.2 = x.2 ++ l ∧ (started l = [] ∨ (started l).head? = some next)

/-- The queue is in the order of the sectors and of arrival, a request is followed by its
neighbour in the direction of the elevator, and the direction changes only at an end. -/
theorem elevator_order (hinit : Initial s)
    (hrun : Run Step (fun _ a => Low a) (s, []) (s', h)) :
    Ordered s' h ∧
      (∀ r ∈ s'.device.requests, s'.device.requests ≠ [r] →
        ∀ x, Step (s', h) (.finish r.owner) x → Elevates s' r x) ∧
      ∀ a x, Step (s', h) a x → x.1.device.up ≠ s'.device.up →
        ∃ r ∈ s'.device.requests, a = .finish r.owner ∧
          ¬Beyond s'.device.requests r s'.device.up := by
  obtain ⟨hinv, hordered, hrange⟩ := ordered_of_run hinit hrun
  refine ⟨hordered, ?_, ?_⟩
  · rintro r hr hothers ⟨s'', h''⟩ ⟨hserving, l, hcode, hl⟩
    have hserving : s'.phase r.owner = .serving := hserving
    have hactive : (s'.phase r.owner).Active := by rw [hserving]; trivial
    obtain ⟨hnil, hfinished⟩ := after_requestDone_finished hinv hr rfl hactive _ _ _ hcode
    have hinv'' := (after_requestDone hinv hserving _ _ _ hcode).1
    rcases hinv.next hr hactive with ⟨-, halone⟩ | ⟨next, hsome, hmem, hne, -⟩
    · exact absurd halone hothers
    · obtain ⟨pre, post, hsplit, hidx⟩ := hinv.split hr
      refine ⟨next, ?_, fun y hy => ?_⟩
      · have hneighbour := neighbour_of_next hordered.sorted hsplit (hidx ▸ hsome)
        rwa [← hidx, ← hfinished.up] at hneighbour
      · have hnext : Next s'' next := by
          refine ⟨?_, hfinished.woken next hsome⟩
          rw [hfinished.requests]
          exact (List.mem_erase_of_ne hne).mpr hmem
        obtain ⟨l', hl', -, hcase⟩ := next_of_run hinv'' hnext hy
        exact ⟨l', hl', hcase.imp_left And.right⟩
  · rintro a ⟨s'', h''⟩ ⟨ha, l, hcode, hl⟩ hturn
    rcases after_code_queue hinv ha _ _ _ hcode with
      ⟨t, type, idx, count, req, rfl, howner, -, harrived⟩ |
        ⟨r, hr, rfl, -, -, hfinished⟩ | ⟨hunmoved, -⟩
    · exact absurd harrived.up hturn
    · obtain ⟨pre, post, hsplit, hidx⟩ := hinv.split hr
      refine ⟨r, hr, rfl, not_beyond_of_turn hordered.sorted hsplit ?_⟩
      rw [← hidx, ← hfinished.up]
      exact hturn
    · exact absurd hunmoved.up hturn

/-- Task 2 asks for sector 9 while sector 5 is served. -/
def joined : State :=
  ⟨⟨0, [⟨1, .read, 5, 1, none⟩, ⟨2, .read, 9, 1, some 2⟩], true, none⟩,
    fun u => if u = 2 then .queued else if u = 1 then .serving else .idle⟩

theorem serving_joins : Step
    (serving, [.asked ⟨1, .read, 5, 1, none⟩, .served ⟨1, .read, 5, 1, none⟩])
    (.request 2 .read 9 1)
    (joined, [.asked ⟨1, .read, 5, 1, none⟩, .served ⟨1, .read, 5, 1, none⟩,
      .asked ⟨2, .read, 9, 1, some 2⟩]) :=
  ⟨rfl, _, rfl, rfl⟩

/-- The first request is done. -/
def parted : State :=
  ⟨⟨0, [⟨2, .read, 9, 1, some 2⟩], true, none⟩,
    fun u => if u = 2 then .woken else if u = 1 then .idle else joined.phase u⟩

theorem joined_finishes (h : List Event) : Step (joined, h) (.finish 1) (parted, h) :=
  ⟨rfl, [], rfl, (List.append_nil h).symm⟩

theorem joined_elevates : ∃ h, Elevates joined ⟨1, .read, 5, 1, none⟩ (parted, h) := by
  have hfirst : Low (.request 1 .read 5 1) := by simp [Low]
  have hsecond : Low (.request 2 .read 9 1) := by simp [Low]
  have horder := elevator_order ⟨rfl, fun _ => rfl⟩
    (.tail (.tail .refl hfirst unused_serves) hsecond serving_joins)
  exact ⟨_, horder.2.1 _ List.mem_cons_self (by decide) _ (joined_finishes _)⟩

end Ylos.Requests
