import Ylos.Lib.Queue
import Ylos.Lib.Ring
import Ylos.Model.Pipe

/-! # The ring buffer is a bounded queue

One place stays free, so that a full buffer is told from an empty one. -/

namespace Ylos.Pipes

open Exec RingBuffer BoundedQueue

/-- The number of bytes from the tail to the head. -/
def Fifo.count (fifo : Fifo) : ℕ := (fifo.head + fifo.length - fifo.tail) % fifo.length

/-- The bytes from the tail to the head. -/
def Fifo.content (fifo : Fifo) : List UInt8 :=
  window fifo.buf fifo.length fifo.tail fifo.count

def Fifo.capacity (fifo : Fifo) : ℕ := fifo.length - 1

/-- The buffer holds the bytes `q`. -/
structure Fifo.Holds (fifo : Fifo) (q : List UInt8) : Prop where
  tail : fifo.tail < fifo.length
  room : q.length < fifo.length
  head : fifo.head = place fifo.length fifo.tail q.length
  content : window fifo.buf fifo.length fifo.tail q.length = q

/-- The byte at the tail is taken out. -/
def Fifo.pop (fifo : Fifo) : Fifo := { fifo with tail := fifo.next fifo.tail }

/-- A byte is put in at the head. -/
def Fifo.push (fifo : Fifo) (byte : UInt8) : Fifo :=
  { fifo with
    buf := fun i => if i = fifo.head then byte else fifo.buf i
    head := fifo.next fifo.head }

variable {fifo : Fifo} {s : State} {q : List UInt8} {a byte : UInt8}

/-! ## What a buffer holds -/

theorem Fifo.Holds.count (h : fifo.Holds q) : fifo.count = q.length := by
  unfold Fifo.count
  rw [h.head]
  exact distance_place h.tail h.room

theorem Fifo.Holds.content_eq (h : fifo.Holds q) : fifo.content = q := by
  unfold Fifo.content
  rw [h.count]
  exact h.content

theorem Fifo.Holds.head_lt (h : fifo.Holds q) : fifo.head < fifo.length := by
  rw [h.head]
  exact place_lt (Nat.zero_lt_of_lt h.tail)

theorem Fifo.Holds.next_head (h : fifo.Holds q) :
    fifo.next fifo.head = place fifo.length fifo.tail (q.length + 1) := by
  rw [h.head]
  exact place_place

theorem Fifo.Holds.empty (h : fifo.Holds q) : fifo.empty = decide (q.length = 0) := by
  have hroom := h.room
  unfold Fifo.empty
  rw [h.head, decide_eq_decide, place_eq_tail_iff h.tail hroom.le]
  omega

theorem Fifo.Holds.full (h : fifo.Holds q) :
    fifo.full = decide (q.length + 1 = fifo.length) := by
  unfold Fifo.full
  rw [h.next_head, decide_eq_decide, place_eq_tail_iff h.tail h.room]
  omega

/-- Two indices below the length are all that a buffer needs. -/
theorem Fifo.holds_content (hhead : fifo.head < fifo.length) (htail : fifo.tail < fifo.length) :
    fifo.Holds fifo.content := by
  have hcount : fifo.content.length = fifo.count := length_window
  refine ⟨htail, ?_, ?_, ?_⟩
  · rw [hcount]
    exact Nat.mod_lt _ (Nat.zero_lt_of_lt htail)
  · rw [hcount]
    unfold Fifo.count
    exact (place_distance hhead htail).symm
  · rw [hcount]
    rfl

theorem Fifo.Holds.pop (h : fifo.Holds (a :: q)) : fifo.pop.Holds q := by
  have hpos : 0 < fifo.length := Nat.zero_lt_of_lt h.tail
  have hcontent := h.content
  rw [List.length_cons, window_succ h.tail] at hcontent
  refine ⟨place_lt hpos, (Nat.lt_succ_self _).trans h.room, ?_, (List.cons.inj hcontent).2⟩
  exact h.head.trans ((congrArg _ (Nat.add_comm _ 1)).trans place_place.symm)

/-- The byte that is taken out is the oldest. -/
theorem Fifo.Holds.oldest (h : fifo.Holds (a :: q)) : fifo.buf fifo.tail = a := by
  have hcontent := h.content
  rw [List.length_cons, window_succ h.tail] at hcontent
  exact (List.cons.inj hcontent).1

theorem Fifo.Holds.push (h : fifo.Holds q) (hroom : q.length + 1 < fifo.length) (byte : UInt8) :
    (fifo.push byte).Holds (q ++ [byte]) := by
  have hlength : (q ++ [byte]).length = q.length + 1 := List.length_append
  refine ⟨h.tail, ?_, ?_, ?_⟩
  · rw [hlength]
    exact hroom
  · rw [hlength]
    exact h.next_head
  · rw [hlength]
    change window (fun i => if i = fifo.head then byte else fifo.buf i) fifo.length fifo.tail
      (q.length + 1) = _
    rw [h.head, window_push h.room, h.content]

/-! ## `fifo_get` and `fifo_put` -/

theorem run_fifoGet (h : s.fifo.Holds (a :: q)) :
    fifoGet.run s = .ok (a, { s with fifo := s.fifo.pop }, []) := by
  have hempty : s.fifo.empty = false := by
    rw [h.empty]
    rfl
  unfold fifoGet
  rw [run_bind _ (run_gets _ _), run_bind _ (run_check_pos hempty s),
    run_bind _ (run_modify _ _), h.oldest]
  rfl

/-- The loop stops where the buffer is not full. -/
theorem run_fifoDrain_room (h : s.fifo.Holds q) (hroom : q.length + 1 < s.fifo.length)
    (fuel : ℕ) : (fifoDrain (fuel + 1)).run s = .ok ((), s, []) := by
  have hfull : s.fifo.full = false := by
    rw [h.full]
    simpa using hroom.ne
  unfold fifoDrain
  rw [run_bind _ (run_gets _ _), hfull]
  rfl

/-- From a full buffer it takes the oldest byte. -/
theorem run_fifoDrain_full (h : s.fifo.Holds (a :: q))
    (hlen : (a :: q).length + 1 = s.fifo.length) (fuel : ℕ) :
    (fifoDrain (fuel + 2)).run s = .ok ((), { s with fifo := s.fifo.pop }, []) := by
  have hfull : s.fifo.full = true := by
    rw [h.full]
    exact decide_eq_true hlen
  have hroom : q.length + 1 < s.fifo.pop.length := hlen ▸ Nat.lt_succ_self _
  rw [fifoDrain, run_bind _ (run_gets _ _), if_pos hfull, run_bind _ (run_fifoGet h)]
  exact run_fifoDrain_room (s := { s with fifo := s.fifo.pop }) h.pop hroom fuel

/-- After `fifo_put` the buffer holds what a bounded queue would. -/
theorem run_fifoPut (h : s.fifo.Holds q) (hlen : 2 ≤ s.fifo.length) (byte : UInt8) :
    ∃ fifo : Fifo, (fifoPut byte).run s = .ok ((), { s with fifo := fifo }, []) ∧
      fifo.Holds (put s.fifo.capacity q byte) ∧ fifo.length = s.fifo.length := by
  have hroom := h.room
  have hcapacity : s.fifo.capacity = s.fifo.length - 1 := rfl
  unfold fifoPut
  rw [run_bind _ (run_gets _ _)]
  obtain ⟨fuel, hfuel⟩ : ∃ fuel, s.fifo.length + 1 = fuel + 2 := ⟨s.fifo.length - 1, by omega⟩
  rw [hfuel]
  by_cases hfull : q.length + 1 = s.fifo.length
  · cases q with
    | nil =>
        rw [List.length_nil] at hfull
        omega
    | cons a q =>
        have hpop : q.length + 1 < s.fifo.pop.length := hfull ▸ Nat.lt_succ_self _
        rw [run_bind _ (run_fifoDrain_full h hfull fuel), put_full (by omega)]
        exact ⟨s.fifo.pop.push byte, rfl, h.pop.push hpop byte, rfl⟩
  · rw [run_bind _ (run_fifoDrain_room h (by omega) (fuel + 1)), put_room (by omega)]
    exact ⟨s.fifo.push byte, rfl, h.push (by omega) byte, rfl⟩

/-! ## Sequences of calls -/

/-- Calls of `fifo_put` and `fifo_get`, with what the latter return. -/
def fifoCalls : List (Call UInt8) → M (List UInt8)
  | [] => return []
  | .put byte :: calls => do
    fifoPut byte
    fifoCalls calls
  | .get :: calls => do
    let byte ← fifoGet
    let bytes ← fifoCalls calls
    return byte :: bytes

theorem run_fifoCalls (calls : List (Call UInt8)) {r : List UInt8 × List UInt8}
    (h : s.fifo.Holds q) (hlen : 2 ≤ s.fifo.length)
    (hrun : BoundedQueue.run s.fifo.capacity calls q = some r) :
    ∃ fifo : Fifo, (fifoCalls calls).run s = .ok (r.1, { s with fifo := fifo }, []) ∧
      fifo.Holds r.2 ∧ fifo.length = s.fifo.length := by
  induction calls generalizing s q r with
  | nil =>
      cases hrun
      exact ⟨s.fifo, rfl, h, rfl⟩
  | cons call calls ih =>
      cases call with
      | put byte =>
          obtain ⟨fifo₁, hput, h₁, hlen₁⟩ := run_fifoPut h hlen byte
          have hcapacity : fifo₁.capacity = s.fifo.capacity := congrArg (· - 1) hlen₁
          rw [BoundedQueue.run, ← hcapacity] at hrun
          rw [← hcapacity] at h₁
          obtain ⟨fifo, hcalls, hholds, hlength⟩ := ih (s := { s with fifo := fifo₁ }) h₁
            (hlen.trans hlen₁.ge) hrun
          refine ⟨fifo, ?_, hholds, hlength.trans hlen₁⟩
          rw [fifoCalls, run_bind _ hput]
          exact hcalls
      | get =>
          obtain ⟨a, rest, out, rfl, hrest, hr⟩ := run_get_eq_some hrun
          obtain ⟨fifo, hcalls, hholds, hlength⟩ := ih (s := { s with fifo := s.fifo.pop }) h.pop
            hlen hrest
          refine ⟨fifo, ?_, hholds, hlength⟩
          rw [fifoCalls, run_bind _ (run_fifoGet h), run_bind _ hcalls, hr]
          rfl

/-- From any buffer of two places or more, calls return and leave what they would return and
leave on a queue of one byte less. -/
theorem fifo_bounded_queue (s : State) (hlen : 2 ≤ s.fifo.length)
    (hhead : s.fifo.head < s.fifo.length) (htail : s.fifo.tail < s.fifo.length)
    (calls : List (Call UInt8)) (out q : List UInt8)
    (hrun : BoundedQueue.run s.fifo.capacity calls s.fifo.content = some (out, q)) :
    ∃ fifo : Fifo, (fifoCalls calls).run s = .ok (out, { s with fifo := fifo }, []) ∧
      fifo.content = q ∧ fifo.length = s.fifo.length ∧ fifo.head < fifo.length ∧
      fifo.tail < fifo.length ∧ (fifo.full = true ↔ q.length = s.fifo.capacity) ∧
      (fifo.empty = true ↔ q.length = 0) := by
  obtain ⟨fifo, hcalls, hholds, hlength⟩ :=
    run_fifoCalls calls (Fifo.holds_content hhead htail) hlen hrun
  refine ⟨fifo, hcalls, hholds.content_eq, hlength, hholds.head_lt, hholds.tail, ?_, ?_⟩
  · rw [hholds.full, decide_eq_true_iff, hlength]
    change q.length + 1 = s.fifo.length ↔ q.length = s.fifo.length - 1
    omega
  · rw [hholds.empty, decide_eq_true_iff]

/-- A third byte in a buffer of three places drops the first. -/
theorem fifo_bounded_queue_overflow : ∃ fifo : Fifo,
    (fifoCalls [.put 1, .put 2, .put 3, .get]).run
        ⟨fifoInit (fun _ => 0) 3, none, none, fun _ => .idle⟩ =
      .ok ([2], ⟨fifo, none, none, fun _ => .idle⟩, []) ∧ fifo.content = [3] := by
  obtain ⟨fifo, hcalls, hcontent, -⟩ := fifo_bounded_queue
    ⟨fifoInit (fun _ => 0) 3, none, none, fun _ => .idle⟩ (by decide) (by decide) (by decide)
    [.put 1, .put 2, .put 3, .get] [2] [3] rfl
  exact ⟨fifo, hcalls, hcontent⟩

end Ylos.Pipes
