import Ylos.Lib.Runs
import Ylos.Verification.Keyboard.Typing
import Ylos.Verification.Pipe.Fifo

/-! # Readers get what is typed

One call of `keyboard_read` at a time takes from the buffer, so that the characters of a call
lie together. -/

namespace Ylos.Keyboard

open BoundedQueue
open Pipes (Fifo)
open List (Sublist)

namespace Device

/-- What the handler has put into the buffer. -/
def typed (d : Device) : List UInt8 := (run .initial d.codes).2.map Char.toUInt8

/-- What the call that has the lock has in its `buf`. -/
def taken (d : Device) : List UInt8 :=
  match d.holder with
  | none => []
  | some t =>
    match d.phase t with
    | .blocked _ buf _ | .ready _ buf _ => buf
    | _ => []

def delivered (d : Device) : List UInt8 := d.returned.flatMap (·.2.2) ++ d.taken

/-- `q` is what was put and not taken yet, up to what a full buffer has lost. -/
structure Streams (d : Device) (got q : List UInt8) : Prop where
  keyboard : d.keyboard = (run .initial d.codes).1
  length : d.fifo.length = BUFFER_SIZE
  holds : d.fifo.Holds q
  order : Sublist (got ++ q) d.typed
  exact : d.overrun = false → got ++ q = d.typed
  counts : ∀ call ∈ d.returned, call.2.2.length = call.2.1

/-- Only the task with the lock can be in the middle of a call, and the one that is blocked there
is the waiter, in front of an empty buffer. -/
structure Inv (d : Device) (q : List UInt8) : Prop where
  streams : d.Streams d.delivered q
  blocked : ∀ t count buf left, d.phase t = .blocked count buf left →
    d.waiter = some t ∧ d.holder = some t ∧ q = [] ∧ buf.length + left = count ∧ 0 < left
  ready : ∀ t count buf left, d.phase t = .ready count buf left →
    d.waiter = none ∧ d.holder = some t ∧ buf.length + left = count
  waiter : ∀ t, d.waiter = some t → ∃ count buf left, d.phase t = .blocked count buf left

/-- A task with the lock runs in `keyboard_read`, with `left` characters to go. -/
structure Reading (d : Device) (t count left : ℕ) (buf q : List UInt8) : Prop where
  streams : d.Streams (d.returned.flatMap (·.2.2) ++ buf) q
  others : ∀ u, u ≠ t → d.phase u = .idle ∨ ∃ n, d.phase u = .waiting n
  waiter : d.waiter = none
  holder : d.holder = some t
  count : buf.length + left = count

end Device

variable {d d' : Device} {fifo : Fifo} {t u count left code : ℕ} {byte : UInt8}
  {buf got q : List UInt8}

/-! ## The buffer -/

theorem onFifo_get (h : fifo.Holds (byte :: q)) :
    onFifo Pipes.fifoGet fifo = .ok (byte, fifo.pop) := by
  have hrun := Pipes.run_fifoGet (s := ⟨fifo, none, none, fun _ => .idle⟩) h
  unfold onFifo
  rw [hrun]
  rfl

theorem onFifo_put (h : fifo.Holds q) (hlen : fifo.length = BUFFER_SIZE) (byte : UInt8) :
    ∃ fifo' : Fifo, onFifo (Pipes.fifoPut byte) fifo = .ok ((), fifo') ∧
      fifo'.Holds (put (BUFFER_SIZE - 1) q byte) ∧ fifo'.length = BUFFER_SIZE := by
  have htwo : 2 ≤ fifo.length := hlen ▸ by decide
  obtain ⟨fifo', hrun, hholds, hlen'⟩ :=
    Pipes.run_fifoPut (s := ⟨fifo, none, none, fun _ => .idle⟩) h htwo byte
  refine ⟨fifo', ?_, ?_, hlen'.trans hlen⟩
  · unfold onFifo
    rw [hrun]
    rfl
  · unfold Fifo.capacity at hholds
    rw [hlen] at hholds
    exact hholds

/-- At most the oldest value goes. -/
theorem put_sublist (capacity : ℕ) (q : List UInt8) (byte : UInt8) :
    Sublist (put capacity q byte) (q ++ [byte]) := by
  unfold put
  split_ifs
  · exact (List.tail_sublist q).append_right [byte]
  · exact Sublist.refl _

/-! ## A reader -/

theorem setPhase_self (p : Phase) : (d.setPhase t p).phase t = p := Function.update_self _ _ _

theorem setPhase_ne (p : Phase) (hu : u ≠ t) : (d.setPhase t p).phase u = d.phase u :=
  Function.update_of_ne hu _ _

namespace Device

theorem taken_none (h : d.holder = none) : d.taken = [] := by
  unfold taken
  rw [h]

theorem taken_blocked (hholder : d.holder = some t) (h : d.phase t = .blocked count buf left) :
    d.taken = buf := by
  unfold taken
  rw [hholder]
  simp only [h]

theorem taken_ready (hholder : d.holder = some t) (h : d.phase t = .ready count buf left) :
    d.taken = buf := by
  unfold taken
  rw [hholder]
  simp only [h]

/-- Tasks outside of `keyboard_read` or before its lock are not blocked in it. -/
theorem Reading.not_inside (h : d.Reading t count left buf q) (hu : u ≠ t) :
    (∀ n b l, d.phase u ≠ .blocked n b l) ∧ ∀ n b l, d.phase u ≠ .ready n b l := by
  obtain hidle | ⟨n, hwaiting⟩ := h.others u hu
  · rw [hidle]
    exact ⟨fun _ _ _ => Phase.noConfusion, fun _ _ _ => Phase.noConfusion⟩
  · rw [hwaiting]
    exact ⟨fun _ _ _ => Phase.noConfusion, fun _ _ _ => Phase.noConfusion⟩

theorem Reading.returns (h : d.Reading t count 0 buf q) :
    Inv { d.setPhase t .idle with
      holder := none, returned := d.returned ++ [(t, count, buf)] } q := by
  have houtside : ∀ u, (∀ n b l, (d.setPhase t .idle).phase u ≠ .blocked n b l) ∧
      ∀ n b l, (d.setPhase t .idle).phase u ≠ .ready n b l := by
    intro u
    by_cases hu : u = t
    · rw [hu, setPhase_self]
      exact ⟨fun _ _ _ => Phase.noConfusion, fun _ _ _ => Phase.noConfusion⟩
    · rw [setPhase_ne _ hu]
      exact h.not_inside hu
  refine ⟨?_, fun u n b l hu => absurd hu ((houtside u).1 n b l),
    fun u n b l hu => absurd hu ((houtside u).2 n b l), fun u hu => ?_⟩
  · have hgot : delivered { d.setPhase t .idle with
        holder := none, returned := d.returned ++ [(t, count, buf)] } =
          d.returned.flatMap (·.2.2) ++ buf := by
      unfold delivered
      rw [taken_none rfl, List.append_nil, List.flatMap_append, List.flatMap_singleton]
    have hs := h.streams
    rw [hgot]
    refine ⟨hs.keyboard, hs.length, hs.holds, hs.order, hs.exact, fun call hcall => ?_⟩
    obtain hold | hnew := List.mem_append.mp hcall
    · exact hs.counts call hold
    · rw [List.mem_singleton.mp hnew]
      exact h.count
  · exact absurd (h.waiter.symm.trans hu) (Option.some_ne_none u).symm

theorem Reading.blocks (h : d.Reading t count left buf []) (hpos : 0 < left) :
    Inv { d.setPhase t (.blocked count buf left) with waiter := some t } [] := by
  have hs := h.streams
  refine ⟨?_, fun u n b l hu => ?_, fun u n b l hu => ?_, fun u hu => ?_⟩
  · have hgot : delivered { d.setPhase t (.blocked count buf left) with waiter := some t } =
        d.returned.flatMap (·.2.2) ++ buf :=
      congrArg (d.returned.flatMap (·.2.2) ++ ·) (taken_blocked h.holder (setPhase_self _))
    rw [hgot]
    exact ⟨hs.keyboard, hs.length, hs.holds, hs.order, hs.exact, hs.counts⟩
  · by_cases hut : u = t
    · subst hut
      have hphase := (setPhase_self (d := d) (t := u) (.blocked count buf left)).symm.trans hu
      obtain ⟨rfl, rfl, rfl⟩ := Phase.blocked.inj hphase
      exact ⟨rfl, h.holder, rfl, h.count, hpos⟩
    · exact absurd ((setPhase_ne _ hut).symm.trans hu) ((h.not_inside hut).1 n b l)
  · by_cases hut : u = t
    · subst hut
      exact Phase.noConfusion ((setPhase_self _).symm.trans hu)
    · exact absurd ((setPhase_ne _ hut).symm.trans hu) ((h.not_inside hut).2 n b l)
  · obtain rfl := Option.some.inj hu
    exact ⟨count, buf, left, setPhase_self _⟩

/-- A character is taken from the buffer. -/
theorem Reading.takes (h : d.Reading t count (left + 1) buf (byte :: q)) :
    Reading { d with fifo := d.fifo.pop } t count left (buf ++ [byte]) q := by
  have hs := h.streams
  have hcount := h.count
  have hgot : d.returned.flatMap (·.2.2) ++ (buf ++ [byte]) ++ q =
      d.returned.flatMap (·.2.2) ++ buf ++ byte :: q := by
    rw [← List.append_assoc, List.append_assoc _ [byte]]
    rfl
  refine ⟨⟨hs.keyboard, hs.length, hs.holds.pop, ?_, fun hexact => ?_, hs.counts⟩, h.others,
    h.waiter, h.holder, ?_⟩
  · rw [hgot]
    exact hs.order
  · rw [hgot]
    exact hs.exact hexact
  · rw [List.length_append, List.length_singleton]
    omega

theorem Reading.run (h : d.Reading t count left buf q) :
    ∃ d' q', readLoop t count left buf d = .ok d' ∧ d'.Inv q' := by
  induction left generalizing d buf q with
  | zero => exact ⟨_, q, rfl, h.returns⟩
  | succ left ih =>
      have hempty := h.streams.holds.empty
      cases q with
      | nil =>
          refine ⟨_, [], ?_, h.blocks (Nat.succ_pos left)⟩
          unfold readLoop
          exact if_pos hempty
      | cons byte q =>
          obtain ⟨d', q', hrun, hinv⟩ := ih h.takes
          refine ⟨d', q', ?_, hinv⟩
          have hget := onFifo_get h.streams.holds
          have hfull : ¬d.fifo.empty = true := by
            rw [hempty]
            simp
          unfold readLoop
          rw [if_neg hfull, hget]
          exact hrun

end Device

/-! ## An interrupt -/

theorem run_snoc (s : State) (codes : List ℕ) (code : ℕ) :
    run s (codes ++ [code]) = ((keyboardHandler (run s codes).1 code).state,
      (run s codes).2 ++ (keyboardHandler (run s codes).1 code).ch.toList) := by
  rw [run_append]
  simp only [run, List.append_nil]

namespace Device

theorem Streams.silent (h : d.Streams got q)
    (hch : (keyboardHandler d.keyboard code).ch = none) :
    Streams { d with
      keyboard := (keyboardHandler d.keyboard code).state, codes := d.codes ++ [code] } got q := by
  have hsnoc := run_snoc .initial d.codes code
  rw [← h.keyboard, hch] at hsnoc
  have htyped : typed { d with
      keyboard := (keyboardHandler d.keyboard code).state, codes := d.codes ++ [code] } =
        d.typed := by
    unfold typed
    rw [hsnoc]
    exact congrArg _ (List.append_nil _)
  refine ⟨?_, h.length, h.holds, ?_, fun hexact => ?_, h.counts⟩
  · rw [hsnoc]
  · rw [htyped]
    exact h.order
  · rw [htyped]
    exact h.exact hexact

theorem Streams.puts {ch : Char} (h : d.Streams got q)
    (hch : (keyboardHandler d.keyboard code).ch = some ch)
    (hholds : fifo.Holds (put (BUFFER_SIZE - 1) q ch.toUInt8)) (hlen : fifo.length = BUFFER_SIZE) :
    Streams { d with
      keyboard := (keyboardHandler d.keyboard code).state
      codes := d.codes ++ [code]
      fifo := fifo
      overrun := d.overrun || d.fifo.full } got (put (BUFFER_SIZE - 1) q ch.toUInt8) := by
  have hsnoc := run_snoc .initial d.codes code
  rw [← h.keyboard, hch] at hsnoc
  have htyped : typed { d with
      keyboard := (keyboardHandler d.keyboard code).state
      codes := d.codes ++ [code]
      fifo := fifo
      overrun := d.overrun || d.fifo.full } = d.typed ++ [ch.toUInt8] := by
    unfold typed
    rw [hsnoc]
    exact List.map_append
  refine ⟨?_, hlen, hholds, ?_, fun hexact => ?_, h.counts⟩
  · rw [hsnoc]
  · rw [htyped]
    calc Sublist (got ++ put (BUFFER_SIZE - 1) q ch.toUInt8) (got ++ (q ++ [ch.toUInt8])) :=
          (put_sublist _ q _).append_left got
      Sublist _ (d.typed ++ [ch.toUInt8]) := by
          rw [← List.append_assoc]
          exact h.order.append_right _
  · obtain ⟨hbefore, hfull⟩ := Bool.or_eq_false_iff.mp hexact
    have hroom : q.length ≠ BUFFER_SIZE - 1 := by
      rw [h.holds.full, h.length] at hfull
      have hne := of_decide_eq_false hfull
      unfold BUFFER_SIZE at *
      omega
    rw [htyped, put_room hroom, ← List.append_assoc, h.exact hbefore]

/-- The task is in the loop, blocked or not. -/
def Inside (d : Device) (t count : ℕ) (buf : List UInt8) (left : ℕ) : Prop :=
  d.phase t = .blocked count buf left ∨ d.phase t = .ready count buf left

/-- A character that comes in wakes the reader that is blocked. -/
theorem Inv.wakes {d' : Device} (h : d.Inv q) (hstreams : d'.Streams d.delivered got)
    (hwaiter : d'.waiter = d.waiter) (hholder : d'.holder = d.holder) (hphase : d'.phase = d.phase)
    (hreturned : d'.returned = d.returned) :
    ∃ d'', d'.unblock = .ok d'' ∧ d''.Inv got ∧ d''.keyboard = d'.keyboard ∧
      d''.returned = d'.returned ∧
      ∀ t count buf left, d.Inside t count buf left → d''.phase t = .ready count buf left := by
  cases hw : d.waiter with
  | none =>
      have hgot : d'.delivered = d.delivered := by
        unfold delivered taken
        rw [hreturned, hholder, hphase]
      have hno : ∀ u n b l, d.phase u ≠ .blocked n b l := fun u n b l hu =>
        Option.some_ne_none u ((h.blocked u n b l hu).1.symm.trans hw)
      refine ⟨d', ?_, ⟨hgot.symm ▸ hstreams, fun u n b l hu => ?_, fun u n b l hu => ?_,
        fun u hu => ?_⟩, rfl, rfl, fun u n b l hinside => ?_⟩
      · unfold unblock
        rw [hwaiter, hw]
      · rw [hphase] at hu
        exact absurd hu (hno u n b l)
      · rw [hphase] at hu
        rw [hwaiter, hholder]
        exact h.ready u n b l hu
      · exact absurd (hw.symm.trans (hwaiter.symm.trans hu)) (Option.some_ne_none u).symm
      · rw [hphase]
        exact hinside.resolve_left (hno u n b l)
  | some t =>
      obtain ⟨count, buf, left, hp⟩ := h.waiter t hw
      obtain ⟨-, hlock, -, hcount, -⟩ := h.blocked t count buf left hp
      have hlock' : d'.holder = some t := hholder.trans hlock
      have hgot : delivered { d'.setPhase t (.ready count buf left) with waiter := none } =
          d.delivered := by
        have hready : taken { d'.setPhase t (.ready count buf left) with waiter := none } = buf :=
          taken_ready hlock' (setPhase_self _)
        unfold delivered
        rw [hready, taken_blocked hlock hp]
        exact congrArg (·.flatMap (·.2.2) ++ buf) hreturned
      -- nobody else is in the loop
      have hother : ∀ u n b l, u ≠ t → ¬d.Inside u n b l := by
        rintro u n b l hut (hu | hu)
        · exact hut (Option.some.inj ((h.blocked u n b l hu).2.1.symm.trans hlock))
        · exact hut (Option.some.inj ((h.ready u n b l hu).2.1.symm.trans hlock))
      refine ⟨{ d'.setPhase t (.ready count buf left) with waiter := none }, ?_,
        ⟨?_, fun u n b l hu => ?_, fun u n b l hu => ?_, fun u hu => ?_⟩, rfl, rfl,
        fun u n b l hinside => ?_⟩
      · unfold unblock
        rw [hwaiter, hw, hphase]
        simp only [hp]
      · rw [hgot]
        exact ⟨hstreams.keyboard, hstreams.length, hstreams.holds, hstreams.order, hstreams.exact,
          hstreams.counts⟩
      · by_cases hut : u = t
        · subst hut
          exact Phase.noConfusion ((setPhase_self _).symm.trans hu)
        · have hbefore := (setPhase_ne _ hut).symm.trans hu
          rw [hphase] at hbefore
          exact absurd (.inl hbefore) (hother u n b l hut)
      · by_cases hut : u = t
        · subst hut
          have hsame := (setPhase_self (.ready count buf left)).symm.trans hu
          obtain ⟨rfl, rfl, rfl⟩ := Phase.ready.inj hsame
          exact ⟨rfl, hlock', hcount⟩
        · have hbefore := (setPhase_ne _ hut).symm.trans hu
          rw [hphase] at hbefore
          exact absurd (.inr hbefore) (hother u n b l hut)
      · exact absurd hu.symm (Option.some_ne_none u)
      · by_cases hut : u = t
        · subst hut
          obtain hblocked | hready := hinside
          · obtain ⟨rfl, rfl, rfl⟩ := Phase.blocked.inj (hp.symm.trans hblocked)
            exact setPhase_self _
          · exact Phase.noConfusion (hp.symm.trans hready)
        · exact absurd hinside (hother u n b l hut)

theorem Inv.interrupt_silent (h : d.Inv q) (hch : (keyboardHandler d.keyboard code).ch = none) :
    d.interrupt code = .ok { d with
      keyboard := (keyboardHandler d.keyboard code).state, codes := d.codes ++ [code] } ∧
      Inv { d with
        keyboard := (keyboardHandler d.keyboard code).state, codes := d.codes ++ [code] } q := by
  refine ⟨?_, h.streams.silent hch, h.blocked, h.ready, h.waiter⟩
  unfold Device.interrupt
  simp only [hch]

theorem Inv.interrupt_char {ch : Char} (h : d.Inv q)
    (hch : (keyboardHandler d.keyboard code).ch = some ch) :
    ∃ d', d.interrupt code = .ok d' ∧ d'.Inv (put (BUFFER_SIZE - 1) q ch.toUInt8) ∧
      d'.keyboard = (keyboardHandler d.keyboard code).state ∧ d'.returned = d.returned ∧
      ∀ t count buf left, d.Inside t count buf left → d'.phase t = .ready count buf left := by
  obtain ⟨fifo, hput, hholds, hlen⟩ := onFifo_put h.streams.holds h.streams.length ch.toUInt8
  obtain ⟨d', hunblock, hinv⟩ := h.wakes (h.streams.puts hch hholds hlen) rfl rfl rfl rfl
  refine ⟨d', ?_, hinv⟩
  unfold Device.interrupt
  simp only [hch]
  rw [hput]
  exact hunblock

theorem Inv.interrupt (h : d.Inv q) (code : ℕ) :
    ∃ d' q', d.interrupt code = .ok d' ∧ d'.Inv q' := by
  cases hch : (keyboardHandler d.keyboard code).ch with
  | none =>
      obtain ⟨hrun, hinv⟩ := h.interrupt_silent hch
      exact ⟨_, q, hrun, hinv⟩
  | some ch =>
      obtain ⟨d', hrun, hinv, -⟩ := h.interrupt_char hch
      exact ⟨d', _, hrun, hinv⟩

/-! ## A step -/

/-- A task without the lock is not inside the loop. -/
theorem Inv.outside (h : d.Inv q) (hu : d.holder ≠ some u) :
    d.phase u = .idle ∨ ∃ n, d.phase u = .waiting n := by
  cases hphase : d.phase u with
  | idle => exact .inl rfl
  | waiting n => exact .inr ⟨n, rfl⟩
  | blocked n b l => exact absurd (h.blocked u n b l hphase).2.1 hu
  | ready n b l => exact absurd (h.ready u n b l hphase).2.1 hu

/-- A task that takes the lock starts to read. -/
theorem Inv.starts (h : d.Inv q) (hholder : d.holder = none) (t count : ℕ) :
    Reading { d with holder := some t } t count count [] q := by
  have hfree : ∀ u, d.holder ≠ some u := fun u hu =>
    Option.some_ne_none u (hu.symm.trans hholder)
  have hwaiter : d.waiter = none := by
    by_contra hw
    obtain ⟨u, hu⟩ := Option.ne_none_iff_exists'.mp hw
    obtain ⟨n, b, l, hphase⟩ := h.waiter u hu
    exact hfree u (h.blocked u n b l hphase).2.1
  have hs := h.streams
  unfold delivered at hs
  rw [taken_none hholder] at hs
  exact ⟨⟨hs.keyboard, hs.length, hs.holds, hs.order, hs.exact, hs.counts⟩,
    fun u _ => h.outside (hfree u), hwaiter, rfl, Nat.zero_add _⟩

/-- A task that was unblocked goes on to read. -/
theorem Inv.resumes (h : d.Inv q) (hphase : d.phase t = .ready count buf left) :
    d.Reading t count left buf q := by
  obtain ⟨hwaiter, hholder, hcount⟩ := h.ready t count buf left hphase
  have hs := h.streams
  unfold delivered at hs
  rw [taken_ready hholder hphase] at hs
  exact ⟨hs, fun u hut => h.outside fun hu => hut (Option.some.inj (hu.symm.trans hholder)),
    hwaiter, hholder, hcount⟩

/-- A task waits for the lock. -/
theorem Inv.waits (h : d.Inv q) (hphase : d.phase t = .idle) (count : ℕ) :
    (d.setPhase t (.waiting count)).Inv q := by
  have hsame : ∀ u, u ≠ t → (d.setPhase t (.waiting count)).phase u = d.phase u :=
    fun u hu => setPhase_ne _ hu
  have hself := setPhase_self (d := d) (t := t) (.waiting count)
  have htaken : (d.setPhase t (.waiting count)).taken = d.taken := by
    cases hh : d.holder with
    | none => rw [taken_none hh, taken_none (d := d.setPhase t (.waiting count)) hh]
    | some u =>
        have hh' : (d.setPhase t (.waiting count)).holder = some u := hh
        unfold taken
        rw [hh, hh']
        by_cases hut : u = t
        · subst hut
          simp only [hself, hphase]
        · simp only [hsame u hut]
  have hgot : (d.setPhase t (.waiting count)).delivered = d.delivered :=
    congrArg (d.returned.flatMap (·.2.2) ++ ·) htaken
  have hs := h.streams
  refine ⟨?_, fun u n b l hu => ?_, fun u n b l hu => ?_, fun u hu => ?_⟩
  · rw [hgot]
    exact ⟨hs.keyboard, hs.length, hs.holds, hs.order, hs.exact, hs.counts⟩
  · by_cases hut : u = t
    · exact Phase.noConfusion (hself.symm.trans (hut ▸ hu))
    · exact h.blocked u n b l ((hsame u hut).symm.trans hu)
  · by_cases hut : u = t
    · exact Phase.noConfusion (hself.symm.trans (hut ▸ hu))
    · exact h.ready u n b l ((hsame u hut).symm.trans hu)
  · obtain ⟨n, b, l, hu'⟩ := h.waiter u hu
    have hut : u ≠ t := by
      rintro rfl
      exact Phase.noConfusion (hphase.symm.trans hu')
    exact ⟨n, b, l, (hsame u hut).trans hu'⟩

/-- No action fails an assertion, and every action keeps the invariant. -/
theorem Inv.next {a : Action} {r : Except Fault Device} (h : d.Inv q) (ha : a.next d = some r) :
    ∃ d' q', r = .ok d' ∧ d'.Inv q' := by
  cases a with
  | interrupt code =>
      obtain rfl := Option.some.inj ha
      exact h.interrupt code
  | read t count =>
      simp only [Action.next] at ha
      split at ha
      · rename_i hphase hholder
        obtain rfl := Option.some.inj ha
        exact (h.starts hholder t count).run
      · rename_i hphase hholder
        obtain rfl := Option.some.inj ha
        exact ⟨_, q, rfl, h.waits hphase count⟩
      · cases ha
  | acquire t =>
      simp only [Action.next] at ha
      split at ha
      · rename_i count hphase hholder
        obtain rfl := Option.some.inj ha
        exact (h.starts hholder t count).run
      · cases ha
  | resume t =>
      simp only [Action.next] at ha
      split at ha
      · rename_i count buf left hphase
        obtain rfl := Option.some.inj ha
        exact (h.resumes hphase).run
      · cases ha

end Device

/-! ## Runs -/

theorem Initial.inv (h : Initial d) : d.Inv [] := by
  obtain ⟨hkeyboard, ⟨buf, hfifo⟩, hwaiter, hholder, hphase, hcodes, -, hreturned⟩ := h
  have htyped : d.typed = [] := by
    unfold Device.typed
    rw [hcodes]
    rfl
  have hgot : d.delivered = [] := by
    unfold Device.delivered
    rw [hreturned, Device.taken_none hholder]
    rfl
  have hidle : ∀ u p, d.phase u = p → p = .idle := fun u p hu => hu.symm.trans (hphase u)
  refine ⟨⟨?_, ?_, ?_, ?_, fun _ => ?_, fun call hcall => ?_⟩,
    fun u n b l hu => Phase.noConfusion (hidle u _ hu),
    fun u n b l hu => Phase.noConfusion (hidle u _ hu),
    fun u hu => absurd (hwaiter.symm.trans hu) (Option.some_ne_none u).symm⟩
  · rw [hkeyboard, hcodes]
    rfl
  · rw [hfifo]
    rfl
  · have hpos : 0 < BUFFER_SIZE := by decide
    rw [hfifo]
    exact ⟨hpos, hpos, rfl, rfl⟩
  · rw [hgot, htyped]
    exact Sublist.refl _
  · rw [hgot, htyped]
    rfl
  · rw [hreturned] at hcall
    exact absurd hcall List.not_mem_nil

theorem Initial.run_inv {d₀ : Device} (hinit : Initial d₀)
    (hrun : Run Step (fun _ _ => True) d₀ d) : ∃ q, d.Inv q := by
  refine hrun.invariant (P := fun d => ∃ q, d.Inv q) (fun d a d' h _ hstep => ?_) ⟨[], hinit.inv⟩
  obtain ⟨q, hinv⟩ := h
  obtain ⟨d'', q', heq, hinv'⟩ := hinv.next hstep
  obtain rfl := Except.ok.inj heq
  exact ⟨q', hinv'⟩

/-- Readers get the characters in the order in which they are typed: none twice, and none is left
out that was not driven out of a full buffer. Every call gets as many as it asks for, one after the
other, and no reader stays blocked while there is something to read. -/
theorem reads_typed {d₀ : Device} (hinit : Initial d₀)
    (hrun : Run Step (fun _ _ => True) d₀ d) :
    Sublist (d.delivered ++ d.fifo.content) d.typed ∧
      (d.overrun = false → d.delivered ++ d.fifo.content = d.typed) ∧
      (∀ call ∈ d.returned, call.2.2.length = call.2.1) ∧
      (∀ t count buf left, d.phase t = .blocked count buf left →
        d.waiter = some t ∧ d.fifo.content = []) ∧
      ∀ a r, Action.next d a = some r → ∃ d', r = .ok d' := by
  obtain ⟨q, hinv⟩ := hinit.run_inv hrun
  have hcontent := hinv.streams.holds.content_eq
  rw [hcontent]
  refine ⟨hinv.streams.order, hinv.streams.exact, hinv.streams.counts,
    fun t count buf left hphase => ?_, fun a r ha => ?_⟩
  · obtain ⟨hwaiter, -, hempty, -⟩ := hinv.blocked t count buf left hphase
    exact ⟨hwaiter, hempty⟩
  · obtain ⟨d', -, hok, -⟩ := hinv.next ha
    exact ⟨d', hok⟩

/-- What an action leads to, if it is possible. -/
def Device.after (d : Device) (a : Action) : Device :=
  match a.next d with
  | some (.ok d') => d'
  | _ => d

theorem step_after {a : Action} (h : ((a.next d).bind Except.toOption).isSome) :
    Step d a (d.after a) := by
  unfold Step Device.after
  revert h
  cases a.next d with
  | none => exact Bool.noConfusion
  | some r =>
      cases r with
      | error e => exact Bool.noConfusion
      | ok d' => exact fun _ => rfl

/-- Whether the actions are possible one after the other. -/
def Device.takes : List Action → Device → Bool
  | [], _ => true
  | a :: as, d => ((a.next d).bind Except.toOption).isSome && Device.takes as (d.after a)

def booted : Device :=
  ⟨.initial, Pipes.fifoInit (fun _ => 0) BUFFER_SIZE, none, none, fun _ => .idle, [], false, []⟩

theorem booted_initial : Initial booted :=
  ⟨rfl, ⟨_, rfl⟩, rfl, rfl, fun _ => rfl, rfl, rfl, rfl⟩

/-- Task 7 waits for a character, and the key `a` goes down. -/
def letterTyped : Device := (booted.after (.read 7 1)).after (.interrupt 0x1E)

theorem letter_read :
    (letterTyped.after (.resume 7)).returned = [(7, 1, [97])] ∧
      (letterTyped.after (.resume 7)).delivered ++ (letterTyped.after (.resume 7)).fifo.content =
        (letterTyped.after (.resume 7)).typed := by
  have hrun : Run Step (fun _ _ => True) booted (letterTyped.after (.resume 7)) :=
    ((Run.refl.tail trivial (step_after rfl)).tail trivial (step_after rfl)).tail trivial
      (step_after rfl)
  exact ⟨rfl, (reads_typed booted_initial hrun).2.1 rfl⟩

end Ylos.Keyboard
