import Ylos.Verification.Pipe.Order

/-! # One reader and one writer never wait for each other -/

namespace Ylos.Pipes

open Exec

/-- What unblocking does to a task. -/
def Phase.woken : Phase → Phase
  | .reading more => .readable more
  | .writing byte more => .writable byte more
  | p => p

@[simp] theorem Phase.woken_woken (p : Phase) : p.woken.woken = p.woken := by
  cases p <;> rfl

def Phase.Blocked : Phase → Prop
  | .reading _ | .writing _ _ => True
  | _ => False

/-- How the reader, the field for it and the number of bytes in the pipe go together. -/
def ReaderSide (r : ℕ) (rx : Option ℕ) (n : ℕ) : Phase → Prop
  | .idle => rx = none
  | .reading _ => rx = some r ∧ n = 0
  | .readable _ => rx = none ∧ 0 < n
  | _ => False

def WriterSide (w : ℕ) (tx : Option ℕ) (n : ℕ) : Phase → Prop
  | .idle => tx = none
  | .writing _ _ => tx = some w ∧ n + 1 = PAGE_SIZE
  | .writable _ _ => tx = none ∧ n + 1 < PAGE_SIZE
  | _ => False

structure Sides (r w n : ℕ) (s : State) : Prop where
  reader : ReaderSide r s.rxwaiter n (s.phase r)
  writer : WriterSide w s.txwaiter n (s.phase w)

/-- The bytes `l` have woken the task if there are any. -/
def Moved (p p' : Phase) (l : List Event) : Prop := p' = if l = [] then p else p.woken

variable {s s' : State} {h l : List Event} {n t r w : ℕ} {byte : UInt8} {rx tx : Option ℕ}
  {p p' : Phase}

theorem Moved.after_woken (hm : Moved p.woken p' l) : p' = p.woken := by
  unfold Moved at hm
  split at hm
  · exact hm
  · rw [hm, Phase.woken_woken]

/-! ## What a byte does to the other side -/

/-- A byte has gone: nobody waits for room. -/
theorem WriterSide.removed (hw : WriterSide w tx (n + 1) p) (hroom : n + 1 < PAGE_SIZE) :
    WriterSide w none n p.woken := by
  cases p with
  | idle => rfl
  | reading more => exact hw
  | readable more => exact hw
  | writing byte more => exact ⟨rfl, hroom⟩
  | writable byte more => exact ⟨rfl, hroom⟩

theorem WriterSide.waiting {u : ℕ} (hw : WriterSide w (some u) n p) :
    u = w ∧ ∃ byte more, p = .writing byte more := by
  cases p with
  | writing byte more =>
      obtain ⟨hu, -⟩ := hw
      exact ⟨Option.some.inj hu, byte, more, rfl⟩
  | idle => cases hw
  | reading more => exact hw.elim
  | readable more => exact hw.elim
  | writable byte more => cases hw.1

theorem WriterSide.woken (hw : WriterSide w none n p) : p.woken = p := by
  cases p with
  | writing byte more => cases hw.1
  | reading more => exact hw.elim
  | _ => rfl

/-- A byte has come: nobody waits for one. -/
theorem ReaderSide.inserted (hr : ReaderSide r rx n p) : ReaderSide r none (n + 1) p.woken := by
  cases p with
  | idle => rfl
  | reading more => exact ⟨rfl, n.succ_pos⟩
  | readable more => exact ⟨rfl, n.succ_pos⟩
  | writing byte more => exact hr
  | writable byte more => exact hr

theorem ReaderSide.waiting {u : ℕ} (hr : ReaderSide r (some u) n p) :
    u = r ∧ ∃ more, p = .reading more := by
  cases p with
  | reading more =>
      obtain ⟨hu, -⟩ := hr
      exact ⟨Option.some.inj hu, more, rfl⟩
  | idle => cases hr
  | readable more => cases hr.1
  | writing byte more => exact hr.elim
  | writable byte more => exact hr.elim

theorem ReaderSide.woken (hr : ReaderSide r none n p) : p.woken = p := by
  cases p with
  | reading more => cases hr.1
  | writing byte more => exact hr.elim
  | _ => rfl

/-! ## One byte -/

/-- The reader gets a byte, and the writer is woken if it waits. -/
theorem ends_getByte_wakes (hinv : Inv s h (n + 1)) (hrx : s.rxwaiter = none)
    (hw : WriterSide w s.txwaiter (n + 1) (s.phase w)) :
    Ends getByte (fun _ s' l => Inv s' (h ++ l) n ∧ l ≠ [] ∧ s'.rxwaiter = none ∧
      WriterSide w s'.txwaiter n (s'.phase w) ∧ s'.phase w = (s.phase w).woken) s := by
  have hroom : n + 1 < PAGE_SIZE := by
    rw [← hinv.length]
    exact hinv.room
  unfold getByte
  apply ends_bind
  refine ends_fifoGet hinv fun s₁ byte h₁ hrx₁ htx₁ hphase => ?_
  refine ends_bind (ends_note (ends_bind (ends_gets ?_)))
  have hremoved := hw.removed hroom
  cases htx : s₁.txwaiter with
  | none =>
      rw [htx₁] at htx
      rw [htx] at hw
      rw [hw.woken] at hremoved ⊢
      refine ends_pure ⟨h₁, by simp, hrx₁.trans hrx, ?_, ?_⟩
      · rw [hphase, htx₁, htx]
        exact hremoved
      · rw [hphase]
  | some u =>
      rw [htx₁] at htx
      rw [htx] at hw
      obtain ⟨rfl, byte', more, hwriting⟩ := hw.waiting
      rw [hwriting] at hremoved ⊢
      refine ends_bind (ends_taskUnblock_writer ((congrFun hphase u).trans hwriting)
        (ends_modify ⟨?_, by simp, hrx₁.trans hrx, ?_, setPhase_self _⟩))
      · refine ⟨h₁.length, h₁.tail, h₁.head, h₁.room, h₁.order, ?_, nofun⟩
        intro t ht
        cases (hrx₁.trans hrx).symm.trans ht
      · change WriterSide u none n ((s₁.setPhase u _).phase u)
        rw [setPhase_self]
        exact hremoved

/-- The writer puts a byte, and the reader is woken if it waits. -/
theorem ends_putByte_wakes (hinv : Inv s h n) (hroom : n + 1 < s.fifo.length)
    (htx : s.txwaiter = none) (hr : ReaderSide r s.rxwaiter n (s.phase r)) :
    Ends (putByte byte) (fun _ s' l => Inv s' (h ++ l) (n + 1) ∧ l ≠ [] ∧ s'.txwaiter = none ∧
      ReaderSide r s'.rxwaiter (n + 1) (s'.phase r) ∧ s'.phase r = (s.phase r).woken) s := by
  unfold putByte
  apply ends_bind
  refine ends_fifoPut hinv hroom fun s₁ h₁ hrx₁ htx₁ hphase => ?_
  refine ends_bind (ends_note (ends_bind (ends_gets ?_)))
  have hinserted := hr.inserted
  cases hrx : s₁.rxwaiter with
  | none =>
      rw [hrx₁] at hrx
      rw [hrx] at hr
      rw [hr.woken] at hinserted ⊢
      refine ends_pure ⟨h₁, by simp, htx₁.trans htx, ?_, ?_⟩
      · rw [hphase, hrx₁, hrx]
        exact hinserted
      · rw [hphase]
  | some u =>
      rw [hrx₁] at hrx
      rw [hrx] at hr
      obtain ⟨rfl, more, hreading⟩ := hr.waiting
      rw [hreading] at hinserted ⊢
      refine ends_bind (ends_taskUnblock_reader ((congrFun hphase u).trans hreading)
        (ends_modify ⟨?_, by simp, htx₁.trans htx, ?_, setPhase_self _⟩))
      · refine ⟨h₁.length, h₁.tail, h₁.head, h₁.room, h₁.order, nofun, ?_⟩
        intro t ht
        cases (htx₁.trans htx).symm.trans ht
      · change ReaderSide u none (n + 1) ((s₁.setPhase u _).phase u)
        rw [setPhase_self]
        exact hinserted

/-! ## Calls -/

theorem WriterSide.running (hne : r ≠ w) (hrx : s.rxwaiter = none)
    (hw : WriterSide w s.txwaiter n p) : Running s r := by
  refine ⟨by simp [hrx], ?_⟩
  intro htx
  rw [htx] at hw
  exact hne hw.waiting.1

theorem ReaderSide.running (hne : r ≠ w) (htx : s.txwaiter = none)
    (hr : ReaderSide r s.rxwaiter n p) : Running s w := by
  refine ⟨?_, by simp [htx]⟩
  intro hrx
  rw [hrx] at hr
  exact hne hr.waiting.1.symm

/-- The reader stops here. -/
theorem sides_reader (hne : r ≠ w) (hr : ReaderSide r s.rxwaiter n p)
    (hw : WriterSide w s.txwaiter n (s.phase w)) : Sides r w n (s.setPhase r p) := by
  constructor
  · rw [setPhase_self]
    exact hr
  · rw [setPhase_ne _ hne.symm]
    exact hw

/-- The writer stops here. -/
theorem sides_writer (hne : r ≠ w) (hr : ReaderSide r s.rxwaiter n (s.phase r))
    (hw : WriterSide w s.txwaiter n p) : Sides r w n (s.setPhase w p) := by
  constructor
  · rw [setPhase_ne _ hne]
    exact hr
  · rw [setPhase_self]
    exact hw

/-- The reader reads on; it returns, or waits because the pipe is empty. -/
theorem ends_pipeRead_wakes {count : ℕ} (hne : r ≠ w) (hinv : Inv s h n)
    (hrx : s.rxwaiter = none) (hw : WriterSide w s.txwaiter n (s.phase w)) :
    Ends (pipeRead r count) (fun _ s' l => ∃ n', Inv s' (h ++ l) n' ∧ Sides r w n' s' ∧
      Moved (s.phase w) (s'.phase w) l) s := by
  induction count generalizing s h n with
  | zero =>
      refine ends_modify ⟨n, ?_, sides_reader hne hrx hw, setPhase_ne _ hne.symm⟩
      rw [List.append_nil]
      exact hinv.setPhase (hw.running hne hrx) .idle
  | succ more ih =>
      unfold pipeRead
      refine ends_bind (ends_gets ?_)
      rw [hinv.empty]
      cases n with
      | zero =>
          refine ends_bind (ends_gets (ends_bind (ends_check hrx (ends_bind (ends_modify
            (ends_modify ⟨0, ?_, sides_reader hne ⟨rfl, rfl⟩ hw, setPhase_ne _ hne.symm⟩))))))
          have hphase := hinv.setPhase (hw.running hne hrx) (.reading more)
          refine ⟨hinv.length, hinv.tail, hinv.head, hinv.room, ?_, ?_, hphase.txwaiter⟩
          · simp only [List.append_nil]
            exact hinv.order
          · rintro u ⟨⟩
            exact ⟨more, setPhase_self _⟩
      | succ n =>
          apply ends_bind
          refine ends_mono (ends_getByte_wakes hinv hrx hw) ?_
          rintro _ s₁ l₁ ⟨h₁, hl₁, hrx₁, hw₁, hwoken⟩
          refine ends_mono (ih h₁ hrx₁ hw₁) ?_
          rintro _ s₂ l₂ ⟨n', h₂, hsides, hmoved⟩
          rw [hwoken] at hmoved
          refine ⟨n', by simpa using h₂, hsides, ?_⟩
          simp [Moved, hl₁, hmoved.after_woken]

/-- The writer writes on; it returns, or waits because the pipe is full. -/
theorem ends_pipeWrite_wakes {buf : List UInt8} (hne : r ≠ w) (hinv : Inv s h n)
    (htx : s.txwaiter = none) (hr : ReaderSide r s.rxwaiter n (s.phase r)) :
    Ends (pipeWrite w buf) (fun _ s' l => ∃ n', Inv s' (h ++ l) n' ∧ Sides r w n' s' ∧
      Moved (s.phase r) (s'.phase r) l) s := by
  induction buf generalizing s h n with
  | nil =>
      refine ends_modify ⟨n, ?_, sides_writer hne hr htx, setPhase_ne _ hne⟩
      rw [List.append_nil]
      exact hinv.setPhase (hr.running hne htx) .idle
  | cons byte more ih =>
      unfold pipeWrite
      refine ends_bind (ends_gets ?_)
      rw [hinv.full]
      by_cases hfull : n + 1 = s.fifo.length
      · rw [decide_eq_true hfull]
        have hside : WriterSide w (some w) n (.writing byte more) := ⟨rfl, hfull.trans hinv.length⟩
        refine ends_bind (ends_gets (ends_bind (ends_check htx (ends_bind (ends_modify
          (ends_modify ⟨n, ?_, sides_writer hne hr hside, setPhase_ne _ hne⟩))))))
        have hphase := hinv.setPhase (hr.running hne htx) (.writing byte more)
        refine ⟨hinv.length, hinv.tail, hinv.head, hinv.room, ?_, hphase.rxwaiter, ?_⟩
        · simp only [List.append_nil]
          exact hinv.order
        · rintro u ⟨⟩
          exact ⟨byte, more, setPhase_self _⟩
      · have hroom := hinv.room
        rw [decide_eq_false hfull]
        apply ends_bind
        refine ends_mono (ends_putByte_wakes hinv (by omega) htx hr) ?_
        rintro _ s₁ l₁ ⟨h₁, hl₁, htx₁, hr₁, hwoken⟩
        refine ends_mono (ih h₁ htx₁ hr₁) ?_
        rintro _ s₂ l₂ ⟨n', h₂, hsides, hmoved⟩
        rw [hwoken] at hmoved
        refine ⟨n', by simpa using h₂, hsides, ?_⟩
        simp [Moved, hl₁, hmoved.after_woken]

/-! ## Steps -/

/-- Task `r` only reads, task `w` only writes, and no other task uses the pipe. -/
def Between (r w : ℕ) : Action → Prop
  | .read t _ => t = r
  | .write t _ => t = w
  | .resume t => t = r ∨ t = w

/-- What a step of one of the two does: whoever was blocked before has been woken if a byte
was moved. -/
def Served (r w : ℕ) (s s' : State) (l : List Event) : Prop :=
  ∀ t, t = r ∨ t = w → (s.phase t).Blocked → Moved (s.phase t) (s'.phase t) l

theorem served_of_reader (hr : ¬(s.phase r).Blocked)
    (hmoved : Moved (s.phase w) (s'.phase w) l) : Served r w s s' l := by
  rintro t (rfl | rfl) hblocked
  · exact absurd hblocked hr
  · exact hmoved

theorem served_of_writer (hw : ¬(s.phase w).Blocked)
    (hmoved : Moved (s.phase r) (s'.phase r) l) : Served r w s s' l := by
  rintro t (rfl | rfl) hblocked
  · exact hmoved
  · exact absurd hblocked hw

/-- A woken reader gets its byte and reads on. -/
theorem ends_resume_reader {more : ℕ} (hne : r ≠ w) (hinv : Inv s h n) (hs : Sides r w n s)
    (hp : s.phase r = .readable more) :
    Ends (resume r) (fun _ s' l => ∃ n', Inv s' (h ++ l) n' ∧ Sides r w n' s' ∧
      Served r w s s' l) s := by
  have hreader := hs.reader
  rw [hp] at hreader
  obtain ⟨hrx, hpos⟩ := hreader
  obtain ⟨m, rfl⟩ := Nat.exists_eq_succ_of_ne_zero hpos.ne'
  unfold resume
  refine ends_bind (ends_get ?_)
  rw [hp]
  apply ends_bind
  refine ends_mono (ends_getByte_wakes hinv hrx hs.writer) ?_
  rintro _ s₁ l₁ ⟨h₁, hl₁, hrx₁, hw₁, hwoken⟩
  refine ends_mono (ends_pipeRead_wakes hne h₁ hrx₁ hw₁) ?_
  rintro _ s₂ l₂ ⟨n', h₂, hsides, hmoved⟩
  rw [hwoken] at hmoved
  refine ⟨n', by simpa using h₂, hsides, served_of_reader (by rw [hp]; exact id) ?_⟩
  simp [Moved, hl₁, hmoved.after_woken]

/-- A woken writer puts its byte and writes on. -/
theorem ends_resume_writer {more : List UInt8} (hne : r ≠ w) (hinv : Inv s h n)
    (hs : Sides r w n s) (hp : s.phase w = .writable byte more) :
    Ends (resume w) (fun _ s' l => ∃ n', Inv s' (h ++ l) n' ∧ Sides r w n' s' ∧
      Served r w s s' l) s := by
  have hwriter := hs.writer
  rw [hp] at hwriter
  obtain ⟨htx, hroom⟩ := hwriter
  unfold resume
  refine ends_bind (ends_get ?_)
  rw [hp]
  apply ends_bind
  refine ends_mono (ends_putByte_wakes hinv (by rw [hinv.length]; exact hroom) htx hs.reader) ?_
  rintro _ s₁ l₁ ⟨h₁, hl₁, htx₁, hr₁, hwoken⟩
  refine ends_mono (ends_pipeWrite_wakes hne h₁ htx₁ hr₁) ?_
  rintro _ s₂ l₂ ⟨n', h₂, hsides, hmoved⟩
  rw [hwoken] at hmoved
  refine ⟨n', by simpa using h₂, hsides, served_of_writer (by rw [hp]; exact id) ?_⟩
  simp [Moved, hl₁, hmoved.after_woken]

/-- Every step that the two can take returns. -/
theorem ends_code_between {a : Action} (hne : r ≠ w) (hinv : Inv s h n) (hs : Sides r w n s)
    (ha : a.Possible s) (hb : Between r w a) :
    Ends a.code (fun _ s' l => ∃ n', Inv s' (h ++ l) n' ∧ Sides r w n' s' ∧
      Served r w s s' l) s := by
  have hreader := hs.reader
  have hwriter := hs.writer
  cases a with
  | read t count =>
      obtain rfl : t = r := hb
      have hidle : s.phase t = .idle := ha
      rw [hidle] at hreader
      refine ends_mono (ends_pipeRead_wakes hne hinv hreader hwriter) ?_
      rintro _ s' l ⟨n', h', hsides, hmoved⟩
      exact ⟨n', h', hsides, served_of_reader (by rw [hidle]; exact id) hmoved⟩
  | write t buf =>
      obtain rfl : t = w := hb
      have hidle : s.phase t = .idle := ha
      rw [hidle] at hwriter
      refine ends_mono (ends_pipeWrite_wakes hne hinv hwriter hreader) ?_
      rintro _ s' l ⟨n', h', hsides, hmoved⟩
      exact ⟨n', h', hsides, served_of_writer (by rw [hidle]; exact id) hmoved⟩
  | resume t =>
      rcases hb with rfl | rfl
      · rcases ha with ⟨more, hp⟩ | ⟨byte, more, hp⟩
        · exact ends_resume_reader hne hinv hs hp
        · rw [hp] at hreader
          exact hreader.elim
      · rcases ha with ⟨more, hp⟩ | ⟨byte, more, hp⟩
        · rw [hp] at hwriter
          exact hwriter.elim
        · exact ends_resume_writer hne hinv hs hp

/-! ## Runs -/

theorem Initial.sides (hinit : Initial s) : Sides r w 0 s := by
  obtain ⟨-, hrx, htx, hidle⟩ := hinit
  constructor
  · rw [hidle]
    exact hrx
  · rw [hidle]
    exact htx

theorem sides_of_run (hne : r ≠ w) (hinit : Initial s)
    (hrun : Run Step (fun _ a => Between r w a) (s, []) (s', h)) :
    ∃ n, Inv s' h n ∧ Sides r w n s' := by
  refine hrun.invariant (P := fun x => ∃ n, Inv x.1 x.2 n ∧ Sides r w n x.1) ?_
    ⟨0, hinit.inv, hinit.sides⟩
  rintro x a x' ⟨n, hinv, hs⟩ hb ⟨ha, l, hcode, hl⟩
  rw [hl]
  obtain ⟨n', h', hsides, -⟩ := (ends_code_between hne hinv hs ha hb).after _ _ _ hcode
  exact ⟨n', h', hsides⟩

/-- What the fields for the waiting tasks say. -/
structure Recorded (r w : ℕ) (s : State) : Prop where
  reader : ∀ t, s.rxwaiter = some t ↔ t = r ∧ (s.phase r).Blocked
  writer : ∀ t, s.txwaiter = some t ↔ t = w ∧ (s.phase w).Blocked
  empty : (s.phase r).Blocked → s.available = 0
  full : (s.phase w).Blocked → s.available = 4095
  apart : ¬((s.phase r).Blocked ∧ (s.phase w).Blocked)

theorem ReaderSide.recorded (hr : ReaderSide r rx n p) :
    (∀ t, rx = some t ↔ t = r ∧ p.Blocked) ∧ (p.Blocked → n = 0) := by
  cases p with
  | reading more =>
      obtain ⟨rfl, rfl⟩ := hr
      simp [Phase.Blocked, eq_comm]
  | idle =>
      obtain rfl : rx = none := hr
      simp [Phase.Blocked]
  | readable more =>
      obtain ⟨rfl, -⟩ := hr
      simp [Phase.Blocked]
  | writing byte more => exact hr.elim
  | writable byte more => exact hr.elim

theorem WriterSide.recorded (hw : WriterSide w tx n p) :
    (∀ t, tx = some t ↔ t = w ∧ p.Blocked) ∧ (p.Blocked → n + 1 = PAGE_SIZE) := by
  cases p with
  | writing byte more =>
      obtain ⟨rfl, hfull⟩ := hw
      simp [Phase.Blocked, eq_comm, hfull]
  | idle =>
      obtain rfl : tx = none := hw
      simp [Phase.Blocked]
  | writable byte more =>
      obtain ⟨rfl, -⟩ := hw
      simp [Phase.Blocked]
  | reading more => exact hw.elim
  | readable more => exact hw.elim

theorem Sides.recorded (hinv : Inv s h n) (hs : Sides r w n s) : Recorded r w s := by
  obtain ⟨hreader, hempty⟩ := hs.reader.recorded
  obtain ⟨hwriter, hfull⟩ := hs.writer.recorded
  have havailable := hinv.available
  refine ⟨hreader, hwriter, ?_, ?_, ?_⟩
  · intro hblocked
    rw [havailable, hempty hblocked]
  · intro hblocked
    have hpage := hfull hblocked
    unfold PAGE_SIZE at hpage
    omega
  · rintro ⟨hr, hw⟩
    have hzero := hempty hr
    have hpage := hfull hw
    unfold PAGE_SIZE at hpage
    omega

/-- One reader and one writer are never both blocked, whoever is blocked is recorded and waits
for a byte in the empty pipe or for room in the full one, the next byte of the other wakes it,
and no step fails an assertion. -/
theorem pipe_never_deadlocks (hne : r ≠ w) (hinit : Initial s)
    (hrun : Run Step (fun _ a => Between r w a) (s, []) (s', h)) :
    Recorded r w s' ∧
      (∀ a x l, Between r w a → Step (s', h) a x → x.2 = h ++ l → l ≠ [] →
        ∀ t, t = r ∨ t = w → (s'.phase t).Blocked → x.1.phase t = (s'.phase t).woken) ∧
      ∀ a : Action, a.Possible s' → Between r w a → Returns a.code (fun _ _ => True) s' := by
  obtain ⟨n, hinv, hs⟩ := sides_of_run hne hinit hrun
  refine ⟨hs.recorded hinv, ?_, ?_⟩
  · rintro a x l hb ⟨ha, l', hcode, hl'⟩ hl hsome t ht hblocked
    obtain rfl : l' = l := List.append_cancel_left (hl'.symm.trans hl)
    obtain ⟨n', -, -, hserved⟩ := (ends_code_between hne hinv hs ha hb).after _ _ _ hcode
    have hmoved := hserved t ht hblocked
    rwa [Moved, if_neg hsome] at hmoved
  · intro a ha hb
    obtain ⟨u, s'', l, hcode, -⟩ := ends_code_between hne hinv hs ha hb
    exact ⟨u, s'', l, hcode, trivial⟩

/-- Task 1 waits for a byte, and task 2 writes it. -/
theorem awaited_never_deadlocks : (awaited.phase 1).Blocked ∧ Recorded 1 2 awaited ∧
    written.phase 1 = .readable 0 := by
  have hread : Between 1 2 (.read 1 1) := rfl
  have hwrite : Between 1 2 (.write 2 [7]) := rfl
  have hrun : Run Step (fun _ a => Between 1 2 a) (created, []) (awaited, []) :=
    Run.refl.tail hread created_read
  obtain ⟨hrecorded, hwakes, -⟩ := pipe_never_deadlocks (by decide) created_initial hrun
  exact ⟨trivial, hrecorded,
    hwakes _ _ [.inserted 7] hwrite awaited_write rfl (by simp) 1 (.inl rfl) trivial⟩

end Ylos.Pipes
