import Ylos.Lib.Runs
import Ylos.Verification.Pipe.Fifo

/-! # Pipes deliver their bytes in order

As long as no task starts to wait where another waits already, and a task that was woken
still finds its byte or its room. -/

namespace Ylos.Pipes

open Exec RingBuffer

def insertedOf (h : List Event) : List UInt8 :=
  h.filterMap fun
    | .inserted byte => some byte
    | .removed _ => none

def removedOf (h : List Event) : List UInt8 :=
  h.filterMap fun
    | .removed byte => some byte
    | .inserted _ => none

/-- The number of bytes in the pipe. -/
def State.available (s : State) : ℕ :=
  (s.fifo.head + s.fifo.length - s.fifo.tail) % s.fifo.length

/-- The number of bytes that fit in beside them. -/
def State.space (s : State) : ℕ := s.fifo.length - 1 - s.available

def State.contents (s : State) : List UInt8 :=
  window s.fifo.buf s.fifo.length s.fifo.tail s.available

/-- The pipe holds `n` bytes, those inserted and not yet removed, and who is recorded as
waiting is blocked. -/
structure Inv (s : State) (h : List Event) (n : ℕ) : Prop where
  length : s.fifo.length = PAGE_SIZE
  tail : s.fifo.tail < s.fifo.length
  head : s.fifo.head = place s.fifo.length s.fifo.tail n
  room : n < s.fifo.length
  order : insertedOf h = removedOf h ++ window s.fifo.buf s.fifo.length s.fifo.tail n
  rxwaiter : ∀ t, s.rxwaiter = some t → ∃ more, s.phase t = .reading more
  txwaiter : ∀ t, s.txwaiter = some t → ∃ byte more, s.phase t = .writing byte more

/-- The task is not waiting. -/
def Running (s : State) (t : ℕ) : Prop := s.rxwaiter ≠ some t ∧ s.txwaiter ≠ some t

variable {s s' : State} {h : List Event} {n t u : ℕ} {byte : UInt8}

@[simp] theorem insertedOf_append (h l : List Event) :
    insertedOf (h ++ l) = insertedOf h ++ insertedOf l := List.filterMap_append

@[simp] theorem removedOf_append (h l : List Event) :
    removedOf (h ++ l) = removedOf h ++ removedOf l := List.filterMap_append

theorem setPhase_self (p : Phase) : (s.setPhase t p).phase t = p := if_pos rfl

theorem setPhase_ne (p : Phase) (hu : u ≠ t) : (s.setPhase t p).phase u = s.phase u := if_neg hu

/-! ## The ring buffer -/

theorem Inv.holds (hinv : Inv s h n) :
    s.fifo.Holds (window s.fifo.buf s.fifo.length s.fifo.tail n) := by
  refine ⟨hinv.tail, ?_, ?_, ?_⟩
  · rw [length_window]
    exact hinv.room
  · rw [length_window]
    exact hinv.head
  · rw [length_window]

theorem Inv.available (hinv : Inv s h n) : s.available = n := hinv.holds.count.trans length_window

theorem Inv.empty (hinv : Inv s h n) : s.fifo.empty = decide (n = 0) := by
  rw [hinv.holds.empty, length_window]

theorem Inv.full (hinv : Inv s h n) : s.fifo.full = decide (n + 1 = s.fifo.length) := by
  rw [hinv.holds.full, length_window]

/-- A byte is taken out. -/
theorem Inv.get (hinv : Inv s h (n + 1)) :
    Inv { s with fifo := s.fifo.pop } (h ++ [.removed (s.fifo.buf s.fifo.tail)]) n := by
  have hpop := (window_succ hinv.tail ▸ hinv.holds).pop
  refine ⟨hinv.length, hpop.tail, ?_, (Nat.lt_succ_self n).trans hinv.room, ?_, hinv.rxwaiter,
    hinv.txwaiter⟩
  · rw [hpop.head, length_window]
  · rw [insertedOf_append, removedOf_append, hinv.order, window_succ hinv.tail]
    simp [insertedOf, removedOf, Fifo.pop, Fifo.next, place]

/-- A byte is put in. -/
theorem Inv.put (hinv : Inv s h n) (hn : n + 1 < s.fifo.length) (byte : UInt8) :
    Inv { s with fifo := s.fifo.push byte } (h ++ [.inserted byte]) (n + 1) := by
  have hroom : (window s.fifo.buf s.fifo.length s.fifo.tail n).length + 1 < s.fifo.length := by
    rw [length_window]
    exact hn
  have hpush := hinv.holds.push hroom byte
  refine ⟨hinv.length, hinv.tail, ?_, hn, ?_, hinv.rxwaiter, hinv.txwaiter⟩
  · rw [hpush.head, List.length_append, length_window]
    rfl
  · rw [insertedOf_append, removedOf_append, hinv.order]
    have hcontent : window (s.fifo.push byte).buf (s.fifo.push byte).length
        (s.fifo.push byte).tail (n + 1) =
        window s.fifo.buf s.fifo.length s.fifo.tail n ++ [byte] := by
      rw [← hpush.content, List.length_append, length_window]
      rfl
    rw [hcontent]
    simp [insertedOf, removedOf]

/-! ## One byte -/

theorem ends_taskUnblock_reader {Q : Unit → State → List Event → Prop} {more : ℕ}
    (ht : s.phase t = .reading more) (hQ : Q () (s.setPhase t (.readable more)) []) :
    Ends (taskUnblock t) Q s := by
  refine ends_bind (ends_get ?_)
  rw [ht]
  exact ends_modify hQ

theorem ends_taskUnblock_writer {Q : Unit → State → List Event → Prop} {more : List UInt8}
    (ht : s.phase t = .writing byte more) (hQ : Q () (s.setPhase t (.writable byte more)) []) :
    Ends (taskUnblock t) Q s := by
  refine ends_bind (ends_get ?_)
  rw [ht]
  exact ends_modify hQ

theorem ends_fifoGet {Q : UInt8 → State → List Event → Prop} (hinv : Inv s h (n + 1))
    (hQ : ∀ s' byte, Inv s' (h ++ [.removed byte]) n → s'.rxwaiter = s.rxwaiter →
      s'.txwaiter = s.txwaiter → s'.phase = s.phase → Q byte s' []) : Ends fifoGet Q s := by
  exact ⟨_, _, _, run_fifoGet (window_succ hinv.tail ▸ hinv.holds), hQ _ _ hinv.get rfl rfl rfl⟩

theorem ends_fifoPut {Q : Unit → State → List Event → Prop} (hinv : Inv s h n)
    (hn : n + 1 < s.fifo.length)
    (hQ : ∀ s', Inv s' (h ++ [.inserted byte]) (n + 1) → s'.rxwaiter = s.rxwaiter →
      s'.txwaiter = s.txwaiter → s'.phase = s.phase → Q () s' []) : Ends (fifoPut byte) Q s := by
  have hroom : (window s.fifo.buf s.fifo.length s.fifo.tail n).length + 1 < s.fifo.length := by
    rw [length_window]
    exact hn
  have hdrain := run_fifoDrain_room hinv.holds hroom s.fifo.length
  refine ends_bind (ends_gets (ends_bind ⟨(), s, [], hdrain, ?_⟩))
  exact ends_modify (hQ _ (hinv.put hn byte) rfl rfl rfl)

/-- The other side is woken, and who is not waiting stays so. -/
theorem ends_getByte {Q : Unit → State → List Event → Prop} (hinv : Inv s h (n + 1))
    (hQ : ∀ s' l, Inv s' (h ++ l) n → s'.rxwaiter = s.rxwaiter →
      (∀ t, Running s t → Running s' t) → Q () s' l) : Ends getByte Q s := by
  unfold getByte
  refine ends_bind (ends_fifoGet hinv fun s₁ byte h₁ hrx htx _ => ?_)
  refine ends_bind (ends_note (ends_bind (ends_gets ?_)))
  have hrunning : ∀ t, Running s t → Running s₁ t := by
    intro t ht
    unfold Running
    rwa [hrx, htx]
  cases hwaiter : s₁.txwaiter with
  | none => exact ends_pure (hQ s₁ [.removed byte] h₁ hrx hrunning)
  | some u =>
      obtain ⟨_, _, hu⟩ := h₁.txwaiter u hwaiter
      refine ends_bind (ends_taskUnblock_writer hu (ends_modify ?_))
      refine hQ _ [.removed byte] ⟨h₁.length, h₁.tail, h₁.head, h₁.room, h₁.order, fun t ht => ?_,
        nofun⟩ hrx fun t ht => ⟨(hrunning t ht).1, nofun⟩
      obtain ⟨more, ht'⟩ := h₁.rxwaiter t ht
      refine ⟨more, (setPhase_ne _ ?_).trans ht'⟩
      rintro rfl
      rw [hu] at ht'
      cases ht'

theorem ends_putByte {Q : Unit → State → List Event → Prop} (hinv : Inv s h n)
    (hn : n + 1 < s.fifo.length)
    (hQ : ∀ s' l, Inv s' (h ++ l) (n + 1) → s'.txwaiter = s.txwaiter →
      (∀ t, Running s t → Running s' t) → Q () s' l) : Ends (putByte byte) Q s := by
  unfold putByte
  refine ends_bind (ends_fifoPut hinv hn fun s₁ h₁ hrx htx _ => ?_)
  refine ends_bind (ends_note (ends_bind (ends_gets ?_)))
  have hrunning : ∀ t, Running s t → Running s₁ t := by
    intro t ht
    unfold Running
    rwa [hrx, htx]
  cases hwaiter : s₁.rxwaiter with
  | none => exact ends_pure (hQ s₁ [.inserted byte] h₁ htx hrunning)
  | some u =>
      obtain ⟨_, hu⟩ := h₁.rxwaiter u hwaiter
      refine ends_bind (ends_taskUnblock_reader hu (ends_modify ?_))
      refine hQ _ [.inserted byte] ⟨h₁.length, h₁.tail, h₁.head, h₁.room, h₁.order, nofun,
        fun t ht => ?_⟩ htx fun t ht => ⟨nofun, (hrunning t ht).2⟩
      obtain ⟨byte', more, ht'⟩ := h₁.txwaiter t ht
      refine ⟨byte', more, (setPhase_ne _ ?_).trans ht'⟩
      rintro rfl
      rw [hu] at ht'
      cases ht'

/-! ## The loops -/

/-- The phase of a task that is not waiting is its own. -/
theorem Inv.setPhase (hinv : Inv s h n) (ht : Running s t) (p : Phase) :
    Inv (s.setPhase t p) h n := by
  refine ⟨hinv.length, hinv.tail, hinv.head, hinv.room, hinv.order, fun u hu => ?_,
    fun u hu => ?_⟩
  · obtain ⟨more, hmore⟩ := hinv.rxwaiter u hu
    refine ⟨more, (setPhase_ne _ ?_).trans hmore⟩
    rintro rfl
    exact ht.1 hu
  · obtain ⟨byte, more, hmore⟩ := hinv.txwaiter u hu
    refine ⟨byte, more, (setPhase_ne _ ?_).trans hmore⟩
    rintro rfl
    exact ht.2 hu

theorem ends_pipeRead {count : ℕ} (hinv : Inv s h n) (ht : Running s t)
    (hclear : s.rxwaiter = none ∨ count ≤ n) :
    Ends (pipeRead t count) (fun _ s' l => ∃ n', Inv s' (h ++ l) n') s := by
  induction count generalizing s h n with
  | zero =>
      refine ends_modify ⟨n, ?_⟩
      rw [List.append_nil]
      exact hinv.setPhase ht .idle
  | succ more ih =>
      unfold pipeRead
      refine ends_bind (ends_gets ?_)
      rw [hinv.empty]
      cases n with
      | zero =>
          -- The reader waits; nobody else does.
          have hnone : s.rxwaiter = none := by
            rcases hclear with hnone | hle
            · exact hnone
            · omega
          refine ends_bind (ends_gets (ends_bind (ends_check hnone (ends_bind (ends_modify
            (ends_modify ⟨0, ?_⟩))))))
          have hphase := hinv.setPhase ht (.reading more)
          refine ⟨hinv.length, hinv.tail, hinv.head, hinv.room, ?_, fun u hu => ?_,
            hphase.txwaiter⟩
          · simp only [List.append_nil]
            exact hinv.order
          · cases hu
            exact ⟨more, setPhase_self _⟩
      | succ n =>
          refine ends_bind (ends_getByte hinv fun s' l hinv' hrx hrunning => ?_)
          refine ends_mono (ih hinv' (hrunning t ht) ?_) fun _ s'' l' hend => ?_
          · rw [hrx]
            exact hclear.imp_right fun hle => by omega
          · simpa only [List.nil_append, List.append_assoc] using hend

theorem ends_pipeWrite {buf : List UInt8} (hinv : Inv s h n) (ht : Running s t)
    (hclear : s.txwaiter = none ∨ n + buf.length < s.fifo.length) :
    Ends (pipeWrite t buf) (fun _ s' l => ∃ n', Inv s' (h ++ l) n') s := by
  induction buf generalizing s h n with
  | nil =>
      refine ends_modify ⟨n, ?_⟩
      rw [List.append_nil]
      exact hinv.setPhase ht .idle
  | cons byte more ih =>
      unfold pipeWrite
      refine ends_bind (ends_gets ?_)
      rw [hinv.full]
      rw [List.length_cons] at hclear
      by_cases hn : n + 1 = s.fifo.length
      · -- The writer waits; nobody else does.
        have hnone : s.txwaiter = none := by
          rcases hclear with hnone | hlt
          · exact hnone
          · omega
        rw [decide_eq_true hn]
        refine ends_bind (ends_gets (ends_bind (ends_check hnone (ends_bind (ends_modify
          (ends_modify ⟨n, ?_⟩))))))
        have hphase := hinv.setPhase ht (.writing byte more)
        refine ⟨hinv.length, hinv.tail, hinv.head, hinv.room, ?_, hphase.rxwaiter, fun u hu => ?_⟩
        · simp only [List.append_nil]
          exact hinv.order
        · cases hu
          exact ⟨byte, more, setPhase_self _⟩
      · have hroom := hinv.room
        rw [decide_eq_false hn]
        refine ends_bind (ends_putByte hinv (by omega) fun s' l hinv' htx hrunning => ?_)
        refine ends_mono (ih hinv' (hrunning t ht) ?_) fun _ s'' l' hend => ?_
        · rw [htx, hinv'.length, ← hinv.length]
          exact hclear.imp_right fun hlt => by omega
        · simpa only [List.nil_append, List.append_assoc] using hend

/-! ## Steps -/

/-- No task comes to wait on a side where another waits, and a task that was woken finds a
byte or room for one. -/
def Clear (s : State) : Action → Prop
  | .read _ count => s.rxwaiter = none ∨ count ≤ s.available
  | .write _ buf => s.txwaiter = none ∨ buf.length ≤ s.space
  | .resume t =>
    match s.phase t with
    | .readable more => 0 < s.available ∧ (s.rxwaiter = none ∨ more + 1 ≤ s.available)
    | .writable _ more => 0 < s.space ∧ (s.txwaiter = none ∨ more.length + 1 ≤ s.space)
    | _ => True

theorem Inv.space (hinv : Inv s h n) : s.space = s.fifo.length - 1 - n := by
  unfold State.space
  rw [hinv.available]

theorem Inv.running (hinv : Inv s h n) (hrx : ∀ more, s.phase t ≠ .reading more)
    (htx : ∀ byte more, s.phase t ≠ .writing byte more) : Running s t := by
  refine ⟨fun ht => ?_, fun ht => ?_⟩
  · obtain ⟨more, hmore⟩ := hinv.rxwaiter t ht
    exact hrx more hmore
  · obtain ⟨byte, more, hmore⟩ := hinv.txwaiter t ht
    exact htx byte more hmore

/-- A step that is clear returns and keeps the order. -/
theorem ends_code {a : Action} (hinv : Inv s h n) (ha : a.Possible s) (hclear : Clear s a) :
    Ends a.code (fun _ s' l => ∃ n', Inv s' (h ++ l) n') s := by
  have havailable := hinv.available
  have hspace := hinv.space
  have hroom := hinv.room
  cases a with
  | read t count =>
      change s.phase t = .idle at ha
      refine ends_pipeRead hinv (hinv.running ?_ ?_) (hclear.imp_right fun hle => by omega)
      all_goals rw [ha]; exact nofun
  | write t buf =>
      change s.phase t = .idle at ha
      refine ends_pipeWrite hinv (hinv.running ?_ ?_) (hclear.imp_right fun hle => by omega)
      all_goals rw [ha]; exact nofun
  | resume t =>
      unfold Action.code Pipes.resume
      simp only [Clear] at hclear
      refine ends_bind (ends_get ?_)
      rcases ha with ⟨more, ha⟩ | ⟨byte, more, ha⟩
      · rw [ha] at hclear ⊢
        obtain ⟨hpos, hclear⟩ := hclear
        have hrunning : Running s t :=
          hinv.running (by rw [ha]; exact nofun) (by rw [ha]; exact nofun)
        obtain ⟨m, rfl⟩ : ∃ m, n = m + 1 := ⟨n - 1, by omega⟩
        refine ends_bind (ends_getByte hinv fun s' l hinv' hrx hkeep => ?_)
        refine ends_mono (ends_pipeRead hinv' (hkeep t hrunning) ?_) fun _ s'' l' hend => ?_
        · rw [hrx]
          exact hclear.imp_right fun hle => by omega
        · simpa only [List.nil_append, List.append_assoc] using hend
      · rw [ha] at hclear ⊢
        obtain ⟨hpos, hclear⟩ := hclear
        have hrunning : Running s t :=
          hinv.running (by rw [ha]; exact nofun) (by rw [ha]; exact nofun)
        refine ends_bind (ends_putByte hinv (by omega) fun s' l hinv' htx hkeep => ?_)
        refine ends_mono (ends_pipeWrite hinv' (hkeep t hrunning) ?_) fun _ s'' l' hend => ?_
        · rw [htx, hinv'.length, ← hinv.length]
          exact hclear.imp_right fun hle => by omega
        · simpa only [List.nil_append, List.append_assoc] using hend

/-! ## Runs -/

theorem Initial.inv (hinit : Initial s) : Inv s [] 0 := by
  obtain ⟨⟨buf, hfifo⟩, hrx, htx, _⟩ := hinit
  refine ⟨?_, ?_, ?_, ?_, rfl, fun t ht => ?_, fun t ht => ?_⟩
  · rw [hfifo]
    rfl
  · rw [hfifo]
    exact Nat.succ_pos _
  · rw [hfifo]
    rfl
  · rw [hfifo]
    exact Nat.succ_pos _
  · rw [hrx] at ht
    cases ht
  · rw [htx] at ht
    cases ht

theorem inv_of_run (hinit : Initial s)
    (hrun : Run Step (fun x a => Clear x.1 a) (s, []) (s', h)) : ∃ n, Inv s' h n := by
  refine hrun.invariant (P := fun x => ∃ n, Inv x.1 x.2 n)
    (fun x a x' hx hclear hstep => ?_) ⟨0, hinit.inv⟩
  obtain ⟨n, hinv⟩ := hx
  obtain ⟨ha, l, hcode, hl⟩ := hstep
  rw [hl]
  exact (ends_code hinv ha hclear).after _ _ _ hcode

/-- As long as all steps are clear, no assertion fails, and the bytes that were inserted are
those that were removed and then those in the pipe. -/
theorem bytes_in_order (hinit : Initial s)
    (hrun : Run Step (fun x a => Clear x.1 a) (s, []) (s', h)) :
    (∀ a : Action, a.Possible s' → Clear s' a → Returns a.code (fun _ _ => True) s') ∧
      removedOf h <+: insertedOf h ∧ insertedOf h = removedOf h ++ s'.contents := by
  obtain ⟨n, hinv⟩ := inv_of_run hinit hrun
  refine ⟨fun a ha hclear => ?_, ?_, ?_⟩
  · obtain ⟨r, s'', l, hcode, _⟩ := ends_code hinv ha hclear
    exact ⟨r, s'', l, hcode, trivial⟩
  · rw [hinv.order]
    exact List.prefix_append _ _
  · unfold State.contents
    rw [hinv.available]
    exact hinv.order

/-- A new pipe. -/
def created : State := ⟨fifoInit (fun _ => 0) PAGE_SIZE, none, none, fun _ => .idle⟩

theorem created_initial : Initial created := ⟨⟨_, rfl⟩, rfl, rfl, fun _ => rfl⟩

/-- Task 1 waits for a byte. -/
def awaited : State :=
  ⟨fifoInit (fun _ => 0) PAGE_SIZE, some 1, none, fun u => if u = 1 then .reading 0 else .idle⟩

theorem created_read : Step (created, []) (.read 1 1) (awaited, []) := ⟨rfl, [], rfl, rfl⟩

/-- Task 2 has written it, and task 1 has still to run. -/
def written : State :=
  ⟨⟨fun i => if i = 0 then 7 else 0, PAGE_SIZE, 1, 0⟩, none, none,
    fun u => if u = 2 then .idle else if u = 1 then .readable 0 else awaited.phase u⟩

theorem awaited_write : Step (awaited, []) (.write 2 [7]) (written, [.inserted 7]) :=
  ⟨rfl, [.inserted 7], rfl, rfl⟩

theorem written_in_order :
    (∀ a : Action, a.Possible written → Clear written a →
      Returns a.code (fun _ _ => True) written) ∧
      removedOf [.inserted 7] <+: insertedOf [.inserted 7] ∧
      insertedOf [.inserted 7] = removedOf [.inserted 7] ++ written.contents := by
  have hread : Clear created (.read 1 1) := .inl rfl
  have hwrite : Clear awaited (.write 2 [7]) := .inl rfl
  exact bytes_in_order created_initial
    (.tail (.tail .refl hread created_read) hwrite awaited_write)

/-- A second reader fails an assertion when the pipe is empty. -/
theorem second_reader_fails : ∃ s s' h, Initial s ∧ Run Step (fun _ _ => True) (s, []) (s', h) ∧
    ∃ a : Action, a.Possible s' ∧ a.code.run s' = .error .assertion :=
  ⟨created, awaited, [], created_initial, Run.refl.tail trivial created_read, .read 2 1, rfl, rfl⟩

end Ylos.Pipes
