import Ylos.Verification.Keyboard.Reading

/-! # Readers get enough

A call returns when its task runs again after enough has been typed. -/

namespace Ylos.Keyboard

open BoundedQueue

/-- Interrupts, one after the other. -/
def Device.interrupts : List ℕ → Device → Except Fault Device
  | [], d => .ok d
  | code :: codes, d => do
    let d ← d.interrupt code
    Device.interrupts codes d

/-- The bytes of these codes. -/
def Device.bytes (d : Device) (codes : List ℕ) : List UInt8 :=
  (run d.keyboard codes).2.map Char.toUInt8

variable {d d₀ : Device} {t count left code : ℕ} {buf q : List UInt8} {codes : List ℕ}

namespace Device

theorem bytes_cons (d : Device) (code : ℕ) (codes : List ℕ) :
    d.bytes (code :: codes) = (keyboardHandler d.keyboard code).ch.toList.map Char.toUInt8 ++
      (run (keyboardHandler d.keyboard code).state codes).2.map Char.toUInt8 :=
  List.map_append

/-- While there is room, the bytes queue up, and a reader in the loop stays there. -/
theorem Inv.interrupts (h : d.Inv q) (hinside : d.Inside t count buf left)
    (hroom : (q ++ d.bytes codes).length < BUFFER_SIZE) :
    ∃ d', Device.interrupts codes d = .ok d' ∧ d'.Inv (q ++ d.bytes codes) ∧
      d'.Inside t count buf left ∧ d'.returned = d.returned := by
  induction codes generalizing d q with
  | nil => exact ⟨d, rfl, (List.append_nil q).symm ▸ h, hinside, rfl⟩
  | cons code codes ih =>
      have hcons := d.bytes_cons code codes
      cases hch : (keyboardHandler d.keyboard code).ch with
      | none =>
          obtain ⟨hrun, hinv⟩ := h.interrupt_silent hch
          rw [hch] at hcons
          rw [hcons] at hroom ⊢
          obtain ⟨d', hruns, hrest⟩ := ih hinv hinside hroom
          refine ⟨d', ?_, hrest⟩
          unfold Device.interrupts
          rw [hrun]
          exact hruns
      | some ch =>
          obtain ⟨d₁, hrun, hinv, hkeyboard, hreturned, hready⟩ := h.interrupt_char hch
          have hrest : (run (keyboardHandler d.keyboard code).state codes).2.map Char.toUInt8 =
              d₁.bytes codes := by
            unfold bytes
            rw [hkeyboard]
          have hone : (some ch).toList.map Char.toUInt8 = [ch.toUInt8] := rfl
          rw [hch, hone, hrest] at hcons
          rw [hcons, ← List.append_assoc] at hroom ⊢
          have hput : put (BUFFER_SIZE - 1) q ch.toUInt8 = q ++ [ch.toUInt8] := by
            refine put_room ?_ _
            rw [List.length_append, List.length_append, List.length_singleton] at hroom
            omega
          rw [hput] at hinv
          obtain ⟨d', hruns, hinv', hinside', hreturned'⟩ := ih hinv (.inr (hready _ _ _ _ hinside))
            hroom
          refine ⟨d', ?_, hinv', hinside', hreturned'.trans hreturned⟩
          unfold Device.interrupts
          rw [hrun]
          exact hruns

/-- With enough in the buffer, the loop comes to its end. -/
theorem readLoop_enough (h : d.fifo.Holds q) (henough : left ≤ q.length) :
    ∃ d', readLoop t count left buf d = .ok d' ∧
      d'.returned = d.returned ++ [(t, count, buf ++ q.take left)] := by
  induction left generalizing d buf q with
  | zero =>
      refine ⟨_, rfl, ?_⟩
      rw [List.take_zero, List.append_nil]
  | succ left ih =>
      cases q with
      | nil => exact absurd henough (Nat.not_succ_le_zero left)
      | cons byte q =>
          have hnext : ∃ d', readLoop t count left (buf ++ [byte]) { d with fifo := d.fifo.pop } =
              .ok d' ∧ d'.returned = d.returned ++ [(t, count, buf ++ [byte] ++ q.take left)] :=
            ih h.pop (Nat.le_of_succ_le_succ henough)
          obtain ⟨d', hrun, hreturned⟩ := hnext
          refine ⟨d', ?_, ?_⟩
          · have hfull : ¬d.fifo.empty = true := by
              rw [h.empty]
              simp
            unfold readLoop
            rw [if_neg hfull, onFifo_get h]
            exact hrun
          · rw [hreturned, List.append_assoc]
            rfl

end Device

/-- In every state that can be reached, the call of a task inside the loop returns when enough has
been typed and the task runs again, and it returns the next characters. -/
theorem read_completes (hinit : Initial d₀) (hrun : Run Step (fun _ _ => True) d₀ d)
    (hinside : d.Inside t count buf left)
    (henough : left ≤ (d.fifo.content ++ d.bytes codes).length)
    (hroom : (d.fifo.content ++ d.bytes codes).length < BUFFER_SIZE) :
    ∃ d₁ d₂, Device.interrupts codes d = .ok d₁ ∧ Step d₁ (.resume t) d₂ ∧
      d₂.returned = d.returned ++
        [(t, count, buf ++ (d.fifo.content ++ d.bytes codes).take left)] := by
  obtain ⟨q, hinv⟩ := hinit.run_inv hrun
  rw [hinv.streams.holds.content_eq] at henough hroom ⊢
  obtain ⟨d₁, hruns, hinv₁, hinside₁, hreturned⟩ := hinv.interrupts hinside hroom
  -- a blocked reader would be in front of an empty buffer
  have hready : d₁.phase t = .ready count buf left := by
    refine hinside₁.resolve_left fun hblocked => ?_
    obtain ⟨-, -, hempty, -, hpos⟩ := hinv₁.blocked t count buf left hblocked
    rw [hempty] at henough
    exact absurd henough (Nat.not_le.mpr hpos)
  obtain ⟨d₂, hloop, hreturned₂⟩ := Device.readLoop_enough (d := d₁) (t := t) hinv₁.streams.holds
    henough
  refine ⟨d₁, d₂, hruns, ?_, hreturned ▸ hreturned₂⟩
  unfold Step
  simp only [Action.next, hready]
  exact congrArg some hloop

/-- Task 7 is blocked with nothing in its `buf` yet. -/
def pairAwaited : Device := booted.after (.read 7 2)

theorem pair_completes : ∃ d₁ d₂, Device.interrupts [0x1E, 0x1F] pairAwaited = .ok d₁ ∧
    Step d₁ (.resume 7) d₂ ∧ d₂.returned = [(7, 2, [97, 115])] := by
  have hrun : Run Step (fun _ _ => True) booted pairAwaited :=
    Run.refl.tail trivial (step_after rfl)
  have hinside : pairAwaited.Inside 7 2 [] 2 := .inl rfl
  have hbytes : pairAwaited.fifo.content ++ pairAwaited.bytes [0x1E, 0x1F] = [97, 115] := by
    decide
  have henough : 2 ≤ (pairAwaited.fifo.content ++ pairAwaited.bytes [0x1E, 0x1F]).length := by
    rw [hbytes]
    decide
  have hroom : (pairAwaited.fifo.content ++ pairAwaited.bytes [0x1E, 0x1F]).length <
      BUFFER_SIZE := by
    rw [hbytes]
    decide
  have hcompletes := read_completes booted_initial hrun hinside henough hroom
  rw [hbytes] at hcompletes
  exact hcompletes

end Ylos.Keyboard
