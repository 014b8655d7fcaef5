import Ylos.Verification.Buffer.Invariant

/-! # Coherence of the buffer cache -/

namespace Ylos.Cache

open Exec

variable {τ α : Type} [Fintype τ] [DecidableEq τ] {strict calm : Prop} {extra : Option ℕ}
  {s : State τ α} {t : τ} {b n : ℕ} {dev : ℤ} {block : ℕ}

/-! ## Finding a buffer -/

omit [DecidableEq τ] in
theorem wp_getFromHashTable (h : Inv strict calm none s) :
    wp (fun _ => True) (getFromHashTable dev block) (fun o s' =>
      (∃ b, o = some b ∧ b < s.bufferCount ∧ s' = { s with freeList := s.freeList.erase b }) ∨
      (o = none ∧ s' = s ∧
        ∀ b < s.bufferCount, (s.buffers b).dev = dev → (s.buffers b).block ≠ block)) s := by
  unfold getFromHashTable
  simp only [wp_bind, wp_get]
  cases hfind : (s.hashTable (hash dev block)).find? fun b =>
      (s.buffers b).dev = dev ∧ (s.buffers b).block = block with
  | none =>
      rw [wp_pure]
      refine .inr ⟨rfl, rfl, ?_⟩
      intro b hb hdev hblock
      have hmem : b ∈ s.hashTable (hash dev block) :=
        (h.chain _ b).mpr ⟨hb, by rw [State.home, hdev, hblock]⟩
      have hnot := List.find?_eq_none.mp hfind b hmem
      simp [hdev, hblock] at hnot
  | some b =>
      have hb := ((h.chain _ b).mp (List.mem_of_find?_eq_some hfind)).1
      simp only [wp_bind, wp_ite, wp_modify, wp_pure]
      refine ⟨fun _ => .inl ⟨b, rfl, hb, rfl⟩, fun hfree => .inl ⟨b, rfl, hb, ?_⟩⟩
      rw [List.erase_of_not_mem hfree]

omit [DecidableEq τ] in
/-- Only a new buffer comes out of `get_free_buffer`: to take one from the free list means
to remove it from its chain, and the assertion there fails. -/
theorem wp_getblkFree (h : Inv strict calm none s) :
    wp (fun _ => True) (getblkFree t dev block) (fun o s' =>
      (o = some s.bufferCount ∧ Room s.bufferCount ∧ s' = s.grow dev block) ∨
      (o = none ∧ ¬Room s.bufferCount ∧ s' = { s with waitList := t :: s.waitList })) s := by
  unfold getblkFree getFreeBuffer getNewBuffer hashLocate hashRemove modifyBuf getBuf
  simp only [wp_bind, wp_gets, wp_ite, wp_modify, wp_pure, wp_check]
  constructor
  · intro hroom
    rintro - - -
    refine .inl ⟨trivial, hroom, ?_⟩
    simp only [State.setBuf, State.setChain, State.grow, if_true]
    congr
    · funext c
      split
      · rename_i heq
        rw [heq]
      · rfl
    · funext k
      by_cases hk : k = hash dev block
      · simp only [hk, if_true]
      · simp only [hk, if_false]
  · intro hroom
    cases hlast : s.freeList.getLast? with
    | none =>
        simp only [wp_bind, wp_modify, wp_pure]
        exact .inr ⟨trivial, hroom, trivial⟩
    | some b =>
        have hb := ((h.free b).mp (List.mem_of_getLast? hlast)).1
        have hmem := (h.chain _ b).mpr ⟨hb, rfl⟩
        simp only [wp_bind, wp_modify, wp_gets, wp_check]
        intro hnot
        exact absurd hmem hnot

omit [DecidableEq τ] in
theorem Inv.setWaitList (h : Inv strict calm extra s) (l : List τ) :
    Inv strict calm extra { s with waitList := l } := { h with }

omit [DecidableEq τ] in
theorem wp_getblk (h : Inv strict calm none s) :
    wp (fun _ => True) (getblk t dev block) (fun o s' => s'.procs = s.procs ∧
      ((∃ b, o = some b ∧ Inv strict calm (some b) s') ∨
        (o = none ∧ ¬Room s'.bufferCount ∧ Inv strict calm none s'))) s := by
  unfold getblk
  rw [wp_bind]
  refine wp_mono (wp_getFromHashTable h) ?_
  rintro o s' (⟨b, rfl, hb, rfl⟩ | ⟨rfl, rfl, hmiss⟩)
  · simp only [modifyBuf, wp_bind, wp_modify]
    rw [wp_pure]
    exact ⟨rfl, .inl ⟨b, rfl, h.share hb⟩⟩
  · refine wp_mono (wp_getblkFree h) ?_
    rintro o s' (⟨rfl, hroom, rfl⟩ | ⟨rfl, hroom, rfl⟩)
    · exact ⟨rfl, .inl ⟨_, rfl, h.grow hroom hmiss⟩⟩
    · exact ⟨rfl, .inr ⟨rfl, hroom, h.setWaitList _⟩⟩

/-! ## Locks and references -/

omit [DecidableEq τ] in
/-- The lock changes; whoever reads into the buffer keeps it. -/
theorem Inv.setLock {lock : Lock τ} (h : Inv strict calm (some b) s)
    (hreads : ∀ u k, (s.procs u).point = .read b k → lock.holder = some u) :
    Inv strict calm (some b) (s.setBuf b { s.buffers b with lock := lock }) :=
  h.setBuf rfl rfl rfl hreads (fun hs => h.dirty hs b h.lt_of_extra)
    (fun hs u k => h.fresh hs u b k) (fun hs u k r => h.known hs u b k r)
    (fun hc => h.clean hc b h.lt_of_extra) (fun hc u k => h.moved hc u b k)

theorem wp_lockAcquire (h : Inv strict calm (some b) s) :
    wp (fun _ => True) (lockAcquire t b) (fun ok s' => s'.procs = s.procs ∧
      Inv strict calm (some b) s' ∧ (ok = true → (s'.buffers b).lock.holder = some t) ∧
      (s'.buffers b).valid = (s.buffers b).valid) s := by
  unfold lockAcquire getBuf modifyBuf
  simp only [wp_bind, wp_gets, wp_ite, wp_modify, wp_check]
  refine ⟨fun hmine => ?_, fun _ => ⟨fun hnone hrepeats => ?_, fun _ => ?_⟩⟩
  · rw [wp_pure]
    refine ⟨rfl, h.setLock fun u k hu => ?_, fun _ => by simp, by simp⟩
    rw [← hmine]
    exact h.reads u b k hu
  · rw [wp_pure]
    refine ⟨rfl, h.setLock fun u k hu => ?_, fun _ => by simp, by simp⟩
    rw [h.reads u b k hu] at hnone
    cases hnone
  · rw [wp_pure]
    exact ⟨rfl, h, by simp, rfl⟩

theorem wp_lockRelease (h : Inv strict calm (some b) s) (hidle : (s.procs t).point = .idle) :
    wp (fun _ => True) (lockRelease t b) (fun _ s' => s'.procs = s.procs ∧
      Inv strict calm (some b) s') s := by
  unfold lockRelease getBuf modifyBuf
  simp only [wp_bind, wp_gets, wp_ite, wp_modify, wp_check]
  intro hmine
  have hreads : ∀ u k, (s.procs u).point ≠ .read b k := by
    intro u k hu
    have hholder := h.reads u b k hu
    rw [hmine] at hholder
    cases hholder
    rw [hidle] at hu
    cases hu
  exact ⟨fun _ => ⟨rfl, h.setLock fun u k hu => absurd hu (hreads u k)⟩,
    fun _ _ => ⟨rfl, h.setLock fun u k hu => absurd hu (hreads u k)⟩⟩

/-- A running task keeps a reference that it was given. -/
theorem wp_handOut (h : Inv strict calm (some b) s) (hidle : (s.procs t).point = .idle) :
    wp (fun _ => True) (handOut t b) (fun _ s' => Inv strict calm none s') s := by
  unfold handOut setHeld
  rw [wp_modify]
  refine h.setProc ?_ ?_ ?_ ?_ ?_
  · intro c
    simp only [Proc.refs, hidle, Point.used, reduceCtorEq, if_false, Option.some.injEq]
    by_cases hc : c = b
    · simp [hc]
    · simp [hc, Ne.symm hc]
  · simp [hidle]
  · simp [hidle]
  · simp [hidle]
  · simp [hidle]

/-- A running task passes a reference to the code. -/
theorem Inv.takeBack (h : Inv strict calm none s) (hidle : (s.procs t).point = .idle)
    (hheld : 0 < (s.procs t).held b) :
    Inv strict calm (some b) (s.setProc t { s.procs t with
      held := fun c => if c = b then (s.procs t).held c - 1 else (s.procs t).held c }) := by
  refine h.setProc ?_ ?_ ?_ ?_ ?_
  · intro c
    simp only [Proc.refs, hidle, Point.used, reduceCtorEq, if_false, Option.some.injEq]
    by_cases hc : c = b
    · subst c
      simp
      omega
    · simp [hc, Ne.symm hc]
  · simp [hidle]
  · simp [hidle]
  · simp [hidle]
  · simp [hidle]

/-- A running task blocks. -/
theorem Inv.blocked {p : Point} (h : Inv strict calm p.used s) (hidle : (s.procs t).point = .idle)
    (hwait : ∀ dev block r, p = .free dev block r → ¬Room s.bufferCount)
    (hwrite : ∀ c k r, p = .write c k r →
      c < s.bufferCount ∧ (strict → (s.buffers c).valid = true))
    (hread : ∀ c k, p = .read c k →
      (s.buffers c).lock.holder = some t ∧ (strict → (s.buffers c).valid = false))
    (hmoved : calm → ∀ c k, (p = .read c k ∨ ∃ r, p = .write c k r) →
      ∀ i < k, (s.buffers c).data i = s.disk (s.buffers c).dev (s.buffers c).block i) :
    Inv strict calm none (s.setProc t { s.procs t with point := p }) := by
  refine h.setProc ?_ hwait hwrite hread hmoved
  intro c
  simp [Proc.refs, hidle, Point.used]

/-- A blocked task runs on. -/
theorem Inv.unblock (h : Inv strict calm none s) :
    Inv strict calm (s.procs t).point.used (s.setProc t { s.procs t with point := .idle }) := by
  refine h.setProc ?_ ?_ ?_ ?_ ?_
  · intro c
    simp [Proc.refs, Point.used]
  · simp
  · simp
  · simp
  · simp

/-! ## Reading -/

theorem wp_breadLocked (h : Inv strict calm (some b) s) (hidle : (s.procs t).point = .idle)
    (hlock : (s.buffers b).lock.holder = some t) :
    wp (fun _ => True) (breadLocked t b) (fun _ s' => Inv strict calm none s') s := by
  unfold breadLocked getBuf setPoint
  simp only [wp_bind, wp_gets, wp_ite, wp_modify]
  refine ⟨fun _ => ?_, fun hvalid => ?_⟩
  · refine wp_mono (wp_lockRelease h hidle) ?_
    rintro _ s' ⟨hprocs, h'⟩
    exact wp_handOut h' (by rw [hprocs]; exact hidle)
  · refine Inv.blocked (p := .read b 0) h hidle ?_ ?_ ?_ ?_
    · simp
    · simp
    · rintro c k ⟨⟩
      exact ⟨hlock, fun _ => by simpa using hvalid⟩
    · rintro - c k (⟨⟨⟩⟩ | ⟨r, ⟨⟩⟩) i hi
      exact absurd hi (Nat.not_lt_zero i)

theorem wp_breadLock (h : Inv strict calm (some b) s) (hidle : (s.procs t).point = .idle) :
    wp (fun _ => True) (breadLock t b) (fun _ s' => Inv strict calm none s') s := by
  unfold breadLock
  rw [wp_bind]
  refine wp_mono (wp_lockAcquire h) ?_
  rintro ok s' ⟨hprocs, h', hlock, -⟩
  have hidle' : (s'.procs t).point = .idle := by rw [hprocs]; exact hidle
  cases ok with
  | true => exact wp_breadLocked h' hidle' (hlock rfl)
  | false =>
      simp only [Bool.false_eq_true, if_false, setPoint, wp_modify]
      refine Inv.blocked (p := .lock b) h' hidle' ?_ ?_ ?_ ?_ <;> simp

theorem wp_gotBuffer {reads : Bool} (h : Inv strict calm (some b) s)
    (hidle : (s.procs t).point = .idle) :
    wp (fun _ => True) (gotBuffer t dev block reads (some b))
      (fun _ s' => Inv strict calm none s') s := by
  unfold gotBuffer getBuf
  simp only [wp_bind, wp_gets, wp_ite]
  exact ⟨fun _ => wp_breadLock h hidle, fun _ => wp_handOut h hidle⟩

theorem wp_gotNoBuffer {reads : Bool} (h : Inv strict calm none s)
    (hidle : (s.procs t).point = .idle) (hroom : ¬Room s.bufferCount) :
    wp (fun _ => True) (gotBuffer t dev block reads none)
      (fun _ s' => Inv strict calm none s') s := by
  unfold gotBuffer setPoint
  rw [wp_modify]
  refine Inv.blocked (p := .free dev block reads) h hidle (fun _ _ _ _ => hroom) ?_ ?_ ?_ <;> simp

/-- A sector comes from the disk, or the read is over. -/
theorem wp_breadOn (h : Inv strict calm (some b) s) (hidle : (s.procs t).point = .idle)
    (hlock : (s.buffers b).lock.holder = some t) (hfresh : strict → (s.buffers b).valid = false)
    (hmoved : calm → ∀ i < n, (s.buffers b).data i =
      s.disk (s.buffers b).dev (s.buffers b).block i) :
    wp (fun _ => True) (breadOn t b n) (fun _ s' => Inv strict calm none s') s := by
  have hreads : ∀ u k, (s.procs u).point ≠ .read b k := by
    intro u k hu
    have hholder := h.reads u b k hu
    rw [hlock] at hholder
    cases hholder
    rw [hidle] at hu
    cases hu
  unfold breadOn getBuf modifyBuf setPoint
  simp only [wp_bind, wp_gets, wp_ite, wp_modify]
  refine ⟨fun hn => ?_, fun hn => ?_⟩
  · have hsame : ∀ i, (s.buffers b).data i = s.disk (s.buffers b).dev (s.buffers b).block i →
        ((s.buffers b).setSector n (s.disk (s.buffers b).dev (s.buffers b).block n)).data i =
          s.disk (s.buffers b).dev (s.buffers b).block i := by
      intro i hi
      change (if i = n then _ else _) = _
      split
      · rename_i heq
        rw [heq]
      · exact hi
    have h' := h.setBuf (b := b)
      (v := (s.buffers b).setSector n (s.disk (s.buffers b).dev (s.buffers b).block n))
      rfl rfl rfl (fun u k hu => h.reads u b k hu) (fun hs => h.dirty hs b h.lt_of_extra)
      (fun hs u k => h.fresh hs u b k) (fun hs u k r => h.known hs u b k r)
      (fun hc hv hd i hi => hsame i (h.clean hc b h.lt_of_extra hv hd i hi))
      (fun hc u k hu i hi => hsame i (h.moved hc u b k hu i hi))
    refine Inv.blocked (p := .read b (n + 1)) h' hidle ?_ ?_ ?_ ?_
    · simp
    · simp
    · rintro c k ⟨⟩
      simpa using ⟨hlock, hfresh⟩
    · rintro hcalm c k (⟨⟨⟩⟩ | ⟨r, ⟨⟩⟩) i hi
      simp only [State.setBuf_buffers, State.setBuf_disk]
      by_cases heq : i = n
      · rw [heq]
        exact if_pos rfl
      · exact hsame i (hmoved hcalm i (by omega))
  · have h' := h.setBuf (b := b) (v := { s.buffers b with dirty := false, valid := true })
      rfl rfl rfl (fun u k hu => absurd hu (hreads u k)) (fun _ _ => rfl)
      (fun _ u k hu => absurd hu (hreads u k)) (fun _ _ _ _ _ => rfl)
      (fun hc _ _ i hi => hmoved hc i (by omega)) (fun hc u k hu i hi => h.moved hc u b k hu i hi)
    refine wp_mono (wp_lockRelease (t := t) h' hidle) ?_
    rintro _ s' ⟨hprocs, h''⟩
    exact wp_handOut h'' (by rw [hprocs]; exact hidle)

/-! ## Writing and releasing -/

theorem wp_putRef (h : Inv strict calm (some b) s) :
    wp (fun _ => True) (putRef b) (fun _ s' => Inv strict calm none s') s := by
  unfold putRef getBuf modifyBuf wakeWaiter
  simp only [wp_bind, wp_gets, wp_ite, wp_modify, wp_check, State.setBuf_buffers,
    State.setBuf_waitList]
  refine fun _ => ⟨fun hzero _ => ?_, fun hpos => ?_⟩
  · have h' := h.unshare (l := b :: s.freeList) (by rw [if_pos (by omega)])
    cases hlast : s.waitList.getLast? with
    | none =>
        rw [wp_pure]
        exact h'
    | some u =>
        simp only [wp_bind, wp_modify, wp_gets, wp_check]
        exact fun _ => h'.setWaitList _
  · rw [wp_pure]
    exact h.unshare (l := s.freeList) (by rw [if_neg (by omega)])

/-- A sector goes to the disk, or the write is over. -/
theorem wp_bwriteOn {releases : Bool}
    (h : Inv strict calm (Point.write b n releases).used s) (hb : b < s.bufferCount)
    (hidle : (s.procs t).point = .idle) (hknown : strict → (s.buffers b).valid = true)
    (hmoved : calm → ∀ i < n, (s.buffers b).data i =
      s.disk (s.buffers b).dev (s.buffers b).block i) :
    wp (fun _ => True) (bwriteOn t b n releases) (fun _ s' => Inv strict calm none s') s := by
  unfold bwriteOn getBuf modifyBuf setPoint
  simp only [wp_bind, wp_gets, wp_ite, wp_modify]
  refine ⟨fun hn => ?_, fun hn => ?_⟩
  · have h' := h.setDisk hb n
    refine Inv.blocked (p := .write b (n + 1) releases) ?_ hidle ?_ ?_ ?_ ?_
    · cases releases <;> exact h'
    · simp
    · rintro c k r ⟨⟩
      exact ⟨hb, hknown⟩
    · simp
    · rintro hcalm c k (⟨⟨⟩⟩ | ⟨r, ⟨⟩⟩) i hi
      change _ = if _ ∧ _ ∧ i = n then _ else _
      by_cases heq : i = n
      · rw [if_pos ⟨rfl, rfl, heq⟩, heq]
        rfl
      · rw [if_neg (fun hall => heq hall.2.2)]
        exact hmoved hcalm i (by omega)
  · have h' := h.setBuf (b := b) (v := { s.buffers b with dirty := false, valid := true })
      rfl rfl rfl (fun u k hu => h.reads u b k hu) (fun _ _ => rfl)
      (fun hs u k hu => by
        have hfresh := h.fresh hs u b k hu
        rw [hknown hs] at hfresh
        cases hfresh)
      (fun _ _ _ _ _ => rfl) (fun hc _ _ i hi => hmoved hc i (by omega))
      (fun hc u k hu i hi => h.moved hc u b k hu i hi)
    cases releases with
    | true => exact ⟨fun _ => wp_putRef h', by simp⟩
    | false =>
        refine ⟨by simp, fun _ => ?_⟩
        rw [wp_pure]
        exact h'

theorem wp_bwrite (h : Inv strict calm none s) (hidle : (s.procs t).point = .idle)
    (hb : b < s.bufferCount) :
    wp (fun _ => True) (bwrite t b) (fun _ s' => Inv strict calm none s') s := by
  unfold bwrite getBuf setPoint
  simp only [wp_bind, wp_gets, wp_ite, wp_modify]
  refine ⟨fun hdirty => ?_, fun _ => ?_⟩
  · refine Inv.blocked (p := .write b 0 false) h hidle ?_ ?_ ?_ ?_
    · simp
    · rintro c k r ⟨⟩
      exact ⟨hb, fun hs => h.dirty hs b hb (by simpa using hdirty)⟩
    · simp
    · rintro - c k (⟨⟨⟩⟩ | ⟨r, ⟨⟩⟩) i hi
      exact absurd hi (Nat.not_lt_zero i)
  · rw [wp_pure]
    exact h

theorem wp_brelse (h : Inv strict calm none s) (hidle : (s.procs t).point = .idle)
    (hheld : 0 < (s.procs t).held b) :
    wp (fun _ => True) (brelse t b) (fun _ s' => Inv strict calm none s') s := by
  have hb := h.lt_of_held hheld
  have h' := h.takeBack hidle hheld
  unfold brelse getBuf setPoint setHeld
  simp only [wp_bind, wp_gets, wp_ite, wp_modify]
  refine ⟨fun hdirty => ?_, fun _ => wp_putRef h'⟩
  refine Inv.blocked (p := .write b 0 true) h' (by simp [State.setProc, hidle]) ?_ ?_ ?_ ?_
  · simp
  · rintro c k r ⟨⟩
    exact ⟨hb, fun hs => h.dirty hs b hb hdirty⟩
  · simp
  · rintro - c k (⟨⟨⟩⟩ | ⟨r, ⟨⟩⟩) i hi
    exact absurd hi (Nat.not_lt_zero i)

omit [DecidableEq τ] in
/-- A sector is altered, and the buffer is marked dirty. -/
theorem wp_alter {i : ℕ} {v : α} (h : Inv strict calm none s)
    (hstrict : strict → (s.buffers b).valid = true)
    (hcalm : calm → ∀ u k, ((s.procs u).point = .read b k ∨
      ∃ r, (s.procs u).point = .write b k r) → k ≤ i) :
    wp (fun _ => True) (alter b i v) (fun _ s' => Inv strict calm none s') s := by
  unfold alter modifyBuf
  rw [wp_modify]
  refine h.setBuf rfl rfl rfl (fun u k => h.reads u b k) (fun hs _ => hstrict hs)
    (fun hs u k => h.fresh hs u b k) (fun hs u k r => h.known hs u b k r) ?_ ?_
  · simp
  · intro hc u k hu j hj
    have hk := hcalm hc u k hu
    exact (if_neg (by omega)).trans (h.moved hc u b k hu j hj)

/-! ## Runs -/

/-- Only valid buffers are altered. -/
def AltersValid (s : State τ α) (a : Action τ α) : Prop :=
  ∀ t b i v, a = .alter t b i v → (s.buffers b).valid = true

/-- No sector is altered that a transfer under way has passed. -/
def AltersAhead (s : State τ α) (a : Action τ α) : Prop :=
  ∀ t b i v, a = .alter t b i v → ∀ u k,
    ((s.procs u).point = .read b k ∨ ∃ r, (s.procs u).point = .write b k r) → k ≤ i

/-- A task goes on from where it waited. -/
theorem wp_resume {p : Point} (h : Inv strict calm none s) (hp : (s.procs t).point = p) :
    wp (fun _ => True) (resume t p) (fun _ s' => Inv strict calm none s')
      (s.setProc t { s.procs t with point := .idle }) := by
  have h' := h.unblock (t := t)
  rw [hp] at h'
  have hidle : ((s.setProc t { s.procs t with point := .idle }).procs t).point = .idle := by
    simp [State.setProc]
  cases p with
  | idle =>
      simp only [resume, wp_pure]
      exact h'
  | free dev block reads =>
      simp only [resume, wp_bind]
      refine wp_mono (wp_getblkFree h') ?_
      rintro o s' (⟨rfl, hroom, rfl⟩ | ⟨rfl, hroom, rfl⟩)
      · exact absurd hroom (h.waits t dev block reads hp)
      · exact wp_gotNoBuffer (h'.setWaitList _) hidle hroom
  | lock b => exact wp_breadLock h' hidle
  | read b n =>
      exact wp_breadOn h' hidle (h.reads t b n hp) (fun hs => h.fresh hs t b n hp)
        (fun hc => h.moved hc t b n (.inl hp))
  | write b n releases =>
      exact wp_bwriteOn h' (h.writes t b n releases hp) hidle
        (fun hs => h.known hs t b n releases hp) (fun hc => h.moved hc t b n (.inr ⟨_, hp⟩))

theorem wp_code {a : Action τ α} (h : Inv strict calm none s) (hbalanced : a.Balanced s)
    (hstrict : strict → AltersValid s a) (hcalm : calm → AltersAhead s a) :
    wp (fun _ => True) a.code (fun _ s' => Inv strict calm none s') s := by
  have hgetblk : ∀ t dev block reads, (s.procs t).point = .idle →
      wp (fun _ => True) (getblk t dev block >>= gotBuffer t dev block reads)
        (fun _ s' => Inv strict calm none s') s := by
    intro t dev block reads hidle
    rw [wp_bind]
    refine wp_mono (wp_getblk h) ?_
    rintro o s' ⟨hprocs, ⟨b, rfl, h'⟩ | ⟨rfl, hroom, h'⟩⟩
    · exact wp_gotBuffer h' (by rw [hprocs]; exact hidle)
    · exact wp_gotNoBuffer h' (by rw [hprocs]; exact hidle) hroom
  cases a with
  | getblk t dev block => exact hgetblk t dev block false hbalanced
  | bread t dev block => exact hgetblk t dev block true hbalanced
  | alter t b i v =>
      exact wp_alter h (fun hs => hstrict hs t b i v rfl) (fun hc => hcalm hc t b i v rfl)
  | bwrite t b => exact wp_bwrite h hbalanced.1 (h.lt_of_held hbalanced.2)
  | brelse t b => exact wp_brelse h hbalanced.1 hbalanced.2
  | resume t =>
      simp only [Action.code, setPoint, wp_bind, wp_gets, wp_modify]
      exact wp_resume h rfl

omit [DecidableEq τ] in
theorem inv_initial (h : Initial s) : Inv strict calm none s := by
  have hrefs : ∀ b, s.refs b = 0 := by
    intro b
    simp [State.refs, Proc.refs, h.idle, h.held, Point.used]
  constructor <;> simp [h.count, h.chains, h.free, h.idle, hrefs]

/-- The invariant holds along every run. -/
theorem inv_of_run {s₀ : State τ α} (h₀ : Initial s₀)
    (hrun : Run Step (fun s a => (strict → AltersValid s a) ∧ (calm → AltersAhead s a)) s₀ s) :
    Inv strict calm none s :=
  hrun.invariant (fun s a s' h hok hstep =>
    wp_code h hstep.1 hok.1 hok.2 () s' [] hstep.2 (by simp)) (inv_initial h₀)

/-! ## Coherence -/

/-- Buffers and keys correspond, and references are counted. -/
structure Coherent (s : State τ α) : Prop where
  /-- At most one buffer in the hash table carries a key. -/
  unique : ∀ h h' b b', b ∈ s.hashTable h → b' ∈ s.hashTable h' →
    (s.buffers b).dev = (s.buffers b').dev → (s.buffers b).block = (s.buffers b').block → b = b'
  /-- A buffer is in the chain of its own key, and in no other. -/
  chain : ∀ b < s.bufferCount, ∀ h,
    b ∈ s.hashTable h ↔ h = hash (s.buffers b).dev (s.buffers b).block
  /-- The count is the number of references handed out and not yet released. -/
  count : ∀ b < s.bufferCount, (s.buffers b).count = (∑ t, (s.procs t).refs b : ℕ)
  free : ∀ b < s.bufferCount, b ∈ s.freeList ↔ (s.buffers b).count = 0
  /-- Two tasks with references to buffers of one key share one buffer. -/
  shared : ∀ t t' b b', 0 < (s.procs t).refs b → 0 < (s.procs t').refs b' →
    (s.buffers b).dev = (s.buffers b').dev → (s.buffers b).block = (s.buffers b').block → b = b'

/-- No read from the device into a valid buffer is under way. -/
def NoReadOverValid (s : State τ α) : Prop :=
  ∀ t b k, (s.procs t).point = .read b k → k < BLOCK_SECS → (s.buffers b).valid = false

omit [DecidableEq τ] in
theorem Inv.coherent (h : Inv strict calm none s) : Coherent s where
  unique k k' b b' hb hb' := h.unique b b' ((h.chain k b).mp hb).1 ((h.chain k' b').mp hb').1
  chain b hb k := by
    rw [h.chain]
    exact and_iff_right hb
  count b hb := (h.count b hb).trans (by simp [State.refs])
  free b hb := by
    rw [h.free]
    exact and_iff_right hb
  shared t t' b b' ht ht' := h.unique b b' (h.lt_of_refs ht) (h.lt_of_refs ht')

/-- Two tasks, an empty cache, and blocks of zeros. -/
def emptyCache : State Bool ℕ where
  buffers _ := ⟨fun _ => 0, 0, 0, 0, ⟨none, 0⟩, false, false⟩
  bufferCount := 0
  hashTable _ := []
  freeList := []
  waitList := []
  disk _ _ _ := 0
  procs _ := ⟨.idle, fun _ => 0⟩

theorem emptyCache_initial : Initial emptyCache :=
  ⟨rfl, fun _ => rfl, rfl, rfl, fun _ => rfl, fun _ _ => rfl⟩

/-- A task gets a buffer without reading it, alters it and writes it. While the write is
under way another task starts to read the block, and the end of the write makes the buffer
valid. -/
theorem exists_readOverValid :
    ∃ s, Run Step (fun _ _ => True) emptyCache s ∧ ¬NoReadOverValid s := by
  refine ⟨_, Run.head (a := .getblk true 0 7) trivial ⟨rfl, rfl⟩ <|
    Run.head (a := .alter true 0 0 5) trivial ⟨⟨rfl, by decide, by decide⟩, rfl⟩ <|
    Run.head (a := .bwrite true 0) trivial ⟨⟨rfl, by decide⟩, rfl⟩ <|
    Run.head (a := .resume true) trivial ⟨⟨by decide, by rintro _ _ _ ⟨⟩⟩, rfl⟩ <|
    Run.head (a := .bread false 0 7) trivial ⟨rfl, rfl⟩ <|
    Run.head (a := .resume true) trivial ⟨⟨by decide, by rintro _ _ _ ⟨⟩⟩, rfl⟩ <|
    Run.head (a := .resume true) trivial ⟨⟨by decide, by rintro _ _ _ ⟨⟩⟩, rfl⟩ Run.refl, ?_⟩
  intro h
  exact absurd (h false 0 0 rfl (by decide)) (by decide)

/-- The cache is coherent in every state that is reached, and no block is read over a valid
buffer in the runs in which only valid buffers are altered. -/
theorem cache_coherent {s₀ : State τ α} (h₀ : Initial s₀) :
    (∀ s, Run Step (fun _ _ => True) s₀ s → Coherent s) ∧
      ∀ s, Run Step AltersValid s₀ s → NoReadOverValid s := by
  refine ⟨fun s hrun => ?_, fun s hrun t b k hp _ => ?_⟩
  · have hinv : Inv False False none s := inv_of_run h₀ (hrun.weaken (by simp))
    exact hinv.coherent
  · have hinv : Inv True False none s :=
      inv_of_run h₀ (hrun.weaken fun s a ha => ⟨fun _ => ha, False.elim⟩)
    exact hinv.fresh trivial t b k hp

/-- Two tasks read one block: the second waits for the lock of the buffer. -/
theorem emptyCache_coherent :
    ∃ s, Run Step AltersValid emptyCache s ∧ (s.procs true).point = .read 0 0 ∧
      (s.procs false).point = .lock 0 ∧ Coherent s ∧ NoReadOverValid s := by
  have hrun : ∃ s, Run Step AltersValid emptyCache s ∧ (s.procs true).point = .read 0 0 ∧
      (s.procs false).point = .lock 0 :=
    ⟨_, Run.head (a := .bread true 0 7) (by rintro _ _ _ _ ⟨⟩) ⟨rfl, rfl⟩ <|
      Run.head (a := .bread false 0 7) (by rintro _ _ _ _ ⟨⟩) ⟨rfl, rfl⟩ Run.refl, rfl, rfl⟩
  obtain ⟨s, hrun, htrue, hfalse⟩ := hrun
  obtain ⟨hcoherent, hfresh⟩ := cache_coherent emptyCache_initial
  exact ⟨s, hrun, htrue, hfalse, hcoherent s (hrun.weaken fun _ _ _ => trivial), hfresh s hrun⟩

end Ylos.Cache
