import Mathlib.Algebra.BigOperators.Fin
import Mathlib.Algebra.Order.BigOperators.Group.Finset
import Ylos.Model.Buffer

/-! # The invariant of the buffer cache -/

namespace Ylos.Cache

open Exec

variable {τ α : Type}

/-! ## Updates of the state -/

section Updates

variable (s : State τ α) (b h : ℕ) (v : Buffer τ α) (l : List ℕ)

@[simp] theorem State.setBuf_buffers : (s.setBuf b v).buffers b = v := if_pos rfl

@[simp] theorem State.setBuf_bufferCount : (s.setBuf b v).bufferCount = s.bufferCount := rfl

@[simp] theorem State.setBuf_hashTable : (s.setBuf b v).hashTable = s.hashTable := rfl

@[simp] theorem State.setBuf_freeList : (s.setBuf b v).freeList = s.freeList := rfl

@[simp] theorem State.setBuf_waitList : (s.setBuf b v).waitList = s.waitList := rfl

@[simp] theorem State.setBuf_disk : (s.setBuf b v).disk = s.disk := rfl

@[simp] theorem State.setBuf_procs : (s.setBuf b v).procs = s.procs := rfl

@[simp] theorem State.setBuf_setBuf (w : Buffer τ α) :
    (s.setBuf b v).setBuf b w = s.setBuf b w := by
  simp only [State.setBuf, State.mk.injEq, and_true]
  funext c
  split <;> rfl

end Updates

variable [Fintype τ]

/-- The buffer to which a call under way has a reference. -/
def Point.used : Point → Option ℕ
  | .lock b | .read b _ | .write b _ true => some b
  | _ => none

/-- The references to `b` that `p` was given and has not released. -/
def Proc.refs (p : Proc) (b : ℕ) : ℕ := p.held b + if p.point.used = some b then 1 else 0

/-- The references to `b` handed out and not yet released. -/
def State.refs (s : State τ α) (b : ℕ) : ℕ := ∑ t, (s.procs t).refs b

/-- The chain that the key of `b` belongs to. -/
def State.home (s : State τ α) (b : ℕ) : ℕ := hash (s.buffers b).dev (s.buffers b).block

/-- There is room for another buffer after `n`. -/
def Room (n : ℕ) : Prop := bufferPtr n + BUFFER_T_SIZE < bufferData n

theorem not_room_succ {n : ℕ} (h : ¬Room n) : ¬Room (n + 1) := by
  simp only [Room, bufferPtr, bufferData, KERNEL_BUFFER_MEM, KERNEL_BUFFER_SIZE, BUFFER_T_SIZE,
    BLOCK_SIZE] at *
  omega

/-- What holds between two micro steps of the code. A reference in the hands of the code
that runs is `extra`. The last fields are about the runs in which only valid buffers are
altered (`strict`), and those in which no sector is altered that a transfer under way has
passed (`calm`). -/
structure Inv (strict calm : Prop) (extra : Option ℕ) (s : State τ α) : Prop where
  chain : ∀ h b, b ∈ s.hashTable h ↔ b < s.bufferCount ∧ h = s.home b
  nodup : ∀ h, (s.hashTable h).Nodup
  unique : ∀ b b', b < s.bufferCount → b' < s.bufferCount →
    (s.buffers b).dev = (s.buffers b').dev → (s.buffers b).block = (s.buffers b').block → b = b'
  count : ∀ b < s.bufferCount,
    (s.buffers b).count = (s.refs b + if extra = some b then 1 else 0 : ℕ)
  absent : ∀ b, s.bufferCount ≤ b → s.refs b + (if extra = some b then 1 else 0) = 0
  free : ∀ b, b ∈ s.freeList ↔ b < s.bufferCount ∧ (s.buffers b).count = 0
  freeNodup : s.freeList.Nodup
  waits : ∀ t dev block r, (s.procs t).point = .free dev block r → ¬Room s.bufferCount
  writes : ∀ t b k r, (s.procs t).point = .write b k r → b < s.bufferCount
  reads : ∀ t b k, (s.procs t).point = .read b k → (s.buffers b).lock.holder = some t
  dirty : strict → ∀ b < s.bufferCount, (s.buffers b).dirty = true → (s.buffers b).valid = true
  fresh : strict → ∀ t b k, (s.procs t).point = .read b k → (s.buffers b).valid = false
  known : strict → ∀ t b k r, (s.procs t).point = .write b k r → (s.buffers b).valid = true
  clean : calm → ∀ b < s.bufferCount, (s.buffers b).valid = true → (s.buffers b).dirty = false →
    ∀ i < BLOCK_SECS, (s.buffers b).data i = s.disk (s.buffers b).dev (s.buffers b).block i
  moved : calm → ∀ t b k, ((s.procs t).point = .read b k ∨ ∃ r, (s.procs t).point = .write b k r) →
    ∀ i < k, (s.buffers b).data i = s.disk (s.buffers b).dev (s.buffers b).block i

section Steps

variable {strict calm : Prop} {extra : Option ℕ} {s : State τ α} {t : τ} {b : ℕ}

/-! ## References -/

theorem State.refs_pos (h : 0 < (s.procs t).refs b) : 0 < s.refs b :=
  lt_of_lt_of_le h (Finset.single_le_sum (f := fun u => (s.procs u).refs b)
    (fun _ _ => Nat.zero_le _) (Finset.mem_univ t))

theorem Inv.lt_of_refs (h : Inv strict calm extra s) (hpos : 0 < (s.procs t).refs b) :
    b < s.bufferCount := by
  by_contra hb
  have habsent := h.absent b (not_lt.mp hb)
  have hrefs := State.refs_pos hpos
  omega

theorem Inv.lt_of_extra (h : Inv strict calm (some b) s) : b < s.bufferCount := by
  by_contra hb
  have habsent := h.absent b (not_lt.mp hb)
  simp at habsent

theorem Inv.lt_of_held (h : Inv strict calm extra s) (hpos : 0 < (s.procs t).held b) :
    b < s.bufferCount :=
  h.lt_of_refs (t := t) (by unfold Proc.refs; omega)

theorem Inv.lt_of_point (h : Inv strict calm extra s) {k : ℕ}
    (ht : (s.procs t).point = .read b k ∨ ∃ r, (s.procs t).point = .write b k r) :
    b < s.bufferCount := by
  rcases ht with ht | ⟨r, ht⟩
  · exact h.lt_of_refs (t := t) (by unfold Proc.refs; rw [ht]; simp [Point.used])
  · exact h.writes t b k r ht

/-! ## Buffers -/

/-- A buffer changes in everything but its key and its count. -/
theorem Inv.setBuf {v : Buffer τ α} (h : Inv strict calm extra s)
    (hdev : v.dev = (s.buffers b).dev) (hblock : v.block = (s.buffers b).block)
    (hcount : v.count = (s.buffers b).count)
    (hreads : ∀ t k, (s.procs t).point = .read b k → v.lock.holder = some t)
    (hdirty : strict → v.dirty = true → v.valid = true)
    (hfresh : strict → ∀ t k, (s.procs t).point = .read b k → v.valid = false)
    (hknown : strict → ∀ t k r, (s.procs t).point = .write b k r → v.valid = true)
    (hclean : calm → v.valid = true → v.dirty = false →
      ∀ i < BLOCK_SECS, v.data i = s.disk v.dev v.block i)
    (hmoved : calm → ∀ t k, ((s.procs t).point = .read b k ∨
      ∃ r, (s.procs t).point = .write b k r) → ∀ i < k, v.data i = s.disk v.dev v.block i) :
    Inv strict calm extra (s.setBuf b v) := by
  have hbuf : ∀ c, (s.setBuf b v).buffers c = if c = b then v else s.buffers c := fun _ => rfl
  have hdev' : ∀ c, ((s.setBuf b v).buffers c).dev = (s.buffers c).dev := by
    intro c
    rw [hbuf]
    split
    · rename_i heq
      rw [heq, hdev]
    · rfl
  have hblock' : ∀ c, ((s.setBuf b v).buffers c).block = (s.buffers c).block := by
    intro c
    rw [hbuf]
    split
    · rename_i heq
      rw [heq, hblock]
    · rfl
  have hcount' : ∀ c, ((s.setBuf b v).buffers c).count = (s.buffers c).count := by
    intro c
    rw [hbuf]
    split
    · rename_i heq
      rw [heq, hcount]
    · rfl
  have hhome : ∀ c, (s.setBuf b v).home c = s.home c := by
    intro c
    unfold State.home
    rw [hdev', hblock']
  refine { h with
    chain := ?_, unique := ?_, count := ?_, free := ?_, reads := ?_, dirty := ?_, fresh := ?_,
    known := ?_, clean := ?_, moved := ?_ }
  · intro k c
    rw [hhome]
    exact h.chain k c
  · intro c c' hc hc' hd hk
    rw [hdev', hdev'] at hd
    rw [hblock', hblock'] at hk
    exact h.unique c c' hc hc' hd hk
  · intro c hc
    rw [hcount']
    exact h.count c hc
  · intro c
    rw [hcount']
    exact h.free c
  · intro t c k ht
    rw [hbuf]
    split
    · rename_i heq
      subst c
      exact hreads t k ht
    · exact h.reads t c k ht
  · intro hstrict c hc
    rw [hbuf]
    split
    · exact hdirty hstrict
    · exact h.dirty hstrict c hc
  · intro hstrict t c k ht
    rw [hbuf]
    split
    · rename_i heq
      subst c
      exact hfresh hstrict t k ht
    · exact h.fresh hstrict t c k ht
  · intro hstrict t c k r ht
    rw [hbuf]
    split
    · rename_i heq
      subst c
      exact hknown hstrict t k r ht
    · exact h.known hstrict t c k r ht
  · intro hcalm c hc
    rw [hbuf]
    split
    · exact hclean hcalm
    · exact h.clean hcalm c hc
  · intro hcalm t c k ht
    rw [hbuf]
    split
    · rename_i heq
      subst c
      exact hmoved hcalm t k ht
    · exact h.moved hcalm t c k ht

/-- Sector `i` of `b` goes to the disk. -/
theorem Inv.setDisk (h : Inv strict calm extra s) (hb : b < s.bufferCount) (i : ℕ) :
    Inv strict calm extra
      (s.setDisk (s.buffers b).dev (s.buffers b).block i ((s.buffers b).data i)) := by
  have hdisk : ∀ c < s.bufferCount, ∀ j, (s.buffers c).data j =
      s.disk (s.buffers c).dev (s.buffers c).block j → (s.buffers c).data j =
      (s.setDisk (s.buffers b).dev (s.buffers b).block i ((s.buffers b).data i)).disk
        (s.buffers c).dev (s.buffers c).block j := by
    intro c hc j hj
    change _ = if (s.buffers c).dev = (s.buffers b).dev ∧
      (s.buffers c).block = (s.buffers b).block ∧ j = i then _ else _
    split
    · rename_i heq
      rw [h.unique c b hc hb heq.1 heq.2.1, heq.2.2]
    · exact hj
  refine { h with clean := ?_, moved := ?_ }
  · intro hcalm c hc hvalid hdirty j hj
    exact hdisk c hc j (h.clean hcalm c hc hvalid hdirty j hj)
  · intro hcalm t c k ht j hj
    exact hdisk c (h.lt_of_point ht) j (h.moved hcalm t c k ht j hj)

/-- The code takes a reference to a buffer found in its chain. -/
theorem Inv.share (h : Inv strict calm none s) (hb : b < s.bufferCount) :
    Inv strict calm (some b) (({ s with freeList := s.freeList.erase b } : State τ α).setBuf b
      { s.buffers b with count := (s.buffers b).count + 1 }) := by
  have hfields : ∀ c, (({ s with freeList := s.freeList.erase b } : State τ α).setBuf b
      { s.buffers b with count := (s.buffers b).count + 1 }).buffers c =
      { s.buffers c with count := (s.buffers c).count + if c = b then 1 else 0 } := by
    intro c
    change (if c = b then _ else _) = _
    split
    · rename_i heq
      rw [heq]
    · simp
  have hcount : ∀ c < s.bufferCount, (s.buffers c).count = (s.refs c : ℕ) := by
    intro c hc
    simpa using h.count c hc
  refine { h with
    chain := ?_, unique := ?_, count := ?_, absent := ?_, free := ?_,
    freeNodup := h.freeNodup.erase b, reads := ?_, dirty := ?_, fresh := ?_, known := ?_,
    clean := ?_, moved := ?_ }
  all_goals simp only [hfields, State.home]
  · exact h.chain
  · exact h.unique
  · intro c hc
    change _ = ((s.refs c + _ : ℕ) : ℤ)
    rw [hcount c hc]
    simp [eq_comm]
  · intro c hc
    change s.refs c + _ = 0
    have habsent := h.absent c hc
    have hne : b ≠ c := by
      rintro rfl
      exact absurd hb (not_lt.mpr hc)
    simpa [hne] using habsent
  · intro c
    change c ∈ s.freeList.erase b ↔ c < s.bufferCount ∧ _
    rw [h.freeNodup.mem_erase_iff, h.free]
    by_cases heq : c = b
    · subst c
      have hpos := hcount b hb
      simp only [ne_eq, not_true_eq_false, false_and, if_true, false_iff]
      omega
    · simp [heq]
  · exact h.reads
  · exact h.dirty
  · exact h.fresh
  · exact h.known
  · exact h.clean
  · exact h.moved

/-- The state with a new buffer for a key, in its chain. -/
def State.grow (s : State τ α) (dev : ℤ) (block : ℕ) : State τ α :=
  { s with
    buffers := fun b => if b = s.bufferCount then
        ⟨(s.buffers b).data, dev, block, 1, ⟨none, 0⟩, false, false⟩
      else s.buffers b
    bufferCount := s.bufferCount + 1
    hashTable := fun h => if h = hash dev block then s.bufferCount :: s.hashTable h
      else s.hashTable h }

/-- The code makes a buffer for a key that no buffer has. -/
theorem Inv.grow {dev : ℤ} {block : ℕ} (h : Inv strict calm none s) (hroom : Room s.bufferCount)
    (hmiss : ∀ b < s.bufferCount, (s.buffers b).dev = dev → (s.buffers b).block ≠ block) :
    Inv strict calm (some s.bufferCount) (s.grow dev block) := by
  have hnew : (s.grow dev block).buffers s.bufferCount =
      ⟨(s.buffers s.bufferCount).data, dev, block, 1, ⟨none, 0⟩, false, false⟩ := if_pos rfl
  have hold : ∀ c < s.bufferCount, (s.grow dev block).buffers c = s.buffers c :=
    fun c hc => if_neg (by omega)
  have hlt : ∀ c, c < (s.grow dev block).bufferCount ↔ c < s.bufferCount ∨ c = s.bufferCount :=
    fun c => Nat.lt_succ_iff_lt_or_eq
  have hrefs : s.refs s.bufferCount = 0 := by
    have habsent := h.absent s.bufferCount le_rfl
    omega
  have hpoint : ∀ t c k, ((s.procs t).point = .read c k ∨
      ∃ r, (s.procs t).point = .write c k r) → (s.grow dev block).buffers c = s.buffers c :=
    fun t c k ht => hold c (h.lt_of_point ht)
  refine {
    freeNodup := h.freeNodup, chain := ?_, nodup := ?_, unique := ?_, count := ?_, absent := ?_,
    free := ?_, waits := ?_, writes := ?_, reads := ?_, dirty := ?_, fresh := ?_, known := ?_,
    clean := ?_, moved := ?_ }
  · intro k c
    change (c ∈ if k = hash dev block then _ else _) ↔ c < s.bufferCount + 1 ∧ k = hash _ _
    by_cases hc : c = s.bufferCount
    · subst c
      have hnot : s.bufferCount ∉ s.hashTable k := fun hmem =>
        absurd ((h.chain k _).mp hmem).1 (lt_irrefl _)
      rw [hnew]
      split <;> simp [*]
    · have hchain := h.chain k c
      have hbuf : (s.grow dev block).buffers c = s.buffers c := if_neg hc
      rw [hbuf]
      have hlt' : c < s.bufferCount + 1 ↔ c < s.bufferCount := by omega
      rw [hlt']
      split <;> simpa [hc, State.home] using hchain
  · intro k
    change (if k = hash dev block then _ else _ : List ℕ).Nodup
    split
    · refine List.nodup_cons.mpr ⟨?_, h.nodup k⟩
      intro hmem
      exact absurd ((h.chain k _).mp hmem).1 (lt_irrefl _)
    · exact h.nodup k
  · intro c c' hc hc' hd hk
    rcases (hlt c).mp hc with hc | rfl <;> rcases (hlt c').mp hc' with hc' | rfl
    · rw [hold c hc, hold c' hc'] at hd hk
      exact h.unique c c' hc hc' hd hk
    · rw [hold c hc, hnew] at hd hk
      exact absurd hk (hmiss c hc hd)
    · rw [hold c' hc', hnew] at hd hk
      exact absurd hk.symm (hmiss c' hc' hd.symm)
    · rfl
  · intro c hc
    change _ = ((s.refs c + _ : ℕ) : ℤ)
    rcases (hlt c).mp hc with hc | rfl
    · rw [hold c hc, h.count c hc]
      simp [show s.bufferCount ≠ c by omega]
    · rw [hnew, hrefs]
      simp
  · intro c hc
    have hle : s.bufferCount + 1 ≤ c := hc
    change s.refs c + _ = 0
    have habsent := h.absent c (by omega)
    simpa [show s.bufferCount ≠ c by omega] using habsent
  · intro c
    change c ∈ s.freeList ↔ _
    rw [h.free, hlt]
    by_cases hc : c = s.bufferCount
    · subst c
      rw [hnew]
      simp
    · have hbuf : (s.grow dev block).buffers c = s.buffers c := if_neg hc
      rw [hbuf]
      simp [hc]
  · intro t d k r ht
    exact absurd hroom (h.waits t d k r ht)
  · intro t c k r ht
    exact (hlt c).mpr (.inl (h.writes t c k r ht))
  · intro t c k ht
    rw [hpoint t c k (.inl ht)]
    exact h.reads t c k ht
  · intro hstrict c hc
    rcases (hlt c).mp hc with hc | rfl
    · rw [hold c hc]
      exact h.dirty hstrict c hc
    · rw [hnew]
      simp
  · intro hstrict t c k ht
    rw [hpoint t c k (.inl ht)]
    exact h.fresh hstrict t c k ht
  · intro hstrict t c k r ht
    rw [hpoint t c k (.inr ⟨r, ht⟩)]
    exact h.known hstrict t c k r ht
  · intro hcalm c hc
    rcases (hlt c).mp hc with hc | rfl
    · rw [hold c hc]
      exact h.clean hcalm c hc
    · rw [hnew]
      simp
  · intro hcalm t c k ht
    rw [hpoint t c k ht]
    exact h.moved hcalm t c k ht

/-- The last reference to a buffer makes it free. -/
theorem Inv.unshare {l : List ℕ} (h : Inv strict calm (some b) s)
    (hl : l = if (s.buffers b).count = 1 then b :: s.freeList else s.freeList) :
    Inv strict calm none (({ s with freeList := l } : State τ α).setBuf b
      { s.buffers b with count := (s.buffers b).count - 1 }) := by
  have hb := h.lt_of_extra
  have hfields : ∀ c, (({ s with freeList := l } : State τ α).setBuf b
      { s.buffers b with count := (s.buffers b).count - 1 }).buffers c =
      { s.buffers c with count := (s.buffers c).count - if c = b then 1 else 0 } := by
    intro c
    change (if c = b then _ else _) = _
    split
    · rename_i heq
      rw [heq]
    · simp
  have hcount := h.count b hb
  have hnot : b ∉ s.freeList := by
    rw [h.free]
    simp only [if_true] at hcount
    omega
  refine { h with
    chain := ?_, unique := ?_, count := ?_, absent := ?_, free := ?_, freeNodup := ?_,
    reads := ?_, dirty := ?_, fresh := ?_, known := ?_, clean := ?_, moved := ?_ }
  all_goals simp only [hfields, State.home]
  · exact h.chain
  · exact h.unique
  · intro c hc
    change _ = ((s.refs c + _ : ℕ) : ℤ)
    rw [h.count c hc]
    by_cases heq : c = b
    · subst c
      simp
    · simp [heq, Ne.symm heq]
  · intro c hc
    change s.refs c + _ = 0
    have habsent := h.absent c hc
    simp only [reduceCtorEq, if_false]
    omega
  · intro c
    change c ∈ l ↔ c < s.bufferCount ∧ _
    rw [hl]
    by_cases heq : c = b
    · subst c
      split
      · rename_i hone
        simp [hb, hone]
      · simp only [hnot, hb, if_true, true_and, false_iff]
        omega
    · split <;> simp [heq, h.free]
  · change l.Nodup
    rw [hl]
    split
    · exact List.nodup_cons.mpr ⟨hnot, h.freeNodup⟩
    · exact h.freeNodup
  · exact h.reads
  · exact h.dirty
  · exact h.fresh
  · exact h.known
  · exact h.clean
  · exact h.moved

/-! ## Tasks -/

variable [DecidableEq τ]

theorem State.refs_setProc (s : State τ α) (t : τ) (p : Proc) (b : ℕ) :
    (s.setProc t p).refs b + (s.procs t).refs b = s.refs b + p.refs b := by
  unfold State.refs
  have hold := Finset.add_sum_erase Finset.univ (fun u => (s.procs u).refs b) (Finset.mem_univ t)
  have hnew := Finset.add_sum_erase Finset.univ (fun u => ((s.setProc t p).procs u).refs b)
    (Finset.mem_univ t)
  have hrest : ∑ u ∈ Finset.univ.erase t, ((s.setProc t p).procs u).refs b =
      ∑ u ∈ Finset.univ.erase t, (s.procs u).refs b := by
    apply Finset.sum_congr rfl
    intro u hu
    simp [State.setProc, Finset.ne_of_mem_erase hu]
  have ht : (s.setProc t p).procs t = p := by simp [State.setProc]
  simp only [ht] at hnew
  omega

/-- The references of a task pass to or from the code that it runs. -/
theorem Inv.setProc {extra' : Option ℕ} {p : Proc} (h : Inv strict calm extra s)
    (hrefs : ∀ c, p.refs c + (if extra' = some c then 1 else 0) =
      (s.procs t).refs c + if extra = some c then 1 else 0)
    (hwait : ∀ dev block r, p.point = .free dev block r → ¬Room s.bufferCount)
    (hwrite : ∀ c k r, p.point = .write c k r →
      c < s.bufferCount ∧ (strict → (s.buffers c).valid = true))
    (hread : ∀ c k, p.point = .read c k →
      (s.buffers c).lock.holder = some t ∧ (strict → (s.buffers c).valid = false))
    (hmoved : calm → ∀ c k, (p.point = .read c k ∨ ∃ r, p.point = .write c k r) →
      ∀ i < k, (s.buffers c).data i = s.disk (s.buffers c).dev (s.buffers c).block i) :
    Inv strict calm extra' (s.setProc t p) := by
  have htotal : ∀ c, (s.setProc t p).refs c + (if extra' = some c then 1 else 0) =
      s.refs c + if extra = some c then 1 else 0 := by
    intro c
    have hset := State.refs_setProc s t p c
    have hc := hrefs c
    omega
  have hprocs : ∀ u, (s.setProc t p).procs u = if u = t then p else s.procs u := fun _ => rfl
  refine { h with
    count := ?_, absent := ?_, waits := ?_, writes := ?_, reads := ?_, fresh := ?_, known := ?_,
    moved := ?_ }
  · intro c hc
    rw [htotal]
    exact h.count c hc
  · intro c hc
    rw [htotal]
    exact h.absent c hc
  · intro u d k r hu
    rw [hprocs] at hu
    split at hu
    · exact hwait d k r hu
    · exact h.waits u d k r hu
  · intro u c k r hu
    rw [hprocs] at hu
    split at hu
    · exact (hwrite c k r hu).1
    · exact h.writes u c k r hu
  · intro u c k hu
    rw [hprocs] at hu
    split at hu
    · rename_i heq
      rw [heq]
      exact (hread c k hu).1
    · exact h.reads u c k hu
  · intro hstrict u c k hu
    rw [hprocs] at hu
    split at hu
    · exact (hread c k hu).2 hstrict
    · exact h.fresh hstrict u c k hu
  · intro hstrict u c k r hu
    rw [hprocs] at hu
    split at hu
    · exact (hwrite c k r hu).2 hstrict
    · exact h.known hstrict u c k r hu
  · intro hcalm u c k hu
    rw [hprocs] at hu
    split at hu
    · exact hmoved hcalm c k hu
    · exact h.moved hcalm u c k hu

end Steps

end Ylos.Cache
