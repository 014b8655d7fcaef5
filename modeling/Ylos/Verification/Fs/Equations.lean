import Ylos.Model.Fs.Alloc

/-! # Equations for the primitive steps -/

namespace Ylos

open Exec

theorem BLOCK_BITS_eq : BLOCK_BITS = 8192 := rfl

theorem BLOCK_SIZE_eq : BLOCK_SIZE = 1024 := rfl

/-! ## Images -/

@[simp] theorem Fs.data_setImg (s : Fs) (b c : BufRef) (m : Bytes) :
    (s.setImg b m).data c = if c = b then m else s.data c := by
  unfold Fs.setImg Fs.data
  cases b with
  | mk d k =>
      cases c with
      | mk d' k' => simp only [BufRef.mk.injEq]

/-- `s'` differs from `s` only in buffers and devices. -/
structure OnlyIo (s s' : Fs) : Prop where
  inodes : s'.inodes = s.inodes
  supers : s'.supers = s.supers
  task : s'.task = s.task
  now : s'.now = s.now
  sectors : s'.sectors = s.sectors

theorem OnlyIo.refl (s : Fs) : OnlyIo s s := ⟨rfl, rfl, rfl, rfl, rfl⟩

theorem OnlyIo.trans {s s' s'' : Fs} (h : OnlyIo s s') (h' : OnlyIo s' s'') : OnlyIo s s'' :=
  ⟨h'.inodes.trans h.inodes, h'.supers.trans h.supers, h'.task.trans h.task,
    h'.now.trans h.now, h'.sectors.trans h.sectors⟩

/-- `s'` is `s` with the data of `b` replaced by `m`. -/
structure Stored (s : Fs) (b : BufRef) (m : Bytes) (s' : Fs) : Prop where
  data : ∀ c, s'.data c = if c = b then m else s.data c
  io : OnlyIo s s'

theorem Stored.of_img {s s' s'' : Fs} {b : BufRef} {m : Bytes} (h : Stored s b m s')
    (himg : s''.img = s'.img) (hio : OnlyIo s' s'') : Stored s b m s'' where
  data c := by
    rw [← h.data c]
    unfold Fs.data
    rw [himg]
  io := h.io.trans hio

theorem Fs.superDesc_congr {s s' : Fs} {sb : ℕ} (hsupers : s'.supers = s.supers)
    (hdata : s'.data (s.supers sb).buf = s.data (s.supers sb).buf) :
    s'.superDesc sb = s.superDesc sb := by
  unfold Fs.superDesc
  rw [hsupers, hdata]

/-! ## Runs of the buffer primitives -/

theorem run_setDirty (b : BufRef) (s : Fs) : (setDirty b).run s =
    .ok ((), { s with dirty := fun c => if c = b then true else s.dirty c }, []) := rfl

theorem run_setData (b : BufRef) (f : Bytes → Bytes) (s : Fs) :
    (setData b f).run s = .ok ((), s.setImg b (f (s.data b)), []) := rfl

theorem run_bwrite (b : BufRef) (s : Fs) : ∃ s', (bwrite b).run s = .ok ((), s', []) ∧
    s'.img = s.img ∧ OnlyIo s s' ∧ s'.refs = s.refs := by
  unfold bwrite
  rw [run_bind _ (run_gets _ s)]
  split
  · exact ⟨_, rfl, rfl, ⟨rfl, rfl, rfl, rfl, rfl⟩, rfl⟩
  · exact ⟨_, rfl, rfl, OnlyIo.refl _, rfl⟩

theorem run_theSuper {dev : ℤ} {sb : ℕ} {s : Fs}
    (h : (List.range SUPER_NR).find? (fun i => (s.supers i).dev = dev) = some sb) :
    (theSuper dev).run s = .ok (sb, s, []) := by
  unfold theSuper getSuper
  rw [run_bind _ (run_gets _ s), h]
  rfl

end Ylos
