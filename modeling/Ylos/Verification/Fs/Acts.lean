import Ylos.Verification.Dir.Reading

/-! # Code that works on buffers only

Such code leaves the tables of inodes and super blocks alone. What it holds of the buffers is
said as for code that only reads; what it stores is left to its postcondition. -/

namespace Ylos.Dir

open Exec

variable {α β : Type} {s s' s'' : Fs} {bufs bufs' bufs'' : List BufRef} {b : BufRef}

/-- Code with the references `bufs` to buffers has gone from `s` to `s'`, and has `bufs'`. -/
structure Acts (bufs bufs' : List BufRef) (s s' : Fs) : Prop where
  inodes : s'.inodes = s.inodes
  supers : s'.supers = s.supers
  task : s'.task = s.task
  now : s'.now = s.now
  refs : ∀ c, s'.refs c + bufs.count c = s.refs c + bufs'.count c

/-- From `s`, with the references `bufs`, the code returns with the references `bufs'`. -/
def Does (bufs : List BufRef) (x : K α) (s : Fs) (bufs' : List BufRef) (Q : α → Fs → Prop) :
    Prop :=
  ∃ a s' l, x.run s = .ok (a, s', l) ∧ Acts bufs bufs' s s' ∧ Q a s'

theorem Acts.refl (bufs : List BufRef) (s : Fs) : Acts bufs bufs s s :=
  ⟨rfl, rfl, rfl, rfl, fun _ => rfl⟩

theorem Acts.trans (h : Acts bufs bufs' s s') (h' : Acts bufs' bufs'' s' s'') :
    Acts bufs bufs'' s s'' where
  inodes := h'.inodes.trans h.inodes
  supers := h'.supers.trans h.supers
  task := h'.task.trans h.task
  now := h'.now.trans h.now
  refs c := by
    have hfirst := h.refs c
    have hsecond := h'.refs c
    omega

theorem Acts.siteAt (h : Acts bufs bufs' s s') (i : ℕ) : Dir.siteAt s' i = Dir.siteAt s i := by
  unfold Dir.siteAt
  rw [h.inodes]

theorem Acts.of_io (hio : OnlyIo s s') (hrefs : s'.refs = s.refs) : Acts bufs bufs s s' :=
  ⟨hio.inodes, hio.supers, hio.task, hio.now, fun _ => by rw [hrefs]⟩

theorem Reads.acts (h : Reads bufs bufs' s s') : Acts bufs bufs' s s' :=
  ⟨h.inodes, h.supers, h.task, h.now, h.refs⟩

theorem Owned.acts (h : Owned bufs s) (hacts : Acts bufs bufs' s s') : Owned bufs' s' := by
  intro c
  have howned := h c
  have hrefs := hacts.refs c
  omega

/-! ## Rules -/

section Rules

variable {Q : α → Fs → Prop}

theorem does_pure {a : α} (h : Q a s) : Does bufs (pure a) s bufs Q := ⟨a, s, [], rfl, .refl _ s, h⟩

theorem does_gets {f : Fs → α} (h : Q (f s) s) : Does bufs (gets f) s bufs Q :=
  ⟨f s, s, [], rfl, .refl _ s, h⟩

theorem does_note {Q : Unit → Fs → Prop} {e : Event} (h : Q () s) : Does bufs (note e) s bufs Q :=
  ⟨(), s, [e], rfl, .refl _ s, h⟩

theorem does_check {Q : Unit → Fs → Prop} {p : Prop} [Decidable p] (hp : p) (h : Q () s) :
    Does bufs (check p) s bufs Q :=
  ⟨(), s, [], run_check_pos hp s, .refl _ s, h⟩

theorem Does.bind {R : β → Fs → Prop} {x : K α} {f : α → K β} (hx : Does bufs x s bufs' Q)
    (hf : ∀ a s', Acts bufs bufs' s s' → Q a s' → Does bufs' (f a) s' bufs'' R) :
    Does bufs (x >>= f) s bufs'' R := by
  obtain ⟨a, s₁, l₁, hrun, hacts, hQ⟩ := hx
  obtain ⟨c, s₂, l₂, hrun', hacts', hR⟩ := hf a s₁ hacts hQ
  exact ⟨c, s₂, l₁ ++ l₂, bind_eq_ok.mpr ⟨a, s₁, l₁, l₂, hrun, hrun', rfl⟩, hacts.trans hacts', hR⟩

theorem Does.mono {R : α → Fs → Prop} {x : K α} (h : Does bufs x s bufs' Q)
    (himp : ∀ a s', Acts bufs bufs' s s' → Q a s' → R a s') : Does bufs x s bufs' R := by
  obtain ⟨a, s', l, hrun, hacts, hQ⟩ := h
  exact ⟨a, s', l, hrun, hacts, himp a s' hacts hQ⟩

theorem Does.returns {x : K α} (h : Does bufs x s bufs' Q) : Returns x Q s := by
  obtain ⟨a, s', l, hrun, -, hQ⟩ := h
  exact ⟨a, s', l, hrun, hQ⟩

theorem does_of_run {x : K α} {a : α} {l : List Event} (hrun : x.run s = .ok (a, s', l))
    (hacts : Acts bufs bufs' s s') (h : Q a s') : Does bufs x s bufs' Q :=
  ⟨a, s', l, hrun, hacts, h⟩

theorem Answers.does {x : K α} {a : α} (h : Answers bufs x s bufs' a)
    (hQ : ∀ s', Reads bufs bufs' s s' → Q a s') : Does bufs x s bufs' Q := by
  obtain ⟨s', hrun, hreads⟩ := h
  exact ⟨a, s', [], hrun, hreads.acts, hQ s' hreads⟩

end Rules

/-! ## Stores -/

theorem does_setDirty {Q : Unit → Fs → Prop}
    (hQ : ∀ s', s'.img = s.img → OnlyIo s s' → Q () s') : Does bufs (setDirty b) s bufs Q :=
  ⟨(), _, [], rfl, .of_io ⟨rfl, rfl, rfl, rfl, rfl⟩ rfl, hQ _ rfl ⟨rfl, rfl, rfl, rfl, rfl⟩⟩

theorem does_setData {Q : Unit → Fs → Prop} {f : Bytes → Bytes}
    (hQ : ∀ s', Stored s b (f (s.data b)) s' → Q () s') : Does bufs (setData b f) s bufs Q :=
  ⟨(), _, [], rfl, .of_io ⟨rfl, rfl, rfl, rfl, rfl⟩ rfl,
    hQ _ ⟨fun c => Fs.data_setImg s b c _, ⟨rfl, rfl, rfl, rfl, rfl⟩⟩⟩

theorem does_bwrite {Q : Unit → Fs → Prop} (hQ : ∀ s', s'.img = s.img → OnlyIo s s' → Q () s') :
    Does bufs (bwrite b) s bufs Q := by
  obtain ⟨s', hrun, himg, hio, hrefs⟩ := run_bwrite b s
  exact ⟨(), s', [], hrun, .of_io hio hrefs, hQ s' himg hio⟩

end Ylos.Dir
