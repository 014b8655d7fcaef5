import Ylos.Lib.Keeps
import Ylos.Model.Execve

/-! # Bytes of user memory -/

namespace Ylos.Execve

open Exec
open Memory (PAGE_SIZE USER_EXEC_ADDR USER_MMAP_ADDR USER_STACK_TOP USER_STACK_BOTTOM IDX)

variable {good : Event → Prop} {s s' s'' : State} {a vaddr k n o : ℕ} {b : UInt8} {m : Bytes}
  {P P' : ℕ → Prop}

/-! ## Pages -/

theorem setPage_page {p : Option Page} {j : ℕ} :
    (s.setPage k p).page j = if j = k then p else s.page j := by
  unfold State.page State.setPage
  dsimp only
  by_cases hslot : j / 1024 = k / 1024
  · rw [if_pos hslot, Option.bind_some]
    by_cases hjk : j = k
    · simp [hjk]
    · have hne : j % 1024 ≠ k % 1024 := by omega
      simp [hjk, hne]
  · rw [if_neg hslot, if_neg (fun hjk => hslot (by rw [hjk]))]

theorem byteAt_of_page (h : s'.page (IDX a) = s.page (IDX a)) : s'.byteAt a = s.byteAt a := by
  unfold State.byteAt
  rw [h]

theorem byteAt_eq_none : s.byteAt a = none ↔ s.page (IDX a) = none := by
  unfold State.byteAt
  rw [Option.map_eq_none_iff]

theorem byteAt_setByte (h : s.page (IDX vaddr) ≠ none) :
    (s.setByte vaddr b).byteAt a = if a = vaddr then some b else s.byteAt a := by
  obtain ⟨p, hp⟩ := Option.ne_none_iff_exists'.mp h
  unfold State.setByte
  rw [hp]
  dsimp only
  unfold State.byteAt
  rw [setPage_page]
  by_cases hpage : IDX a = IDX vaddr
  · rw [if_pos hpage, Option.map_some, hpage, hp, Option.map_some]
    by_cases ha : a = vaddr
    · simp [ha]
    · have hne : a % PAGE_SIZE ≠ vaddr % PAGE_SIZE := by
        unfold IDX at hpage
        unfold PAGE_SIZE
        omega
      simp [ha, hne]
  · rw [if_neg hpage, if_neg (fun ha => hpage (by rw [ha]))]

/-! ## Stretches of bytes -/

/-- The `n` bytes from `a` on are those of `m` from `o` on. -/
def Shows (s : State) (a n : ℕ) (m : Bytes) (o : ℕ) : Prop :=
  ∀ k < n, s.byteAt (a + k) = some (m (o + k))

/-- Bytes at addresses with `P` are as they were. -/
def Stays (P : ℕ → Prop) (s s' : State) : Prop :=
  ∀ a b, P a → s.byteAt a = some b → s'.byteAt a = some b

/-- Outside the `n` addresses from `a` on. -/
def Outside (a n x : ℕ) : Prop := x < a ∨ a + n ≤ x

theorem Stays.refl (s : State) : Stays P s s := fun _ _ _ hb => hb

theorem Stays.trans (h : Stays P s s') (h' : Stays P s' s'') : Stays P s s'' :=
  fun a b ha hb => h' a b ha (h a b ha hb)

theorem Stays.weaken (h : Stays P s s') (himp : ∀ a, P' a → P a) : Stays P' s s' :=
  fun a b ha hb => h a b (himp a ha) hb

theorem Shows.stays (h : Shows s a n m o) (hs : Stays P s s') (hP : ∀ k < n, P (a + k)) :
    Shows s' a n m o :=
  fun k hk => hs _ _ (hP k hk) (h k hk)

theorem Shows.part {i l : ℕ} (h : Shows s a n m o) (hl : i + l ≤ n) :
    Shows s (a + i) l m (o + i) := by
  intro k hk
  rw [Nat.add_assoc, Nat.add_assoc]
  exact h (i + k) (by omega)

/-! ## Mapping pages -/

theorem wp_getPage {Q : Bytes → State → Prop}
    (hQ : ∀ bytes taken freePages, Q bytes { s with taken := taken, freePages := freePages }) :
    wp good getPage Q s := by
  unfold getPage
  rw [wp_bind, wp_get]
  cases s.frames s.taken with
  | none => exact wp_fault _
  | some bytes => simpa only [wp_bind, wp_modify, wp_pure] using hQ bytes _ _

/-- `link_page` may map a page, and changes no byte that was there. -/
theorem wp_linkPage : wp good (linkPage vaddr) (fun _ s' => vaddr % PAGE_SIZE = 0 ∧
    s'.page (IDX vaddr) ≠ none ∧ Stays P s s') s := by
  -- The counters do not matter.
  have hmap : ∀ bytes taken freePages, State.page (State.setPage
        { s with taken := taken, freePages := freePages } (IDX vaddr)
        (some ⟨bytes, true, false, 1⟩)) (IDX vaddr) ≠ none ∧
      (s.page (IDX vaddr) = none → Stays P s (State.setPage
        { s with taken := taken, freePages := freePages } (IDX vaddr)
        (some ⟨bytes, true, false, 1⟩))) := by
    intro bytes taken freePages
    refine ⟨by simp [setPage_page], fun hnone a b _ hb => ?_⟩
    rw [← hb]
    refine byteAt_of_page ?_
    rw [setPage_page, if_neg]
    · rfl
    · intro ha
      rw [byteAt_eq_none.mpr (by rw [ha, hnone])] at hb
      cases hb
  unfold linkPage
  simp only [wp_bind, wp_check, wp_get]
  intro hpage
  cases hp : s.page (IDX vaddr) with
  | some p => exact (wp_pure _).mpr ⟨hpage, by simp [hp], Stays.refl s⟩
  | none =>
      simp only [wp_bind, wp_ite]
      refine ⟨fun _ => wp_getPage fun _ _ _ => wp_getPage fun bytes taken' freePages' => ?_,
        fun _ => wp_getPage fun bytes taken freePages => ?_⟩
      · exact (wp_modify _).mpr ⟨hpage, (hmap bytes taken' freePages').1,
          (hmap bytes taken' freePages').2 hp⟩
      · exact (wp_modify _).mpr ⟨hpage, (hmap bytes taken freePages).1,
          (hmap bytes taken freePages).2 hp⟩

theorem idx_page : IDX (IDX vaddr * PAGE_SIZE) = IDX vaddr := by
  unfold IDX PAGE_SIZE
  omega

theorem wp_touch : wp good (touch vaddr) (fun _ s' => USER_EXEC_ADDR ≤ vaddr ∧
    s'.page (IDX vaddr) ≠ none ∧ Stays P s s') s := by
  unfold touch pageFault
  simp only [wp_bind, wp_ite, wp_get, wp_pure]
  refine ⟨fun _ => wp_fault _, fun hlow => ⟨fun _ => ⟨fun _ => wp_fault _, fun _ => ⟨fun _ => ?_,
    fun _ => wp_fault _⟩⟩, fun hmapped => ⟨by omega, by simpa using hmapped, Stays.refl s⟩⟩⟩
  refine wp_mono wp_linkPage fun _ s' hlinked => ⟨by omega, ?_, hlinked.2.2⟩
  rw [← idx_page]
  exact hlinked.2.1

theorem wp_storeByte : wp good (storeByte vaddr b) (fun _ s' => USER_EXEC_ADDR ≤ vaddr ∧
    s'.byteAt vaddr = some b ∧ Stays (Outside vaddr 1) s s') s := by
  unfold storeByte
  simp only [wp_bind, wp_modify]
  refine wp_mono (wp_touch (P := Outside vaddr 1)) fun _ s₁ htouched => ⟨htouched.1, ?_, ?_⟩
  · rw [byteAt_setByte htouched.2.1, if_pos rfl]
  · refine htouched.2.2.trans fun a b' ha hb' => ?_
    rw [byteAt_setByte htouched.2.1, if_neg, hb']
    unfold Outside at ha
    omega

/-! ## Copies -/

/-- The bytes of a list, with zeros behind. -/
def listBytes (l : List UInt8) : Bytes := fun i => l.getD i 0

theorem wp_memcpy {dest : ℕ} {src : List UInt8} : wp good (memcpy dest src) (fun _ s' =>
    Shows s' dest src.length (listBytes src) 0 ∧ Stays (Outside dest src.length) s s') s := by
  induction src generalizing s dest with
  | nil => exact (wp_pure _).mpr ⟨fun k hk => absurd hk (Nat.not_lt_zero k), Stays.refl s⟩
  | cons b src ih =>
      unfold memcpy
      rw [wp_bind]
      refine wp_mono wp_storeByte fun _ s₁ hstored => wp_mono ih fun _ s₂ hcopied => ?_
      obtain ⟨-, hbyte, hstays₁⟩ := hstored
      obtain ⟨hshows, hstays₂⟩ := hcopied
      refine ⟨fun k hk => ?_, (hstays₁.weaken fun a ha => ?_).trans
        (hstays₂.weaken fun a ha => ?_)⟩
      · cases k with
        | zero => exact hstays₂ dest b (.inl (Nat.lt_succ_self _)) hbyte
        | succ k =>
            have hrest := hshows k (by simpa using hk)
            rw [Nat.add_assoc, Nat.add_comm 1 k] at hrest
            simpa [listBytes] using hrest
      · unfold Outside at ha ⊢
        rw [List.length_cons] at ha
        omega
      · unfold Outside at ha ⊢
        rw [List.length_cons] at ha
        omega

theorem memset_eq {dest : ℕ} : memset dest b n = memcpy dest (List.replicate n b) := by
  induction n generalizing dest with
  | zero => rfl
  | succ n ih =>
      unfold memset
      rw [List.replicate_succ, memcpy, ih]

/-- `inode_read` gets as many bytes as the file has, `len` at most. -/
theorem wp_inodeRead {file : List UInt8} {data len offset : ℕ} :
    wp good (inodeRead file data len offset) (fun r s' =>
      (offset + len ≤ file.length → Shows s' data len (listBytes file) offset) ∧
      (r = EHDR_SIZE → offset + r ≤ file.length ∧ r ≤ len) ∧
      Stays (Outside data len) s s') s := by
  unfold inodeRead
  simp only [wp_ite, wp_bind, wp_pure]
  refine ⟨fun hend => ⟨fun hlen k hk => by omega, fun hr => (by cases hr), Stays.refl s⟩,
    fun hoffset => wp_mono wp_memcpy fun _ s' hcopied => ?_⟩
  obtain ⟨hshows, hstays⟩ := hcopied
  rw [List.length_take, List.length_drop] at hshows hstays ⊢
  refine ⟨fun hlen k hk => ?_, fun _ => by omega, hstays.weaken fun a ha => ?_⟩
  · have hbyte := hshows k (by omega)
    rw [hbyte, Nat.zero_add]
    simp only [listBytes, List.getD_eq_getElem?_getD, List.getElem?_take_of_lt hk,
      List.getElem?_drop]
  · unfold Outside at ha ⊢
    omega

/-! ## Fields -/

theorem run_touch (h : s.byteAt vaddr = some b) (hlow : USER_EXEC_ADDR ≤ vaddr) :
    (touch vaddr).run s = .ok ((), s, []) := by
  have hmapped : s.page (IDX vaddr) ≠ none := by
    intro hnone
    rw [byteAt_eq_none.mpr hnone] at h
    cases h
  unfold touch
  rw [if_neg (by omega)]
  dsimp only
  rw [run_bind _ (run_get s), if_neg (by simpa using hmapped), run_pure]

theorem run_loadByte (h : s.byteAt vaddr = some b) (hlow : USER_EXEC_ADDR ≤ vaddr) :
    (loadByte vaddr).run s = .ok (b, s, []) := by
  unfold loadByte
  rw [run_bind _ (run_touch h hlow), run_bind _ (run_get s), h]
  rfl

theorem run_loadField {w : ℕ} (h : Shows s a w m o) (hlow : USER_EXEC_ADDR ≤ a) :
    (loadField w a).run s = .ok (m.read w o, s, []) := by
  induction w generalizing a o with
  | zero => rfl
  | succ w ih =>
      have hhead := h 0 (Nat.succ_pos w)
      rw [Nat.add_zero, Nat.add_zero] at hhead
      have htail : Shows s (a + 1) w m (o + 1) := h.part (Nat.add_comm 1 w).le
      unfold loadField
      rw [run_bind _ (run_loadByte hhead hlow), run_bind _ (ih htail (by omega)), run_pure]
      rfl

/-! ## Silence -/

theorem silent_getPage : Silent getPage := by
  refine silent_get.bind fun s => ?_
  cases s.frames s.taken with
  | none => exact silent_fault _
  | some bytes => exact (silent_modify _).bind fun _ => silent_pure bytes

theorem silent_linkPage (vaddr : ℕ) : Silent (linkPage vaddr) := by
  refine (silent_check _).bind fun _ => silent_get.bind fun s => ?_
  cases s.page (IDX vaddr) with
  | some p => exact silent_pure ()
  | none =>
      refine Silent.ite (silent_getPage.bind fun _ => ?_) ?_
      · exact silent_getPage.bind fun bytes => silent_modify _
      · exact silent_getPage.bind fun bytes => silent_modify _

theorem silent_touch (vaddr : ℕ) : Silent (touch vaddr) := by
  have hrest : Silent (do
      let s ← get
      if (s.page (IDX vaddr)).isNone then pageFault vaddr) := by
    refine silent_get.bind fun s => Silent.ite (silent_get.bind fun task => ?_) (silent_pure ())
    exact Silent.ite (silent_fault _) (Silent.ite (silent_linkPage _) (silent_fault _))
  exact Silent.ite ((silent_fault _).bind fun _ => hrest) hrest

theorem silent_storeByte (vaddr : ℕ) (b : UInt8) : Silent (storeByte vaddr b) :=
  (silent_touch vaddr).bind fun _ => silent_modify _

theorem silent_memcpy (dest : ℕ) (src : List UInt8) : Silent (memcpy dest src) := by
  induction src generalizing dest with
  | nil => exact silent_pure ()
  | cons b src ih => exact (silent_storeByte _ _).bind fun _ => ih _

theorem silent_loadField (w vaddr : ℕ) : Silent (loadField w vaddr) := by
  induction w generalizing vaddr with
  | zero => exact silent_pure _
  | succ w ih =>
      refine Silent.bind ?_ fun b => (ih _).bind fun _ => silent_pure _
      exact (silent_touch vaddr).bind fun _ => silent_get.bind fun _ => silent_pure _

theorem silent_inodeRead (file : List UInt8) (data len offset : ℕ) :
    Silent (inodeRead file data len offset) :=
  Silent.ite (silent_pure _) ((silent_memcpy _ _).bind fun _ => silent_pure _)

end Ylos.Execve
