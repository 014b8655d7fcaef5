import Ylos.Verification.Memory.Fork

/-! # Giving up an address space -/

namespace Ylos.Memory

open Exec

section

variable {strict : Prop} {good : Event → Prop} {s s' : State} {S : Finset Slot}
  {extra : ℕ → ℕ} {x : Slot} {table : ℕ}

/-- The inner loop gives up the references of a table. -/
theorem wp_putTable {Q : Unit → State → Prop} {l : List ℕ}
    (hlow : ∀ t ∈ l, ∀ f, (s.mem table t).target = some f → KERNEL_PAGES ≤ f)
    (h : Frames strict s S (extra + listCount (s.mem table) l))
    (hQ : ∀ s', Steady s s' → s'.mem = s.mem → Frames strict s' S extra → Q () s') :
    wp good (putTable table l) Q s := by
  induction l generalizing s with
  | nil => exact (wp_pure _).mpr (hQ s (Steady.refl s) rfl h)
  | cons t rest ih =>
      have hrest : ∀ u ∈ rest, ∀ f, (s.mem table u).target = some f → KERNEL_PAGES ≤ f :=
        fun u hu => hlow u (by simp [hu])
      unfold putTable getWord
      simp only [wp_bind, wp_gets, wp_ite, wp_check]
      constructor
      · intro hp _
        have htarget := Word.target_of_present hp
        refine wp_putPage h (hlow t (by simp) _ htarget)
          (e := extra + listCount (s.mem table) rest) (fun f => ?_)
          fun s₁ hmem hsteady hframes => ?_
        · simp only [Pi.add_apply, listCount_cons, htarget]
          omega
        · refine ih (hmem ▸ hrest) (hmem ▸ hframes) fun s' hsteady' hmem' hframes' => ?_
          exact hQ s' (hsteady.trans hsteady') (hmem'.trans hmem) hframes'
      · intro hp
        refine ih hrest ?_ hQ
        have hsum : extra + listCount (s.mem table) (t :: rest) =
            extra + listCount (s.mem table) rest := by
          funext f
          rw [Pi.add_apply, Pi.add_apply, listCount_cons, Word.target_of_absent (by simpa using hp),
            hit_none, Nat.zero_add]
        exact hsum ▸ h

/-- The outer loop gives up the slots of the running task one by one. -/
theorem wp_putTables {Q : Unit → State → Prop} {l : List ℕ} (hl : l.Nodup)
    (hself : s.mem s.task.pde SELF_SLOT = entryInit s.task.pde)
    (hin : ∀ i ∈ l, (s.task.pde, i) ∈ S) (h : Frames strict s S 0)
    (hQ : ∀ s', Steady s s' → s'.mem = s.mem →
      Frames strict s' (S \ {s.task.pde} ×ˢ l.toFinset) 0 → Q () s') :
    wp good (putTables s.task.pde l) Q s := by
  induction l generalizing s S with
  | nil => exact (wp_pure _).mpr (hQ s (Steady.refl s) rfl (by simpa using h))
  | cons i rest ih =>
      obtain ⟨hi, hrest⟩ := List.nodup_cons.mp hl
      have hx : (s.task.pde, i) ∈ S := hin i (by simp)
      have hset : S.erase (s.task.pde, i) \ {s.task.pde} ×ˢ rest.toFinset =
          S \ {s.task.pde} ×ˢ (i :: rest).toFinset := by
        ext ⟨a, b⟩
        simp only [Finset.mem_sdiff, Finset.mem_erase, Finset.mem_product, Finset.mem_singleton,
          List.mem_toFinset, List.mem_cons, ne_eq, Prod.mk.injEq]
        tauto
      have hforget := h.forget hx
      -- The rest of the loop runs with slot `i` given up.
      have hnext : ∀ s₁, Steady s s₁ → s₁.mem = s.mem →
          Frames strict s₁ (S.erase (s.task.pde, i)) 0 →
          wp good (putTables s.task.pde rest) Q s₁ := by
        intro s₁ hsteady hmem hframes
        have htask : s₁.task = s.task := hsteady.task
        rw [← htask]
        refine ih hrest (htask ▸ hmem ▸ hself) ?_ hframes
          fun s' hsteady' hmem' hframes' => ?_
        · intro j hj
          rw [htask, Finset.mem_erase]
          refine ⟨fun hji => hi ?_, hin j (by simp [hj])⟩
          rwa [← (Prod.mk.inj hji).2]
        · rw [htask, hset] at hframes'
          exact hQ s' (hsteady.trans hsteady') (hmem'.trans hmem) hframes'
      unfold putTables getWord
      simp only [wp_bind, wp_gets, wp_ite]
      constructor
      · intro hp
        simp only [window_of_self hself]
        generalize htable : (s.mem s.task.pde i).index = table at hforget ⊢
        have ht : tableTarget s.mem (s.task.pde, i) = some table :=
          htable ▸ Word.target_of_present hp
        have hlow := (h.table _ hx _ ht).1
        have hsum : (fun f => (0 : ℕ → ℕ) f + hit (tableTarget s.mem (s.task.pde, i)) f +
            rowCount s.mem (s.task.pde, i) f) =
            hit (some table) + listCount (s.mem table) (List.range 1024) := by
          funext f
          rw [ht, rowCount_of_table ht, Pi.add_apply, listCount_range, Pi.zero_apply, Nat.zero_add]
        rw [hsum] at hforget
        refine wp_putTable (fun t ht' f hf => ?_) hforget fun s₁ hsteady₁ hmem₁ hframes₁ => ?_
        · obtain ⟨hpt, rfl⟩ := Word.target_eq_some.mp hf
          refine (h.entry ((s.task.pde, i), t) (mem_entries.mpr ⟨hx, List.mem_range.mp ht'⟩) _ ?_).1
          rw [entryAt_of_table (r := ((s.task.pde, i), t)) ht, Word.seen_of_present hpt]
        · refine wp_putPage hframes₁ hlow (e := 0) (fun f => by simp)
            fun s₂ hmem₂ hsteady₂ hframes₂ => ?_
          exact hnext s₂ (hsteady₁.trans hsteady₂) (hmem₂.trans hmem₁) hframes₂
      · intro hp
        refine hnext s (Steady.refl s) rfl ?_
        have hblank : tableTarget s.mem (s.task.pde, i) = none :=
          Word.target_of_absent (by simpa using hp)
        have hsum : (fun f => (0 : ℕ → ℕ) f + hit (tableTarget s.mem (s.task.pde, i)) f +
            rowCount s.mem (s.task.pde, i) f) = 0 := by
          funext f
          rw [hblank, rowCount_of_blank hblank, hit_none]
          rfl
        exact hsum ▸ hforget

theorem slots_erase (h : Spaces s) {p : ℕ} (hp : p ∈ s.live) :
    s.slots \ {(s.procs p).pde} ×ˢ Finset.Ico KERNEL_SLOTS SELF_SLOT =
      State.slots { s with live := s.live.erase p } := by
  ext ⟨a, b⟩
  simp only [Finset.mem_sdiff, mem_slots, Finset.mem_product, Finset.mem_singleton,
    Finset.mem_Ico, Finset.mem_erase]
  constructor
  · rintro ⟨⟨⟨q, hq, rfl⟩, hb⟩, hne⟩
    exact ⟨⟨q, ⟨fun hqp => hne ⟨by rw [hqp], hb⟩, hq⟩, rfl⟩, hb⟩
  · rintro ⟨⟨q, ⟨hne, hq⟩, rfl⟩, hb⟩
    exact ⟨⟨⟨q, hq, rfl⟩, hb⟩, fun hqp => hne (h.pde_inj q hq p hp hqp.1)⟩

/-- `task_exit` keeps the invariant for the other tasks, whose memory it leaves as it is. -/
theorem wp_taskExit (h : Inv strict s) (hcur : s.current ∈ s.live) :
    wp good taskExit (fun _ s' => Inv strict s' ∧ s'.mem = s.mem ∧ s'.procs = s.procs) s := by
  have hself := h.spaces.task_self hcur
  unfold taskExit freePde getPde
  simp only [wp_bind, wp_gets, wp_check, window_self hself]
  intro _
  refine wp_putTables List.nodup_range' hself
    (fun i hi => Spaces.mem_slots_self hcur (mem_userSlots.mp hi)) h.frames
    fun s₁ hsteady hmem hframes => ?_
  have htask : s₁.task = s.task := hsteady.task
  have hoffset : s₁.kernelMap.offset = 256 := hsteady.kernelMap ▸ h.spaces.offset
  refine wp_freeKpage hoffset fun bits _ hbits => ?_
  simp only [State.task]
  refine wp_freeKpage hoffset fun bits' _ hbits' => ?_
  simp only [wp_modify]
  have hspaces : Spaces s₁ := h.spaces.of_steady hsteady fun p _ j _ => by rw [hmem]
  have hcurrent : s₁.current = s.current := hsteady.current
  refine ⟨⟨?_, ?_⟩, hmem, hsteady.procs⟩
  · rw [userSlots_toFinset] at hframes
    have hslots : State.slots { s₁ with live := s₁.live.erase s.current } =
        s.slots \ {s.task.pde} ×ˢ Finset.Ico KERNEL_SLOTS SELF_SLOT := by
      refine Eq.trans ?_ (slots_erase h.spaces hcur).symm
      unfold State.slots
      simp only [hsteady.procs, hsteady.live]
    rw [← hslots] at hframes
    exact hframes.congr rfl rfl rfl
  · refine hspaces.of_map rfl rfl (fun p hp => Finset.mem_of_mem_erase hp) rfl rfl rfl ?_
    rintro p hp page hpage ⟨hlow, hhigh, hbit⟩
    obtain ⟨hne, hlive⟩ := Finset.mem_erase.mp hp
    have hcur₁ : s₁.current ∈ s₁.live := by
      rw [hsteady.current, hsteady.live]
      exact hcur
    have hne' : p ≠ s₁.current := hcurrent ▸ hne
    have hpages : page ≠ (s₁.procs s₁.current).pde ∧ page ≠ (s₁.procs s₁.current).vmapPage := by
      rcases hpage with rfl | rfl
      · exact ⟨fun heq => hne' (hspaces.pde_inj p hlive _ hcur₁ heq), hspaces.pde_ne p hlive _ hcur₁⟩
      · exact ⟨fun heq => hspaces.pde_ne _ hcur₁ p hlive heq.symm,
          fun heq => hne' (hspaces.vmapPage_inj p hlive _ hcur₁ heq)⟩
    have hpde := (hspaces.pde _ hcur₁).1
    have hvmap := (hspaces.vmapPage _ hcur₁).1
    have htaskpde : s.task.pde = (s₁.procs s₁.current).pde := congrArg Proc.pde htask.symm
    refine ⟨hlow, hhigh, ?_⟩
    change bitAt bits' (page - 256) = true
    rw [hbits', if_neg (by omega), hbits, if_neg (by omega)]
    exact hbit

end

end Ylos.Memory
