import Ylos.Verification.Memory.Paging

/-! # Copying an address space -/

namespace Ylos.Memory

open Exec

section

variable {strict : Prop} {good : Event → Prop} {s s' : State} {S : Finset Slot}
  {extra : ℕ → ℕ} {x : Slot} {table : ℕ}

/-- The references to `f` in the entries `l` of a table. -/
def listCount (words : ℕ → Word) (l : List ℕ) (f : ℕ) : ℕ :=
  l.countP fun t => decide ((words t).target = some f)

theorem listCount_cons (words : ℕ → Word) (t : ℕ) (l : List ℕ) (f : ℕ) :
    listCount words (t :: l) f = hit (words t).target f + listCount words l f := by
  unfold listCount hit
  rw [List.countP_cons, Nat.add_comm]
  simp

theorem listCount_range (words : ℕ → Word) (f : ℕ) :
    listCount words (List.range 1024) f = tableCount words f :=
  (refCount_range _ _ _).symm

theorem listCount_congr {words words' : ℕ → Word} {l : List ℕ}
    (h : ∀ t, (words t).target = (words' t).target) (f : ℕ) :
    listCount words l f = listCount words' l f := by
  unfold listCount
  simp only [h]

/-- The inner loop counts a second reference for each entry of the table. -/
theorem wp_shareTable {Q : Unit → State → Prop} {l : List ℕ} (hl : ∀ t ∈ l, t < 1024)
    (h : Frames strict s S extra) (hx : x ∈ S) (ht : tableTarget s.mem x = some table)
    (hQ : ∀ s', Steady s s' → (∀ f, f ≠ table → s'.mem f = s.mem f) →
      (∀ t, (s'.mem table t).target = (s.mem table t).target) →
      Frames strict s' S (extra + listCount (s.mem table) l) → Q () s') :
    wp good (shareTable table l) Q s := by
  induction l generalizing s extra with
  | nil =>
      refine (wp_pure _).mpr (hQ s (Steady.refl s) (fun _ _ => rfl) (fun _ => rfl) ?_)
      exact h
  | cons t rest ih =>
      have hlt : t < 1024 := hl t (by simp)
      have hrest : ∀ t ∈ rest, t < 1024 := fun u hu => hl u (by simp [hu])
      unfold shareTable getWord
      simp only [wp_bind, wp_gets, wp_ite]
      constructor
      · intro hp
        simp only [wp_check, wp_modify]
        intro _
        -- After the write bit is dealt with, the entry may be counted twice.
        suffices hcount : ∀ s₁ : State, Steady s s₁ → (∀ f, f ≠ table → s₁.mem f = s.mem f) →
            (∀ u, (s₁.mem table u).target = (s.mem table u).target) →
            s₁.memoryMap = s.memoryMap → Frames strict s₁ S extra →
            ((s₁.mem table t).write = true → (s₁.mem table t).shared = true) →
            (s₁.setCount (s.mem table t).index
              ((s₁.memoryMap (s.mem table t).index + 1) % 256)).memoryMap
                (s.mem table t).index < 255 →
            wp good (shareTable table rest) Q (s₁.setCount (s.mem table t).index
              ((s₁.memoryMap (s.mem table t).index + 1) % 256)) by
          constructor
          · intro hshared
            unfold setWord
            simp only [wp_modify]
            refine hcount _ (Steady.setWord _ _ _ _) (fun f hf => ?_) (fun u => ?_) rfl ?_ ?_
            · funext j
              exact State.setWord_frame hf
            · by_cases hu : u = t
              · subst u
                rw [State.setWord_self]
                exact Word.target_congr rfl rfl
              · rw [State.setWord_word hu]
            · exact h.retouch hx ht hlt rfl rfl (fun _ _ => .inl rfl)
                (fun _ _ hw => absurd hw (by simp))
            · rw [State.setWord_self]
              exact fun hw => absurd hw (by simp)
          · intro hshared
            exact hcount s (Steady.refl s) (fun _ _ => rfl) (fun _ => rfl) rfl h
              (fun _ => by simpa using hshared)
        intro s₁ hsteady hother htarget hmap hframes hwrite hsmall
        have ht₁ : tableTarget s₁.mem x = some table := by
          rw [tableTarget, hother _ (h.dir_ne (h.table x hx table ht).1 hx)]
          exact ht
        have hpt := htarget t
        rw [Word.target_of_present hp] at hpt
        obtain ⟨hp₁, hindex⟩ := Word.target_eq_some.mp hpt
        have hentry : entryAt s₁.mem (x, t) = some (s₁.mem table t) := by
          rw [entryAt_of_table (r := (x, t)) ht₁, Word.seen_of_present hp₁]
        have hin : (x, t) ∈ entries S := mem_entries.mpr ⟨hx, hlt⟩
        rw [← hindex] at hsmall ⊢
        have hbound := hframes.small (s₁.mem table t).index
        have hmod : (s₁.memoryMap (s₁.mem table t).index + 1) % 256 =
            s₁.memoryMap (s₁.mem table t).index + 1 := Nat.mod_eq_of_lt (by omega)
        rw [hmod] at hsmall ⊢
        have hlt255 : s₁.memoryMap (s₁.mem table t).index + 1 < 255 := by
          simpa [State.setCount] using hsmall
        have hraised := hframes.raise hin hentry hwrite hlt255
        refine ih hrest hraised ht₁ fun s' hsteady' hother' htarget' hframes' => ?_
        refine hQ s' (hsteady.trans ((Steady.setCount _ _ _).trans hsteady')) (fun f hf => ?_)
          (fun u => (htarget' u).trans (htarget u)) ?_
        · rw [hother' f hf]
          exact hother f hf
        · have hsum : extra + listCount (s.mem table) (t :: rest) =
              extra + hit (some (s₁.mem table t).index) + listCount (s₁.mem table) rest := by
            funext f
            simp only [Pi.add_apply, listCount_cons, Word.target_of_present hp, hindex,
              listCount_congr htarget]
            omega
          rw [hsum]
          exact hframes'
      · intro hp
        refine ih hrest h ht fun s' hsteady hother htarget hframes => ?_
        refine hQ s' hsteady hother htarget ?_
        have hsum : extra + listCount (s.mem table) (t :: rest) =
            extra + listCount (s.mem table) rest := by
          funext f
          rw [Pi.add_apply, Pi.add_apply, listCount_cons, Word.target_of_absent (by simpa using hp),
            hit_none, Nat.zero_add]
        rw [hsum]
        exact hframes

/-! ## `copy_pde` -/

/-- What the outer loop needs: the directory `d` is new, and its slots in `l` are still
those of the running task. -/
structure Copying (s : State) (S : Finset Slot) (d : ℕ) (l : List ℕ) : Prop where
  spaces : Spaces s
  running : s.current ∈ s.live
  slots : s.slots ⊆ S
  dir : d ≠ 2 ∧ d < KERNEL_PAGES
  fresh : ∀ p ∈ s.live, (s.procs p).pde ≠ d
  nodup : l.Nodup
  range : ∀ i ∈ l, KERNEL_SLOTS ≤ i ∧ i < SELF_SLOT
  uncounted : ∀ i ∈ l, (d, i) ∉ S
  copy : ∀ i ∈ l, s.mem d i = s.mem s.task.pde i

namespace Copying

variable {d i : ℕ} {l : List ℕ}

theorem parent_ne (h : Copying s S d l) : s.task.pde ≠ d := h.fresh _ h.running

/-- The slot of the running task. -/
theorem parent_mem (h : Copying s S d (i :: l)) : (s.task.pde, i) ∈ S :=
  h.slots (Spaces.mem_slots_self h.running (h.range i (by simp)))

/-- One slot further on. -/
theorem next (h : Copying s S d (i :: l)) (hsteady : Steady s s')
    (hother : ∀ f < KERNEL_PAGES, f ≠ 2 → f ≠ d → s'.mem f = s.mem f)
    (hword : ∀ j, j ≠ i → s'.mem d j = s.mem d j) : Copying s' (insert (d, i) S) d l := by
  have hi : i ∉ l := (List.nodup_cons.mp h.nodup).1
  have hpde : ∀ p ∈ s.live, s'.mem (s.procs p).pde = s.mem (s.procs p).pde := fun p hp =>
    hother _ (h.spaces.pde_lt hp) (h.spaces.pde_ne_two hp) (h.fresh p hp)
  refine ⟨h.spaces.of_steady hsteady fun p hp j _ => by rw [hpde p hp], ?_, ?_, h.dir, ?_,
    (List.nodup_cons.mp h.nodup).2, fun j hj => h.range j (by simp [hj]), ?_, ?_⟩
  · rw [hsteady.current, hsteady.live]
    exact h.running
  · rw [hsteady.slots]
    exact h.slots.trans (Finset.subset_insert _ _)
  · rw [hsteady.live, hsteady.procs]
    exact h.fresh
  · intro j hj
    rw [Finset.mem_insert, not_or]
    refine ⟨fun hji => hi ?_, h.uncounted j (by simp [hj])⟩
    rwa [← (Prod.mk.inj hji).2]
  · intro j hj
    have hji : j ≠ i := fun hji => hi (hji ▸ hj)
    rw [hword j hji, h.copy j (by simp [hj]), hsteady.task]
    exact (congrFun (hpde _ h.running) j).symm

end Copying

/-- The outer loop counts the slots of the new directory one by one. -/
theorem wp_copyTables {Q : Unit → State → Prop} {d : ℕ} {l : List ℕ} (h : Copying s S d l)
    (hframes : Frames strict s S 0)
    (hQ : ∀ s', Steady s s' → (∀ f < KERNEL_PAGES, f ≠ 2 → f ≠ d → s'.mem f = s.mem f) →
      (∀ i, i ∉ l → s'.mem d i = s.mem d i) →
      Frames strict s' (S ∪ {d} ×ˢ l.toFinset) 0 → Q () s') :
    wp good (copyTables d l) Q s := by
  induction l generalizing s S with
  | nil =>
      refine (wp_pure _).mpr (hQ s (Steady.refl s) (fun _ _ _ _ => rfl) (fun _ _ => rfl) ?_)
      simpa using hframes
  | cons i rest ih =>
      have hself := h.spaces.task_self h.running
      have huncounted : (d, i) ∉ S := h.uncounted i (by simp)
      have hcopy : s.mem d i = s.mem s.task.pde i := h.copy i (by simp)
      -- It is enough to count slot `i`.
      suffices hcount : ∀ s₁, Steady s s₁ →
          (∀ f < KERNEL_PAGES, f ≠ 2 → f ≠ d → s₁.mem f = s.mem f) →
          (∀ j, j ≠ i → s₁.mem d j = s.mem d j) → Frames strict s₁ (insert (d, i) S) 0 →
          wp good (copyTables d rest) Q s₁ by
        unfold copyTables getWord
        simp only [wp_bind, wp_gets, wp_ite]
        constructor
        · intro hp
          simp only [window_of_self hself]
          generalize htable : (s.mem s.task.pde i).index = table
          have ht : tableTarget s.mem (s.task.pde, i) = some table := by
            rw [tableTarget, ← htable]
            exact Word.target_of_present (hcopy ▸ hp)
          have hrange := hframes.table _ h.parent_mem _ ht
          refine wp_shareTable (fun t ht => List.mem_range.mp ht) hframes h.parent_mem ht
            fun s₁ hsteady₁ hother₁ htarget₁ hframes₁ => ?_
          have hdirs : ∀ f < KERNEL_PAGES, s₁.mem f = s.mem f :=
            fun f hf => hother₁ f (by omega)
          have htask₁ : s₁.task = s.task := hsteady₁.task
          have hparent : s.task.pde < KERNEL_PAGES := h.spaces.pde_lt h.running
          have hparent2 : s.task.pde ≠ 2 := h.spaces.pde_ne_two h.running
          have ht₁ : tableTarget s₁.mem (s.task.pde, i) = some table := by
            rw [tableTarget, hdirs _ hparent]
            exact ht
          have hone := (hframes₁.table _ h.parent_mem _ ht₁).2.2
          refine wp_copyPage hframes₁ ?_ ?_ ?_ (by omega)
            fun page s₂ hlow hpage hfree hcontent hother₂ hmap₂ hsteady₂ hframes₂ => ?_
          · rw [htask₁, hdirs _ hparent]
            exact hself
          · rw [htask₁, hdirs _ hparent]
            exact h.spaces.low _ h.running 0 (by decide)
          · unfold KERNEL_PAGES at hrange
            omega
          · unfold setWord
            simp only [wp_modify]
            have hpt : page ≠ table := by
              rintro rfl
              omega
            have hd : d ≠ page := by
              have hdl := h.dir.2
              omega
            have hdt : d ≠ table := by
              have hdl := h.dir.2
              omega
            have hmem₂ : ∀ f < KERNEL_PAGES, f ≠ 2 → s₂.mem f = s.mem f := fun f hf hf2 =>
              (hother₂ f (by omega) hf2).trans (hdirs f hf)
            generalize hw : ({ s.mem d i with index := page } : Word) = w
            have hframes₃ := hframes₂.setWord_other (f := d) (i := i) (w := w)
              (fun x hx hxd hxi => huncounted (by rwa [← hxd, ← hxi]))
              (fun x hx => hframes₂.table_ne_kernel h.dir.2 hx)
            generalize hs₃ : s₂.setWord d i w = s₃ at hframes₃ ⊢
            have hmem₃ : ∀ f, f ≠ d → s₃.mem f = s₂.mem f := by
              intro f hf
              rw [← hs₃]
              funext j
              exact State.setWord_frame hf
            have hchild : tableTarget s₃.mem (d, i) = some page := by
              rw [tableTarget, ← hs₃, State.setWord_self, ← hw]
              exact Word.target_of_present hp
            have hwords : s₃.mem page = s₁.mem table := by rw [hmem₃ page hd.symm, hcontent]
            have htable₃ : s₃.mem table = s₁.mem table := by
              rw [hmem₃ table hdt.symm, hother₂ table hpt.symm (by
                unfold KERNEL_PAGES at hrange
                omega)]
            have hparent₃ : tableTarget s₃.mem (s.task.pde, i) = some table := by
              rw [tableTarget, hmem₃ _ h.parent_ne, hmem₂ _ hparent hparent2]
              exact ht
            have hsteady₃ : Steady s₂ s₃ := hs₃ ▸ Steady.setWord _ _ _ _
            refine hcount s₃ (hsteady₁.trans (hsteady₂.trans hsteady₃)) ?_ ?_ ?_
            · intro f hf hf2 hfd
              rw [hmem₃ f hfd, hmem₂ f hf hf2]
            · intro j hj
              rw [← hs₃, State.setWord_word hj, hmem₂ d h.dir.2 h.dir.1]
            · refine hframes₃.insertSlot huncounted h.dir ?_ ?_ ?_
              · intro f
                rw [hchild, rowCount_of_table hchild, hwords]
                simp only [Pi.add_apply, Pi.zero_apply, Nat.zero_add, listCount_range]
                rw [Nat.add_comm, ← listCount_range, ← listCount_range,
                  listCount_congr htarget₁]
              · intro f hf
                rw [hchild] at hf
                cases hf
                refine ⟨hlow, ?_, ?_⟩
                · rw [hsteady₃.totalPages, hsteady₂.totalPages]
                  exact hpage
                · rw [← hs₃]
                  exact (hmap₂ page).trans (if_pos rfl)
              · intro t ht' w' hw'
                refine ⟨((s.task.pde, i), t), mem_entries.mpr ⟨h.parent_mem, ht'⟩, ?_⟩
                rw [← hw', entryAt_of_table (r := ((s.task.pde, i), t)) hparent₃,
                  entryAt_of_table (r := ((d, i), t)) hchild, hwords, htable₃]
        · intro hp
          refine hcount s (Steady.refl s) (fun _ _ _ _ => rfl) (fun _ _ => rfl) ?_
          have hblank : tableTarget s.mem (d, i) = none :=
            Word.target_of_absent (by simpa using hp)
          refine hframes.insertSlot huncounted h.dir ?_ ?_ ?_
          · intro f
            rw [hblank, rowCount_of_blank hblank, hit_none]
            rfl
          · intro f hf
            rw [hblank] at hf
            cases hf
          · intro t _ w hw
            rw [entryAt_of_blank (r := ((d, i), t)) hblank] at hw
            cases hw
      intro s₁ hsteady₁ hother₁ hword₁ hframes₁
      refine ih (h.next hsteady₁ hother₁ hword₁) hframes₁ fun s' hsteady hother hword hf => ?_
      refine hQ s' (hsteady₁.trans hsteady) (fun f hf hf2 hfd => ?_) (fun j hj => ?_) ?_
      · rw [hother f hf hf2 hfd, hother₁ f hf hf2 hfd]
      · rw [List.mem_cons, not_or] at hj
        rw [hword j hj.2, hword₁ j hj.1]
      · have hset : insert (d, i) S ∪ {d} ×ˢ rest.toFinset = S ∪ {d} ×ˢ (i :: rest).toFinset := by
          ext ⟨a, b⟩
          simp only [Finset.mem_union, Finset.mem_insert, Finset.mem_product,
            Finset.mem_singleton, List.mem_toFinset, List.mem_cons, Prod.mk.injEq]
          tauto
        rw [← hset]
        exact hf

theorem mem_userSlots {i : ℕ} : i ∈ userSlots ↔ KERNEL_SLOTS ≤ i ∧ i < SELF_SLOT := by
  unfold userSlots KERNEL_SLOTS SELF_SLOT
  rw [List.mem_range'_1]

theorem userSlots_toFinset : userSlots.toFinset = Finset.Ico KERNEL_SLOTS SELF_SLOT := by
  ext i
  rw [List.mem_toFinset, mem_userSlots, Finset.mem_Ico]

/-- `copy_pde` makes a directory that maps what the one of the running task maps. -/
theorem wp_copyPde {Q : ℕ → State → Prop} (h : Inv strict s) (hcur : s.current ∈ s.live)
    (hQ : ∀ d s', s'.procs = s.procs → s'.live = s.live → s'.current = s.current →
      Spaces s' → Taken s'.kernelMap d → ¬Taken s.kernelMap d →
      (∀ page, Taken s.kernelMap page → Taken s'.kernelMap page) →
      s'.mem d SELF_SLOT = entryInit d → (∀ i < KERNEL_SLOTS, s'.mem d i = kernelEntry i) →
      Frames strict s' (s.slots ∪ {d} ×ˢ Finset.Ico KERNEL_SLOTS SELF_SLOT) 0 → Q d s') :
    wp good copyPde Q s := by
  unfold copyPde
  simp only [wp_bind]
  refine wp_allocKpage h.spaces fun d map hnew hself htaken hspaces₁ => ?_
  unfold setWord
  simp only [wp_modify, wp_pure]
  have hd : d < KERNEL_PAGES := hself.2.1
  have hd₂ : d ≠ 2 := by
    have hlow := hself.1
    omega
  have hfresh : ∀ p ∈ s.live, (s.procs p).pde ≠ d := fun p hp hpd =>
    hnew (hpd ▸ h.spaces.pde p hp)
  have hframes₁ : Frames strict { s with kernelMap := map } s.slots 0 :=
    h.frames.congr rfl rfl rfl
  generalize hs₁ : ({ s with kernelMap := map } : State) = s₁ at hspaces₁ hframes₁ ⊢
  have hprocs₁ : s₁.procs = s.procs := by rw [← hs₁]
  have hlive₁ : s₁.live = s.live := by rw [← hs₁]
  have hcurrent₁ : s₁.current = s.current := by rw [← hs₁]
  have hkernel₁ : s₁.kernelMap = map := by rw [← hs₁]
  have hmem₁ : s₁.mem = s.mem := by rw [← hs₁]
  generalize hs₂ : (s₁.setFrame d (s.mem s₁.task.pde)).setWord d SELF_SLOT (entryInit d) = s₂
  have hsteady₂ : Steady s₁ s₂ := hs₂ ▸ (Steady.setFrame _ _ _).trans (Steady.setWord _ _ _ _)
  have hother₂ : ∀ f, f ≠ d → s₂.mem f = s₁.mem f := by
    intro f hf
    rw [← hs₂]
    funext j
    exact (State.setWord_frame hf).trans (congrFun (State.setFrame_frame hf) j)
  have hword₂ : ∀ i, i ≠ SELF_SLOT → s₂.mem d i = s₁.mem s₁.task.pde i := by
    intro i hi
    rw [← hs₂, State.setWord_word hi, State.setFrame_self, hmem₁]
  have hslots : ∀ x ∈ s.slots, x.1 ≠ d := by
    intro x hx
    obtain ⟨⟨p, hp, hpx⟩, _⟩ := mem_slots.mp hx
    exact hpx ▸ hfresh p hp
  have hspaces₂ : Spaces s₂ := hspaces₁.of_steady hsteady₂ fun p hp j _ => by
    rw [hother₂ _ (hprocs₁ ▸ hfresh p (hlive₁ ▸ hp))]
  have hframes₂ : Frames strict s₂ s.slots 0 := by
    refine hframes₁.other (fun x hx => by rw [hother₂ _ (hslots x hx)]) ?_ ?_ ?_
    · intro x hx f ht
      have hlow := (hframes₁.table x hx f ht).1
      exact hother₂ f (by omega)
    · rw [← hs₂]
      rfl
    · rw [← hs₂]
      rfl
  have hslots₂ : s₂.slots = s.slots := by
    rw [hsteady₂.slots, State.slots, State.slots, hprocs₁, hlive₁]
  have hcopying : Copying s₂ s.slots d userSlots := by
    refine ⟨hspaces₂, ?_, hslots₂.le, ⟨hd₂, hd⟩, ?_, List.nodup_range', ?_, ?_, ?_⟩
    · rw [hsteady₂.current, hsteady₂.live, hcurrent₁, hlive₁]
      exact hcur
    · rw [hsteady₂.live, hsteady₂.procs, hprocs₁, hlive₁]
      exact hfresh
    · exact fun i hi => mem_userSlots.mp hi
    · exact fun i _ hi => hslots _ hi rfl
    · intro i hi
      have hi' := mem_userSlots.mp hi
      have htask : s₂.task.pde ≠ d := by
        rw [hsteady₂.task]
        unfold State.task
        rw [hprocs₁, hcurrent₁]
        exact hfresh _ hcur
      rw [hword₂ i (by omega), hother₂ _ htask, hsteady₂.task]
  refine wp_copyTables hcopying hframes₂ fun s₃ hsteady₃ hother₃ hword₃ hframes₃ => ?_
  have hsteady := hsteady₂.trans hsteady₃
  have hmap : s₃.kernelMap = map := hsteady.kernelMap.trans hkernel₁
  have hd₃ : ∀ i, i = SELF_SLOT ∨ i < KERNEL_SLOTS → s₃.mem d i = s₂.mem d i := by
    intro i hi
    refine hword₃ i fun hi' => ?_
    have hrange := mem_userSlots.mp hi'
    omega
  have hspaces₃ : Spaces s₃ := by
    refine hspaces₂.of_steady hsteady₃ fun p hp j hj => ?_
    have hpd : (s₂.procs p).pde ≠ d := by
      rw [hsteady₂.procs, hprocs₁]
      exact hfresh p (by rwa [hsteady₂.live, hlive₁] at hp)
    rw [hother₃ _ (hspaces₂.pde_lt hp) (hspaces₂.pde_ne_two hp) hpd]
  refine hQ d s₃ (hsteady.procs.trans hprocs₁) (hsteady.live.trans hlive₁)
    (hsteady.current.trans hcurrent₁) hspaces₃ (hmap ▸ hself) hnew
    (fun page hp => hmap ▸ htaken page hp) ?_ ?_ ?_
  · rw [hd₃ _ (.inl rfl), ← hs₂, State.setWord_self]
  · intro i hi
    have hne : i ≠ SELF_SLOT := by
      unfold KERNEL_SLOTS at hi
      unfold SELF_SLOT
      omega
    rw [hd₃ i (.inr hi), hword₂ i hne]
    unfold State.task
    rw [hmem₁, hprocs₁, hcurrent₁]
    exact h.spaces.low _ hcur i hi
  · rw [← userSlots_toFinset]
    exact hframes₃

theorem State.slots_addTask {child : ℕ} (hchild : child ∉ s.live) {v : Proc} :
    State.slots { s.setProc child v with live := insert child s.live } =
      s.slots ∪ {v.pde} ×ˢ Finset.Ico KERNEL_SLOTS SELF_SLOT := by
  have hnew : (s.setProc child v).procs child = v := if_pos rfl
  have hold : ∀ p ∈ s.live, ((s.setProc child v).procs p).pde = (s.procs p).pde :=
    fun p hp => congrArg Proc.pde (if_neg fun hpc : p = child => hchild (hpc ▸ hp))
  unfold State.slots
  rw [Finset.image_insert, hnew, Finset.image_congr (s := s.live) (fun p hp => hold p hp),
    Finset.insert_eq, Finset.union_product, Finset.union_comm]

/-- `task_fork` keeps the invariant; the child is one more live task. -/
theorem wp_taskFork {child : ℕ} (h : Inv strict s) (hcur : s.current ∈ s.live)
    (hchild : child ∉ s.live) : wp good (taskFork child) (fun _ => Inv strict) s := by
  unfold taskFork
  simp only [wp_bind, wp_gets]
  refine wp_allocKpage h.spaces fun page map hnew hself htaken hspaces₁ => ?_
  have h₁ : Inv strict { s with kernelMap := map } := ⟨h.frames.congr rfl rfl rfl, hspaces₁⟩
  refine wp_copyPde h₁ hcur fun d s₂ hprocs hlive _ hspaces hd hdnew hkeep hdself hdlow
    hframes => ?_
  simp only [wp_modify]
  have hdpage : d ≠ page := fun hdp => hdnew (hdp ▸ hself)
  constructor
  · rw [State.slots_addTask (hlive ▸ hchild)]
    have hslots : s₂.slots = s.slots := by rw [State.slots, State.slots, hprocs, hlive]
    rw [hslots]
    exact hframes.congr rfl rfl rfl
  · refine hspaces.addTask (hlive ▸ hchild) ?_ hd (hkeep _ hself) ?_ hdpage hdself hdlow
    · have hvalid := h.spaces.valid _ hcur
      exact ⟨hvalid.offset, hvalid.length, hvalid.size, hvalid.endAddr, hvalid.brk⟩
    · rw [hlive, hprocs]
      intro p hp q hq
      have hq' : Taken s.kernelMap q := by
        rcases hq with rfl | rfl
        · exact h.spaces.pde p hp
        · exact h.spaces.vmapPage p hp
      exact ⟨fun hqd : q = d => hdnew (hqd ▸ htaken q hq'),
        fun hqp : q = page => hnew (hqp ▸ hq')⟩

end

end Ylos.Memory
