import Ylos.Verification.Path.Tree

/-! # The components of a path -/

namespace Ylos.Paths

variable {p w next r : Path} {c : UInt8}

theorem component_not_sep : ∀ c ∈ component p, isSeparator c = false :=
  fun c hc => (component_mem p c hc).2

/-- A path with a separator is its first component, a separator and the rest. -/
theorem component_split (h : ∃ c ∈ p, isSeparator c = true) :
    ∃ c, isSeparator c = true ∧ p = component p ++ c :: afterComponent p := by
  have hsplit : component p ++ p.dropWhile (!isSeparator ·) = p := List.takeWhile_append_dropWhile
  unfold afterComponent
  cases hdrop : p.dropWhile (!isSeparator ·) with
  | nil =>
      obtain ⟨c, hc, hsep⟩ := h
      have hno := List.dropWhile_eq_nil_iff.mp hdrop c hc
      rw [hsep] at hno
      cases hno
  | cons c rest =>
      have hc := List.head?_dropWhile_not (!isSeparator ·) p
      rw [hdrop] at hc hsplit
      exact ⟨c, by simpa using hc, hsplit.symm⟩

theorem component_whole (h : ∀ c ∈ p, isSeparator c = false) : component p = p := by
  have hall : component (p ++ []) = p := component_append h (.inl rfl)
  rwa [List.append_nil] at hall

theorem components_whole (h : ∀ c ∈ p, isSeparator c = false) : components p = [p] :=
  List.splitOnP_eq_singleton h

theorem components_cons (hw : ∀ c ∈ w, isSeparator c = false) (hc : isSeparator c = true)
    (next : Path) : components (w ++ c :: next) = w :: components next :=
  List.splitOnP_append_cons_of_forall_mem hw c hc next

theorem components_ne_nil (p : Path) : components p ≠ [] := List.splitOnP_ne_nil _ p

theorem components_parts (h : ∃ c ∈ p, isSeparator c = true) :
    components p = component p :: components (afterComponent p) := by
  obtain ⟨c, hc, hsplit⟩ := component_split h
  conv_lhs => rw [hsplit]
  exact components_cons component_not_sep hc _

theorem dropLast_components (h : ∃ c ∈ p, isSeparator c = true) :
    (components p).dropLast = component p :: (components (afterComponent p)).dropLast := by
  rw [components_parts h, List.dropLast_cons_of_ne_nil (components_ne_nil _)]

theorem getLastD_components (h : ∃ c ∈ p, isSeparator c = true) :
    (components p).getLastD [] = (components (afterComponent p)).getLastD [] := by
  rw [components_parts h]
  cases hnext : components (afterComponent p) with
  | nil => exact absurd hnext (components_ne_nil _)
  | cons w ws => rfl

theorem afterComponent_suffix (p : Path) : afterComponent p <:+ p :=
  (List.tail_suffix _).trans (List.dropWhile_suffix _)

theorem afterComponent_length_lt (h : ∃ c ∈ p, isSeparator c = true) :
    (afterComponent p).length < p.length := by
  obtain ⟨c, -, hsplit⟩ := component_split h
  have hlength := congrArg List.length hsplit
  rw [List.length_append, List.length_cons] at hlength
  omega

/-- The last component is a part of the path without separators. -/
theorem last_component (p : Path) :
    (components p).getLastD [] <:+ p ∧ ∀ c ∈ (components p).getLastD [], isSeparator c = false := by
  induction hn : p.length using Nat.strong_induction_on generalizing p with
  | _ n ih =>
      by_cases h : ∃ c ∈ p, isSeparator c = true
      · obtain ⟨hsuffix, hplain⟩ := ih _ (hn ▸ afterComponent_length_lt h) _ rfl
        rw [getLastD_components h]
        exact ⟨hsuffix.trans (afterComponent_suffix p), hplain⟩
      · simp only [not_exists, not_and, Bool.not_eq_true] at h
        rw [components_whole h]
        exact ⟨List.suffix_rfl, h⟩

/-! ## `strrsep` -/

theorem strrsep_cons (c : UInt8) (p : Path) : strrsep (c :: p) =
    match strrsep p with
    | some q => some q
    | none => if isSeparator c then some (c :: p) else none := rfl

theorem strrsep_eq_none : strrsep p = none ↔ ∀ c ∈ p, isSeparator c = false := by
  induction p with
  | nil => exact iff_of_true rfl nofun
  | cons c p ih =>
      rw [strrsep_cons]
      cases hp : strrsep p with
      | some q =>
          rw [hp] at ih
          simp only [reduceCtorEq, false_iff] at ih ⊢
          exact fun hall => ih fun d hd => hall d (List.mem_cons_of_mem c hd)
      | none =>
          rw [hp] at ih
          have hp' := ih.mp rfl
          by_cases hc : isSeparator c = true
          · simp [hc]
          · simp only [hc, Bool.false_eq_true, if_false, true_iff]
            exact List.forall_mem_cons.mpr ⟨by simpa using hc, hp'⟩

theorem strrsep_length (h : strrsep p = some r) : r.tail.length < p.length := by
  induction p generalizing r with
  | nil => cases h
  | cons c p ih =>
      rw [strrsep_cons] at h
      cases hp : strrsep p with
      | some q =>
          rw [hp] at h
          cases h
          exact (ih hp).trans (Nat.lt_succ_self _)
      | none =>
          rw [hp] at h
          dsimp only at h
          split at h
          · cases h
            exact Nat.lt_succ_self _
          · cases h

/-- The last separator of a path is after its first component. -/
theorem strrsep_append (hw : ∀ c ∈ w, isSeparator c = false) (hc : isSeparator c = true)
    (next : Path) :
    strrsep (w ++ c :: next) = match strrsep next with
      | some q => some q
      | none => some (c :: next) := by
  induction w with
  | nil =>
      rw [List.nil_append, strrsep_cons]
      cases strrsep next with
      | some q => rfl
      | none => exact if_pos hc
  | cons d w ih =>
      rw [List.cons_append, strrsep_cons, ih fun c hc => hw c (List.mem_cons_of_mem d hc)]
      cases strrsep next <;> rfl

/-- `named` tells the last component by its place in the path. -/
theorem at_last_component (h : strrsep p = some r) :
    (∃ c ∈ p, isSeparator c = true) ∧
      ((r.tail.length = (afterComponent p).length ∧ ∀ c ∈ afterComponent p, isSeparator c = false) ∨
        (r.tail.length ≠ (afterComponent p).length ∧ strrsep (afterComponent p) = some r)) := by
  have hsep : ∃ c ∈ p, isSeparator c = true := by
    by_contra hno
    simp only [not_exists, not_and, Bool.not_eq_true] at hno
    rw [strrsep_eq_none.mpr hno] at h
    cases h
  refine ⟨hsep, ?_⟩
  obtain ⟨c, hc, hsplit⟩ := component_split hsep
  rw [hsplit, strrsep_append component_not_sep hc] at h
  cases hnext : strrsep (afterComponent p) with
  | none =>
      rw [hnext] at h
      cases h
      exact .inl ⟨rfl, strrsep_eq_none.mp hnext⟩
  | some q =>
      rw [hnext] at h
      cases h
      exact .inr ⟨(strrsep_length hnext).ne, rfl⟩

end Ylos.Paths
