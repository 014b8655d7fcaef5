import Mathlib.Data.List.TakeWhile
import Ylos.Model.Fs.Namei

/-! # Comparing names -/

namespace Ylos

open Exec

/-- `matchLoop` over the name `g`. -/
def scan (g : ℕ → UInt8) : Path → ℕ → Path × ℕ
  | [], k => ([], k)
  | c :: lhs, k => if c = g k ∧ c ≠ 0 ∧ g k ≠ 0 then scan g lhs (k + 1) else (c :: lhs, k)

/-- `matchName` with the name `g`. -/
def matched (g : ℕ → UInt8) (name : Path) : Option Path :=
  if g (scan g name 0).2 ≠ 0 then
    none
  else if chr (scan g name 0).1 ≠ 0 ∧ ¬isSeparator (chr (scan g name 0).1) then
    none
  else
    some (if isSeparator (chr (scan g name 0).1) then (scan g name 0).1.tail
      else (scan g name 0).1)

/-- The bytes of `".."`. -/
def dots (k : ℕ) : UInt8 := if k < 2 then 46 else 0

section

variable {g : ℕ → UInt8} {rhs : ℕ → K UInt8} {n k : ℕ} {name : Path} {s : Fs}

/-- The loop goes no further than the end of either name. -/
theorem scan_le (hn : g n = 0 ∨ k + name.length ≤ n) (hk : k ≤ n) : (scan g name k).2 ≤ n := by
  induction name generalizing k with
  | nil => exact hk
  | cons c name ih =>
      unfold scan
      rw [List.length_cons] at hn
      split
      · rename_i hsame
        have hne : k ≠ n := by
          rintro rfl
          rcases hn with hn | hn
          · exact hsame.2.2 hn
          · omega
        exact ih (hn.imp_right fun h => by omega) (by omega)
      · exact hk

theorem run_matchLoop (hn : g n = 0 ∨ k + name.length ≤ n)
    (hrhs : ∀ k ≤ n, (rhs k).run s = .ok (g k, s, [])) (hk : k ≤ n) :
    (matchLoop rhs name k).run s = .ok (scan g name k, s, []) := by
  induction name generalizing k with
  | nil =>
      unfold matchLoop
      rw [run_bind _ (hrhs k hk)]
      rfl
  | cons c name ih =>
      unfold matchLoop scan
      rw [run_bind _ (hrhs k hk)]
      rw [List.length_cons] at hn
      split
      · rename_i hsame
        have hne : k ≠ n := by
          rintro rfl
          rcases hn with hn | hn
          · exact hsame.2.2 hn
          · omega
        exact ih (hn.imp_right fun h => by omega) (by omega)
      · rfl

/-- `match_name` reads no further than the end of either name. -/
theorem run_matchName (hn : g n = 0 ∨ name.length ≤ n)
    (hrhs : ∀ k ≤ n, (rhs k).run s = .ok (g k, s, [])) :
    (matchName name rhs).run s = .ok (matched g name, s, []) := by
  have hn' : g n = 0 ∨ 0 + name.length ≤ n := by rwa [Nat.zero_add]
  unfold matchName matched
  rw [run_bind _ (run_matchLoop hn' hrhs (Nat.zero_le n))]
  have hle : (scan g name 0).2 ≤ n := scan_le hn' (Nat.zero_le n)
  change (rhs (scan g name 0).2 >>= _).run s = _
  rw [run_bind _ (hrhs _ hle)]
  split
  · rfl
  · split <;> rfl

theorem run_matchDots : (matchName name dotDot).run s = .ok (matched dots name, s, []) :=
  run_matchName (n := 2) (.inl rfl) fun _ _ => rfl

end

/-! ## What matches -/

/-- `g` holds the string `w`. -/
def Spelled (g : ℕ → UInt8) (w : Path) : Prop :=
  (∀ (j : ℕ) (h : j < w.length), g j = w[j]) ∧ g w.length = 0

/-- The string in the `n` bytes from `k` on. -/
def nameFrom (g : ℕ → UInt8) : (n k : ℕ) → Path
  | 0, _ => []
  | n + 1, k => if g k = 0 then [] else g k :: nameFrom g n (k + 1)

/-- The string in the 14 bytes of a name. -/
def nameAt (g : ℕ → UInt8) : Path := nameFrom g NAME_LEN 0

/-- The first component of a path. -/
def component (p : Path) : Path := p.takeWhile (!isSeparator ·)

/-- The path after its first component and one separator. -/
def afterComponent (p : Path) : Path := (p.dropWhile (!isSeparator ·)).tail

section

variable {g : ℕ → UInt8} {name w lhs : Path} {k k' : ℕ}

/-- What the loop has passed over is the same in both names, and it stops where one of them
ends or they differ. -/
theorem scan_eq (h : scan g name k = (lhs, k')) :
    ∃ w, name = w ++ lhs ∧ k' = k + w.length ∧
      (∀ (j : ℕ) (hj : j < w.length), g (k + j) = w[j] ∧ w[j] ≠ 0) ∧
      (lhs = [] ∨ ¬(chr lhs = g k' ∧ chr lhs ≠ 0 ∧ g k' ≠ 0)) := by
  induction name generalizing k with
  | nil =>
      cases h
      exact ⟨[], rfl, rfl, nofun, .inl rfl⟩
  | cons c name ih =>
      unfold scan at h
      split at h
      · rename_i hsame
        obtain ⟨w, hname, hk', hbytes, hstop⟩ := ih h
        refine ⟨c :: w, by rw [hname, List.cons_append], by rw [hk', List.length_cons]; omega,
          fun j hj => ?_, hstop⟩
        cases j with
        | zero => exact ⟨hsame.1.symm, hsame.2.1⟩
        | succ j =>
            have hbyte := hbytes j (by simpa using hj)
            rw [show k + 1 + j = k + (j + 1) by omega] at hbyte
            simpa using hbyte
      · rename_i hstop
        cases h
        exact ⟨[], rfl, rfl, nofun, .inr hstop⟩

/-- The loop passes over what both names begin with. -/
theorem scan_append (hbytes : ∀ (j : ℕ) (hj : j < w.length), g (k + j) = w[j])
    (hw : ∀ c ∈ w, c ≠ 0) : scan g (w ++ lhs) k = scan g lhs (k + w.length) := by
  induction w generalizing k with
  | nil => rfl
  | cons c w ih =>
      have hc : g k = c := hbytes 0 (by simp)
      have hne : c ≠ 0 := hw c (by simp)
      rw [List.cons_append, scan, if_pos ⟨hc.symm, hne, hc ▸ hne⟩,
        ih (fun j hj => ?_) fun c hc => hw c (by simp [hc])]
      · rw [List.length_cons]
        congr 1
        omega
      · have hbyte := hbytes (j + 1) (by simpa using hj)
        rw [show k + 1 + j = k + (j + 1) by omega]
        simpa using hbyte

theorem matched_of_spelled (h : Spelled g w) (hw : ∀ c ∈ w, c ≠ 0)
    (hend : lhs = [] ∨ isSeparator (chr lhs) = true) : matched g (w ++ lhs) = some lhs.tail := by
  have hscan : scan g (w ++ lhs) 0 = (lhs, w.length) := by
    rw [scan_append (fun j hj => by rw [Nat.zero_add]; exact h.1 j hj) hw, Nat.zero_add]
    cases lhs with
    | nil => rfl
    | cons c lhs => rw [scan, if_neg fun hsame => hsame.2.2 h.2]
  unfold matched
  rw [hscan, if_neg (by simpa using h.2)]
  rcases hend with rfl | hsep
  · rfl
  · rw [if_neg fun hno => hno.2 hsep, if_pos hsep]

theorem spelled_of_matched {next : Path} (h : matched g name = some next) :
    ∃ w lhs, name = w ++ lhs ∧ Spelled g w ∧ (∀ c ∈ w, c ≠ 0) ∧
      (chr lhs = 0 ∨ isSeparator (chr lhs) = true) := by
  have hscan : scan g name 0 = ((scan g name 0).1, (scan g name 0).2) := rfl
  obtain ⟨w, hname, hk, hbytes, -⟩ := scan_eq hscan
  unfold matched at h
  split at h
  · cases h
  · rename_i hend
    split at h
    · cases h
    · rename_i hlhs
      refine ⟨w, _, hname, ⟨fun j hj => ?_, ?_⟩, fun c hc => ?_, ?_⟩
      · have hbyte := (hbytes j hj).1
        rwa [Nat.zero_add] at hbyte
      · rw [hk, Nat.zero_add] at hend
        exact not_not.mp hend
      · obtain ⟨j, hj, rfl⟩ := List.getElem_of_mem hc
        exact (hbytes j hj).2
      · by_cases hzero : chr (scan g name 0).1 = 0
        · exact .inl hzero
        · exact .inr (by simpa [hzero] using hlhs)

theorem nameFrom_eq_iff {n : ℕ} (hw : ∀ c ∈ w, c ≠ 0) (hlt : w.length < n) :
    nameFrom g n k = w ↔
      (∀ (j : ℕ) (h : j < w.length), g (k + j) = w[j]) ∧ g (k + w.length) = 0 := by
  induction n generalizing k w with
  | zero => exact absurd hlt (Nat.not_lt_zero _)
  | succ n ih =>
      unfold nameFrom
      cases w with
      | nil =>
          by_cases hzero : g k = 0
          · simp [hzero]
          · simp [hzero]
      | cons c w =>
          have hrest := ih (k := k + 1) (w := w) (fun c hc => hw c (by simp [hc]))
            (by simpa using hlt)
          have hne : c ≠ 0 := hw c (by simp)
          constructor
          · intro h
            by_cases hzero : g k = 0
            · rw [if_pos hzero] at h
              cases h
            · rw [if_neg hzero, List.cons.injEq] at h
              obtain ⟨hbytes, hend⟩ := hrest.mp h.2
              refine ⟨fun j hj => ?_, ?_⟩
              · cases j with
                | zero => exact h.1
                | succ j =>
                    have hbyte := hbytes j (by simpa using hj)
                    rw [show k + 1 + j = k + (j + 1) by omega] at hbyte
                    simpa using hbyte
              · rw [List.length_cons, show k + (w.length + 1) = k + 1 + w.length by omega]
                exact hend
          · rintro ⟨hbytes, hend⟩
            have hc : g k = c := hbytes 0 (by simp)
            rw [if_neg (hc ▸ hne), hc]
            congr 1
            refine hrest.mpr ⟨fun j hj => ?_, ?_⟩
            · have hbyte := hbytes (j + 1) (by simpa using hj)
              rw [show k + 1 + j = k + (j + 1) by omega]
              simpa using hbyte
            · rw [List.length_cons] at hend
              rwa [show k + 1 + w.length = k + (w.length + 1) by omega]

theorem nameFrom_ne_zero {n : ℕ} : ∀ c ∈ nameFrom g n k, c ≠ 0 := by
  induction n generalizing k with
  | zero => exact nofun
  | succ n ih =>
      unfold nameFrom
      split
      · exact nofun
      · rename_i hne
        exact List.forall_mem_cons.mpr ⟨hne, ih⟩

theorem nameFrom_length_lt {n : ℕ} (hend : ∃ j < n, g (k + j) = 0) :
    (nameFrom g n k).length < n := by
  induction n generalizing k with
  | zero =>
      obtain ⟨j, hj, -⟩ := hend
      exact absurd hj (Nat.not_lt_zero j)
  | succ n ih =>
      unfold nameFrom
      split
      · exact Nat.succ_pos n
      · rename_i hne
        obtain ⟨j, hj, hzero⟩ := hend
        cases j with
        | zero => exact absurd hzero hne
        | succ j =>
            have hrest := ih (k := k + 1)
              ⟨j, by omega, by rwa [show k + 1 + j = k + (j + 1) by omega]⟩
            rw [List.length_cons]
            omega

theorem Spelled.length_le {w' : Path} (h : Spelled g w) (h' : Spelled g w')
    (hw' : ∀ c ∈ w', c ≠ 0) : w'.length ≤ w.length := by
  by_contra hlt
  rw [not_le] at hlt
  exact hw' _ (List.getElem_mem hlt) ((h'.1 _ hlt).symm.trans h.2)

theorem Spelled.unique {w' : Path} (h : Spelled g w) (h' : Spelled g w') (hw : ∀ c ∈ w, c ≠ 0)
    (hw' : ∀ c ∈ w', c ≠ 0) : w = w' := by
  refine List.ext_getElem (le_antisymm (h'.length_le h hw) (h.length_le h' hw')) fun j hj hj' => ?_
  rw [← h.1 j hj, ← h'.1 j hj']

theorem nameAt_ne_zero : ∀ c ∈ nameAt g, c ≠ 0 := nameFrom_ne_zero

/-- A name that ends within its 14 bytes. -/
theorem spelled_nameAt (hend : ∃ n ≤ 13, g n = 0) : Spelled g (nameAt g) := by
  obtain ⟨n, hn, hzero⟩ := hend
  have hlt := nameFrom_length_lt (g := g) (n := NAME_LEN) (k := 0)
    ⟨n, Nat.lt_succ_of_le hn, by rwa [Nat.zero_add]⟩
  have hsame := (nameFrom_eq_iff (g := g) (k := 0) nameFrom_ne_zero hlt).mp rfl
  simp only [Nat.zero_add] at hsame
  exact hsame

theorem spelled_iff (hend : ∃ n ≤ 13, g n = 0) (hw : ∀ c ∈ w, c ≠ 0) :
    Spelled g w ↔ nameAt g = w := by
  constructor
  · exact fun h => (spelled_nameAt hend).unique h nameAt_ne_zero hw
  · rintro rfl
    exact spelled_nameAt hend

/-- A name without separators is the whole path. -/
theorem matched_name (hname : ∀ c ∈ name, c ≠ 0 ∧ isSeparator c = false) {next : Path} :
    matched g name = some next ↔ next = [] ∧ Spelled g name := by
  constructor
  · intro h
    obtain ⟨w, lhs, rfl, hw, hne, hend⟩ := spelled_of_matched h
    obtain rfl : lhs = [] := by
      cases lhs with
      | nil => rfl
      | cons c lhs =>
          obtain ⟨hzero, hsep⟩ := hname c (by simp)
          rcases hend with hend | hend
          · exact absurd hend hzero
          · rw [chr, List.headD_cons, hsep] at hend
            cases hend
    rw [matched_of_spelled hw hne (.inl rfl)] at h
    rw [List.append_nil]
    exact ⟨by simpa using h.symm, hw⟩
  · rintro ⟨rfl, h⟩
    have hall : matched g (name ++ []) = some [] :=
      matched_of_spelled h (fun c hc => (hname c hc).1) (.inl rfl)
    rwa [List.append_nil] at hall

theorem component_append (hw : ∀ c ∈ w, isSeparator c = false)
    (hend : lhs = [] ∨ isSeparator (chr lhs) = true) : component (w ++ lhs) = w := by
  unfold component
  rw [List.takeWhile_append_of_pos (by simpa using hw)]
  rcases hend with rfl | hend
  · simp
  · cases lhs with
    | nil => simp
    | cons c lhs => simp [show isSeparator c = true from hend]

theorem afterComponent_append (hw : ∀ c ∈ w, isSeparator c = false)
    (hend : lhs = [] ∨ isSeparator (chr lhs) = true) : afterComponent (w ++ lhs) = lhs.tail := by
  unfold afterComponent
  rw [List.dropWhile_append_of_pos (by simpa using hw)]
  rcases hend with rfl | hend
  · simp
  · cases lhs with
    | nil => simp
    | cons c lhs => simp [show isSeparator c = true from hend]

theorem component_mem (p : Path) : ∀ c ∈ component p, c ∈ p ∧ isSeparator c = false := by
  intro c hc
  have hsep := List.mem_takeWhile_imp hc
  exact ⟨(List.takeWhile_sublist _).mem hc, by simpa using hsep⟩

/-- A name without separators in it is compared with the first component. -/
theorem matched_path (hname : ∀ c ∈ name, c ≠ 0)
    (hg : ∀ k, (∀ j ≤ k, g j ≠ 0) → isSeparator (g k) = false) (next : Path) :
    matched g name = some next ↔ next = afterComponent name ∧ Spelled g (component name) := by
  constructor
  · intro h
    obtain ⟨w, lhs, rfl, hw, hne, hend⟩ := spelled_of_matched h
    have hsep : ∀ c ∈ w, isSeparator c = false := by
      intro c hc
      obtain ⟨k, hk, rfl⟩ := List.getElem_of_mem hc
      rw [← hw.1 k hk]
      refine hg k fun j hj => ?_
      rw [hw.1 j (by omega)]
      exact hne _ (List.getElem_mem _)
    have hend' : lhs = [] ∨ isSeparator (chr lhs) = true := by
      cases lhs with
      | nil => exact .inl rfl
      | cons c lhs => exact .inr (hend.resolve_left (hname c (by simp)))
    rw [component_append hsep hend', afterComponent_append hsep hend']
    rw [matched_of_spelled hw hne hend'] at h
    exact ⟨(Option.some_injective _ h).symm, hw⟩
  · rintro ⟨rfl, h⟩
    have hsplit : component name ++ name.dropWhile (!isSeparator ·) = name :=
      List.takeWhile_append_dropWhile
    have hend : name.dropWhile (!isSeparator ·) = [] ∨
        isSeparator (chr (name.dropWhile (!isSeparator ·))) = true := by
      cases hdrop : name.dropWhile (!isSeparator ·) with
      | nil => exact .inl rfl
      | cons c lhs =>
          have hc := List.head?_dropWhile_not (!isSeparator ·) name
          rw [hdrop] at hc
          exact .inr (show isSeparator c = true by simpa using hc)
    have hall := matched_of_spelled h
      (fun c hc => hname c (component_mem name c hc).1) hend
    rwa [hsplit] at hall

end

/-! ## `named` -/

/-- `named` from the inode `i` on. -/
def namedFrom (i : ℕ) (left : Path) : K (Option (ℕ × Path)) := do
  incCount i
  if chr left = 0 then
    return some (i, left)
  else
    match strrsep left with
    | none => return some (i, left)
    | some right => namedLoop right.tail (left.length + 1) i left none

end Ylos
