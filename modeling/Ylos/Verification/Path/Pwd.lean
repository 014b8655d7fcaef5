import Ylos.Verification.Path.Components

/-! # `abspath`, on components -/

namespace Ylos.Paths

variable {names : List Path} {name p q path rest w : Path} {c : UInt8}

/-- The string of a task in the directory that the names lead to. -/
def render (names : List Path) : Path := 47 :: names.flatMap fun name => name ++ [47]

/-- What one component does to the names. -/
def applyName (names : List Path) (name : Path) : List Path :=
  if name = [46] then names else if name = dotdot then names.dropLast else names ++ [name]

/-- The last component does nothing if it is empty. -/
def applyLast (names : List Path) (name : Path) : List Path :=
  if name = [] then names else applyName names name

/-- The names have no separators. -/
def Plain (names : List Path) : Prop := ∀ name ∈ names, ∀ c ∈ name, isSeparator c = false

theorem Plain.applyName (h : Plain names) (hname : ∀ c ∈ name, isSeparator c = false) :
    Plain (applyName names name) := by
  unfold Paths.applyName
  split
  · exact h
  · split
    · exact fun w hw => h w ((List.dropLast_sublist names).mem hw)
    · intro w hw
      rcases List.mem_append.mp hw with hw | hw
      · exact h w hw
      · rw [List.mem_singleton.mp hw]
        exact hname

theorem render_append (names : List Path) (name : Path) :
    render (names ++ [name]) = render names ++ (name ++ [47]) := by
  unfold render
  rw [List.flatMap_append, List.flatMap_singleton, List.cons_append]

/-- The string ends in a slash. -/
theorem render_slash (names : List Path) : ∃ p, render names = p ++ [47] := by
  rcases List.eq_nil_or_concat' names with rfl | ⟨names, name, rfl⟩
  · exact ⟨[], rfl⟩
  · exact ⟨render names ++ name, by rw [render_append, List.append_assoc]⟩

theorem strrsep_last (hw : ∀ c ∈ w, isSeparator c = false) (hc : isSeparator c = true) (p : Path) :
    strrsep (p ++ c :: w) = some (c :: w) := by
  induction p with
  | nil =>
      rw [List.nil_append, strrsep_cons, strrsep_eq_none.mpr hw]
      exact if_pos hc
  | cons d p ih => rw [List.cons_append, strrsep_cons, ih]

/-- Cutting after the last slash takes a component without slashes off. -/
theorem cutLast_append (hw : ∀ c ∈ w, isSeparator c = false) (names : List Path) :
    cutLast (render names ++ w) = .ok (render names) := by
  obtain ⟨p, hp⟩ := render_slash names
  unfold cutLast
  rw [hp, List.append_assoc, List.singleton_append, strrsep_last hw rfl]
  have htake : (p ++ 47 :: w).take ((p ++ 47 :: w).length - (47 :: w).length + 1) = p ++ [47] := by
    rw [List.length_append, Nat.add_sub_cancel, List.append_cons]
    exact List.take_left' (by simp)
  exact congrArg Except.ok htake

theorem cutLast_render (names : List Path) : cutLast (render names) = .ok (render names) := by
  have hcut := cutLast_append (w := []) nofun names
  rwa [List.append_nil] at hcut

theorem popLast_render (h : Plain names) :
    popLast (render names) = .ok (render names.dropLast) := by
  unfold popLast
  rcases List.eq_nil_or_concat' names with rfl | ⟨names, name, rfl⟩
  · rfl
  · have hlength : (render (names ++ [name])).length = (render names).length + name.length + 1 := by
      simp [render_append, Nat.add_assoc]
    have hpos : 1 ≤ (render names).length := Nat.succ_pos _
    rw [if_neg (by omega), hlength, render_append, List.dropLast_concat]
    have htake : (render names ++ (name ++ [47])).take
        ((render names).length + name.length + 1 - 1) = render names ++ name := by
      rw [← List.append_assoc, Nat.add_sub_cancel, ← List.length_append, List.take_left]
    rw [htake]
    exact cutLast_append (h name (by simp)) names

theorem append_render (h : append (render names) (name ++ [47]) = .ok p) :
    p = render (names ++ [name]) := by
  unfold append at h
  split at h
  · cases h
    exact (render_append names name).symm
  · cases h

/-! ## The loop -/

theorem strsep_append (hw : ∀ c ∈ w, isSeparator c = false) (hc : isSeparator c = true)
    (rest : Path) : strsep (w ++ c :: rest) = some (c :: rest) := by
  unfold strsep
  rw [List.dropWhile_append_of_pos (by simpa using hw), List.dropWhile_cons_of_neg (by simp [hc])]

/-- A component is compared together with the slash behind it. -/
theorem take_slash (hw : ∀ c ∈ w, isSeparator c = false) {d : Path}
    (hd : ∀ c ∈ d, isSeparator c = false) (rest : Path) :
    (w ++ 47 :: rest).take (d.length + 1) = d ++ [47] ↔ w = d := by
  induction w generalizing d with
  | nil =>
      cases d with
      | nil => simp
      | cons b d =>
          have hb := hd b List.mem_cons_self
          constructor
          · intro h
            rw [List.nil_append, List.cons_append, List.length_cons, List.take_succ_cons,
              List.cons.injEq] at h
            rw [← h.1] at hb
            cases hb
          · nofun
  | cons a w ih =>
      cases d with
      | nil =>
          have ha := hw a List.mem_cons_self
          constructor
          · intro h
            simp only [List.length_nil, List.cons_append, List.take_succ_cons, List.nil_append,
              List.cons.injEq] at h
            rw [h.1] at ha
            cases ha
          · nofun
      | cons b d =>
          have hrest := ih (fun c hc => hw c (List.mem_cons_of_mem a hc)) (d := d)
            (fun c hc => hd c (List.mem_cons_of_mem b hc))
          rw [List.cons_append, List.cons_append, List.length_cons, List.take_succ_cons,
            List.cons.injEq, List.cons.injEq, hrest]

/-- One round of the loop. -/
theorem abspathLoop_succ (hw : ∀ c ∈ w, isSeparator c = false) (hc : isSeparator c = true)
    (hne : chr (w ++ c :: rest) ≠ 0) (fuel : ℕ) (pwd : Path) :
    abspathLoop (fuel + 1) pwd (w ++ c :: rest) =
      if w = [46] then abspathLoop fuel pwd rest
      else if w = dotdot then (popLast pwd).bind fun pwd => abspathLoop fuel pwd rest
      else (append pwd (w ++ [47])).bind fun pwd => abspathLoop fuel pwd rest := by
  have hlen : (w ++ c :: rest).length - (c :: rest).length + 1 = w.length + 1 := by
    rw [List.length_append, Nat.add_sub_cancel]
  have hset : (w ++ c :: rest).set (w.length + 1 - 1) 47 = w ++ 47 :: rest := by simp
  have hdrop : (w ++ 47 :: rest).drop (w.length + 1) = rest := by
    rw [List.append_cons]
    exact List.drop_left' (by simp)
  have htake : (w ++ 47 :: rest).take (w.length + 1) = w ++ [47] := by
    rw [List.append_cons]
    exact List.take_left' (by simp)
  have hdot : (w ++ 47 :: rest).take 2 = [46, 47] ↔ w = [46] :=
    take_slash hw (d := [46]) (by simp [isSeparator]) rest
  have hdots : (w ++ 47 :: rest).take 3 = [46, 46, 47] ↔ w = dotdot :=
    take_slash hw (d := dotdot) (by simp [isSeparator, dotdot]) rest
  rw [abspathLoop, if_neg hne, strsep_append hw hc]
  simp only [hlen, hset, hdrop, htake]
  rw [if_congr hdot rfl rfl]
  split
  · rfl
  · rw [if_congr hdots rfl rfl]
    split
    · rfl
    · rfl

theorem abspathLoop_render {fuel : ℕ} (h : Plain names) (hpath : ∀ c ∈ path, c ≠ 0)
    (hfuel : path.length ≤ fuel) (hrun : abspathLoop fuel (render names) path = .ok (p, rest)) :
    p = render ((components path).dropLast.foldl applyName names) ∧
      rest = (components path).getLastD [] ∧
      Plain ((components path).dropLast.foldl applyName names) := by
  induction fuel generalizing names path with
  | zero =>
      obtain rfl : path = [] := List.length_eq_zero_iff.mp (Nat.le_zero.mp hfuel)
      cases hrun
      exact ⟨rfl, rfl, h⟩
  | succ fuel ih =>
      by_cases hsep : ∃ c ∈ path, isSeparator c = true
      · obtain ⟨c, hc, hsplit⟩ := component_split hsep
        have hplain : ∀ d ∈ component path, isSeparator d = false := component_not_sep
        have hlt := afterComponent_length_lt hsep
        have hnext : ∀ c ∈ afterComponent path, c ≠ 0 := fun c hc =>
          hpath c ((afterComponent_suffix path).mem hc)
        have hne : chr (component path ++ c :: afterComponent path) ≠ 0 := by
          rw [← hsplit]
          obtain ⟨d, hd, -⟩ := hsep
          cases path with
          | nil => cases hd
          | cons b path => exact hpath b List.mem_cons_self
        rw [dropLast_components hsep, getLastD_components hsep, List.foldl_cons]
        have hstep : abspathLoop fuel (render (applyName names (component path)))
            (afterComponent path) = .ok (p, rest) := by
          have hround := abspathLoop_succ hplain hc hne fuel (render names)
          rw [← hsplit, hrun] at hround
          unfold applyName
          split
          · rename_i hdot
            rw [if_pos hdot] at hround
            exact hround.symm
          · rename_i hdot
            rw [if_neg hdot] at hround
            split
            · rename_i hdots
              rw [if_pos hdots, popLast_render h] at hround
              exact hround.symm
            · rename_i hdots
              rw [if_neg hdots] at hround
              cases happend : append (render names) (component path ++ [47]) with
              | error e =>
                  rw [happend] at hround
                  cases hround
              | ok q =>
                  rw [happend] at hround
                  rw [← append_render happend]
                  exact hround.symm
        exact ih (h.applyName hplain) hnext (by omega) hstep
      · simp only [not_exists, not_and, Bool.not_eq_true] at hsep
        have hnone : strsep path = none := by
          unfold strsep
          rw [List.dropWhile_eq_nil_iff.mpr fun c hc => by simp [hsep c hc]]
        have hstop : (p, rest) = (render names, path) := by
          rw [abspathLoop, hnone] at hrun
          split at hrun
          · cases hrun
            rfl
          · cases hrun
            rfl
        obtain ⟨rfl, rfl⟩ := Prod.mk.inj hstop
        rw [components_whole hsep]
        exact ⟨rfl, rfl, h⟩

/-- The end of `abspath`, on the last component. -/
theorem abspath_last (h : Plain names) (hlast : ∀ c ∈ name, c ≠ 0 ∧ isSeparator c = false)
    (hrun : (if chr name = 0 then .ok (render names)
      else if name = [46] then .ok (render names)
      else if name ≠ [46, 46] then append (render names) (name ++ [47])
      else popLast (render names)) = Except.ok p) :
    p = render (applyLast names name) ∧ Plain (applyLast names name) := by
  unfold applyLast
  cases name with
  | nil =>
      cases hrun
      exact ⟨rfl, h⟩
  | cons c name =>
      rw [if_neg (show ¬chr (c :: name) = 0 from (hlast c List.mem_cons_self).1)] at hrun
      rw [if_neg (List.cons_ne_nil c name)]
      refine ⟨?_, h.applyName fun d hd => (hlast d hd).2⟩
      unfold applyName
      split at hrun
      · rename_i hdot
        rw [if_pos hdot]
        cases hrun
        rfl
      · rename_i hdot
        rw [if_neg hdot]
        split at hrun
        · rename_i hdots
          rw [if_neg (show ¬c :: name = dotdot from hdots)]
          exact append_render hrun
        · rename_i hdots
          rw [if_pos (show c :: name = dotdot from not_not.mp hdots)]
          rw [popLast_render h] at hrun
          cases hrun
          rfl

/-- `abspath` follows the components of the path, from the root or from where the task is. -/
theorem abspath_render {base : List Path} {left : Path} (h : Plain names)
    (hpath : ∀ c ∈ path, c ≠ 0)
    (hstart : (base, left) = if isSeparator (chr path) then ([], path.tail) else (names, path))
    (hrun : abspath (render names) path = .ok p) :
    p = render (applyLast ((components left).dropLast.foldl applyName base)
        ((components left).getLastD [])) ∧
      Plain (applyLast ((components left).dropLast.foldl applyName base)
        ((components left).getLastD [])) := by
  obtain ⟨hbase, hleft, hbegin⟩ : Plain base ∧ (∀ c ∈ left, c ≠ 0) ∧
      (if isSeparator (chr path) then
        if render names = [] then .error .wild else .ok ((render names).take 1, path.tail)
      else (cutLast (render names)).bind fun pwd => .ok (pwd, path)) =
        Except.ok (ε := Fault) (render base, left) := by
    split at hstart
    · rename_i hsep
      obtain ⟨rfl, rfl⟩ := Prod.mk.inj hstart
      rw [if_pos hsep]
      exact ⟨nofun, fun c hc => hpath c (List.mem_of_mem_tail hc), rfl⟩
    · rename_i hsep
      obtain ⟨rfl, rfl⟩ := Prod.mk.inj hstart
      rw [if_neg hsep, cutLast_render]
      exact ⟨h, hpath, rfl⟩
  have hunfold : abspath (render names) path = (if isSeparator (chr path) then
        if render names = [] then .error .wild else .ok ((render names).take 1, path.tail)
      else (cutLast (render names)).bind fun pwd => .ok (pwd, path)).bind fun start =>
      (abspathLoop start.2.length start.1 start.2).bind fun stop =>
        if chr stop.2 = 0 then .ok stop.1
        else if stop.2 = [46] then .ok stop.1
        else if stop.2 ≠ [46, 46] then append stop.1 (stop.2 ++ [47])
        else popLast stop.1 := by
    unfold abspath
    split
    · split <;> rfl
    · rw [cutLast_render]
      rfl
  rw [hunfold, hbegin] at hrun
  cases hloop : abspathLoop left.length (render base) left with
  | error e =>
      simp only [Except.bind, hloop] at hrun
      cases hrun
  | ok stop =>
      obtain ⟨q, rest⟩ := stop
      simp only [Except.bind, hloop] at hrun
      obtain ⟨rfl, rfl, hplain⟩ := abspathLoop_render hbase hleft le_rfl hloop
      obtain ⟨hsuffix, hlast⟩ := last_component left
      exact abspath_last hplain (fun c hc => ⟨hleft c (hsuffix.mem hc), hlast c hc⟩) hrun

end Ylos.Paths
