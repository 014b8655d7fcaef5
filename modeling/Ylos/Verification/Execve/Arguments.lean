import Ylos.Lib.Text
import Ylos.Model.Arguments
import Ylos.Model.Boot
import Ylos.Model.Execve
import Ylos.Verification.Ram.Copy
import Mathlib.Data.List.Induction

/-! # What `copy_argv_envp` puts at the top of the user stack -/

namespace Ylos.Arguments

open Exec Ram
open Bytes (Shows Str le)
open Memory (PAGE_SIZE USER_STACK_TOP KERNEL_MEMORY_SIZE)
open Execve (argBlock wordBytes)

variable {m m' : Bytes} {p q k n i lo hi array arrayk pages argvk envpk ktop utop top : ℕ}
  {filename argv envp : ℕ} {inside : ℕ → Prop} {tops : Tops} {str name : List UInt8}
  {strs strs' args envs : List (List UInt8)}

/-! ## Strings and arrays of strings in memory -/

/-- The string at `p`, all of it inside an area. -/
structure Text (inside : ℕ → Prop) (m : Bytes) (p : ℕ) (str : List UInt8) : Prop where
  text : Str m p str
  live : 0 ∉ str
  inside : ∀ j ≤ str.length, inside (p + j)

/-- The array of pointers to `strs` with a null pointer at its end, all of it inside an area. -/
structure Table (inside : ℕ → Prop) (m : Bytes) (array : ℕ) (strs : List (List UInt8)) : Prop where
  entry : ∀ i str, strs[i]? = some str →
    m.read 4 (array + 4 * i) ≠ 0 ∧ Text inside m (m.read 4 (array + 4 * i)) str
  null : m.read 4 (array + 4 * strs.length) = 0
  slots : ∀ j < 4 * (strs.length + 1), inside (array + j)

/-- An array that is passed to `execve`. -/
def Given (inside : ℕ → Prop) (m : Bytes) (array : ℕ) (strs : List (List UInt8)) : Prop :=
  (array = 0 ∧ strs = []) ∨ (array ≠ 0 ∧ Table inside m array strs)

theorem Text.congr (h : Text inside m p str) (heq : ∀ a, inside a → m' a = m a) :
    Text inside m' p str := by
  refine ⟨h.text.congr fun a ha hle => ?_, h.live, h.inside⟩
  have hin := h.inside (a - p) (by omega)
  rw [Nat.add_sub_cancel' ha] at hin
  exact heq a hin

theorem Table.read_congr (h : Table inside m array strs) (heq : ∀ a, inside a → m' a = m a)
    (hi : i ≤ strs.length) : m'.read 4 (array + 4 * i) = m.read 4 (array + 4 * i) := by
  apply Bytes.read_congr
  intro a ha hlt
  have hin := h.slots (a - array) (by omega)
  rw [Nat.add_sub_cancel' (by omega)] at hin
  exact heq a hin

theorem Table.congr (h : Table inside m array strs) (heq : ∀ a, inside a → m' a = m a) :
    Table inside m' array strs := by
  refine ⟨fun i str hi => ?_, ?_, h.slots⟩
  · have hlen := (List.getElem?_eq_some_iff.mp hi).1
    rw [h.read_congr heq hlen.le]
    exact ⟨(h.entry i str hi).1, (h.entry i str hi).2.congr heq⟩
  · rw [h.read_congr heq le_rfl]
    exact h.null

theorem Given.congr (h : Given inside m array strs) (heq : ∀ a, inside a → m' a = m a) :
    Given inside m' array strs :=
  h.imp_right fun h => ⟨h.1, h.2.congr heq⟩

/-! ## Lengths -/

theorem back_eq (hle : n ≤ p) (hlt : p < 2 ^ 32) : back p n = p - n := by
  unfold back u32
  omega

theorem returns_strlenLoop (hgo : ∀ j < k, m (p + j) ≠ 0) (hstop : m (p + k) = 0) (hk : k < n)
    (hlt : p + k < 2 ^ 32) : Returns (strlenLoop n p) (fun r m' => r = p + k ∧ m' = m) m := by
  induction k generalizing n p with
  | zero =>
      obtain ⟨n, rfl⟩ := Nat.exists_eq_add_of_lt hk
      have hzero : ram m p = 0 := hstop
      unfold strlenLoop
      refine returns_bind_run (run_load p m) ?_
      rw [if_pos hzero]
      exact returns_pure ⟨rfl, rfl⟩
  | succ k ih =>
      obtain ⟨n, rfl⟩ := Nat.exists_eq_add_of_lt hk
      have hshift : ∀ j, p + 1 + j = p + (j + 1) := fun j => by omega
      have hfirst : ¬ram m p = 0 := hgo 0 (by omega)
      have hnext : u32 (p + 1) = p + 1 := Nat.mod_eq_of_lt (by omega)
      unfold strlenLoop
      refine returns_bind_run (run_load p m) ?_
      rw [if_neg hfirst, hnext, ← hshift k]
      refine ih (fun j hj => ?_) (by rw [hshift]; exact hstop) (by omega) (by omega)
      rw [hshift]
      exact hgo (j + 1) (by omega)

theorem Text.returns_strlen (h : Text inside m p str) (hlow : ∀ a, inside a → a < 2 ^ 32) :
    Returns (strlen p) (fun r m' => r = str.length ∧ m' = m) m := by
  have hlt := hlow _ (h.inside str.length le_rfl)
  have hloop : Returns (strlenLoop (2 ^ 32) p) (fun r m' => r = p + str.length ∧ m' = m) m :=
    returns_strlenLoop (fun j hj hzero => h.live (hzero ▸ h.text.1.mem hj)) h.text.2 (by omega) hlt
  unfold strlen
  refine returns_bind (returns_mono hloop fun r m' hr => ?_)
  rw [hr.1, hr.2]
  refine returns_pure ⟨?_, rfl⟩
  rw [back_eq (by omega) hlt]
  omega

theorem Table.returns_countLoop (h : Table inside m array strs) (hlow : ∀ a, inside a → a < 2 ^ 32)
    (hi : i ≤ strs.length) (hn : strs.length < n + i) :
    Returns (countLoop array n i) (fun r m' => r = strs.length ∧ m' = m) m := by
  induction n generalizing i with
  | zero => omega
  | succ n ih =>
      have hslot := hlow _ (h.slots (4 * i) (by omega))
      have haddr : u32 (array + 4 * i) = array + 4 * i := Nat.mod_eq_of_lt hslot
      unfold countLoop
      rw [haddr]
      refine returns_bind_run (run_loadLe 4 _ m) ?_
      by_cases hend : i = strs.length
      · have hzero : (ram m).read 4 (array + 4 * i) = 0 := by
          rw [hend]
          exact h.null
        rw [if_pos hzero]
        exact returns_pure ⟨hend, rfl⟩
      · have hlt : i < strs.length := by omega
        have hne : ¬(ram m).read 4 (array + 4 * i) = 0 :=
          (h.entry i _ (List.getElem?_eq_getElem hlt)).1
        rw [if_neg hne]
        exact ih (by omega) (by omega)

theorem Given.returns_countArgv (h : Given inside m array strs)
    (hlow : ∀ a, inside a → a < 2 ^ 32) :
    Returns (countArgv array) (fun r m' => r = strs.length ∧ m' = m) m := by
  unfold countArgv
  rcases h with ⟨hnull, rfl⟩ | ⟨hne, htable⟩
  · rw [if_pos hnull]
    exact returns_pure ⟨rfl, rfl⟩
  · have hslot := hlow _ (htable.slots (4 * strs.length + 3) (by omega))
    rw [if_neg hne]
    exact htable.returns_countLoop hlow (Nat.zero_le _) (by omega)

/-! ## Copies -/

/-- `m'` is `m` outside the addresses from `lo` up to `hi`. -/
def Within (lo hi : ℕ) (m m' : Bytes) : Prop := ∀ a, a < lo ∨ hi ≤ a → m' a = m a

theorem within_copy (m : Bytes) (p n : ℕ) (f : ℕ → UInt8) : Within p (p + n) m (m.copy p n f) :=
  fun _ ha => Bytes.copy_apply_of_lt ha

theorem Within.shows (h : Within lo hi m m') (hs : Shows m p str)
    (hout : p + str.length ≤ lo ∨ hi ≤ p) : Shows m' p str :=
  hs.congr fun a _ _ => h a (by omega)

/-- What is copied to another place is there. -/
theorem returns_memcpy (dest : ℕ) (h : Shows m p str) (hp : p + str.length ≤ 2 ^ 32)
    (hdest : dest + str.length ≤ 2 ^ 32) (hdisj : dest + str.length ≤ p ∨ p + str.length ≤ dest) :
    Returns (memcpy dest p str.length)
      (fun _ m' => Shows m' dest str ∧ Within dest (dest + str.length) m m') m := by
  refine ⟨(), _, _, run_memcpy dest p str.length m, ?_⟩
  have heq : withRam m (copied (ram m) dest p str.length) =
      m.copy dest str.length fun k => m (p + k) := copied_eq hdest hp hdisj
  rw [heq]
  exact ⟨Bytes.shows_copy h, within_copy _ _ _ _⟩

theorem returns_storeLe (m : Bytes) (w p v : ℕ) :
    Returns (storeLe w p v) (fun _ m' => Shows m' p (le w v) ∧ Within p (p + w) m m') m :=
  ⟨(), _, _, run_storeLe w p v m, Bytes.shows_copy_le m p w v, within_copy _ _ _ _⟩

/-! ## The pages of the kernel -/

/-- The pages that `alloc_kpage` returns, first four and then one. -/
structure Area (pages argvk : ℕ) : Prop where
  pages_le : pages + 4 * PAGE_SIZE ≤ KERNEL_MEMORY_SIZE
  argvk_le : argvk + PAGE_SIZE ≤ KERNEL_MEMORY_SIZE
  disjoint : pages + 4 * PAGE_SIZE ≤ argvk ∨ argvk + PAGE_SIZE ≤ pages

/-- An address outside of these pages. -/
def Apart (pages argvk a : ℕ) : Prop :=
  a < 2 ^ 32 ∧ (a < pages ∨ pages + 4 * PAGE_SIZE ≤ a) ∧ (a < argvk ∨ argvk + PAGE_SIZE ≤ a)

instance (pages argvk a : ℕ) : Decidable (Apart pages argvk a) :=
  inferInstanceAs (Decidable (_ ∧ _ ∧ _))

theorem kernel_memory_le : KERNEL_MEMORY_SIZE ≤ 2 ^ 24 := by decide

theorem user_stack_le : USER_STACK_TOP ≤ 2 ^ 28 := by decide

theorem disjoint_of_apart (h : ∀ j < n, Apart pages argvk (p + j)) (hlo : pages ≤ q)
    (hhi : q + k ≤ pages + 4 * PAGE_SIZE) (hn : 0 < n) (hk : 0 < k) :
    q + k ≤ p ∨ p + n ≤ q := by
  by_contra hover
  have hin := h (max p q - p) (by omega)
  rw [Nat.add_sub_cancel' (le_max_left p q)] at hin
  unfold Apart at hin
  omega

/-! ## The strings -/

theorem Text.returns_pushString (h : Text (Apart pages argvk) m p str) (harea : Area pages argvk)
    (hroom : pages + (str.length + 1) ≤ ktop) (hktop : ktop ≤ pages + 4 * PAGE_SIZE)
    (huser : str.length + 1 ≤ utop) (hutop : utop ≤ USER_STACK_TOP) :
    Returns (pushString p ⟨ktop, utop⟩) (fun tops m' =>
      tops = ⟨ktop - (str.length + 1), utop - (str.length + 1)⟩ ∧
      Shows m' (ktop - (str.length + 1)) (str ++ [0]) ∧
      Within (ktop - (str.length + 1)) ktop m m') m := by
  have hkernel := kernel_memory_le
  have hstack := user_stack_le
  have hpages := harea.pages_le
  have hlow := (h.inside str.length le_rfl).1
  have hlen : (str ++ [0]).length = str.length + 1 := by simp
  have hsize : u32 (str.length + 1) = str.length + 1 := Nat.mod_eq_of_lt (by omega)
  have hk : back ktop (str.length + 1) = ktop - (str.length + 1) := back_eq (by omega) (by omega)
  have hu : back utop (str.length + 1) = utop - (str.length + 1) := back_eq (by omega) (by omega)
  have hdisj := disjoint_of_apart (p := p) (q := ktop - (str.length + 1)) (n := str.length + 1)
    (k := str.length + 1) (fun j hj => h.inside j (by omega)) (by omega) (by omega) (by omega)
    (by omega)
  have hcopy := returns_memcpy (ktop - (str.length + 1)) (Bytes.str_iff.mp h.text)
    (by rw [hlen]; omega) (by rw [hlen]; omega) (by rw [hlen]; exact hdisj)
  rw [hlen, Nat.sub_add_cancel (by omega)] at hcopy
  unfold pushString
  refine returns_bind (returns_mono (h.returns_strlen fun a ha => ha.1) fun r m' hr => ?_)
  obtain ⟨rfl, rfl⟩ := hr
  rw [hsize, hk, hu]
  exact returns_bind (returns_mono hcopy fun _ m' hm => returns_pure ⟨rfl, hm⟩)

/-- The bytes of strings, one after the other. -/
def block (strs : List (List UInt8)) : List UInt8 := strs.flatMap (· ++ [0])

/-- The user addresses of strings, the last of which ends at `top`. -/
def addrs (top : ℕ) (strs : List (List UInt8)) : List ℕ := (Execve.pushStrings top strs).1

theorem pushStrings_snd (top : ℕ) (strs : List (List UInt8)) :
    (Execve.pushStrings top strs).2 = block strs := by
  induction strs with
  | nil => rfl
  | cons str strs ih => simp [Execve.pushStrings, ih, block]

theorem addrs_cons (top : ℕ) (str : List UInt8) (strs : List (List UInt8)) :
    addrs top (str :: strs) = (top - (block (str :: strs)).length) :: addrs top strs := by
  simp [addrs, Execve.pushStrings, pushStrings_snd, block]

theorem block_append (strs strs' : List (List UInt8)) :
    block (strs ++ strs') = block strs ++ block strs' := List.flatMap_append

theorem addrs_append (top : ℕ) (strs strs' : List (List UInt8)) :
    addrs top (strs ++ strs') = addrs (top - (block strs').length) strs ++ addrs top strs' := by
  induction strs with
  | nil => rfl
  | cons str strs ih =>
      have hsplit := block_append (str :: strs) strs'
      rw [List.cons_append] at hsplit
      rw [List.cons_append, addrs_cons, addrs_cons, ih, hsplit, List.cons_append]
      congr 1
      rw [List.length_append]
      omega

@[simp] theorem length_addrs (top : ℕ) (strs : List (List UInt8)) :
    (addrs top strs).length = strs.length := by
  induction strs with
  | nil => rfl
  | cons str strs ih => rw [addrs_cons, List.length_cons, ih, List.length_cons]

/-- The addresses with a null pointer behind them. -/
theorem length_array (top : ℕ) (strs : List (List UInt8)) :
    ((addrs top strs ++ [0]).flatMap (le 4)).length = 4 * (strs.length + 1) := by
  rw [Bytes.length_flatMap_le, List.length_append, length_addrs, List.length_singleton]

/-- The strings are at the top, and their addresses in the array. -/
theorem returns_pushLoop (harea : Area pages argvk)
    (hentry : ∀ i str, strs[i]? = some str →
      Text (Apart pages argvk) m (m.read 4 (array + 4 * i)) str)
    (hslots : ∀ j < 4 * strs.length, Apart pages argvk (array + j))
    (hroom : pages + (block strs).length ≤ ktop) (hktop : ktop ≤ pages + 4 * PAGE_SIZE)
    (huser : (block strs).length ≤ utop) (hutop : utop ≤ USER_STACK_TOP)
    (hlo : argvk ≤ arrayk) (hhi : arrayk + 4 * strs.length ≤ argvk + PAGE_SIZE) :
    Returns (pushLoop array arrayk strs.length ⟨ktop, utop⟩) (fun tops m' =>
      tops = ⟨ktop - (block strs).length, utop - (block strs).length⟩ ∧
      Shows m' (ktop - (block strs).length) (block strs) ∧
      Shows m' arrayk ((addrs utop strs).flatMap (le 4)) ∧
      ∀ a, (a < ktop - (block strs).length ∨ ktop ≤ a) →
        (a < arrayk ∨ arrayk + 4 * strs.length ≤ a) → m' a = m a) m := by
  induction strs using List.reverseRecOn generalizing m ktop utop with
  | nil => exact returns_pure ⟨rfl, Bytes.shows_nil _ _, Bytes.shows_nil _ _, fun _ _ _ => rfl⟩
  | append_singleton strs str ih =>
      have hkernel := kernel_memory_le
      have hpages := harea.pages_le
      have hdisj := harea.disjoint
      have hsingle : block [str] = str ++ [0] := by simp [block]
      have hblock : block (strs ++ [str]) = block strs ++ (str ++ [0]) := by
        rw [block_append, hsingle]
      have hlen : (block (strs ++ [str])).length = (block strs).length + (str.length + 1) := by
        simp [hblock]
      have haddrs : addrs utop (strs ++ [str]) =
          addrs (utop - (str.length + 1)) strs ++ [utop - (str.length + 1)] := by
        rw [addrs_append, addrs_cons, hsingle]
        simp [addrs, Execve.pushStrings]
      have hcount : (strs ++ [str]).length = strs.length + 1 := by simp
      rw [hcount] at hslots hhi
      rw [hlen] at hroom huser
      have hslot := (hslots (4 * strs.length) (by omega)).1
      have haddr : u32 (array + 4 * strs.length) = array + 4 * strs.length :=
        Nat.mod_eq_of_lt hslot
      have hdest : u32 (arrayk + 4 * strs.length) = arrayk + 4 * strs.length :=
        Nat.mod_eq_of_lt (by have := harea.argvk_le; omega)
      have htext := hentry strs.length str (by simp)
      rw [hcount]
      unfold pushLoop
      rw [haddr, hdest]
      refine returns_bind_run (run_loadLe 4 _ m) (returns_bind (returns_mono
        (htext.returns_pushString harea (by omega) hktop (by omega) hutop) ?_))
      rintro _ m₁ ⟨rfl, hshows₁, hwithin₁⟩
      refine returns_bind (returns_mono (returns_storeLe m₁ 4 _ _) ?_)
      rintro _ m₂ ⟨hshows₂, hwithin₂⟩
      -- outside the kernel's pages, memory is what it was
      have hsame : ∀ a, Apart pages argvk a → m₂ a = m a := by
        intro a ha
        unfold Apart at ha
        rw [hwithin₂ a (by omega), hwithin₁ a (by omega)]
      refine returns_mono (ih (m := m₂) ?_ (fun j hj => hslots j (by omega)) (by omega)
        (by omega) (by omega) (by omega) (by omega)) ?_
      · intro i str' hi
        have hlt := (List.getElem?_eq_some_iff.mp hi).1
        have hread : m₂.read 4 (array + 4 * i) = m.read 4 (array + 4 * i) := by
          apply Bytes.read_congr
          intro a ha hlt'
          have hin := hslots (a - array) (by omega)
          rw [Nat.add_sub_cancel' (by omega)] at hin
          exact hsame a hin
        rw [hread]
        exact (hentry i str' (by rw [List.getElem?_append_left hlt]; exact hi)).congr hsame
      · rintro _ m₃ ⟨rfl, hstrs, harray, hframe⟩
        have hk : ktop - (str.length + 1) - (block strs).length =
            ktop - ((block strs).length + (str.length + 1)) := by omega
        have hu : utop - (str.length + 1) - (block strs).length =
            utop - ((block strs).length + (str.length + 1)) := by omega
        rw [hk] at hstrs hframe
        rw [hlen, hblock, haddrs, hk, hu]
        refine ⟨rfl, Bytes.shows_append.mpr ⟨hstrs, ?_⟩, ?_, fun a ha ha' => ?_⟩
        · have hat : ktop - ((block strs).length + (str.length + 1)) + (block strs).length =
              ktop - (str.length + 1) := by omega
          have hsize : (str ++ [0]).length = str.length + 1 := by simp
          rw [hat]
          refine (hwithin₂.shows hshows₁ (by rw [hsize]; omega)).congr fun a ha hlt => ?_
          exact hframe a (by omega) (by omega)
        · rw [List.flatMap_append, Bytes.shows_append]
          refine ⟨harray, ?_⟩
          rw [Bytes.length_flatMap_le, length_addrs, List.flatMap_singleton]
          refine hshows₂.congr fun a ha hlt => hframe a ?_ (by omega)
          rw [Bytes.length_le] at hlt
          omega
        · rw [hframe a (by omega) (by omega), hwithin₂ a (by omega), hwithin₁ a (by omega)]

theorem pages_le_stack : 4 * PAGE_SIZE ≤ USER_STACK_TOP := by decide

/-- The strings are below the end of the pages, and so are the two tops. -/
structure Pushed (pages : ℕ) (m : Bytes) (tops : Tops) (strs : List (List UInt8)) : Prop where
  tops : tops = ⟨pages + 4 * PAGE_SIZE - (block strs).length, USER_STACK_TOP - (block strs).length⟩
  shows : Shows m (pages + 4 * PAGE_SIZE - (block strs).length) (block strs)

theorem pushed_nil (pages : ℕ) (m : Bytes) :
    Pushed pages m ⟨pages + 4 * PAGE_SIZE, USER_STACK_TOP⟩ [] :=
  ⟨rfl, Bytes.shows_nil _ _⟩

theorem Given.entry (h : Given inside m array strs) : ∀ i str, strs[i]? = some str →
    Text inside m (m.read 4 (array + 4 * i)) str := by
  intro i str hi
  rcases h with ⟨-, rfl⟩ | ⟨-, htable⟩
  · cases hi
  · exact (htable.entry i str hi).2

theorem Given.slots (h : Given inside m array strs) :
    ∀ j < 4 * strs.length, inside (array + j) := by
  intro j hj
  rcases h with ⟨-, rfl⟩ | ⟨-, htable⟩
  · cases hj
  · exact htable.slots j (by omega)

/-- The strings of an array, and their addresses with a null pointer behind them. -/
theorem Given.returns_pushLoop (h : Given (Apart pages argvk) m array strs)
    (harea : Area pages argvk) (hpushed : Pushed pages m tops strs')
    (hroom : (block (strs ++ strs')).length ≤ 4 * PAGE_SIZE)
    (hnull : Shows m (arrayk + 4 * strs.length) (le 4 0)) (hlo : argvk ≤ arrayk)
    (hhi : arrayk + 4 * (strs.length + 1) ≤ argvk + PAGE_SIZE) :
    Returns (pushLoop array arrayk strs.length tops) (fun tops' m' =>
      Pushed pages m' tops' (strs ++ strs') ∧
      Shows m' arrayk
        ((addrs (USER_STACK_TOP - (block strs').length) strs ++ [0]).flatMap (le 4)) ∧
      ∀ a, (a < pages ∨ pages + 4 * PAGE_SIZE ≤ a) →
        (a < arrayk ∨ arrayk + 4 * strs.length ≤ a) → m' a = m a) m := by
  have hstack := pages_le_stack
  have hdisj := harea.disjoint
  have hlen : (block (strs ++ strs')).length = (block strs).length + (block strs').length := by
    rw [block_append, List.length_append]
  rw [hlen] at hroom
  rw [hpushed.tops]
  refine returns_mono (Arguments.returns_pushLoop harea h.entry h.slots (by omega) (by omega)
    (by omega) (by omega) hlo (by omega)) ?_
  rintro _ m' ⟨rfl, hstrs, harray, hframe⟩
  have hk : pages + 4 * PAGE_SIZE - (block strs').length - (block strs).length =
      pages + 4 * PAGE_SIZE - ((block strs).length + (block strs').length) := by omega
  have hu : USER_STACK_TOP - (block strs').length - (block strs).length =
      USER_STACK_TOP - ((block strs).length + (block strs').length) := by omega
  have hat : pages + 4 * PAGE_SIZE - ((block strs).length + (block strs').length) +
      (block strs).length = pages + 4 * PAGE_SIZE - (block strs').length := by omega
  rw [hk] at hstrs hframe
  refine ⟨⟨?_, ?_⟩, ?_, fun a ha ha' => hframe a (by omega) ha'⟩
  · rw [hlen, hk, hu]
  · rw [hlen, block_append, Bytes.shows_append, hat]
    refine ⟨hstrs, hpushed.shows.congr fun a ha hlt => hframe a (by omega) (by omega)⟩
  · rw [List.flatMap_append, Bytes.shows_append, Bytes.length_flatMap_le, length_addrs,
      List.flatMap_singleton]
    refine ⟨harray, hnull.congr fun a ha hlt => hframe a ?_ (by omega)⟩
    rw [Bytes.length_le] at hlt
    omega

/-- The strings, `filename` first, and the two arrays. -/
theorem returns_pushStrings (harea : Area pages argvk)
    (hname : Text (Apart pages argvk) m filename name)
    (hargv : Given (Apart pages argvk) m argv args)
    (henvp : Given (Apart pages argvk) m envp envs)
    (hslots : 4 * (args.length + envs.length + 3) ≤ PAGE_SIZE)
    (hroom : (block (name :: (args ++ envs))).length ≤ 4 * PAGE_SIZE)
    (henvpk : envpk = argvk + 4 * (args.length + 2)) :
    Returns (pushStrings (pages + 4 * PAGE_SIZE) argvk envpk filename argv envp (args.length + 1)
      envs.length) (fun tops m' => Pushed pages m' tops (name :: (args ++ envs)) ∧
        Shows m' argvk
          ((addrs (USER_STACK_TOP - (block envs).length) (name :: args) ++ [0]).flatMap (le 4)) ∧
        Shows m' envpk ((addrs USER_STACK_TOP envs ++ [0]).flatMap (le 4))) m := by
  have hkernel := kernel_memory_le
  have hpages := harea.pages_le
  have hargvk := harea.argvk_le
  have hdisj := harea.disjoint
  have hstack := pages_le_stack
  have hhead : ∀ strs, block (name :: strs) = (name ++ [0]) ++ block strs := fun _ => rfl
  have hsize : (name ++ [0]).length = name.length + 1 := by simp
  have hlen : (block (name :: (args ++ envs))).length =
      name.length + 1 + (block (args ++ envs)).length := by
    rw [hhead, List.length_append, hsize]
  have happend : (block (args ++ envs)).length = (block args).length + (block envs).length := by
    rw [block_append, List.length_append]
  have hnullargv : u32 (argvk + 4 * (args.length + 1)) = argvk + 4 * (args.length + 1) :=
    Nat.mod_eq_of_lt (by omega)
  have hnullenvp : u32 (envpk + 4 * envs.length) = envpk + 4 * envs.length :=
    Nat.mod_eq_of_lt (by omega)
  have hfirst : u32 (argvk + 4) = argvk + 4 := Nat.mod_eq_of_lt (by omega)
  unfold pushStrings
  rw [hnullargv, hnullenvp, hfirst, Nat.add_sub_cancel]
  refine returns_bind (returns_mono (returns_storeLe m 4 _ 0) ?_)
  rintro _ m₁ ⟨hnull₁, hwithin₁⟩
  refine returns_bind (returns_mono (returns_storeLe m₁ 4 _ 0) ?_)
  rintro _ m₂ ⟨hnull₂, hwithin₂⟩
  have hsame₂ : ∀ a, Apart pages argvk a → m₂ a = m a := by
    intro a ha
    unfold Apart at ha
    rw [hwithin₂ a (by omega), hwithin₁ a (by omega)]
  refine returns_bind (returns_mono ((henvp.congr hsame₂).returns_pushLoop harea (pushed_nil _ _)
    (by rw [List.append_nil]; omega) hnull₂ (by omega) (by omega)) ?_)
  rintro tops₃ m₃ ⟨hpushed₃, henvs₃, hframe₃⟩
  rw [List.append_nil] at hpushed₃
  have hsame₃ : ∀ a, Apart pages argvk a → m₃ a = m a := by
    intro a ha
    rw [← hsame₂ a ha]
    unfold Apart at ha
    exact hframe₃ a (by omega) (by omega)
  have hnull₃ : Shows m₃ (argvk + 4 + 4 * args.length) (le 4 0) := by
    have hat : argvk + 4 * (args.length + 1) = argvk + 4 + 4 * args.length := by omega
    rw [hat] at hnull₁ hwithin₁
    refine (hwithin₂.shows hnull₁ (by rw [Bytes.length_le]; omega)).congr fun a ha hlt => ?_
    rw [Bytes.length_le] at hlt
    exact hframe₃ a (by omega) (by omega)
  refine returns_bind (returns_mono ((hargv.congr hsame₃).returns_pushLoop harea hpushed₃
    (by omega) hnull₃ (by omega) (by omega)) ?_)
  rintro tops₄ m₄ ⟨hpushed₄, hargs₄, hframe₄⟩
  have hsame₄ : ∀ a, Apart pages argvk a → m₄ a = m a := by
    intro a ha
    rw [← hsame₃ a ha]
    unfold Apart at ha
    exact hframe₄ a (by omega) (by omega)
  rw [hpushed₄.tops]
  refine returns_bind (returns_mono ((hname.congr hsame₄).returns_pushString harea (by omega)
    (by omega) (by omega) (by omega)) ?_)
  rintro _ m₅ ⟨rfl, hname₅, hwithin₅⟩
  refine returns_bind (returns_mono (returns_storeLe m₅ 4 _ _) ?_)
  rintro _ m₆ ⟨haddr₆, hwithin₆⟩
  refine returns_pure ⟨⟨?_, ?_⟩, ?_, ?_⟩
  · rw [hlen, Nat.sub_sub, Nat.sub_sub, Nat.add_comm (block (args ++ envs)).length]
  · have hk : pages + 4 * PAGE_SIZE - (block (args ++ envs)).length - (name.length + 1) =
        pages + 4 * PAGE_SIZE - (block (name :: (args ++ envs))).length := by omega
    have hat : pages + 4 * PAGE_SIZE - (block (name :: (args ++ envs))).length + (name.length + 1) =
        pages + 4 * PAGE_SIZE - (block (args ++ envs)).length := by omega
    rw [hk] at hname₅ hwithin₅
    rw [hhead, Bytes.shows_append, ← hhead, hsize, hat]
    refine ⟨hwithin₆.shows hname₅ (by rw [hsize]; omega), ?_⟩
    exact hwithin₆.shows (hwithin₅.shows hpushed₄.shows (by omega)) (by omega)
  · have hfirst : (block (name :: args)).length = name.length + 1 + (block args).length := by
      rw [hhead, List.length_append, hsize]
    have hu : USER_STACK_TOP - (block (args ++ envs)).length - (name.length + 1) =
        USER_STACK_TOP - (block envs).length - (block (name :: args)).length := by omega
    have hout := length_array (USER_STACK_TOP - (block envs).length) args
    rw [hu] at haddr₆
    rw [addrs_cons, List.cons_append, List.flatMap_cons, Bytes.shows_append, Bytes.length_le]
    refine ⟨haddr₆, hwithin₆.shows (hwithin₅.shows hargs₄ ?_) (by omega)⟩
    rw [hout]
    omega
  · have hout := length_array USER_STACK_TOP envs
    refine hwithin₆.shows (hwithin₅.shows (henvs₃.congr fun a ha hlt => ?_) ?_) (by omega)
    · have hlt : a < envpk + 4 * (envs.length + 1) := hout ▸ hlt
      exact hframe₄ a (by omega) (by omega)
    · rw [hout]
      omega

/-! ## The whole block -/

theorem wordBytes_eq (v : ℕ) : wordBytes v = le 4 v := by
  simp [wordBytes, le, Nat.div_div_eq_div_mul]

theorem argBlock_eq (name : List UInt8) (args envs : List (List UInt8)) :
    argBlock name args envs = le 4 (args.length + 1) ++
      (addrs (USER_STACK_TOP - (block envs).length) (name :: args) ++ [0]).flatMap (le 4) ++
      (addrs USER_STACK_TOP envs ++ [0]).flatMap (le 4) ++ block (name :: (args ++ envs)) := by
  have hwords : wordBytes = le 4 := funext wordBytes_eq
  have hlen : (addrs (USER_STACK_TOP - (block envs).length) (name :: args)).length =
      args.length + 1 := by simp
  have hsplit : (Execve.pushStrings USER_STACK_TOP (name :: (args ++ envs))).1 =
      addrs (USER_STACK_TOP - (block envs).length) (name :: args) ++ addrs USER_STACK_TOP envs :=
    addrs_append USER_STACK_TOP (name :: args) envs
  unfold argBlock
  simp only [hwords, List.cons_append, hsplit, pushStrings_snd]
  rw [← hlen, List.take_left, List.drop_left]

/-- An array goes from its page to the others. -/
theorem returns_pushArray (harea : Area pages argvk) (h : Shows m array str) (hlo : argvk ≤ array)
    (hhi : array + str.length ≤ argvk + PAGE_SIZE) (hroom : pages + str.length ≤ ktop)
    (hktop : ktop ≤ pages + 4 * PAGE_SIZE) :
    Returns (pushArray array str.length ktop) (fun r m' => r = ktop - str.length ∧
      Shows m' (ktop - str.length) str ∧ Within (ktop - str.length) ktop m m') m := by
  have hkernel := kernel_memory_le
  have hpages := harea.pages_le
  have hargvk := harea.argvk_le
  have hdisj := harea.disjoint
  have hback : back ktop str.length = ktop - str.length := back_eq (by omega) (by omega)
  have hcopy := returns_memcpy (ktop - str.length) h (by omega) (by omega) (by omega)
  rw [Nat.sub_add_cancel (by omega)] at hcopy
  unfold pushArray
  rw [hback]
  exact returns_bind (returns_mono hcopy fun _ m' hm => returns_pure ⟨rfl, hm⟩)

theorem returns_pushArrays {avs evs : List UInt8} {argc envc : ℕ} (harea : Area pages argvk)
    (hargv : Shows m argvk avs) (hargc : avs.length = (argc + 1) * 4) (henvp : Shows m envpk evs)
    (henvc : evs.length = (envc + 1) * 4) (henvpk : argvk + avs.length = envpk)
    (hslots : envpk + evs.length ≤ argvk + PAGE_SIZE) (hstrs : Shows m ktop str)
    (hktop : ktop + str.length ≤ pages + 4 * PAGE_SIZE)
    (hroom : pages + (4 + avs.length + evs.length) ≤ ktop) :
    Returns (pushArrays argvk envpk argc envc ktop) (fun r m' =>
      r = ktop - (4 + avs.length + evs.length) ∧
      Shows m' (ktop - (4 + avs.length + evs.length)) (le 4 argc ++ avs ++ evs ++ str)) m := by
  have hkernel := kernel_memory_le
  have hpages := harea.pages_le
  have hdisj := harea.disjoint
  unfold pushArrays
  rw [← hargc, ← henvc]
  refine returns_bind (returns_mono (returns_pushArray harea henvp (by omega) hslots (by omega)
    (by omega)) ?_)
  rintro _ m₁ ⟨rfl, henvp₁, hwithin₁⟩
  refine returns_bind (returns_mono (returns_pushArray harea (hwithin₁.shows hargv (by omega))
    le_rfl (by omega) (by omega) (by omega)) ?_)
  rintro _ m₂ ⟨rfl, hargv₂, hwithin₂⟩
  have hback : back (ktop - evs.length - avs.length) 4 =
      ktop - (4 + avs.length + evs.length) := by
    rw [back_eq (by omega) (by omega)]
    omega
  rw [hback]
  refine returns_bind (returns_mono (returns_storeLe m₂ 4 _ argc) ?_)
  rintro _ m₃ ⟨hargc₃, hwithin₃⟩
  refine returns_pure ⟨rfl, ?_⟩
  have hat₁ : ktop - (4 + avs.length + evs.length) + 4 = ktop - evs.length - avs.length := by omega
  have hat₂ : ktop - evs.length - avs.length + avs.length = ktop - evs.length := by omega
  have hat₃ : ktop - evs.length + evs.length = ktop := by omega
  have hargv₃ := hwithin₃.shows hargv₂ (by omega)
  have henvp₃ := hwithin₃.shows (hwithin₂.shows henvp₁ (by omega)) (by omega)
  have hstrs₃ := hwithin₃.shows (hwithin₂.shows (hwithin₁.shows hstrs (by omega)) (by omega))
    (by omega)
  rw [List.append_assoc, List.append_assoc, Bytes.shows_append, Bytes.length_le, hat₁,
    Bytes.shows_append, hat₂, Bytes.shows_append, hat₃]
  exact ⟨hargc₃, hargv₃, henvp₃, hstrs₃⟩

theorem returns_toUser (h : Shows m ktop str) (hend : ktop + str.length ≤ KERNEL_MEMORY_SIZE)
    (hlen : str.length ≤ 4 * PAGE_SIZE) :
    Returns (toUser (ktop + str.length) ktop) (fun r m' => r = USER_STACK_TOP - str.length ∧
      Shows m' (USER_STACK_TOP - str.length) str) m := by
  have hkernel := kernel_memory_le
  have hstack := user_stack_le
  have hapart : KERNEL_MEMORY_SIZE + 4 * PAGE_SIZE ≤ USER_STACK_TOP := by decide
  have hback : back (ktop + str.length) ktop = str.length := by
    rw [back_eq (by omega) (by omega)]
    omega
  have hutop : back USER_STACK_TOP str.length = USER_STACK_TOP - str.length :=
    back_eq (by omega) (by omega)
  have hcopy := returns_memcpy (USER_STACK_TOP - str.length) h (by omega) (by omega)
    (by omega)
  unfold toUser
  rw [hback, hutop]
  exact returns_bind (returns_mono hcopy fun _ m' hm => returns_pure ⟨rfl, hm.1⟩)

/-! ## The whole call -/

/-- A call of `copy_argv_envp`: its strings and arrays are not in the pages that the kernel
allocates for it, the pointers fit into a page, and `ktop` ends up above `pages`. -/
structure Call (m : Bytes) (pages argvk filename argv envp : ℕ) (name : List UInt8)
    (args envs : List (List UInt8)) : Prop where
  area : Area pages argvk
  text : Text (Apart pages argvk) m filename name
  args_given : Given (Apart pages argvk) m argv args
  envs_given : Given (Apart pages argvk) m envp envs
  slots : args.length + envs.length + 3 ≤ 1024
  room : pages < pages + 4 * PAGE_SIZE - (argBlock name args envs).length

theorem Call.returns_copyArgvEnvp (h : Call m pages argvk filename argv envp name args envs) :
    Returns (copyArgvEnvp pages argvk filename argv envp) (fun top m' =>
      top = USER_STACK_TOP - (argBlock name args envs).length ∧
      Shows m' (USER_STACK_TOP - (argBlock name args envs).length)
        (argBlock name args envs)) m := by
  have hkernel := kernel_memory_le
  have hpages := h.area.pages_le
  have hargvk := h.area.argvk_le
  have hroom := h.room
  have hslots := h.slots
  have hpage : PAGE_SIZE = 4 * 1024 := rfl
  have hnul : ∀ top strs, ((addrs top strs ++ [0]).flatMap (le 4)).length = (strs.length + 1) * 4 :=
    fun top strs => by rw [length_array, Nat.mul_comm]
  have hlen : (argBlock name args envs).length = 4 + (args.length + 1 + 1) * 4 +
      (envs.length + 1) * 4 + (block (name :: (args ++ envs))).length := by
    simp only [argBlock_eq, List.length_append, Bytes.length_le, hnul, List.length_cons]
  have henvpk : u32 (argvk + 4 * (args.length + 1 + 1)) = argvk + 4 * (args.length + 2) :=
    Nat.mod_eq_of_lt (by omega)
  unfold copyArgvEnvp
  refine returns_bind (returns_mono (h.args_given.returns_countArgv fun a ha => ha.1) ?_)
  rintro _ _ ⟨rfl, rfl⟩
  refine returns_bind (returns_mono (h.envs_given.returns_countArgv fun a ha => ha.1) ?_)
  rintro _ _ ⟨rfl, rfl⟩
  rw [henvpk]
  refine returns_bind (returns_mono (returns_pushStrings h.area h.text h.args_given h.envs_given
    (by omega) (by omega) rfl) ?_)
  rintro tops m₁ ⟨hpushed, hargv, henvp⟩
  have hk : pages + 4 * PAGE_SIZE - (block (name :: (args ++ envs))).length - (4 +
      ((addrs (USER_STACK_TOP - (block envs).length) (name :: args) ++ [0]).flatMap (le 4)).length +
      ((addrs USER_STACK_TOP envs ++ [0]).flatMap (le 4)).length) =
      pages + 4 * PAGE_SIZE - (argBlock name args envs).length := by
    rw [hnul, hnul, List.length_cons]
    omega
  have hend : pages + 4 * PAGE_SIZE - (argBlock name args envs).length +
      (argBlock name args envs).length = pages + 4 * PAGE_SIZE := by omega
  rw [hpushed.tops]
  dsimp only
  refine returns_bind (returns_mono (returns_pushArrays h.area hargv (hnul _ _) henvp (hnul _ _)
    (by rw [hnul, List.length_cons]; omega) (by rw [hnul]; omega) hpushed.shows (by omega)
    (by rw [hnul, hnul, List.length_cons]; omega)) ?_)
  rintro _ m₂ ⟨rfl, hshows⟩
  rw [← argBlock_eq, hk] at hshows
  rw [hk]
  have huser := returns_toUser hshows (by omega) (by omega)
  rw [hend] at huser
  exact returns_bind (returns_check hroom huser)

end Ylos.Arguments
