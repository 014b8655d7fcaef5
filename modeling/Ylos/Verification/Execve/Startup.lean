import Ylos.Verification.Execve.Arguments

/-! # What `main` gets of the arguments -/

namespace Ylos.Arguments

open Exec Ram
open Bytes (Shows Str le)
open Memory (PAGE_SIZE USER_STACK_TOP)
open Execve (argBlock)

variable {m m' : Bytes} {i k array pages argvk top esp : ℕ} {filename argv envp : ℕ} {crt : Crt}
  {name str : List UInt8} {strs args envs : List (List UInt8)}

/-! ## The strings of a block -/

theorem block_cons (str : List UInt8) (strs : List (List UInt8)) :
    block (str :: strs) = str ++ [0] ++ block strs := rfl

theorem exists_addr (hshows : Shows m (top - (block strs).length) (block strs))
    (hle : (block strs).length ≤ top) (hi : strs[i]? = some str) :
    ∃ p, (addrs top strs)[i]? = some p ∧ top - (block strs).length ≤ p ∧ p + str.length < top ∧
      Str m p str := by
  induction strs generalizing i with
  | nil => cases hi
  | cons first strs ih =>
      have hlen : (block (first :: strs)).length = first.length + 1 + (block strs).length := by
        rw [block_cons, List.length_append, List.length_append, List.length_singleton]
      rw [addrs_cons]
      rw [hlen] at hle hshows ⊢
      rw [block_cons, Bytes.shows_append] at hshows
      cases i with
      | zero =>
          rw [List.getElem?_cons_zero] at hi
          cases hi
          exact ⟨_, rfl, le_rfl, by omega, Bytes.str_iff.mpr hshows.1⟩
      | succ i =>
          rw [List.getElem?_cons_succ] at hi ⊢
          have hat : top - (first.length + 1 + (block strs).length) + (first ++ [0]).length =
              top - (block strs).length := by
            simp only [List.length_append, List.length_singleton]
            omega
          rw [hat] at hshows
          obtain ⟨p, hp, hlo, hhi, hstr⟩ := ih hshows.2 (by omega) hi
          exact ⟨p, hp, by omega, hhi, hstr⟩

/-- An address of the block at the top of the user stack. -/
def Inside (top a : ℕ) : Prop := top ≤ a ∧ a < USER_STACK_TOP

/-- The addresses, a null pointer behind them, and the strings make a table. -/
theorem table_of_shows {lo : ℕ} (harray : Shows m array ((addrs top strs ++ [0]).flatMap (le 4)))
    (hstrs : Shows m (top - (block strs).length) (block strs)) (hlive : ∀ str ∈ strs, 0 ∉ str)
    (hlo : 0 < lo) (hle : lo + (block strs).length ≤ top) (htop : top ≤ USER_STACK_TOP)
    (hfirst : lo ≤ array) (hlast : array + 4 * (strs.length + 1) ≤ USER_STACK_TOP) :
    Table (Inside lo) m array strs := by
  have hstack := user_stack_le
  refine ⟨fun i str hi => ?_, ?_, fun j hj => ⟨by omega, by omega⟩⟩
  · obtain ⟨p, hp, hlow, hhigh, hstr⟩ := exists_addr hstrs (by omega) hi
    have hi' : (addrs top strs ++ [0])[i]? = some p := by
      rw [List.getElem?_append_left (List.getElem?_eq_some_iff.mp hp).1]
      exact hp
    have hread : m.read 4 (array + 4 * i) = p := harray.read_flatMap hi' (by omega)
    rw [hread]
    exact ⟨by omega, hstr, hlive _ (List.mem_of_getElem? hi), fun j hj => ⟨by omega, by omega⟩⟩
  · have hi : (addrs top strs ++ [0])[strs.length]? = some 0 := by
      rw [List.getElem?_append_right (length_addrs _ _).le, length_addrs, Nat.sub_self]
      rfl
    exact harray.read_flatMap hi (by decide)

/-! ## The start of the program -/

theorem returns_pushAll {values : List ℕ} (hle : 4 * values.length ≤ esp) (hlt : esp < 2 ^ 32) :
    Returns (pushAll values esp) (fun r m' => r = esp - 4 * values.length ∧
      Shows m' (esp - 4 * values.length) (values.reverse.flatMap (le 4)) ∧
      ∀ a, esp ≤ a → m' a = m a) m := by
  induction values generalizing esp m with
  | nil => exact returns_pure ⟨rfl, Bytes.shows_nil _ _, fun _ _ => rfl⟩
  | cons value values ih =>
      rw [List.length_cons] at hle ⊢
      have hback : back esp 4 = esp - 4 := back_eq (by omega) hlt
      have hat : esp - 4 - 4 * values.length = esp - 4 * (values.length + 1) := by omega
      unfold pushAll push
      rw [hback]
      refine returns_bind (returns_bind (returns_mono (returns_storeLe m 4 _ value) ?_))
      rintro _ m₁ ⟨hvalue, hwithin⟩
      refine returns_pure (returns_mono (ih (m := m₁) (by omega) (by omega)) ?_)
      rintro _ m₂ ⟨rfl, hvalues, hframe⟩
      rw [hat] at hvalues
      refine ⟨hat, ?_, fun a ha => ?_⟩
      · rw [List.reverse_cons, List.flatMap_append, Bytes.shows_append, Bytes.length_flatMap_le,
          List.length_reverse, List.flatMap_singleton]
        refine ⟨hvalues, ?_⟩
        have hplace : esp - 4 * (values.length + 1) + 4 * values.length = esp - 4 := by omega
        rw [hplace]
        exact hvalue.congr fun a ha _ => hframe a ha
      · rw [hframe a (by omega), hwithin a (by omega)]

/-- `main` gets `argc`, `argv` right behind it, and `envp` behind that; nothing above the address of
`argv` changes. -/
theorem returns_start {argc : ℕ} (hargc : m.read 4 top = argc) (hlo : 64 ≤ top)
    (hhi : top + 4 * (argc + 2) < 2 ^ 32) :
    Returns (start crt top) (fun entry m' => entry = ⟨argc, top + 4, top + 4 + 4 * (argc + 1)⟩ ∧
      ∀ a, top + 4 ≤ a → m' a = m a) m := by
  have hecx : u32 (top + 4) = top + 4 := Nat.mod_eq_of_lt (by omega)
  unfold start
  refine returns_bind_run (run_loadLe 4 top m) ?_
  have hesi : (ram m).read 4 top = argc := hargc
  rw [hesi, hecx]
  dsimp only
  refine returns_bind (returns_mono (returns_pushAll (m := m) (by simp; omega) (by omega)) ?_)
  rintro sp m₁ ⟨hsp, hvalues, hframe⟩
  rw [← hsp] at hvalues
  have hlen : sp = (top + 4) / 16 * 16 - 4 * 9 := hsp
  have hargc₁ : (ram m₁).read 4 (sp + 4 * 2) = argc := hvalues.read_flatMap rfl (by omega)
  have hargv₁ : (ram m₁).read 4 (sp + 4 * 3) = top + 4 := hvalues.read_flatMap rfl (by omega)
  have hat₂ : u32 (sp + 8) = sp + 4 * 2 := Nat.mod_eq_of_lt (by omega)
  have hat₃ : u32 (sp + 12) = sp + 4 * 3 := Nat.mod_eq_of_lt (by omega)
  have henvp : u32 (top + 4 + 4 * (argc + 1)) = top + 4 + 4 * (argc + 1) :=
    Nat.mod_eq_of_lt (by omega)
  unfold libcStartMain
  rw [hat₂, hat₃]
  refine returns_bind_run (run_loadLe 4 _ m₁) (returns_bind_run (run_loadLe 4 _ m₁) ?_)
  rw [hargc₁, hargv₁, henvp]
  exact returns_pure ⟨rfl, fun a ha => hframe a (by omega)⟩

/-! ## From `execve` to `main` -/

/-- What the new program has: all its arguments, byte for byte, between `top` and the top of the
user stack. -/
structure Decoded (top : ℕ) (m : Bytes) (name : List UInt8) (args envs : List (List UInt8))
    (entry : Entry) : Prop where
  argc : entry.argc = args.length + 1
  argv : entry.argv = top + 4
  envp : entry.envp = entry.argv + 4 * (entry.argc + 1)
  arguments : Table (Inside top) m entry.argv (name :: args)
  environment : Table (Inside top) m entry.envp envs

/-- The block is decoded to what it is made of. -/
theorem returns_start_block (hshows : Shows m top (argBlock name args envs))
    (htop : top + (argBlock name args envs).length = USER_STACK_TOP) (hlo : 64 ≤ top)
    (hcount : args.length + 1 < 2 ^ 32) (hname : 0 ∉ name) (hargs : ∀ str ∈ args, 0 ∉ str)
    (henvs : ∀ str ∈ envs, 0 ∉ str) (crt : Crt) :
    Returns (start crt top) (fun entry m' => Decoded top m' name args envs entry) m := by
  have hstack := user_stack_le
  have hlen := congrArg List.length (argBlock_eq name args envs)
  simp only [List.length_append, Bytes.length_le, length_array, List.length_cons] at hlen
  have hsplit : block (name :: (args ++ envs)) = block (name :: args) ++ block envs :=
    block_append (name :: args) envs
  rw [hsplit, List.length_append] at hlen
  rw [argBlock_eq, hsplit] at hshows
  obtain ⟨hhead, hstrs⟩ := Bytes.shows_append.mp hshows
  obtain ⟨hleft, henvp⟩ := Bytes.shows_append.mp hhead
  obtain ⟨hargc, hargv⟩ := Bytes.shows_append.mp hleft
  simp only [List.length_append, Bytes.length_le, length_array, List.length_cons] at hargv henvp
  have hat : top + (le 4 (args.length + 1) ++
      (addrs (USER_STACK_TOP - (block envs).length) (name :: args) ++ [0]).flatMap (le 4) ++
      (addrs USER_STACK_TOP envs ++ [0]).flatMap (le 4)).length =
      USER_STACK_TOP - (block envs).length - (block (name :: args)).length := by
    simp only [List.length_append, Bytes.length_le, length_array, List.length_cons]
    omega
  have hat' : USER_STACK_TOP - (block envs).length - (block (name :: args)).length +
      (block (name :: args)).length = USER_STACK_TOP - (block envs).length := by omega
  rw [hat] at hstrs
  obtain ⟨hnames, henvstrs⟩ := Bytes.shows_append.mp hstrs
  rw [hat'] at henvstrs
  refine returns_mono (returns_start (hargc.read (by omega)) hlo (by omega)) ?_
  rintro _ m' ⟨rfl, hframe⟩
  have hlive : ∀ str ∈ name :: args, 0 ∉ str := by
    intro str hmem
    rcases List.mem_cons.mp hmem with rfl | hmem
    · exact hname
    · exact hargs str hmem
  refine ⟨rfl, rfl, rfl, ?_, ?_⟩
  · exact table_of_shows (hargv.congr fun a ha _ => hframe a ha)
      (hnames.congr fun a ha _ => hframe a (by omega)) hlive (by omega) (by omega) (by omega)
      (by dsimp only; omega) (by rw [List.length_cons]; dsimp only; omega)
  · have henvp_at : top + 4 + 4 * (args.length + 1 + 1) =
        top + (4 + 4 * (args.length + 1 + 1)) := by omega
    dsimp only
    rw [henvp_at]
    exact table_of_shows (henvp.congr fun a ha _ => hframe a (by omega))
      (henvstrs.congr fun a ha _ => hframe a (by omega)) henvs (by omega) (by omega) le_rfl
      (by omega) (by omega)

theorem Given.live {inside : ℕ → Prop} (h : Given inside m array strs) : ∀ str ∈ strs, 0 ∉ str := by
  intro str hmem
  obtain ⟨i, hi⟩ := List.mem_iff_getElem?.mp hmem
  exact (h.entry i str hi).live

/-- The arguments survive `execve`, whatever happens outside of the block before the program
starts. -/
theorem decoded_copyArgvEnvp (h : Call m pages argvk filename argv envp name args envs) :
    Returns (copyArgvEnvp pages argvk filename argv envp) (fun top m₁ =>
      ∀ m₂ crt, (∀ a, Inside top a → m₂ a = m₁ a) →
        Returns (start crt top) (fun entry m₃ => Decoded top m₃ name args envs entry) m₂) m := by
  have hslots := h.slots
  have hroom := h.room
  have hsize : (argBlock name args envs).length < 4 * PAGE_SIZE := by omega
  have hstack : 64 + 4 * PAGE_SIZE ≤ USER_STACK_TOP := by decide
  refine returns_mono h.returns_copyArgvEnvp ?_
  rintro _ m₁ ⟨rfl, hshows⟩ m₂ crt hsame
  refine returns_start_block (hshows.congr fun a ha hlt => hsame a ⟨ha, by omega⟩) (by omega)
    (by omega) (by omega) h.text.live h.args_given.live h.envs_given.live crt

/-- A program `a` with an empty argument, whose array is at `0x2000010`. -/
def sample : Bytes := fun a =>
  if a = 0x2000000 then 97 else if a = 0x2000011 then 1 else if a = 0x2000013 then 2 else 0

theorem call_sample : Call sample 0x100000 0x110000 0x2000000 0x2000010 0 [97] [[]] [] where
  area := ⟨by decide, by decide, by decide⟩
  text := ⟨by decide, by decide, by decide⟩
  args_given := by
    refine .inr ⟨by decide, fun i str hi => ?_, by decide, by decide⟩
    match i with
    | 0 =>
        cases hi
        exact ⟨by decide, by decide, by decide, by decide⟩
    | i + 1 => cases hi
  envs_given := .inl ⟨rfl, rfl⟩
  slots := by decide
  room := by decide

theorem decoded_sample :
    Returns (copyArgvEnvp 0x100000 0x110000 0x2000000 0x2000010 0) (fun top m₁ =>
      ∀ m₂ crt, (∀ a, Inside top a → m₂ a = m₁ a) →
        Returns (start crt top) (fun entry m₃ => Decoded top m₃ [97] [[]] [] entry) m₂) sample :=
  decoded_copyArgvEnvp call_sample

end Ylos.Arguments
