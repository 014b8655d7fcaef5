import Ylos.Lib.Bytes
import Ylos.Lib.Exec
import Mathlib.Logic.Function.Basic

/-! # Code over byte memory

The state has a byte memory somewhere, and every byte that is loaded or stored is an event. -/

namespace Ylos

namespace Bytes

@[simp] theorem copy_zero (m : Bytes) (o : ℕ) (f : ℕ → UInt8) : copy m o 0 f = m := by
  funext i
  exact copy_apply_of_lt (by omega)

theorem copy_congr {m : Bytes} {o w : ℕ} {f g : ℕ → UInt8} (h : ∀ k < w, f k = g k) :
    copy m o w f = copy m o w g := by
  funext i
  unfold copy
  split
  · exact h _ (by omega)
  · rfl

/-- The first byte and the others. -/
theorem copy_succ (m : Bytes) (o w : ℕ) (f : ℕ → UInt8) :
    copy m o (w + 1) f = copy (Function.update m o (f 0)) (o + 1) w fun k => f (k + 1) := by
  funext i
  unfold copy
  by_cases hi : i = o
  · rw [hi, if_pos (by omega), if_neg (by omega), Function.update_self, Nat.sub_self]
  · by_cases hin : o + 1 ≤ i ∧ i < o + 1 + w
    · rw [if_pos (by omega), if_pos hin]
      congr 1
      omega
    · rw [if_neg (by omega), if_neg hin, Function.update_of_ne hi]

/-- Two adjacent stretches are one. -/
theorem copy_append (m : Bytes) (o w w' : ℕ) (f : ℕ → UInt8) :
    copy m o (w + w') f = copy (copy m o w f) (o + w) w' fun k => f (w + k) := by
  funext i
  unfold copy
  by_cases hin : o + w ≤ i ∧ i < o + w + w'
  · rw [if_pos (by omega), if_pos hin]
    congr 1
    omega
  · rw [if_neg hin]
    congr 1
    exact propext (by omega)

end Bytes

namespace Exec

variable {σ ε ε' α : Type}

/-- The code with its events seen through `f`. -/
def tag (f : ε → ε') (x : Exec σ ε α) : Exec σ ε' α := fun s =>
  match x s with
  | .error e => .error e
  | .ok (a, s', l) => .ok (a, s', l.map f)

theorem run_tag {f : ε → ε'} {x : Exec σ ε α} {s s' : σ} {a : α} {l : List ε}
    (h : x.run s = .ok (a, s', l)) : (tag f x).run s = .ok (a, s', l.map f) := by
  change x s = _ at h
  change tag f x s = _
  simp only [tag, h]

end Exec

inductive Access where
  | load (addr : ℕ)
  | store (addr : ℕ)
  deriving DecidableEq, Repr

/-- A state with a byte memory. -/
class Ram (σ : Type) where
  ram : σ → Bytes
  withRam : σ → Bytes → σ
  ram_withRam : ∀ s m, ram (withRam s m) = m
  withRam_withRam : ∀ s m m', withRam (withRam s m) m' = withRam s m'
  withRam_ram : ∀ s, withRam s (ram s) = s

namespace Ram

attribute [simp] ram_withRam withRam_withRam withRam_ram

variable {σ : Type} [Ram σ] {s : σ}

instance : Ram Bytes where
  ram m := m
  withRam _ m := m
  ram_withRam _ _ := rfl
  withRam_withRam _ _ _ := rfl
  withRam_ram _ := rfl

def load (addr : ℕ) : Exec σ Access UInt8 := do
  Exec.note (.load addr)
  Exec.gets fun s => ram s addr

def store (addr : ℕ) (b : UInt8) : Exec σ Access Unit := do
  Exec.note (.store addr)
  Exec.modify fun s => withRam s (Function.update (ram s) addr b)

@[simp] theorem run_load (addr : ℕ) (s : σ) :
    (load addr).run s = .ok (ram s addr, s, [.load addr]) := rfl

@[simp] theorem run_store (addr : ℕ) (b : UInt8) (s : σ) :
    (store addr b).run s =
      .ok ((), withRam s (Function.update (ram s) addr b), [.store addr]) := rfl

/-- The number in the `w` bytes from `addr` on, the lowest first. -/
def loadLe : (w addr : ℕ) → Exec σ Access ℕ
  | 0, _ => pure 0
  | w + 1, addr => do
    let b ← load addr
    return b.toNat + 256 * (← loadLe w (addr + 1))

/-- Store the low `w` bytes of `v`, the lowest first. -/
def storeLe : (w : ℕ) → (addr v : ℕ) → Exec σ Access Unit
  | 0, _, _ => pure ()
  | w + 1, addr, v => do
    store addr (UInt8.ofNat v)
    storeLe w (addr + 1) (v / 256)

/-- Store `v` in `w` bytes, `n` times from `addr` on. -/
def fill (w v : ℕ) : (addr n : ℕ) → Exec σ Access Unit
  | _, 0 => pure ()
  | addr, n + 1 => do
    storeLe w addr v
    fill w v (addr + w) n

/-- Loads of the `n` bytes from `addr` on. -/
def loads (addr n : ℕ) : List Access := (List.range' addr n).map .load

theorem run_loadLe (w addr : ℕ) (s : σ) :
    (loadLe w addr).run s = .ok ((ram s).read w addr, s, loads addr w) := by
  induction w generalizing addr with
  | zero => rfl
  | succ w ih =>
      unfold loadLe
      rw [Exec.run_bind_ok _ (run_load addr s), Exec.run_bind_ok _ (ih (addr + 1))]
      simp [Bytes.read, loads, List.range'_succ]

/-- Stores to the `n` bytes from `addr` on. -/
def stores (addr n : ℕ) : List Access := (List.range' addr n).map .store

theorem mem_stores {addr n : ℕ} {a : Access} :
    a ∈ stores addr n ↔ ∃ p, addr ≤ p ∧ p < addr + n ∧ a = .store p := by
  unfold stores
  simp only [List.mem_map, List.mem_range'_1, and_assoc, eq_comm]

theorem run_storeLe (w addr v : ℕ) (s : σ) : (storeLe w addr v).run s =
    .ok ((), withRam s ((ram s).copy addr w fun k => UInt8.ofNat (v / 256 ^ k)), stores addr w) := by
  induction w generalizing addr v s with
  | zero => simp [storeLe, stores]
  | succ w ih =>
      have hcons : Bytes.copy (Function.update (ram s) addr (UInt8.ofNat v)) (addr + 1) w
          (fun k => UInt8.ofNat (v / 256 / 256 ^ k)) =
          (ram s).copy addr (w + 1) fun k => UInt8.ofNat (v / 256 ^ k) := by
        rw [Bytes.copy_succ]
        simp [Nat.div_div_eq_div_mul, pow_succ']
      unfold storeLe
      rw [Exec.run_bind_ok _ (run_store addr _ s), ih]
      simp [hcons, stores, List.range'_succ]

theorem run_fill (w v addr n : ℕ) (s : σ) : (fill w v addr n).run s =
    .ok ((), withRam s ((ram s).copy addr (w * n) fun k => UInt8.ofNat (v / 256 ^ (k % w))),
      stores addr (w * n)) := by
  induction n generalizing addr s with
  | zero => simp [fill, stores]
  | succ n ih =>
      have hfirst : (ram s).copy addr w (fun k => UInt8.ofNat (v / 256 ^ k)) =
          (ram s).copy addr w fun k => UInt8.ofNat (v / 256 ^ (k % w)) :=
        Bytes.copy_congr fun k hk => by rw [Nat.mod_eq_of_lt hk]
      have happend : Bytes.copy ((ram s).copy addr w fun k => UInt8.ofNat (v / 256 ^ k)) (addr + w)
          (w * n) (fun k => UInt8.ofNat (v / 256 ^ (k % w))) =
          (ram s).copy addr (w * (n + 1)) fun k => UInt8.ofNat (v / 256 ^ (k % w)) := by
        rw [hfirst, Nat.mul_succ, Nat.add_comm (w * n), Bytes.copy_append]
        simp
      have hstores : stores addr w ++ stores (addr + w) (w * n) = stores addr (w * (n + 1)) := by
        unfold stores
        rw [← List.map_append, List.range'_append_1, Nat.mul_succ, Nat.add_comm w]
      unfold fill
      rw [Exec.run_bind_ok _ (run_storeLe w addr v s), ih]
      simp only [ram_withRam, withRam_withRam, happend, hstores]

end Ram

end Ylos
