import Mathlib.Data.List.Basic
import Mathlib.Algebra.Order.Group.Nat
import Ylos.Model.Device

/-! # The table of devices is a list of installations

The `i`-th installation is device `i`, and `device_find` counts the installations of a subtype. -/

namespace Ylos.Devices

open Execve (strncpy)

variable {φ : Type} {s s₀ : Table φ} {log : List (Driver φ)} {driver : Driver φ}
  {subtype : Subtype} {idx nr i : ℕ} {is : List ℕ}

/-- The text in a field: what comes before its end. -/
def textOf (name : List UInt8) : List UInt8 := name.takeWhile (· ≠ 0)

/-- The device of a driver, with as much of the name as fits. -/
structure Shows (device : Device φ) (driver : Driver φ) : Prop where
  type : device.type = driver.type
  subtype : device.subtype = driver.subtype
  ptr : device.ptr = driver.ptr
  parent : device.parent = driver.parent
  ioctl : device.ioctl = driver.ioctl
  read : device.read = driver.read
  write : device.write = driver.write
  name : textOf device.name = driver.name.take (NAMELEN - 1)

/-- What a driver may install: a device of a type and of a subtype, with a name that is a string. -/
structure Driver.Proper (driver : Driver φ) : Prop where
  type : driver.type ≠ .null
  subtype : driver.subtype ≠ .null
  name : 0 ∉ driver.name

/-- The table holds the installations `log`. -/
structure Holds (s : Table φ) (log : List (Driver φ)) : Prop where
  room : log.length < DEVICE_NR
  proper : ∀ driver ∈ log, driver.Proper
  dev : ∀ i < DEVICE_NR, (s i).dev = i
  shows : ∀ i driver, log[i]? = some driver → Shows (s (i + 1)) driver
  free : ∀ i < DEVICE_NR, i = 0 ∨ log.length < i → (s i).type = .null ∧ (s i).subtype = .null

/-! ## Names -/

theorem textOf_append (name rest : List UInt8) (h : 0 ∉ name) :
    textOf (name ++ 0 :: rest) = name := by
  unfold textOf
  rw [List.takeWhile_append_of_pos]
  · simp
  · intro b hb
    exact decide_eq_true fun h0 => h (h0 ▸ hb)

theorem textOf_strncpy (dest name : List UInt8) (h : 0 ∉ name) :
    textOf (strncpy dest name NAMELEN) = name.take (NAMELEN - 1) := by
  unfold strncpy
  split_ifs with hshort
  · rw [textOf_append _ _ h, List.take_of_length_le (Nat.le_sub_one_of_lt hshort)]
  · exact textOf_append _ _ fun h0 => h (List.mem_of_mem_take h0)

theorem Driver.shows_store (h : driver.Proper) (device : Device φ) :
    Shows (driver.store device) driver :=
  ⟨rfl, rfl, rfl, rfl, rfl, rfl, rfl, textOf_strncpy _ _ h.name⟩

/-! ## `device_init` -/

theorem nullLoop_append {before after : List ℕ} (hbefore : ∀ j ∈ before, (s j).type ≠ .null)
    (h : (s i).type = .null) : nullLoop s (before ++ i :: after) = .ok i := by
  induction before with
  | nil => exact if_pos h
  | cons j before ih =>
      obtain ⟨hj, hrest⟩ := List.forall_mem_cons.mp hbefore
      exact (if_neg hj).trans (ih hrest)

/-- A device that is installed is not a null device. -/
theorem Holds.taken (h : Holds s log) (hpos : 1 ≤ i) (hi : i ≤ log.length) :
    ∃ driver, log[i - 1]? = some driver ∧ Shows (s i) driver ∧ (s i).type ≠ .null := by
  have hlt : i - 1 < log.length := by omega
  have hget := List.getElem?_eq_getElem hlt
  have hshows := h.shows (i - 1) _ hget
  rw [Nat.sub_add_cancel hpos] at hshows
  exact ⟨_, hget, hshows, hshows.type ▸ (h.proper _ (List.getElem_mem hlt)).type⟩

theorem Holds.getNullDevice (h : Holds s log) (hroom : log.length + 1 < DEVICE_NR) :
    getNullDevice s = .ok (log.length + 1) := by
  have hsplit : List.range' 1 (DEVICE_NR - 1) = List.range' 1 log.length ++
      (log.length + 1) :: List.range' (log.length + 2) (DEVICE_NR - 2 - log.length) := by
    have hnr : DEVICE_NR - 1 = log.length + (DEVICE_NR - 2 - log.length + 1) := by omega
    rw [hnr, ← List.range'_append_1, List.range'_succ, Nat.add_comm 1 log.length]
  unfold Devices.getNullDevice
  rw [hsplit]
  refine nullLoop_append (fun j hj => ?_) (h.free _ hroom (.inr (Nat.lt_succ_self _))).1
  obtain ⟨hpos, hlt⟩ := List.mem_range'_1.mp hj
  obtain ⟨-, -, -, htype⟩ := h.taken hpos (by omega)
  exact htype

/-- The next installation is the next device. -/
theorem Holds.deviceInstall (h : Holds s log) (hroom : log.length + 1 < DEVICE_NR)
    (hproper : driver.Proper) :
    ∃ s', deviceInstall driver s = .ok (log.length + 1, s') ∧ Holds s' (log ++ [driver]) := by
  have hdev := h.dev _ hroom
  refine ⟨Function.update s (log.length + 1) (driver.store (s (log.length + 1))), ?_, ?_⟩
  · unfold Devices.deviceInstall
    rw [h.getNullDevice hroom]
    change Except.ok ((s (log.length + 1)).dev, _) = _
    rw [hdev]
  · refine ⟨?_, fun d hd => ?_, fun i hi => ?_, fun i d hd => ?_, fun i hi hfree => ?_⟩
    · rw [List.length_append]
      exact hroom
    · obtain hold | hnew := List.mem_append.mp hd
      · exact h.proper d hold
      · rw [List.mem_singleton.mp hnew]
        exact hproper
    · by_cases hlast : i = log.length + 1
      · subst hlast
        rw [Function.update_self]
        exact hdev
      · rw [Function.update_of_ne hlast]
        exact h.dev i hi
    · by_cases hlast : i = log.length
      · subst hlast
        rw [List.getElem?_concat_length] at hd
        obtain rfl := Option.some.inj hd
        rw [Function.update_self]
        exact driver.shows_store hproper _
      · have hne : i + 1 ≠ log.length + 1 := fun heq => hlast (Nat.succ.inj heq)
        obtain ⟨hlt, -⟩ := List.getElem?_eq_some_iff.mp hd
        rw [List.length_append, List.length_singleton] at hlt
        rw [List.getElem?_append_left (by omega)] at hd
        rw [Function.update_of_ne hne]
        exact h.shows i d hd
    · rw [List.length_append, List.length_singleton] at hfree
      rw [Function.update_of_ne (by omega)]
      exact h.free i hi (hfree.imp_right (Nat.lt_of_succ_lt))

theorem Holds.installAll {drivers : List (Driver φ)} (h : Holds s log)
    (hproper : ∀ driver ∈ drivers, driver.Proper)
    (hroom : log.length + drivers.length < DEVICE_NR) :
    ∃ s', installAll drivers s = .ok (List.range' (log.length + 1) drivers.length, s') ∧
      Holds s' (log ++ drivers) := by
  induction drivers generalizing s log with
  | nil => exact ⟨s, rfl, (List.append_nil log).symm ▸ h⟩
  | cons driver drivers ih =>
      obtain ⟨hfirst, hrest⟩ := List.forall_mem_cons.mp hproper
      rw [List.length_cons] at hroom
      obtain ⟨s', hinstall, hholds⟩ := h.deviceInstall (by omega) hfirst
      have hlength : (log ++ [driver]).length = log.length + 1 := List.length_append
      obtain ⟨s'', hall, hholds'⟩ := ih hholds hrest (by omega)
      refine ⟨s'', ?_, by rwa [List.append_assoc] at hholds'⟩
      unfold Devices.installAll
      rw [hinstall]
      change (Devices.installAll drivers s' >>= _) = _
      rw [hall, hlength]
      rfl

/-- The table before `device_init`. -/
def zeros : Table ℕ := fun _ => ⟨[], .null, .null, 0, 0, none, none, none, none⟩

end Ylos.Devices
