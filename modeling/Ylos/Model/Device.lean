import Mathlib.Logic.Function.Basic
import Ylos.Model.Execve

/-! # The table of devices (`kernel/device.c`)

`φ` are the pointers of the drivers. The queues of requests are left out here. -/

namespace Ylos.Devices

open Execve (strncpy)

def DEVICE_NR : ℕ := 64

def NAMELEN : ℕ := 16

inductive DeviceType where
  | null
  | char
  | block
  | net
  deriving DecidableEq, Repr

inductive Subtype where
  /-- `DEV_NULL`, as in `device_type_t`. -/
  | null
  | console
  | keyboard
  | serial
  | ideDisk
  | idePart
  | ramdisk
  deriving DecidableEq, Repr

structure Device (φ : Type) where
  name : List UInt8
  type : DeviceType
  subtype : Subtype
  dev : ℕ
  parent : ℕ
  ptr : Option φ
  ioctl : Option φ
  read : Option φ
  write : Option φ

/-- The arguments of `device_install`. -/
structure Driver (φ : Type) where
  type : DeviceType
  subtype : Subtype
  ptr : Option φ
  name : List UInt8
  parent : ℕ
  ioctl : Option φ
  read : Option φ
  write : Option φ

/-- `devices` -/
abbrev Table (φ : Type) := ℕ → Device φ

variable {φ : Type}

def NULL_NAME : List UInt8 := [110, 117, 108, 108]

/-- `strcpy(dest, src)` for a string without its end. -/
def strcpy (dest src : List UInt8) : List UInt8 := src ++ 0 :: dest.drop (src.length + 1)

def initDevice (i : ℕ) (device : Device φ) : Device φ :=
  { device with
    name := strcpy device.name NULL_NAME
    type := .null
    subtype := .null
    dev := i
    parent := 0
    ioctl := none
    read := none
    write := none }

/-- The loop of `device_init` over these devices. -/
def initLoop : List ℕ → Table φ → Table φ
  | [], s => s
  | i :: is, s => initLoop is (Function.update s i (initDevice i (s i)))

/-- The loop of `get_null_device` over these devices. -/
def nullLoop (s : Table φ) : List ℕ → Except Fault ℕ
  | [] => .error .assertion
  | i :: is => if (s i).type = .null then .ok i else nullLoop s is

def getNullDevice (s : Table φ) : Except Fault ℕ := nullLoop s (List.range' 1 (DEVICE_NR - 1))

/-- The stores of `device_install`. -/
def Driver.store (driver : Driver φ) (device : Device φ) : Device φ :=
  { device with
    ptr := driver.ptr
    parent := driver.parent
    type := driver.type
    subtype := driver.subtype
    name := strncpy device.name driver.name NAMELEN
    ioctl := driver.ioctl
    read := driver.read
    write := driver.write }

def deviceInstall (driver : Driver φ) (s : Table φ) : Except Fault (ℕ × Table φ) := do
  let i ← getNullDevice s
  let device := driver.store (s i)
  return (device.dev, Function.update s i device)

/-- The loop of `device_find` over these devices, with `nr` of the subtype passed. -/
def findLoop (s : Table φ) (subtype : Subtype) (idx : ℕ) : (nr : ℕ) → List ℕ → Option ℕ
  | _, [] => none
  | nr, i :: is =>
    if (s i).subtype ≠ subtype then findLoop s subtype idx nr is
    else if nr = idx then some i
    else findLoop s subtype idx (nr + 1) is

def deviceGet (s : Table φ) (dev : ℕ) : Except Fault (Device φ) :=
  if dev < DEVICE_NR ∧ (s dev).type ≠ .null then .ok (s dev) else .error .assertion

/-- Drivers install their devices, one after the other. -/
def installAll : List (Driver φ) → Table φ → Except Fault (List ℕ × Table φ)
  | [], s => .ok ([], s)
  | driver :: drivers, s => do
    let (dev, s) ← deviceInstall driver s
    let (devs, s) ← installAll drivers s
    return (dev :: devs, s)

end Ylos.Devices
