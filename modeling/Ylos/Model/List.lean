import Ylos.Model.Arena

/-! # More of the list functions (`lib/list.c`)

The functions that the kernel heap does not use. -/

namespace Ylos.Heap

open Exec

def listInsertBefore (anchor node : ℕ) : M Unit := do
  store node (← load anchor)
  store (node + 4) anchor
  store ((← load anchor) + 4) node
  store anchor node

def listPushback (list node : ℕ) : M Unit := do
  check ((← listSearch list node) = false)
  listInsertBefore (list + 8) node

def listPopback (list : ℕ) : M ℕ := do
  check ((← listEmpty list) = false)
  let node ← load (list + 8)
  listRemove node
  return node

/-- The loop of `list_size`. No list has as many nodes as there are words. -/
def sizeLoop (list : ℕ) : (left next size : ℕ) → M ℕ
  | 0, _, _ => fault .wild
  | left + 1, next, size => do
    if next = list + 8 then
      return size
    else
      sizeLoop list left (← load (next + 4)) (u32 (size + 1))

def listSize (list : ℕ) : M ℕ := do
  sizeLoop list (2 ^ 32) (← load (list + 4)) 0

/-- `element_node_key`: the `int` at this offset from the node. -/
def elementNodeKey (node : ℕ) (offset : ℤ) : M ℤ :=
  gets fun s => (s.mem ((node + offset) % 2 ^ 32).toNat : ℤ).bmod (2 ^ 32)

/-- The loop of `list_insert_sort`. -/
def anchorLoop (list : ℕ) (offset key : ℤ) : (left ptr : ℕ) → M ℕ
  | 0, _ => fault .wild
  | left + 1, ptr => do
    if ptr = list + 8 then
      return list + 8
    else
      let compare ← elementNodeKey ptr offset
      if key < compare then
        return ptr
      else
        anchorLoop list offset key left (← load (ptr + 4))

def listInsertSort (list node : ℕ) (offset : ℤ) : M Unit := do
  let key ← elementNodeKey node offset
  let anchor ← anchorLoop list offset key (2 ^ 32) (← load (list + 4))
  check ((← load (node + 4)) = 0)
  check ((← load node) = 0)
  listInsertBefore anchor node

end Ylos.Heap
