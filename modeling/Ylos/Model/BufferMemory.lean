import Ylos.Model.Buffer

/-! # Memory for buffers (`kernel/buffer.c`)

The pointers behind `get_new_buffer`, for descriptors of any size. -/

namespace Ylos.BufferMemory

open Exec Cache

structure State where
  bufferPtr : ℕ
  bufferData : ℕ
  bufferCount : ℕ

def boot : State :=
  ⟨KERNEL_BUFFER_MEM, KERNEL_BUFFER_MEM + KERNEL_BUFFER_SIZE - BLOCK_SIZE, 0⟩

abbrev M := Exec State Empty

/-- `get_new_buffer`: the new descriptor and its `data`. -/
def getNewBuffer (size : ℕ) : M (Option (ℕ × ℕ)) := do
  let s ← get
  if u32 (s.bufferPtr + size) < s.bufferData then
    modify fun s => { s with bufferCount := u32 (s.bufferCount + 1) }
    modify fun s => { s with bufferPtr := u32 (s.bufferPtr + size) }
    modify fun s => { s with bufferData := u32 (s.bufferData + (2 ^ 32 - BLOCK_SIZE)) }
    return some (s.bufferPtr, s.bufferData)
  return none

/-- Calls of `get_new_buffer`, with what they return. -/
def getNewBuffers (size : ℕ) : ℕ → M (List (Option (ℕ × ℕ)))
  | 0 => return []
  | n + 1 => do
    let r ← getNewBuffer size
    return r :: (← getNewBuffers size n)

end Ylos.BufferMemory
