import Mathlib.Logic.Function.Iterate
import EszOs.Config
import EszOs.Lib.Bytes
import EszOs.Lib.Blocks

/-!
# The kernel heap (`memory/heap/heap.cpp`)

The heap is a region of byte memory. Its headers stand in the same bytes as the payloads: a
`MemoryBlockHeader` is one 64-bit word, the payload length in the low 63 bits and the used flag in
the top bit. A store to one bit-field keeps the other one.

The `while` loops follow lengths read from memory, so on a damaged heap they need not end. They
run with the heap's size in bytes as fuel, and the result is `none` when it runs out;
`HeapTiling.lean` shows that it never does on a heap the code itself built.
-/

namespace EszOs

open Bytes Blocks

/-- The fields of `MemoryBlockHeader`. -/
abbrev MemoryBlockHeader := Block

/-- `sizeof(MemoryBlockHeader)` -/
abbrev headerSize : Nat := 8

def readHeader (m : Mem) (a : Nat) : MemoryBlockHeader :=
  { length := readLE m a 8 % 2 ^ 63, used := readLE m a 8 / 2 ^ 63 == 1 }

/-- `header->Length = length` -/
def setLength (m : Mem) (a length : Nat) : Mem :=
  writeLE m a 8 (length % 2 ^ 63 + readLE m a 8 / 2 ^ 63 * 2 ^ 63)

/-- `header->Used = used` -/
def setUsed (m : Mem) (a : Nat) (used : Bool) : Mem :=
  writeLE m a 8 (readLE m a 8 % 2 ^ 63 + used.toNat * 2 ^ 63)

/-! ## Header fields after a store -/

theorem readHeader_length_lt (m : Mem) (a : Nat) : (readHeader m a).length < 2 ^ 63 :=
  Nat.mod_lt _ (by decide)

@[simp] theorem readHeader_setLength (m : Mem) (a n : Nat) :
    readHeader (setLength m a n) a = ⟨n % 2 ^ 63, (readHeader m a).used⟩ := by
  have h := readLE_lt m a 8
  simp only [readHeader, setLength, readLE_writeLE, Block.mk.injEq]
  constructor
  · omega
  · rw [show (n % 2 ^ 63 + readLE m a 8 / 2 ^ 63 * 2 ^ 63) % 256 ^ 8 / 2 ^ 63 =
      readLE m a 8 / 2 ^ 63 by omega]

@[simp] theorem readHeader_setUsed (m : Mem) (a : Nat) (u : Bool) :
    readHeader (setUsed m a u) a = ⟨(readHeader m a).length, u⟩ := by
  simp only [readHeader, setUsed, readLE_writeLE, Block.mk.injEq]
  cases u
  · simp only [Bool.toNat_false, Nat.zero_mul, Nat.add_zero, beq_eq_false_iff_ne]; omega
  · simp only [Bool.toNat_true, Nat.one_mul, beq_iff_eq]; omega

theorem setLength_outside {m : Mem} {a n x : Nat} (h : x < a ∨ a + 8 ≤ x) :
    setLength m a n x = m x := writeLE_outside h

theorem setUsed_outside {m : Mem} {a x : Nat} {u : Bool} (h : x < a ∨ a + 8 ≤ x) :
    setUsed m a u x = m x := writeLE_outside h

/-- A header depends on its eight bytes only. -/
theorem readHeader_congr {m m' : Mem} {a : Nat} (h : ∀ x, a ≤ x → x < a + 8 → m' x = m x) :
    readHeader m' a = readHeader m a := by
  simp only [readHeader, readLE_congr h]

/-! ## The functions of `heap.cpp` -/

structure Heap where
  mem : Mem
  heapStartPtr : Nat
  heapEndPtr : Nat

def getNextHeapBlock (m : Mem) (currMemBlock : Nat) : Nat :=
  u64 (currMemBlock + headerSize + (readHeader m currMemBlock).length)

namespace Heap

/-- Where the walk by `get_next_heap_block` from `heapStartPtr` stands after `i` steps. -/
def blockAt (h : Heap) (i : Nat) : Nat := (getNextHeapBlock h.mem)^[i] h.heapStartPtr

/-- The walk reaches a header at `a` before `heapEndPtr`. -/
def IsHeader (h : Heap) (a : Nat) : Prop := ∃ i, a = h.blockAt i ∧ ∀ j ≤ i, h.blockAt j < h.heapEndPtr

/-- The loop of `get_prev_heap_block`; the inner `none` is the null pointer. -/
def prevLoop (h : Heap) (currMemBlock : Nat) : Nat → Nat → Option (Option Nat)
  | 0, _ => none
  | fuel + 1, loopBlockPtr =>
    if h.heapStartPtr ≤ loopBlockPtr ∧ loopBlockPtr < currMemBlock then
      let nextBlockHeader := getNextHeapBlock h.mem loopBlockPtr
      if nextBlockHeader = currMemBlock then some (some loopBlockPtr)
      else prevLoop h currMemBlock fuel nextBlockHeader
    else some none

/-- The fuel of the loops: more than the number of headers the region has room for. -/
def fuel (h : Heap) : Nat := h.heapEndPtr - h.heapStartPtr

def getPrevHeapBlock (h : Heap) (currMemBlock : Nat) : Option (Option Nat) :=
  h.prevLoop currMemBlock h.fuel h.heapStartPtr

/-- The first half of `try_defragment_page`: merge the right neighbour into the freed block. -/
def mergeRight (h : Heap) (freedBlockPtr : Nat) : Heap :=
  let rightBlockPtr := getNextHeapBlock h.mem freedBlockPtr
  if rightBlockPtr < h.heapEndPtr ∧ (readHeader h.mem rightBlockPtr).used = false then
    { h with mem := setLength h.mem freedBlockPtr ((readHeader h.mem freedBlockPtr).length +
        ((readHeader h.mem rightBlockPtr).length + headerSize)) }
  else h

/-- The second half: merge the freed block into its left neighbour. -/
def mergeLeft (h : Heap) (freedBlockPtr : Nat) : Option Heap :=
  match h.getPrevHeapBlock freedBlockPtr with
  | none => none
  | some none => some h
  | some (some leftBlockPtr) =>
    if h.heapStartPtr ≤ leftBlockPtr ∧ (readHeader h.mem leftBlockPtr).used = false then
      some { h with mem := setLength h.mem leftBlockPtr ((readHeader h.mem leftBlockPtr).length +
        ((readHeader h.mem freedBlockPtr).length + headerSize)) }
    else some h

def tryDefragmentPage (h : Heap) (freedBlockPtr : Nat) : Option Heap :=
  (h.mergeRight freedBlockPtr).mergeLeft freedBlockPtr

/-- The loop of `malloc`: the block it stops at, or the inner `none` at `heapEndPtr`. -/
def searchLoop (h : Heap) (size : Nat) : Nat → Nat → Option (Option Nat)
  | 0, _ => none
  | fuel + 1, currBlockPtr =>
    if (readHeader h.mem currBlockPtr).length < size ∨ (readHeader h.mem currBlockPtr).used then
      let next := getNextHeapBlock h.mem currBlockPtr
      if h.heapEndPtr ≤ next then some none else searchLoop h size fuel next
    else some (some currBlockPtr)

/-- `malloc` after its loop: use the block and split off what is left. -/
def take (h : Heap) (currBlockPtr size : Nat) : Heap :=
  let oldBlockLength := (readHeader h.mem currBlockPtr).length
  let m := setUsed (setLength h.mem currBlockPtr size) currBlockPtr true
  if u64 (size + headerSize) < oldBlockLength then
    let nextBlock := getNextHeapBlock m currBlockPtr
    let nextBlockLength := oldBlockLength - size - headerSize
    if nextBlockLength ≤ headerSize then
      { h with mem := setLength m currBlockPtr oldBlockLength }
    else { h with mem := setUsed (setLength m nextBlock nextBlockLength) nextBlock false }
  else { h with mem := setLength m currBlockPtr oldBlockLength }

/-- `malloc`: the returned pointer (`none` for the null pointer) and the heap after it. -/
def malloc (h : Heap) (size : Nat) : Option (Option Nat × Heap) :=
  match h.searchLoop size h.fuel h.heapStartPtr with
  | none => none
  | some none => some (none, h)
  | some (some currBlockPtr) =>
    some (some (currBlockPtr + headerSize), h.take currBlockPtr size)

def free (h : Heap) (ptr : Nat) : Option Heap :=
  let header := u64 (ptr + 2 ^ 64 - headerSize)
  tryDefragmentPage { h with mem := setUsed h.mem header false } header

end Heap

/-- `init_heap_alloc`, after `vmm_malloc_pages(INIT_HEAP_SIZE)` returned `initialHeapBlockPtr`;
`none` when it reports failure. -/
def initHeapAlloc (m : Mem) (initialHeapBlockPtr : Nat) : Option Heap :=
  if initialHeapBlockPtr = 0 then none
  else
    some {
      mem := setUsed (setLength m initialHeapBlockPtr (initHeapSize - headerSize))
        initialHeapBlockPtr false
      heapStartPtr := initialHeapBlockPtr
      heapEndPtr := u64 (initialHeapBlockPtr + initHeapSize) }

end EszOs
