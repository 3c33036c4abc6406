import EszOs.Lib.Ownership
import EszOs.Lib.Runs
import EszOs.Types.String
import Mathlib.Algebra.Order.BigOperators.Group.Multiset
import Mathlib.Data.Nat.Digits.Defs

/-!
# `String` (`types/string/string.h`, `string.cpp`)

A `String` is the block `data` of the heap, and the temporaries of its operations are blocks too. The
heap is the one of `BlockHeap`: it faults where a block is freed twice or used when it is not
allocated, and it never runs out of memory.
-/

namespace EszOs

/-- A program on the heap. The content of a block is its bytes before the terminator. -/
abbrev StringProgram := Program HeapFault (BlockHeap Nat CString)

/-- A `const char*`: a text outside the heap or a block. -/
inductive CharPtr
  | text (text : CString)
  | block (p : Nat)

/-- An integer, in the type it has. -/
inductive Integer
  | uint64 (n : UInt64)
  | int64 (n : Int64)
  | uint32 (n : UInt32)
  | int32 (n : Int32)
  | uint16 (n : UInt16)
  | int16 (n : Int16)
  | uint8 (n : UInt8)
  | int8 (n : Int8)

/-- An argument of the constructor. A `String` is given by its `data`. -/
inductive Part
  | chars (p : CharPtr)
  | string (data : Nat)
  | char (c : UInt8)
  | integer (n : Integer)

section Source

variable (A : Allocator Nat)

/-! ## `string.cpp` -/

def mallocStr (size : Nat) : StringProgram Nat := BlockHeap.malloc A size []

def mallocEmptyStr : StringProgram Nat := do
  let ret ← mallocStr A 2
  BlockHeap.store ret (literal "0")
  return ret

/-- The characters a `const char*` points to. -/
def readStr : CharPtr → StringProgram CString
  | .text text => return text
  | .block p => BlockHeap.load p

def strCombine (a b : CharPtr) : StringProgram Nat := do
  let textA ← readStr a
  let textB ← readStr b
  let returnString ← mallocStr A (textA.length + textB.length + 1)
  BlockHeap.store returnString (textA ++ textB)
  return returnString

/-- `str_combine` with a character. -/
def strCombineChar (a : CharPtr) (b : UInt8) : StringProgram Nat := do
  let textA ← readStr a
  let returnString ← mallocStr A (textA.length + 2)
  BlockHeap.store returnString (strAddChar textA b)
  return returnString

/-- The character of a digit. -/
def digitChar (newValue : Nat) : UInt8 :=
  (if newValue < 10 then newValue + 0x30 else 0x61 + (newValue - 10)).toUInt8

/-- `to_string` of a `uint64_t`. -/
def toStringU64 (inputValue : UInt64) (base : UInt8) : StringProgram Nat :=
  if inputValue = 0 ∨ base = 0 ∨ base = 1 then mallocEmptyStr A
  else do
    -- the digits that the loops divide off, the last one first
    let digits := (Nat.digits base.toNat inputValue.toNat).map digitChar
    let composedString ← mallocStr A (digits.length + 1)
    let returnString ← mallocStr A (digits.length + 1)
    BlockHeap.store composedString digits
    let composed ← BlockHeap.load composedString
    BlockHeap.store returnString (composed.reverse.takeWhile (· != 0))
    BlockHeap.free composedString
    return returnString

/-- `to_string` of an `int64_t`. -/
def toStringI64 (inputValue : Int64) (base : UInt8) : StringProgram Nat :=
  if 0 ≤ inputValue then toStringU64 A inputValue.toUInt64 base
  else do
    let digits ← toStringU64 A (-inputValue).toUInt64 base
    strCombine A (.text (literal "-")) (.block digits)

/-! ## `string.h` -/

/-- `to_cstr` of an integer. What is narrower than 32 bits is promoted to `int32_t`. -/
def Integer.toCstr : Integer → StringProgram Nat
  | uint64 n => toStringU64 A n 10
  | int64 n => toStringI64 A n 10
  | uint32 n => toStringU64 A n.toUInt64 10
  | int32 n => toStringI64 A n.toInt64 10
  | uint16 n => toStringI64 A n.toUInt64.toInt64 10
  | int16 n => toStringI64 A n.toInt64 10
  | uint8 n => toStringI64 A n.toUInt64.toInt64 10
  | int8 n => toStringI64 A n.toInt64 10

/-- A block with a copy of the string; the copy constructor is this for the `data` of the other. -/
def copyStr (s : CharPtr) : StringProgram Nat := do
  let text ← readStr s
  let ret ← mallocStr A (text.length + 1)
  BlockHeap.store ret text
  return ret

/-- `to_cstr` -/
def Part.toCstr : Part → StringProgram Nat
  | chars p => copyStr A p
  | string data => copyStr A (.block data)
  | char c => do
    let ret ← mallocStr A 2
    BlockHeap.store ret (strAddChar [] c)
    return ret
  | integer n => n.toCstr A

/-- An argument is passed by value: a `String` is copied. -/
def Part.byValue : Part → StringProgram Part
  | .string data => do return .string (← copyStr A (.block data))
  | arg => return arg

def passArgs : List Part → StringProgram (List Part)
  | [] => return []
  | arg :: args => do
    let copy ← arg.byValue A
    let copies ← passArgs args
    return copy :: copies

/-- The blocks that an argument owns. -/
def Part.owned : Part → List Nat
  | .string data => [data]
  | _ => []

/-- The end of the call: the arguments are destroyed. -/
def destroyArgs : List Nat → StringProgram Unit
  | [] => return ()
  | data :: args => do
    BlockHeap.free data
    destroyArgs args

/-- `parts[]` -/
def toCstrs : List Part → StringProgram (List Nat)
  | [] => return []
  | arg :: args => do
    let part ← arg.toCstr A
    let parts ← toCstrs args
    return part :: parts

/-- The loop of the constructor. -/
def combineParts : Nat → List Nat → StringProgram Nat
  | data, [] => return data
  | data, part :: parts => do
    let combined ← strCombine A (.block data) (.block part)
    BlockHeap.free data
    BlockHeap.free part
    combineParts combined parts

/-- The constructor. -/
def construct (args : List Part) : StringProgram Nat := do
  let args ← passArgs A args
  let parts ← toCstrs A args
  let data ← mallocStr A 1
  let combined ← combineParts A data parts
  destroyArgs (args.flatMap Part.owned)
  return combined

/-- `operator=`, for the `data` of the two: the new `data`. -/
def assign (data b : Nat) : StringProgram Nat := do
  let copy ← copyStr A (.block b)
  BlockHeap.free data
  return copy

/-- `operator+=`, of a `String` or a C string. -/
def addAssign (data : Nat) (b : CharPtr) : StringProgram Nat := do
  let combined ← strCombine A (.block data) b
  BlockHeap.free data
  return combined

/-- `operator+=` of a character. -/
def addAssignChar (data : Nat) (b : UInt8) : StringProgram Nat := do
  let combined ← strCombineChar A (.block data) b
  BlockHeap.free data
  return combined

end Source

/-! ## Operations -/

/-- A C string that an operation is given: a text, or what a `String` converts to. -/
inductive Operand
  | text (text : CString)
  | dataOf (i : Nat)

/-- An argument that the constructor is given. -/
inductive Argument
  | chars (s : Operand)
  | string (i : Nat)
  | char (c : UInt8)
  | integer (n : Integer)

/-- An operation. The live strings are numbered in the order of their construction. -/
inductive Operation
  | construct (args : List Argument)
  | copy (source : Nat)
  | assign (target source : Nat)
  | addString (target source : Nat)
  | addChars (target : Nat) (s : Operand)
  | addChar (target : Nat) (c : UInt8)
  | destroy (target : Nat)

def Operand.resolve (strings : List Nat) : Operand → Option CharPtr
  | text s => some (.text s)
  | dataOf i => strings[i]?.map .block

def Argument.resolve (strings : List Nat) : Argument → Option Part
  | chars s => (s.resolve strings).map .chars
  | string i => strings[i]?.map .string
  | char c => some (.char c)
  | integer n => some (.integer n)

/-- What the operation does, and the `data` of the strings then; `none` if it names a string that is
not alive. -/
def Operation.program (A : Allocator Nat) (strings : List Nat) :
    Operation → Option (StringProgram (List Nat))
  | construct args => do
    let parts ← args.mapM (Argument.resolve strings)
    some do return strings ++ [← EszOs.construct A parts]
  | copy j => do
    let b ← strings[j]?
    some do return strings ++ [← copyStr A (.block b)]
  | assign i j => do
    let data ← strings[i]?
    let b ← strings[j]?
    some do return strings.set i (← EszOs.assign A data b)
  | addString i j => do
    let data ← strings[i]?
    let b ← strings[j]?
    some do return strings.set i (← addAssign A data (.block b))
  | addChars i s => do
    let data ← strings[i]?
    let b ← s.resolve strings
    some do return strings.set i (← addAssign A data b)
  | addChar i c => do
    let data ← strings[i]?
    some do return strings.set i (← addAssignChar A data c)
  | destroy i => do
    let data ← strings[i]?
    some do
      BlockHeap.free data
      return strings.eraseIdx i

/-- A state of a run: the heap, the `data` of the live strings, and the fault that ended the run. -/
structure StringRun where
  heap : BlockHeap Nat CString
  strings : List Nat
  fault : Option HeapFault

namespace StringRun

/-- No `String` is alive. -/
def start : StringRun := ⟨BlockHeap.empty [], [], none⟩

def step (A : Allocator Nat) (s : StringRun) (op : Operation) : Option StringRun :=
  if s.fault.isSome then none
  else (op.program A s.strings).map fun m =>
    match m.exec s.heap with
    | (.ok strings, heap) => ⟨heap, strings, none⟩
    | (.error e, heap) => ⟨heap, s.strings, some e⟩

/-- Nothing was freed twice, and the allocated blocks are those of the live strings, each of one. -/
structure Balanced (s : StringRun) : Prop where
  fault : s.fault = none
  live : s.heap.live = s.strings

end StringRun

end EszOs
