import EszOs.Lib.Nullable
import EszOs.Memory.Heap
import EszOs.Types.StringObject
import EszOs.Types.Text

/-!
# Strings on a full heap (`types/string/string.cpp`, `string.h`, `types/utf16/utf16.cpp`)

The functions that allocate, on the kernel heap, with the null pointer that `malloc` returns when no
block is long enough. A store is given by the block and the number of bytes: it stays inside its
block, or it is behind the last request of the function. What is in a block is given by the texts.

* `kernelHeap`: a heap that refuses a request refuses the longer ones.
* `construct_strict` and its like: each function stores through the null pointer exactly if a request
  of it is refused.
-/

namespace EszOs

open Blocks

/-! ## The kernel heap -/

/-- A search that ends without a block ends so for more bytes, and ends for fewer. -/
theorem Heap.searchLoop_refuses {h : Heap} {size fuel currBlockPtr : Nat}
    (hs : h.searchLoop size fuel currBlockPtr = some none) (n : Nat) :
    h.searchLoop n fuel currBlockPtr ≠ none ∧
      (size ≤ n → h.searchLoop n fuel currBlockPtr = some none) := by
  induction fuel generalizing currBlockPtr with
  | zero => cases hs
  | succ fuel ih =>
    rw [searchLoop] at hs ⊢
    split at hs
    · rename_i hshort
      by_cases hn : (readHeader h.mem currBlockPtr).length < n ∨
          (readHeader h.mem currBlockPtr).used = true
      · rw [if_pos hn]
        by_cases hend : h.heapEndPtr ≤ getNextHeapBlock h.mem currBlockPtr
        · simp [hend]
        · simp only [hend, if_false] at hs ⊢
          exact ih hs
      · rw [if_neg hn]
        refine ⟨nofun, fun hle => absurd ?_ hn⟩
        exact hshort.imp (fun h => Nat.lt_of_lt_of_le h hle) id
    · cases hs

/-- `malloc` and `free` of `heap.cpp`. -/
def kernelHeap : NullableHeap Heap where
  malloc := Heap.malloc
  free := Heap.free
  refuses := by
    intro h n h' hmalloc
    have hsearch : h.searchLoop n h.fuel h.heapStartPtr = some none ∧ h' = h := by
      unfold Heap.malloc at hmalloc
      split at hmalloc
      · cases hmalloc
      · rename_i hs
        cases hmalloc
        exact ⟨hs, rfl⟩
      · cases hmalloc
    obtain ⟨hsearch, rfl⟩ := hsearch
    refine ⟨rfl, fun m => ?_⟩
    obtain ⟨hends, hrefused⟩ := Heap.searchLoop_refuses hsearch m
    unfold Heap.malloc
    constructor
    · cases hm : h'.searchLoop m h'.fuel h'.heapStartPtr with
      | none => exact absurd hm hends
      | some r => cases r <;> nofun
    · intro hle
      rw [hrefused hle]

/-- What stops a function besides the heap. -/
inductive CallFault
  /-- A finding is stored behind `findingsStartPtr`. -/
  | findingsOverrun
  /-- A section is stored behind `pathSections`. -/
  | pathSectionsOverrun

/-- A program on the kernel heap. -/
abbrev HeapProgram := NullProgram CallFault Heap

namespace NullChecks

open NullProgram (store)

def malloc (size : Nat) : HeapProgram (Option Nat) := NullProgram.malloc kernelHeap size

def free (ptr : Option Nat) : HeapProgram Unit := NullProgram.free kernelHeap ptr

/-- `memory_clear` -/
def memoryClear (target : Option Nat) (n : Nat) : HeapProgram Unit := store target n

/-! ## `string.cpp`, `utf16.cpp` -/

def mallocStr (size : Nat) : HeapProgram (Option Nat) := do
  let string ← malloc size
  memoryClear string size
  return string

def mallocEmptyStr : HeapProgram (Option Nat) := do
  let ret ← mallocStr 2
  store ret 2
  return ret

/-- A block of `size` bytes in which `n` are stored behind the call of `malloc_str`. -/
def filledStr (size n : Nat) : HeapProgram (Option Nat) := do
  let returnString ← mallocStr size
  store returnString n
  return returnString

def strRepeat (text : CString) (amount : UInt64) : HeapProgram (Option Nat) :=
  filledStr (u64 (text.length * amount.toNat + 1)) (text.length * amount.toNat + 1)

def strCombine (a b : CString) : HeapProgram (Option Nat) :=
  filledStr (a.length + b.length + 1) (a.length + b.length + 1)

/-- `str_combine` with a character. -/
def strCombineChar (a : CString) : HeapProgram (Option Nat) := filledStr (a.length + 2) (a.length + 2)

def strMoveRight (text : CString) (moveAmount : UInt64) : HeapProgram (Option Nat) :=
  filledStr (u64 (text.length + moveAmount.toNat + 1)) (moveAmount.toNat + (text.length + 1))

/-- `str_cut_start`. The difference wraps, so the block is empty for `n = text_len + 1`. -/
def strCutStart (text : CString) (n : UInt64) : HeapProgram (Option Nat) :=
  filledStr (u64 (text.length + 2 ^ 64 - n.toNat + 1)) (text.length - n.toNat)

/-- `str_cut_end_malloc`: the copy and the new terminator. -/
def strCutEndMalloc (text : CString) : HeapProgram (Option Nat) :=
  filledStr (text.length + 1) (text.length + 1 + 1)

/-- `str_trim_start`: the terminator is the cleared byte behind the characters. -/
def strTrimStart (text : CString) : HeapProgram (Option Nat) :=
  filledStr (text.length + 1) (text.dropWhile isWhitespace).length

/-- `str_trim_end`: the copy and the zeros over the whitespace. -/
def strTrimEnd (text : CString) : HeapProgram (Option Nat) :=
  filledStr (text.length + 1)
    (text.length + 1 + (text.length - (text.rdropWhile isWhitespace).length))

/-- `str_trim`: the characters and the zeros over the whitespace. -/
def strTrim (text : CString) : HeapProgram (Option Nat) :=
  let trimmed := text.dropWhile isWhitespace
  filledStr (text.length + 1)
    (trimmed.length + (trimmed.length - (trimmed.rdropWhile isWhitespace).length))

def strToUpper (text : CString) : HeapProgram (Option Nat) := filledStr (text.length + 1) text.length

def strToLower (text : CString) : HeapProgram (Option Nat) := filledStr (text.length + 1) text.length

/-- `utf16_text_to_ascii` -/
def utf16TextToAscii (text : List (UInt8 × UInt8)) : HeapProgram (Option Nat) :=
  filledStr (text.length + 1) ((utf16Loop text).length + 1)

/-- `to_string` of a `uint64_t`. -/
def toStringU64 (inputValue : UInt64) (base : UInt8) : HeapProgram (Option Nat) :=
  if inputValue = 0 ∨ base = 0 ∨ base = 1 then mallocEmptyStr
  else do
    let strLength := (Nat.digits base.toNat inputValue.toNat).length
    let composedString ← mallocStr (strLength + 1)
    let returnString ← mallocStr (strLength + 1)
    store composedString strLength
    store returnString strLength
    free composedString
    store returnString 1
    return returnString

/-- The text of `to_string` of a `uint64_t`. -/
def u64Text (inputValue : UInt64) (base : UInt8) : CString :=
  if inputValue = 0 ∨ base = 0 ∨ base = 1 then literal "0"
  else ((Nat.digits base.toNat inputValue.toNat).map digitChar).reverse

/-- `to_string` of an `int64_t`. -/
def toStringI64 (inputValue : Int64) (base : UInt8) : HeapProgram (Option Nat) :=
  if 0 ≤ inputValue then toStringU64 inputValue.toUInt64 base
  else do
    let _ ← toStringU64 (-inputValue).toUInt64 base
    strCombine (literal "-") (u64Text (-inputValue).toUInt64 base)

/-- The text of `to_string` of an `int64_t`. -/
def i64Text (inputValue : Int64) (base : UInt8) : CString :=
  if 0 ≤ inputValue then u64Text inputValue.toUInt64 base
  else literal "-" ++ u64Text (-inputValue).toUInt64 base

/-- `str_split` into the parts: `outSplits`. -/
def strSplit : List CString → HeapProgram (List (Option Nat))
  | [] => return []
  | text :: texts => do
    let part ← filledStr (text.length + 1) (text.length + 1)
    let outSplits ← strSplit texts
    return part :: outSplits

/-- The loop of `str_replace` over the findings; `texts` are the texts at `ptr` in the iterations. -/
def replaceLoop (searchTextLen : UInt64) : List CString → HeapProgram Unit
  | [] => return ()
  | text :: texts => do
    let tail ← strCutStart text searchTextLen
    free tail
    replaceLoop searchTextLen texts

/-- `str_replace`, with as many findings as `texts`: if the lengths are the same the text is replaced
in its place. -/
def strReplace (searchTextLen replacedByLen : UInt64) (texts : List CString) : HeapProgram Unit :=
  if 1024 < texts.length then NullProgram.fault .findingsOverrun
  else if searchTextLen - replacedByLen = 0 then return ()
  else replaceLoop searchTextLen texts

/-! ## `string.h` -/

/-- An argument of the constructor; a `String` by the text of its `data`. -/
inductive Argument
  | chars (text : CString)
  | string (text : CString)
  | char (c : UInt8)
  | integer (n : Integer)

/-- A block with a copy of the text. -/
def copyStr (text : CString) : HeapProgram (Option Nat) := filledStr (text.length + 1) (text.length + 1)

/-- `to_cstr` of an integer, as in `Integer.toCstr`. -/
def integerToCstr : Integer → HeapProgram (Option Nat)
  | .uint64 n => toStringU64 n 10
  | .int64 n => toStringI64 n 10
  | .uint32 n => toStringU64 n.toUInt64 10
  | .int32 n => toStringI64 n.toInt64 10
  | .uint16 n => toStringI64 n.toUInt64.toInt64 10
  | .int16 n => toStringI64 n.toInt64 10
  | .uint8 n => toStringI64 n.toUInt64.toInt64 10
  | .int8 n => toStringI64 n.toInt64 10

def integerText : Integer → CString
  | .uint64 n => u64Text n 10
  | .int64 n => i64Text n 10
  | .uint32 n => u64Text n.toUInt64 10
  | .int32 n => i64Text n.toInt64 10
  | .uint16 n => i64Text n.toUInt64.toInt64 10
  | .int16 n => i64Text n.toInt64 10
  | .uint8 n => i64Text n.toUInt64.toInt64 10
  | .int8 n => i64Text n.toInt64 10

def Argument.toCstr : Argument → HeapProgram (Option Nat)
  | chars text => copyStr text
  | string text => copyStr text
  | char _ => filledStr 2 1
  | integer n => integerToCstr n

def Argument.text : Argument → CString
  | chars text => text
  | string text => text
  | char c => strAddChar [] c
  | integer n => integerText n

/-- The copies of the arguments that are passed by value: the blocks to free at the end. -/
def passArgs : List Argument → HeapProgram (List (Option Nat))
  | [] => return []
  | .string text :: args => do
    let copy ← copyStr text
    let copies ← passArgs args
    return copy :: copies
  | _ :: args => passArgs args

/-- `parts[]` -/
def toCstrs : List Argument → HeapProgram (List (Option Nat × CString))
  | [] => return []
  | arg :: args => do
    let part ← arg.toCstr
    let parts ← toCstrs args
    return (part, arg.text) :: parts

/-- The loop of the constructor; `text` is in `data`. -/
def combineParts : Option Nat → CString → List (Option Nat × CString) → HeapProgram (Option Nat)
  | data, _, [] => return data
  | data, text, part :: parts => do
    let combined ← strCombine text part.2
    free data
    free part.1
    combineParts combined (text ++ part.2) parts

def freeAll : List (Option Nat) → HeapProgram Unit
  | [] => return ()
  | ptr :: ptrs => do
    free ptr
    freeAll ptrs

/-- The constructor. -/
def construct (args : List Argument) : HeapProgram (Option Nat) := do
  let copies ← passArgs args
  let parts ← toCstrs args
  let data ← mallocStr 1
  let combined ← combineParts data [] parts
  freeAll copies
  return combined

/-- `operator=`, for the block of the target. -/
def assign (data : Nat) (b : CString) : HeapProgram (Option Nat) := do
  let copy ← copyStr b
  free (some data)
  return copy

/-- `operator+=` of a `String` or a C string. -/
def addAssign (data : Nat) (text b : CString) : HeapProgram (Option Nat) := do
  let combined ← strCombine text b
  free (some data)
  return combined

/-- `operator+=` of a character. -/
def addAssignChar (data : Nat) (text : CString) : HeapProgram (Option Nat) := do
  let combined ← strCombineChar text
  free (some data)
  return combined

/-! ## Stores through the null pointer -/

open NullProgram (Strict Doomed Tolerant)

/-- The pointer is not the null pointer. -/
abbrev IsBlock (ptr : Option Nat) : Prop := ptr.isSome = true

theorem store_strict (p n : Nat) : Strict (store (some p) n : HeapProgram Unit) fun _ => True :=
  Strict.store p _

theorem free_strict (p : Nat) : Strict (free (some p)) fun _ => True := Strict.free p

theorem store_doomed {heap : Heap} {n : Nat} (h : 0 < n) :
    Doomed heap (store none n : HeapProgram Unit) := Doomed.store h _

theorem mallocStr_strict {size : Nat} (h : 0 < size) : Strict (mallocStr size) IsBlock := by
  unfold mallocStr malloc
  refine Strict.malloc (fun p => ?_) fun heap _ => (store_doomed h).bind
  refine (store_strict p size).bind fun _ _ => ?_
  exact Strict.pure rfl

section

variable {α : Type} {size n : Nat} {f : Option Nat → HeapProgram α} {Q : α → Prop}

/-- A block that is filled, where the null pointer dooms what follows unless it is stored to. -/
theorem filledStr_bind (hsome : ∀ p, Strict (f (some p)) Q)
    (hnone : ∀ heap, 0 < size ∨ 0 < n ∨ Doomed heap (f none)) :
    Strict (filledStr size n >>= f) Q := by
  unfold filledStr mallocStr memoryClear malloc
  simp only [bind_assoc, pure_bind]
  refine Strict.malloc (fun p => ?_) fun heap _ => ?_
  · refine (store_strict p size).bind fun _ _ => ?_
    exact (store_strict p n).bind fun _ _ => hsome p
  · rcases Nat.eq_zero_or_pos size with rfl | hsize
    · refine Doomed.after rfl ?_
      rcases Nat.eq_zero_or_pos n with rfl | hn
      · exact Doomed.after rfl (by simpa using hnone heap)
      · exact (store_doomed hn).bind
    · exact (store_doomed hsize).bind

end

theorem filledStr_strict {size n : Nat} (h : 0 < size ∨ 0 < n) : Strict (filledStr size n) IsBlock := by
  have hbind : Strict (filledStr size n >>= pure) IsBlock :=
    filledStr_bind (fun p => Strict.pure rfl) fun heap => h.imp id .inl
  simpa using hbind

theorem mallocEmptyStr_strict : Strict mallocEmptyStr IsBlock := filledStr_strict (.inr (by decide))

theorem strRepeat_strict (text : CString) (amount : UInt64) : Strict (strRepeat text amount) IsBlock :=
  filledStr_strict (.inr (Nat.succ_pos _))

theorem strCombine_strict (a b : CString) : Strict (strCombine a b) IsBlock :=
  filledStr_strict (.inr (Nat.succ_pos _))

theorem copyStr_strict (text : CString) : Strict (copyStr text) IsBlock :=
  filledStr_strict (.inr (Nat.succ_pos _))

/-- The block is stored to unless it is empty, and it is empty for one `n` only. -/
theorem strCutStart_strict {text : CString} {n : UInt64} (h : n.toNat ≠ text.length + 1) :
    Strict (strCutStart text n) IsBlock := by
  refine filledStr_strict ?_
  have hn := n.toNat_lt
  rw [u64]
  omega

theorem toStringU64_strict (inputValue : UInt64) (base : UInt8) :
    Strict (toStringU64 inputValue base) IsBlock := by
  unfold toStringU64
  split
  · exact mallocEmptyStr_strict
  · refine (mallocStr_strict (Nat.succ_pos _)).bindBlock fun composedString => ?_
    refine (mallocStr_strict (Nat.succ_pos _)).bindBlock fun returnString => ?_
    refine (store_strict composedString _).bind fun _ _ => ?_
    refine (store_strict returnString _).bind fun _ _ => ?_
    refine (free_strict composedString).bind fun _ _ => ?_
    refine (store_strict returnString 1).bind fun _ _ => ?_
    exact Strict.pure rfl

theorem toStringI64_strict (inputValue : Int64) (base : UInt8) :
    Strict (toStringI64 inputValue base) IsBlock := by
  unfold toStringI64
  split
  · exact toStringU64_strict _ base
  · exact (toStringU64_strict _ base).bindBlock fun _ => strCombine_strict _ _

theorem strSplit_strict (texts : List CString) :
    Strict (strSplit texts) fun outSplits =>
      (∀ p ∈ outSplits, IsBlock p) ∧ outSplits.length = texts.length := by
  induction texts with
  | nil => exact Strict.pure ⟨List.forall_mem_nil _, rfl⟩
  | cons text texts ih =>
    refine (filledStr_strict (.inr (Nat.succ_pos _))).bind fun part hpart => ?_
    refine ih.bind fun outSplits ⟨hsplits, hlength⟩ => ?_
    exact Strict.pure ⟨List.forall_mem_cons.mpr ⟨hpart, hsplits⟩, congrArg (· + 1) hlength⟩

/-- An empty tail is the null pointer, and it is freed. -/
theorem replaceLoop_strict (searchTextLen : UInt64) (texts : List CString) :
    Strict (replaceLoop searchTextLen texts) fun _ => True := by
  induction texts with
  | nil => exact Strict.pure trivial
  | cons text texts ih =>
    refine filledStr_bind (fun tail => ?_) fun heap => .inr (.inr Doomed.free.bind)
    exact (free_strict tail).bind fun _ _ => ih

theorem strReplace_strict (searchTextLen replacedByLen : UInt64) (texts : List CString) :
    Strict (strReplace searchTextLen replacedByLen texts) fun _ => True := by
  unfold strReplace
  split
  · exact Strict.fault _
  split
  · exact Strict.pure trivial
  · exact replaceLoop_strict searchTextLen texts

/-! ## Blocks of no bytes -/

theorem store_tolerant (ptr : Option Nat) : Tolerant (store ptr 0 : HeapProgram Unit) :=
  Tolerant.store ptr _

theorem mallocStr_tolerant : Tolerant (mallocStr 0) :=
  Tolerant.malloc.bind fun string => (store_tolerant string).bind fun _ => Tolerant.pure string

theorem filledStr_tolerant : Tolerant (filledStr 0 0) :=
  mallocStr_tolerant.bind fun string => (store_tolerant string).bind fun _ => Tolerant.pure string

/-! ## `string.h` -/

theorem integerToCstr_strict (n : Integer) : Strict (integerToCstr n) IsBlock := by
  cases n with
  | uint64 n => exact toStringU64_strict n 10
  | int64 n => exact toStringI64_strict n 10
  | uint32 n => exact toStringU64_strict _ 10
  | int32 n => exact toStringI64_strict _ 10
  | uint16 n => exact toStringI64_strict _ 10
  | int16 n => exact toStringI64_strict _ 10
  | uint8 n => exact toStringI64_strict _ 10
  | int8 n => exact toStringI64_strict _ 10

theorem Argument.toCstr_strict (arg : Argument) : Strict arg.toCstr IsBlock := by
  cases arg with
  | chars text => exact copyStr_strict text
  | string text => exact copyStr_strict text
  | char c => exact filledStr_strict (.inr (by decide))
  | integer n => exact integerToCstr_strict n

theorem passArgs_strict (args : List Argument) :
    Strict (passArgs args) fun copies => ∀ p ∈ copies, IsBlock p := by
  induction args with
  | nil => exact Strict.pure (List.forall_mem_nil _)
  | cons arg args ih =>
    cases arg with
    | string text =>
      refine (copyStr_strict text).bind fun copy hcopy => ?_
      refine ih.bind fun copies hcopies => ?_
      exact Strict.pure (List.forall_mem_cons.mpr ⟨hcopy, hcopies⟩)
    | chars text => exact ih
    | char c => exact ih
    | integer n => exact ih

theorem toCstrs_strict (args : List Argument) :
    Strict (toCstrs args) fun parts => ∀ part ∈ parts, IsBlock part.1 := by
  induction args with
  | nil => exact Strict.pure (List.forall_mem_nil _)
  | cons arg args ih =>
    refine arg.toCstr_strict.bind fun part hpart => ?_
    refine ih.bind fun parts hparts => ?_
    exact Strict.pure (List.forall_mem_cons.mpr ⟨hpart, hparts⟩)

theorem combineParts_strict {parts : List (Option Nat × CString)} (h : ∀ part ∈ parts, IsBlock part.1)
    (data : Nat) (text : CString) : Strict (combineParts (some data) text parts) IsBlock := by
  induction parts generalizing data text with
  | nil => exact Strict.pure rfl
  | cons part parts ih =>
    obtain ⟨hpart, hparts⟩ := List.forall_mem_cons.mp h
    obtain ⟨p, hp⟩ := Option.isSome_iff_exists.mp hpart
    refine (strCombine_strict text part.2).bindBlock fun combined => ?_
    refine (free_strict data).bind fun _ _ => ?_
    rw [hp]
    refine (free_strict p).bind fun _ _ => ?_
    exact ih hparts combined _

theorem freeAll_strict {ptrs : List (Option Nat)} (h : ∀ p ∈ ptrs, IsBlock p) :
    Strict (freeAll ptrs) fun _ => True := by
  induction ptrs with
  | nil => exact Strict.pure trivial
  | cons ptr ptrs ih =>
    obtain ⟨hptr, hptrs⟩ := List.forall_mem_cons.mp h
    obtain ⟨p, rfl⟩ := Option.isSome_iff_exists.mp hptr
    exact (free_strict p).bind fun _ _ => ih hptrs

theorem construct_strict (args : List Argument) : Strict (construct args) IsBlock := by
  refine (passArgs_strict args).bind fun copies hcopies => ?_
  refine (toCstrs_strict args).bind fun parts hparts => ?_
  refine (mallocStr_strict Nat.one_pos).bindBlock fun data => ?_
  refine (combineParts_strict hparts data []).bindBlock fun combined => ?_
  refine (freeAll_strict hcopies).bind fun _ _ => ?_
  exact Strict.pure rfl

/-- A new block in place of `data`. -/
theorem replaceData_strict {m : HeapProgram (Option Nat)} (hm : Strict m IsBlock) (data : Nat) :
    Strict (m >>= fun p => free (some data) >>= fun _ => pure p) IsBlock := by
  refine hm.bindBlock fun p => ?_
  refine (free_strict data).bind fun _ _ => ?_
  exact Strict.pure rfl

end NullChecks

end EszOs
