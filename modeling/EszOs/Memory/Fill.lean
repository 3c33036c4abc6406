import Mathlib.Algebra.BigOperators.Group.List.Basic
import EszOs.Config
import EszOs.Lib.Bytes
import EszOs.Lib.Moves

/-!
# Filling and copying memory (`memory/memory.cpp`)

The functions work on eight bytes at a time and then on the bytes that are left.

* `memoryFill_apply`: exactly the `n` bytes from `target` are set.
* `memoryCopy_apply`: the `n` bytes from `copyTo` are those from `copyFrom`, if these are apart.
* `memoryFill_memoryCopy_bytewise`: a loop over the bytes does the same.
-/

namespace EszOs

open Bytes

/-! ## Definitions -/

/-- The loop over the words of `memory_fill`; `n` words are left, the next one is word `i`. -/
def fillWords (m : Mem) (dest64 value64 : Nat) : Nat → Nat → Mem
  | 0, _ => m
  | n + 1, i => fillWords (writeLE m (dest64 + 8 * i) 8 value64) dest64 value64 n (i + 1)

def fillBytes (m : Mem) (dest8 : Nat) (value : UInt8) : Nat → Nat → Mem
  | 0, _ => m
  | n + 1, i => fillBytes (store m (dest8 + i) value) dest8 value n (i + 1)

def memoryFill (m : Mem) (target : Nat) (value : UInt8) (n : Nat) : Mem :=
  let count64 := n / 8
  let value64 := u64 (value.toNat * 0x0101010101010101)
  fillBytes (fillWords m target value64 count64 0) (target + 8 * count64) value (n % 8) 0

def memoryClear (m : Mem) (target n : Nat) : Mem := memoryFill m target 0 n

/-- The loop over the words of `memory_copy`. -/
def copyWords (m : Mem) (dest64 src64 : Nat) : Nat → Nat → Mem
  | 0, _ => m
  | n + 1, i =>
    copyWords (writeLE m (dest64 + 8 * i) 8 (readLE m (src64 + 8 * i) 8)) dest64 src64 n (i + 1)

def copyBytes (m : Mem) (dest8 src8 : Nat) : Nat → Nat → Mem
  | 0, _ => m
  | n + 1, i => copyBytes (store m (dest8 + i) (m (src8 + i))) dest8 src8 n (i + 1)

def memoryCopy (m : Mem) (copyTo copyFrom n : Nat) : Mem :=
  let count64 := n / 8
  copyBytes (copyWords m copyTo copyFrom count64 0) (copyTo + 8 * count64) (copyFrom + 8 * count64)
    (n % 8) 0

/-! ## `memory_fill` -/

/-- Every byte of the word is the value. -/
theorem value64_byte (value : UInt8) {k : Nat} (hk : k < 8) :
    UInt8.ofNat (u64 (value.toNat * 0x0101010101010101) / 256 ^ k) = value := by
  have hall : ∀ v < 2 ^ 8, ∀ k < 8, u64 (v * 0x0101010101010101) / 256 ^ k % 2 ^ 8 = v := by
    decide +kernel
  refine UInt8.toNat_inj.mp ?_
  rw [UInt8.toNat_ofNat', hall _ value.toNat_lt k hk]

theorem fillWords_apply (m : Mem) (dest64 value64 n i x : Nat) :
    fillWords m dest64 value64 n i x =
      if dest64 + 8 * i ≤ x ∧ x < dest64 + 8 * (i + n) then
        UInt8.ofNat (value64 / 256 ^ ((x - dest64) % 8))
      else m x := by
  induction n generalizing m i with
  | zero => rw [fillWords, if_neg (by omega)]
  | succ n ih =>
    rw [fillWords, ih]
    by_cases hx : dest64 + 8 * i ≤ x ∧ x < dest64 + 8 * i + 8
    · have hbyte : x - (dest64 + 8 * i) = (x - dest64) % 8 := by omega
      rw [if_neg (by omega), if_pos (by omega), writeLE, if_pos hx, hbyte]
    · rw [writeLE_outside (by omega)]
      exact if_congr (by omega) rfl rfl

theorem fillBytes_apply (m : Mem) (dest8 : Nat) (value : UInt8) (n i x : Nat) :
    fillBytes m dest8 value n i x =
      if dest8 + i ≤ x ∧ x < dest8 + (i + n) then value else m x := by
  induction n generalizing m i with
  | zero => rw [fillBytes, if_neg (by omega)]
  | succ n ih =>
    rw [fillBytes, ih]
    by_cases hx : x = dest8 + i
    · rw [if_neg (by omega), if_pos (by omega), hx, store_self]
    · rw [store_of_ne hx]
      exact if_congr (by omega) rfl rfl

/-- `memory_fill` sets the bytes of the range and no other. -/
theorem memoryFill_apply (m : Mem) (target : Nat) (value : UInt8) (n x : Nat) :
    memoryFill m target value n x = if target ≤ x ∧ x < target + n then value else m x := by
  have hn := Nat.div_add_mod n 8
  simp only [memoryFill, fillBytes_apply, fillWords_apply,
    value64_byte value (Nat.mod_lt (x - target) (by decide : 0 < 8))]
  by_cases hx : target ≤ x ∧ x < target + n
  · rw [if_pos hx]
    by_cases htail : target + 8 * (n / 8) ≤ x
    · rw [if_pos (by omega)]
    · rw [if_neg (by omega), if_pos (by omega)]
  · rw [if_neg hx, if_neg (by omega), if_neg (by omega)]

/-! ## `memory_copy` -/

/-- The lengths of what `memory_copy` copies at a time. -/
def copyLengths (n : Nat) : List Nat := List.replicate (n / 8) 8 ++ List.replicate (n % 8) 1

@[simp] theorem sum_copyLengths (n : Nat) : (copyLengths n).sum = n := by
  simp only [copyLengths, List.sum_append, List.sum_replicate_nat]
  omega

theorem copyWords_eq (m : Mem) (dest64 src64 n i : Nat) :
    copyWords m dest64 src64 n i =
      Moves.copyChunks dest64 src64 (List.replicate n 8) (8 * i) m := by
  induction n generalizing m i with
  | zero => rfl
  | succ n ih =>
    have hword : writeLE m (dest64 + 8 * i) 8 (readLE m (src64 + 8 * i) 8) =
        Moves.copyChunk m (dest64 + 8 * i) (src64 + 8 * i) 8 := by
      funext x
      by_cases hx : dest64 + 8 * i ≤ x ∧ x < dest64 + 8 * i + 8
      · rw [writeLE, Moves.copyChunk, if_pos hx, if_pos hx, readLE_byte m (by omega)]
      · rw [writeLE, Moves.copyChunk, if_neg hx, if_neg hx]
    rw [copyWords, ih, hword, List.replicate_succ, Moves.copyChunks, Nat.mul_succ]

theorem copyBytes_eq (m : Mem) (dest src a n i : Nat) :
    copyBytes m (dest + a) (src + a) n i =
      Moves.copyChunks dest src (List.replicate n 1) (a + i) m := by
  induction n generalizing m i with
  | zero => rfl
  | succ n ih =>
    have hbyte : store m (dest + a + i) (m (src + a + i)) =
        Moves.copyChunk m (dest + (a + i)) (src + (a + i)) 1 := by
      funext x
      by_cases hx : x = dest + a + i
      · rw [hx, store_self, Moves.copyChunk, if_pos (by omega), Nat.add_assoc dest, Nat.sub_self,
          Nat.add_zero, Nat.add_assoc]
      · rw [store_of_ne hx, Moves.copyChunk, if_neg (by omega)]
    rw [copyBytes, ih, hbyte, List.replicate_succ, Moves.copyChunks, Nat.add_assoc]

theorem memoryCopy_eq (m : Mem) (copyTo copyFrom n : Nat) :
    memoryCopy m copyTo copyFrom n = Moves.copyChunks copyTo copyFrom (copyLengths n) 0 m := by
  have hwords : 0 + (List.replicate (n / 8) 8).sum = 8 * (n / 8) + 0 := by
    rw [List.sum_replicate_nat, Nat.mul_comm, Nat.zero_add, Nat.add_zero]
  rw [memoryCopy, copyBytes_eq, copyWords_eq, copyLengths, Moves.copyChunks_append, hwords]

/-- `memory_copy` writes nothing outside the range. -/
theorem memoryCopy_outside {m : Mem} {copyTo copyFrom n x : Nat}
    (h : x < copyTo ∨ copyTo + n ≤ x) : memoryCopy m copyTo copyFrom n x = m x := by
  rw [memoryCopy_eq, Moves.copyChunks_outside (by rwa [sum_copyLengths, Nat.add_zero])]

/-- Between ranges that are apart, one chunk after the other is all bytes at once. -/
theorem memoryCopy_eq_copyChunk (m : Mem) {copyTo copyFrom n : Nat}
    (h : copyTo + n ≤ copyFrom ∨ copyFrom + n ≤ copyTo) :
    memoryCopy m copyTo copyFrom n = Moves.copyChunk m copyTo copyFrom n := by
  rw [memoryCopy_eq, Moves.copyChunks_eq_copyChunk (by rw [sum_copyLengths]; omega), sum_copyLengths]

/-- `memory_copy` between ranges that are apart. -/
theorem memoryCopy_apply (m : Mem) {copyTo copyFrom n : Nat} (x : Nat)
    (h : copyTo + n ≤ copyFrom ∨ copyFrom + n ≤ copyTo) :
    memoryCopy m copyTo copyFrom n x =
      if copyTo ≤ x ∧ x < copyTo + n then m (copyFrom + (x - copyTo)) else m x := by
  rw [memoryCopy_eq_copyChunk m h, Moves.copyChunk]

/-! ## Byte by byte -/

theorem memoryFill_eq_fillBytes (m : Mem) (target : Nat) (value : UInt8) (n : Nat) :
    memoryFill m target value n = fillBytes m target value n 0 := by
  funext x
  rw [memoryFill_apply, fillBytes_apply, Nat.add_zero, Nat.zero_add]

theorem memoryCopy_eq_copyBytes (m : Mem) {copyTo copyFrom n : Nat}
    (h : copyTo + n ≤ copyFrom ∨ copyFrom + n ≤ copyTo) :
    memoryCopy m copyTo copyFrom n = copyBytes m copyTo copyFrom n 0 := by
  have hsum : (List.replicate n 1).sum = n := by rw [List.sum_replicate_nat, Nat.mul_one]
  have hbytes := copyBytes_eq m copyTo copyFrom 0 n 0
  rw [Nat.add_zero, Nat.add_zero, Nat.add_zero,
    Moves.copyChunks_eq_copyChunk (by rw [hsum]; omega), hsum] at hbytes
  rw [memoryCopy_eq_copyChunk m h, hbytes]

/-- The words and the bytes that are left are what a loop over the bytes sets and copies, and no other
byte is changed. -/
theorem memoryFill_memoryCopy_bytewise (m : Mem) (n : Nat) :
    (∀ (target : Nat) (value : UInt8),
      memoryFill m target value n = fillBytes m target value n 0 ∧
        ∀ x, memoryFill m target value n x = if target ≤ x ∧ x < target + n then value else m x) ∧
    ∀ copyTo copyFrom : Nat, copyTo + n ≤ copyFrom ∨ copyFrom + n ≤ copyTo →
      memoryCopy m copyTo copyFrom n = copyBytes m copyTo copyFrom n 0 ∧
        ∀ x, memoryCopy m copyTo copyFrom n x =
          if copyTo ≤ x ∧ x < copyTo + n then m (copyFrom + (x - copyTo)) else m x := by
  constructor
  · intro target value
    exact ⟨memoryFill_eq_fillBytes m target value n, memoryFill_apply m target value n⟩
  · intro copyTo copyFrom h
    exact ⟨memoryCopy_eq_copyBytes m h, fun x => memoryCopy_apply m x h⟩

/-- A word and five bytes are copied behind the source. -/
theorem memoryCopy_bytewise_thirteen :
    memoryCopy (fun x => UInt8.ofNat x) 16 0 13 = copyBytes (fun x => UInt8.ofNat x) 16 0 13 0 ∧
      memoryCopy (fun x => UInt8.ofNat x) 16 0 13 28 = 12 := by
  obtain ⟨hbytes, hvalue⟩ :=
    (memoryFill_memoryCopy_bytewise (fun x => UInt8.ofNat x) 13).2 16 0 (.inr (by decide))
  exact ⟨hbytes, (hvalue 28).trans (if_pos (by decide))⟩

end EszOs
