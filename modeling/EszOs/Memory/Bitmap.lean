import Mathlib.Data.Nat.Bitwise
import Mathlib.Order.Bounds.Defs
import EszOs.Config
import EszOs.Lib.Bytes

/-!
# Bitmaps (`bit.h`, `helper/bitmap/bitmap.cpp`)

Both page allocators keep one bit per page in a byte array; a set bit is a page in use. The shifts
and masks are those of the source.

* `bitRead_bitWrite`: a written bit reads back, and every other bit is kept.
* `bitRead_writeLoop`: what the loops that write a range leave.
* `findFreeRange_some`, `findFreeRange_none`: the first run of free bits is found, if there is one.
* `findFreeRange_isLeast`: both in one statement, for every range.
* `ext_bitRead`: the bits determine the bytes.
-/

namespace EszOs

open Bytes

/-! ## `bit.h` -/

def bitSet (bitmap : Mem) (page : Nat) : Mem :=
  store bitmap (page / 8) (bitmap (page / 8) ||| (1 <<< UInt8.ofNat (page % 8)))

def bitClear (bitmap : Mem) (page : Nat) : Mem :=
  store bitmap (page / 8) (bitmap (page / 8) &&& ~~~(1 <<< UInt8.ofNat (page % 8)))

def bitWrite (bitmap : Mem) (page : Nat) (value : Bool) : Mem :=
  if value then bitSet bitmap page else bitClear bitmap page

def bitRead (bitmap : Mem) (page : Nat) : Bool :=
  (bitmap (page / 8) >>> UInt8.ofNat (page % 8)) &&& 1 != 0

private theorem shift_toNat {k : Nat} (hk : k < 8) : (UInt8.ofNat k).toNat % 8 = k := by
  rw [UInt8.toNat_ofNat']
  omega

/-- The bit `bit_read` tests, as a bit of the byte. -/
theorem bitRead_eq (bitmap : Mem) (page : Nat) :
    bitRead bitmap page = (bitmap (page / 8)).toNat.testBit (page % 8) := by
  have h := shift_toNat (Nat.mod_lt page (by decide : 0 < 8))
  rw [bitRead, Nat.testBit, Bool.eq_iff_iff]
  simp only [bne_iff_ne, ne_eq, ← UInt8.toNat_inj, UInt8.toNat_and, UInt8.toNat_shiftRight, h,
    Nat.and_comm 1]
  rfl

private theorem mask_testBit {k j : Nat} (hk : k < 8) (hj : j < 8) :
    ((1 : UInt8) <<< UInt8.ofNat k).toNat.testBit j = decide (k = j) := by
  rw [UInt8.toNat_shiftLeft, shift_toNat hk, Nat.testBit_mod_two_pow]
  simp [Nat.shiftLeft_eq, Nat.testBit_two_pow, hj]

private theorem set_testBit (x : UInt8) {k j : Nat} (hk : k < 8) (hj : j < 8) :
    (x ||| (1 <<< UInt8.ofNat k)).toNat.testBit j = (decide (k = j) || x.toNat.testBit j) := by
  rw [UInt8.toNat_or, Nat.testBit_or, mask_testBit hk hj, Bool.or_comm]

private theorem clear_testBit (x : UInt8) {k j : Nat} (hk : k < 8) (hj : j < 8) :
    (x &&& ~~~(1 <<< UInt8.ofNat k)).toNat.testBit j = (!decide (k = j) && x.toNat.testBit j) := by
  have hlt := UInt8.toNat_lt ((1 : UInt8) <<< UInt8.ofNat k)
  have hnot := Nat.testBit_two_pow_sub_succ hlt j
  have hsize : UInt8.size - 1 - ((1 : UInt8) <<< UInt8.ofNat k).toNat =
      2 ^ 8 - (((1 : UInt8) <<< UInt8.ofNat k).toNat + 1) := by
    rw [show UInt8.size = 256 from rfl]
    omega
  rw [UInt8.toNat_and, Nat.testBit_and, UInt8.toNat_not, hsize, hnot, mask_testBit hk hj,
    Bool.and_comm]
  simp [hj]

/-- A written bit reads back, and every other bit is kept. -/
theorem bitRead_bitWrite (bitmap : Mem) (p q : Nat) (value : Bool) :
    bitRead (bitWrite bitmap p value) q = if q = p then value else bitRead bitmap q := by
  have hp := Nat.mod_lt p (by decide : 0 < 8)
  have hq := Nat.mod_lt q (by decide : 0 < 8)
  by_cases hbyte : q / 8 = p / 8
  · have hbit : (p % 8 = q % 8) ↔ q = p := by omega
    cases value <;>
      simp only [bitRead_eq, bitWrite, bitSet, bitClear, hbyte, store_self, Bool.false_eq_true,
        ↓reduceIte, set_testBit _ hp hq, clear_testBit _ hp hq, hbit] <;>
      by_cases h : q = p <;> simp [h]
  · have hne : q ≠ p := by rintro rfl; exact hbyte rfl
    rw [if_neg hne]
    cases value <;>
      simp only [bitRead_eq, bitWrite, bitSet, bitClear, Bool.false_eq_true, ↓reduceIte,
        store_of_ne hbyte]

/-- The bits determine the bytes. -/
theorem ext_bitRead {b b' : Mem} (h : ∀ p, bitRead b p = bitRead b' p) : b = b' := by
  funext a
  refine UInt8.toNat_inj.mp (Nat.eq_of_testBit_eq fun k => ?_)
  by_cases hk : k < 8
  · have h := h (8 * a + k)
    rw [bitRead_eq, bitRead_eq, show (8 * a + k) / 8 = a by omega,
      show (8 * a + k) % 8 = k by omega] at h
    exact h
  · have hpow : 2 ^ 8 ≤ 2 ^ k := Nat.pow_le_pow_right (by decide) (by omega)
    rw [Nat.testBit_lt_two_pow (Nat.lt_of_lt_of_le (UInt8.toNat_lt _) hpow),
      Nat.testBit_lt_two_pow (Nat.lt_of_lt_of_le (UInt8.toNat_lt _) hpow)]

/-- The loop of the functions that write `n` bits from bit `i` on. -/
def writeLoop (bitmap : Mem) (state : Bool) : Nat → Nat → Mem
  | 0, _ => bitmap
  | n + 1, i => writeLoop (bitWrite bitmap i state) state n (i + 1)

theorem bitRead_writeLoop (bitmap : Mem) (state : Bool) (n i q : Nat) :
    bitRead (writeLoop bitmap state n i) q =
      if i ≤ q ∧ q < i + n then state else bitRead bitmap q := by
  induction n generalizing bitmap i with
  | zero => rw [writeLoop, if_neg (by omega)]
  | succ n ih =>
    rw [writeLoop, ih, bitRead_bitWrite]
    by_cases hq : q = i
    · rw [if_neg (by omega), if_pos hq, if_pos (by omega)]
    · rw [if_neg hq]
      by_cases hr : i + 1 ≤ q ∧ q < i + 1 + n
      · rw [if_pos hr, if_pos (by omega)]
      · rw [if_neg hr, if_neg (by omega)]

/-! ## `bitmap.cpp` -/

structure Bitmap where
  bitmap : Mem
  count : Nat

namespace Bitmap

def clear (b : Bitmap) : Bitmap := { b with bitmap := writeLoop b.bitmap false b.count 0 }

/-- The loop of `find_free_range`; `n` bits are left, the next one is bit `i`. -/
def findLoop (b : Bitmap) (range : Nat) : Nat → Nat → Nat → Nat → Nat × Bool
  | 0, _, _, _ => (0, false)
  | n + 1, i, foundFreeCounter, firstFreeOfSeries =>
    if bitRead b.bitmap i = false then
      let firstFreeOfSeries := if foundFreeCounter = 0 then i else firstFreeOfSeries
      if foundFreeCounter + 1 = range then (firstFreeOfSeries, true)
      else findLoop b range n (i + 1) (foundFreeCounter + 1) firstFreeOfSeries
    else findLoop b range n (i + 1) 0 firstFreeOfSeries

/-- `find_free_range`: the result with the `success` flag. -/
def findFreeRange (b : Bitmap) (range : Nat) : Nat × Bool := b.findLoop range b.count 0 0 0

def writeBitsInRangeFrom (b : Bitmap) (range startBit : Nat) (state : Bool) : Bitmap :=
  { b with bitmap := writeLoop b.bitmap state (u64 (range + startBit) - startBit) startBit }

/-- Without a wrap-around of the last index, the loop writes the bits of the range. -/
theorem writeBitsInRangeFrom_bitmap (b : Bitmap) {range startBit : Nat} (state : Bool)
    (h : startBit + range < 2 ^ 64) :
    (b.writeBitsInRangeFrom range startBit state).bitmap = writeLoop b.bitmap state range startBit := by
  rw [writeBitsInRangeFrom, u64_of_lt (by omega), Nat.add_sub_cancel]

theorem bitRead_writeBitsInRangeFrom {b : Bitmap} {range startBit : Nat} {state : Bool} (q : Nat)
    (h : startBit + range < 2 ^ 64) :
    bitRead (b.writeBitsInRangeFrom range startBit state).bitmap q =
      if startBit ≤ q ∧ q < startBit + range then state else bitRead b.bitmap q := by
  rw [writeBitsInRangeFrom_bitmap b state h, bitRead_writeLoop]

/-- Page `p` can be handed out. -/
def Free (b : Bitmap) (p : Nat) : Prop := p < b.count ∧ bitRead b.bitmap p = false

instance (b : Bitmap) (p : Nat) : Decidable (b.Free p) := inferInstanceAs (Decidable (_ ∧ _))

/-- A run of `range` free bits from `p` on. -/
def FreeRun (b : Bitmap) (range p : Nat) : Prop :=
  p + range ≤ b.count ∧ ∀ q, p ≤ q → q < p + range → bitRead b.bitmap q = false

/-! ## The first free run -/

/-- The loop after the bits below `i`: a run of `c` free bits ends at `i`, and no full run starts
before it. -/
theorem findLoop_spec (b : Bitmap) {range n i c f : Nat} (hr : 0 < range) (hn : n + i = b.count)
    (hc : c ≤ i) (hcr : c < range) (hf : 0 < c → f = i - c)
    (hrun : ∀ q, i - c ≤ q → q < i → bitRead b.bitmap q = false)
    (hfirst : ∀ p < i - c, ¬ b.FreeRun range p) :
    (∃ p, b.findLoop range n i c f = (p, true) ∧ b.FreeRun range p ∧
        ∀ q < p, ¬ b.FreeRun range q) ∨
      (b.findLoop range n i c f = (0, false) ∧ ∀ p, ¬ b.FreeRun range p) := by
  induction n generalizing i c f with
  | zero =>
    refine .inr ⟨rfl, fun p hp => ?_⟩
    by_cases hlt : p < i - c
    · exact hfirst p hlt hp
    · have := hp.1
      omega
  | succ n ih =>
    by_cases hbit : bitRead b.bitmap i = false
    · have hseries : (if c = 0 then i else f) = i - c := by
        split
        · omega
        · exact hf (by omega)
      have hrun' : ∀ q, i - c ≤ q → q < i + 1 → bitRead b.bitmap q = false := fun q h1 h2 => by
        rcases Nat.lt_succ_iff_lt_or_eq.mp h2 with h | rfl
        · exact hrun q h1 h
        · exact hbit
      simp only [findLoop, if_pos hbit, hseries]
      by_cases hfull : c + 1 = range
      · rw [if_pos hfull]
        exact .inl ⟨i - c, rfl, ⟨by omega, fun q h1 h2 => hrun' q h1 (by omega)⟩, hfirst⟩
      · rw [if_neg hfull]
        have hstart : i + 1 - (c + 1) = i - c := by omega
        exact ih (by omega) (by omega) (by omega) (fun _ => hstart.symm)
          (by rw [hstart]; exact hrun') (by rw [hstart]; exact hfirst)
    · simp only [findLoop, if_neg hbit]
      refine ih (by omega) (by omega) hr (by omega) (fun q h1 h2 => absurd h2 (by omega))
        fun p hlt hp => ?_
      -- A run that starts at or before bit `i` would contain it.
      by_cases hlt' : p < i - c
      · exact hfirst p hlt' hp
      · exact hbit (hp.2 i (by omega) (by omega))

theorem findFreeRange_cases (b : Bitmap) {range : Nat} (hr : 0 < range) :
    (∃ p, b.findFreeRange range = (p, true) ∧ b.FreeRun range p ∧ ∀ q < p, ¬ b.FreeRun range q) ∨
      (b.findFreeRange range = (0, false) ∧ ∀ p, ¬ b.FreeRun range p) :=
  b.findLoop_spec hr (by omega) (by omega) hr (by omega) (fun q _ h => absurd h (by omega))
    (fun p h => absurd h (by omega))

/-- An empty range is never found. -/
theorem findLoop_zero (b : Bitmap) (n i c f : Nat) : b.findLoop 0 n i c f = (0, false) := by
  induction n generalizing i c f with
  | zero => rfl
  | succ n ih =>
    simp only [findLoop]
    split
    · rw [if_neg (by omega), ih]
    · exact ih ..

/-- What is found is the first run of free bits. -/
theorem findFreeRange_some {b : Bitmap} {range p : Nat} (h : b.findFreeRange range = (p, true)) :
    0 < range ∧ b.FreeRun range p ∧ ∀ q < p, ¬ b.FreeRun range q := by
  rcases Nat.eq_zero_or_pos range with rfl | hr
  · rw [findFreeRange, findLoop_zero] at h
    simp at h
  · rcases b.findFreeRange_cases hr with ⟨q, hq, hrun⟩ | ⟨hq, -⟩
    · rw [hq] at h
      cases h
      exact ⟨hr, hrun⟩
    · rw [hq] at h
      simp at h

/-- Nothing is found only if there is no run of free bits. -/
theorem findFreeRange_none {b : Bitmap} {range : Nat} (h : (b.findFreeRange range).2 = false) :
    range = 0 ∨ ∀ p, ¬ b.FreeRun range p := by
  rcases Nat.eq_zero_or_pos range with rfl | hr
  · exact .inl rfl
  · rcases b.findFreeRange_cases hr with ⟨q, hq, -⟩ | ⟨-, hn⟩
    · rw [hq] at h
      simp at h
    · exact .inr hn

/-- `find_free_range` succeeds exactly if there is a run of `range` free bits, for a range of at
least 1, and returns the first one. -/
theorem findFreeRange_isLeast (b : Bitmap) (range : Nat) :
    ((b.findFreeRange range).2 = true ↔ 0 < range ∧ ∃ p, b.FreeRun range p) ∧
      ((b.findFreeRange range).2 = true →
        IsLeast {p | b.FreeRun range p} (b.findFreeRange range).1) := by
  refine ⟨⟨fun h => ?_, fun ⟨hpos, p, hp⟩ => ?_⟩, fun h => ?_⟩
  · obtain ⟨hpos, hrun, -⟩ := findFreeRange_some (Prod.ext rfl h)
    exact ⟨hpos, _, hrun⟩
  · rcases b.findFreeRange_cases hpos with ⟨q, hq, -⟩ | ⟨-, hno⟩
    · rw [hq]
    · exact absurd hp (hno p)
  · obtain ⟨-, hrun, hfirst⟩ := findFreeRange_some (Prod.ext rfl h)
    exact ⟨hrun, fun q hq => Nat.le_of_not_lt fun hlt => hfirst q hlt hq⟩

/-- Bits 0 and 2 are set: the first two free bits in a row are 3 and 4. -/
theorem findFreeRange_holes :
    (⟨fun _ => 0b00000101, 8⟩ : Bitmap).findFreeRange 2 = (3, true) ∧
      IsLeast {p | (⟨fun _ => 0b00000101, 8⟩ : Bitmap).FreeRun 2 p} 3 := by
  have hfind : (⟨fun _ => 0b00000101, 8⟩ : Bitmap).findFreeRange 2 = (3, true) := by decide
  have hleast := (findFreeRange_isLeast ⟨fun _ => 0b00000101, 8⟩ 2).2 (by rw [hfind])
  rw [hfind] at hleast
  exact ⟨hfind, hleast⟩

end Bitmap

end EszOs
