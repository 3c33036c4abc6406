import EszOs.Memory.Fill

/-!
# `memmove` (`types/libc/libc.cpp`)

`memmove` is `memory_copy`, which goes from the front to the back. Where the target overlaps the
source from behind, words or bytes of the source are overwritten before they are read.

* `memmove_moves_iff`: the bytes are moved exactly if each such byte has the value that was written
  over it.
* `memmove_forward`: there is no such byte if the target does not start inside the source.
-/

namespace EszOs

open Bytes

/-- `memmove`: the returned pointer and the memory. -/
def memmove (m : Mem) (dest src n : Nat) : Nat × Mem := (dest, memoryCopy m dest src n)

/-- Where the word starts that `memory_copy` reads byte `j` with, or the byte itself in the tail. -/
def copyStart (n j : Nat) : Nat := if j < n / 8 * 8 then j / 8 * 8 else j

/-- Byte `j` of the source is overwritten before it is read. -/
def OverwrittenEarly (dest src n j : Nat) : Prop := dest ≤ src + j ∧ src + j < dest + copyStart n j

instance (dest src n j : Nat) : Decidable (OverwrittenEarly dest src n j) :=
  inferInstanceAs (Decidable (_ ∧ _))

theorem chunkStart_copyLengths {n j : Nat} (hj : j < n) :
    Moves.chunkStart (copyLengths n) 0 j = copyStart n j := by
  rw [copyLengths, Moves.chunkStart_append, List.sum_replicate_nat, Nat.zero_add, copyStart]
  split
  · rw [Moves.chunkStart_replicate (by decide) (Nat.zero_le j) (by omega), Nat.sub_zero, Nat.zero_add]
  · rw [Moves.chunkStart_replicate (by decide) (by omega) (by omega), Nat.div_one]
    omega

/-- `memmove` moves the bytes and changes no other byte, exactly if each byte of the source that is
overwritten before it is read has the value that was written over it. -/
theorem memmove_moves_iff (m : Mem) (dest src n : Nat) :
    ((∀ j < n, (memmove m dest src n).2 (dest + j) = m (src + j)) ∧
        ∀ x, x < dest ∨ dest + n ≤ x → (memmove m dest src n).2 x = m x) ↔
      ∀ j < n, OverwrittenEarly dest src n j → m (src + (src + j - dest)) = m (src + j) := by
  have houtside : ∀ x, x < dest ∨ dest + n ≤ x → (memmove m dest src n).2 x = m x := fun x hx =>
    memoryCopy_outside hx
  have hchunks := @Moves.copyChunks_copies_iff _ m dest src (copyLengths n)
  rw [sum_copyLengths, ← memoryCopy_eq] at hchunks
  rw [and_iff_left houtside]
  refine hchunks.trans (forall₂_congr fun j hj => ?_)
  rw [Moves.Overwritten, chunkStart_copyLengths hj, OverwrittenEarly]

/-- No byte is overwritten early if the target does not start inside the source. -/
theorem memmove_forward {dest src n j : Nat} (h : dest ≤ src ∨ src + n ≤ dest) (hj : j < n) :
    ¬ OverwrittenEarly dest src n j := by
  have hkeeps := @Moves.not_overwritten dest src (copyLengths n) j (by rwa [sum_copyLengths])
    (by rwa [sum_copyLengths])
  rwa [Moves.Overwritten, chunkStart_copyLengths hj] at hkeeps

/-- Two bytes are moved up by one. -/
theorem memmove_not_moves :
    ¬ ∀ (m : Mem) (dest src n : Nat),
      (∀ j < n, (memmove m dest src n).2 (dest + j) = m (src + j)) ∧
        ∀ x, x < dest ∨ dest + n ≤ x → (memmove m dest src n).2 x = m x := by
  intro h
  have hsecond := (h (fun x => UInt8.ofNat x) 1 0 2).1 1 (by decide)
  exact absurd hsecond (by decide)

end EszOs
