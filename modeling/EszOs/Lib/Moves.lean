import Mathlib.Algebra.BigOperators.Group.List.Basic
import Mathlib.Algebra.GroupWithZero.Nat

/-!
# Copying in chunks

A loop that copies between two ranges of a memory reads and writes a chunk at a time, from the front
on. Where the ranges overlap, a chunk may be overwritten before it is read.

* `copyChunks_inside`: what each position has in the end.
* `copyChunks_copies_iff`: the copy is right exactly if what was overwritten too early had the same
  value.
* `copyChunks_eq_copyChunk`: if nothing is overwritten too early, the lengths do not matter.
-/

namespace Moves

variable {β : Type*} {m : Nat → β} {dest src : Nat}

/-- The `len` values from `src` on are read, and then written from `dest` on. -/
def copyChunk (m : Nat → β) (dest src len : Nat) : Nat → β := fun x =>
  if dest ≤ x ∧ x < dest + len then m (src + (x - dest)) else m x

/-- The chunks from offset `i` on, one after the other; the list has their lengths. -/
def copyChunks (dest src : Nat) : List Nat → Nat → (Nat → β) → Nat → β
  | [], _, m => m
  | len :: lens, i, m => copyChunks dest src lens (i + len) (copyChunk m (dest + i) (src + i) len)

/-- Where the chunk of offset `j` starts. -/
def chunkStart : List Nat → Nat → Nat → Nat
  | [], i, _ => i
  | len :: lens, i, j => if j < i + len then i else chunkStart lens (i + len) j

theorem chunkStart_le (lens : List Nat) {i j : Nat} (h : i ≤ j) : chunkStart lens i j ≤ j := by
  induction lens generalizing i with
  | nil => exact h
  | cons len lens ih =>
    rw [chunkStart]
    split
    · exact h
    · exact ih (by omega)

theorem chunkStart_append (as bs : List Nat) (i j : Nat) :
    chunkStart (as ++ bs) i j =
      if j < i + as.sum then chunkStart as i j else chunkStart bs (i + as.sum) j := by
  induction as generalizing i with
  | nil =>
    rw [List.nil_append, List.sum_nil, Nat.add_zero, chunkStart]
    split
    · rename_i h
      cases bs with
      | nil => rfl
      | cons len bs => rw [chunkStart, if_pos (by omega)]
    · rfl
  | cons len as ih =>
    rw [List.cons_append, chunkStart, ih, List.sum_cons, chunkStart, Nat.add_assoc]
    by_cases hj : j < i + len
    · rw [if_pos hj, if_pos (by omega), if_pos hj]
    · simp only [if_neg hj]

theorem chunkStart_replicate {k n i j : Nat} (hk : 0 < k) (h1 : i ≤ j) (h2 : j < i + n * k) :
    chunkStart (List.replicate n k) i j = i + (j - i) / k * k := by
  induction n generalizing i with
  | zero => omega
  | succ n ih =>
    rw [Nat.succ_mul] at h2
    rw [List.replicate_succ, chunkStart]
    by_cases hj : j < i + k
    · rw [if_pos hj, Nat.div_eq_of_lt (by omega), Nat.zero_mul, Nat.add_zero]
    · have hdiv : (j - i) / k = (j - (i + k)) / k + 1 := by
        rw [← Nat.add_div_right _ hk, show j - (i + k) + k = j - i by omega]
      rw [if_neg hj, ih (by omega) (by omega), hdiv, Nat.succ_mul]
      omega

theorem le_chunkStart (lens : List Nat) (i j : Nat) : i ≤ chunkStart lens i j := by
  induction lens generalizing i with
  | nil => exact Nat.le_refl _
  | cons len lens ih =>
    rw [chunkStart]
    split
    · exact Nat.le_refl _
    · exact Nat.le_trans (Nat.le_add_right i len) (ih (i + len))

/-- Nothing is written outside the chunks. -/
theorem copyChunks_outside {lens : List Nat} {i x : Nat}
    (h : x < dest + i ∨ dest + i + lens.sum ≤ x) : copyChunks dest src lens i m x = m x := by
  induction lens generalizing i m with
  | nil => rfl
  | cons len lens ih =>
    rw [List.sum_cons] at h
    rw [copyChunks, ih (by omega), copyChunk, if_neg (by omega)]

theorem copyChunks_append (as bs : List Nat) (i : Nat) (m : Nat → β) :
    copyChunks dest src (as ++ bs) i m =
      copyChunks dest src bs (i + as.sum) (copyChunks dest src as i m) := by
  induction as generalizing i m with
  | nil => rfl
  | cons len as ih => rw [List.cons_append, copyChunks, copyChunks, ih, List.sum_cons, Nat.add_assoc]

/-- A position gets the value of its source, which is the final one if the source is a position of
an earlier chunk. -/
theorem copyChunks_inside {lens : List Nat} {i j : Nat} (h1 : i ≤ j) (h2 : j < i + lens.sum) :
    copyChunks dest src lens i m (dest + j) =
      if dest + i ≤ src + j ∧ src + j < dest + chunkStart lens i j then
        copyChunks dest src lens i m (src + j)
      else m (src + j) := by
  induction lens generalizing i m with
  | nil => exact absurd h2 (by simpa using h1)
  | cons len lens ih =>
    rw [List.sum_cons] at h2
    rw [copyChunks, chunkStart]
    by_cases hchunk : j < i + len
    · have hsrc : src + i + (dest + j - (dest + i)) = src + j := by omega
      rw [if_pos hchunk, if_neg (by omega), copyChunks_outside (by omega), copyChunk,
        if_pos (by omega), hsrc]
    · have hstart := le_chunkStart lens (i + len) j
      rw [if_neg hchunk, ih (by omega) (by omega)]
      by_cases hlast : dest + i ≤ src + j ∧ src + j < dest + i + len
      · -- The source is in the chunk that was just written.
        rw [if_neg (by omega), if_pos (by omega), copyChunks_outside (by omega)]
      · rw [copyChunk, if_neg hlast]
        exact if_congr (by omega) rfl rfl

/-- The source at offset `j` is overwritten before it is read. -/
def Overwritten (dest src : Nat) (lens : List Nat) (j : Nat) : Prop :=
  dest ≤ src + j ∧ src + j < dest + chunkStart lens 0 j

/-- The copy is right exactly if each value that is overwritten before it is read is the same as the
one written over it. -/
theorem copyChunks_copies_iff {lens : List Nat} :
    (∀ j < lens.sum, copyChunks dest src lens 0 m (dest + j) = m (src + j)) ↔
      ∀ j < lens.sum, Overwritten dest src lens j → m (src + (src + j - dest)) = m (src + j) := by
  have hinside : ∀ j < lens.sum, copyChunks dest src lens 0 m (dest + j) = _ := fun j hj =>
    copyChunks_inside (Nat.zero_le j) (by rwa [Nat.zero_add])
  constructor
  · intro h j hj hover
    have hstart := chunkStart_le lens (Nat.zero_le j)
    have hearlier : dest + (src + j - dest) = src + j := Nat.add_sub_of_le hover.1
    have hvalue := (h j hj).symm.trans ((hinside j hj).trans (if_pos hover))
    rw [Overwritten] at hover
    rw [← h (src + j - dest) (by omega), hearlier, hvalue]
  · intro h j
    induction j using Nat.strongRecOn with
    | ind j ih =>
      intro hj
      have hstart := chunkStart_le lens (Nat.zero_le j)
      rw [hinside j hj]
      split
      · rename_i hover
        have hearlier : dest + (src + j - dest) = src + j := Nat.add_sub_of_le hover.1
        rw [← h j hj hover, ← ih (src + j - dest) (by omega) (by omega), hearlier]
      · rfl

/-- Towards lower addresses, and between ranges that are apart, nothing is overwritten too early. -/
theorem not_overwritten {lens : List Nat} {j : Nat} (h : dest ≤ src ∨ src + lens.sum ≤ dest)
    (hj : j < lens.sum) : ¬ Overwritten dest src lens j := by
  have hstart := chunkStart_le lens (Nat.zero_le j)
  rw [Overwritten]
  omega

/-- Then it copies. -/
theorem copyChunks_of_not_overwritten {lens : List Nat} {j : Nat} (hj : j < lens.sum)
    (h : ¬ Overwritten dest src lens j) :
    copyChunks dest src lens 0 m (dest + j) = m (src + j) :=
  (copyChunks_inside (Nat.zero_le j) (by rwa [Nat.zero_add])).trans (if_neg h)

/-- Then it does not matter how the range is cut into chunks. -/
theorem copyChunks_eq_copyChunk {lens : List Nat} (h : dest ≤ src ∨ src + lens.sum ≤ dest) :
    copyChunks dest src lens 0 m = copyChunk m dest src lens.sum := by
  funext x
  by_cases hx : dest ≤ x ∧ x < dest + lens.sum
  · obtain ⟨j, rfl⟩ := Nat.exists_eq_add_of_le hx.1
    have hj : j < lens.sum := by omega
    rw [copyChunks_of_not_overwritten hj (not_overwritten h hj), copyChunk, if_pos hx,
      Nat.add_sub_cancel_left]
  · rw [copyChunks_outside (by omega), copyChunk, if_neg hx]

end Moves
