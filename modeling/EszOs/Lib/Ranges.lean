import Mathlib.Algebra.BigOperators.Group.List.Basic
import Mathlib.Algebra.GroupWithZero.Nat
import Mathlib.Data.Finset.Card
import Mathlib.Order.Interval.Finset.Nat

/-!
# Ranges

A range has a start and a length. The numbers that a list of ranges covers are at most as many as the
sum of the lengths, and exactly as many if the ranges are apart. The pieces of one length, one behind
the other, are apart (`piece_apart`).
-/

namespace Ranges

/-- The numbers that the ranges cover. -/
def covered : List (Nat × Nat) → Finset Nat
  | [] => ∅
  | q :: l => Finset.Ico q.1 (q.1 + q.2) ∪ covered l

/-- The sum of the lengths. -/
def total (l : List (Nat × Nat)) : Nat := (l.map Prod.snd).sum

@[simp] theorem total_cons (q : Nat × Nat) (l : List (Nat × Nat)) :
    total (q :: l) = q.2 + total l := by
  rw [total, List.map_cons, List.sum_cons, total]

theorem mem_covered {l : List (Nat × Nat)} {x : Nat} :
    x ∈ covered l ↔ ∃ q ∈ l, q.1 ≤ x ∧ x < q.1 + q.2 := by
  induction l with
  | nil => simp [covered]
  | cons q l ih => simp [covered, ih]

theorem card_covered_le (l : List (Nat × Nat)) : (covered l).card ≤ total l := by
  induction l with
  | nil => exact Nat.le_refl _
  | cons q l ih =>
    have hunion := Finset.card_union_le (Finset.Ico q.1 (q.1 + q.2)) (covered l)
    rw [Nat.card_Ico, Nat.add_sub_cancel_left] at hunion
    rw [total_cons]
    exact hunion.trans (Nat.add_le_add_left ih _)

/-- Two ranges that do not overlap. -/
def Apart (q q' : Nat × Nat) : Prop := q.1 + q.2 ≤ q'.1 ∨ q'.1 + q'.2 ≤ q.1

/-- The first range is part of the second one. -/
def Within (q q' : Nat × Nat) : Prop := q'.1 ≤ q.1 ∧ q.1 + q.2 ≤ q'.1 + q'.2

theorem Apart.symm {q q' : Nat × Nat} (h : Apart q q') : Apart q' q := Or.symm h

/-! ## Pieces of one length -/

/-- Piece `k` of length `n` from `a` on. -/
def piece (a n k : Nat) : Nat × Nat := (a + k * n, n)

theorem piece_within {a n k count : Nat} (h : k < count) : Within (piece a n k) (a, count * n) := by
  have hle : (k + 1) * n ≤ count * n := Nat.mul_le_mul_right n h
  rw [Nat.succ_mul] at hle
  exact ⟨Nat.le_add_right _ _, by simp only [piece]; omega⟩

theorem piece_apart {a n k k' : Nat} (h : k ≠ k') : Apart (piece a n k) (piece a n k') := by
  have hbefore : ∀ i j, i < j → (piece a n i).1 + n ≤ (piece a n j).1 := fun i j hij => by
    have hle : (i + 1) * n ≤ j * n := Nat.mul_le_mul_right n hij
    rw [Nat.succ_mul] at hle
    simp only [piece]
    omega
  rcases Nat.lt_or_gt_of_ne h with hlt | hgt
  · exact .inl (hbefore k k' hlt)
  · exact .inr (hbefore k' k hgt)

/-! ## Lists -/

theorem card_covered {l : List (Nat × Nat)} (h : l.Pairwise Apart) : (covered l).card = total l := by
  induction l with
  | nil => rfl
  | cons q l ih =>
    obtain ⟨hq, hl⟩ := List.pairwise_cons.mp h
    have hdisjoint : Disjoint (Finset.Ico q.1 (q.1 + q.2)) (covered l) := by
      rw [Finset.disjoint_left]
      intro x hx hx'
      obtain ⟨q', hq', h1, h2⟩ := mem_covered.mp hx'
      have hx := Finset.mem_Ico.mp hx
      have hapart := hq q' hq'
      rw [Apart] at hapart
      omega
    rw [covered, Finset.card_union_of_disjoint hdisjoint, ih hl, Nat.card_Ico,
      Nat.add_sub_cancel_left, total_cons]

/-- Ranges that are apart and end at `n` at the latest are not longer than `n` together. -/
theorem total_le_of_apart {l : List (Nat × Nat)} {n : Nat} (h : l.Pairwise Apart)
    (hend : ∀ q ∈ l, q.1 + q.2 ≤ n) : total l ≤ n := by
  have hsub : covered l ⊆ Finset.range n := fun x hx => by
    obtain ⟨q, hq, -, h2⟩ := mem_covered.mp hx
    exact Finset.mem_range.mpr (Nat.lt_of_lt_of_le h2 (hend q hq))
  rw [← card_covered h, ← Finset.card_range n]
  exact Finset.card_le_card hsub

end Ranges
