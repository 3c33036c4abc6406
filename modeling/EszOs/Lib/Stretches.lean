import Mathlib.Algebra.Group.Nat.Defs
import Mathlib.Data.List.Infix

/-!
# Totals between resets

A running total takes the weight of each element of a list and starts again at the elements that
reset it.

* `fits_zero_iff`: the total stays within a bound exactly if no stretch of the list without a reset
  weighs more.
-/

namespace Stretches

universe u

variable {α : Type u} (weight : α → Nat) (resets : α → Bool) (bound : Nat)

/-! ## Definitions -/

/-- A running total that is at `n` stays within the bound. -/
def Fits : Nat → List α → Prop
  | _, [] => True
  | n, a :: l =>
    if resets a then Fits 0 l else n + weight a ≤ bound ∧ Fits (n + weight a) l

/-- A stretch without a reset. -/
def Unbroken (l : List α) : Prop := ∀ a ∈ l, resets a = false

/-- The weight of a stretch. -/
def total : List α → Nat
  | [] => 0
  | a :: l => weight a + total l

@[simp] theorem total_nil : total weight [] = 0 := rfl

@[simp] theorem total_cons (a : α) (l : List α) :
    total weight (a :: l) = weight a + total weight l := rfl

variable {weight resets bound} {n : Nat} {a : α} {l : List α}

@[simp] theorem unbroken_nil : Unbroken resets ([] : List α) := fun _ h => by cases h

@[simp] theorem unbroken_cons :
    Unbroken resets (a :: l) ↔ resets a = false ∧ Unbroken resets l := by
  simp [Unbroken]

/-! ## The bound -/

theorem fits_reset (h : resets a = true) :
    Fits weight resets bound n (a :: l) ↔ Fits weight resets bound 0 l := by
  rw [Fits, if_pos h]

theorem fits_add (h : resets a = false) : Fits weight resets bound n (a :: l) ↔
    n + weight a ≤ bound ∧ Fits weight resets bound (n + weight a) l := by
  rw [Fits, if_neg (by simp [h])]

/-- From `n`, the first stretch has `bound - n` left and every later one the whole bound. -/
theorem fits_iff (hn : n ≤ bound) : Fits weight resets bound n l ↔
    (∀ pre, pre <+: l → Unbroken resets pre → n + total weight pre ≤ bound) ∧
      ∀ mid, mid <:+: l → Unbroken resets mid → total weight mid ≤ bound := by
  induction l generalizing n with
  | nil =>
    refine iff_of_true trivial ⟨fun pre hpre _ => ?_, fun mid hmid _ => ?_⟩
    · rw [List.prefix_nil.mp hpre, total_nil]
      exact hn
    · rw [List.infix_nil.mp hmid, total_nil]
      exact Nat.zero_le _
  | cons a l ih =>
    cases ha : resets a with
    | true =>
      rw [fits_reset ha, ih (Nat.zero_le _)]
      constructor
      · rintro ⟨hpre, hmid⟩
        refine ⟨fun pre hp hu => ?_, fun mid hm hu => ?_⟩
        · rcases List.prefix_cons_iff.mp hp with rfl | ⟨t, rfl, -⟩
          · exact hn
          · exact absurd (unbroken_cons.mp hu).1 (by simp [ha])
        · rcases List.infix_cons_iff.mp hm with hm | hm
          · rcases List.prefix_cons_iff.mp hm with rfl | ⟨t, rfl, -⟩
            · exact Nat.zero_le _
            · exact absurd (unbroken_cons.mp hu).1 (by simp [ha])
          · exact hmid mid hm hu
      · rintro ⟨-, hmid⟩
        refine ⟨fun pre hp hu => ?_, fun mid hm => hmid mid (List.infix_cons hm)⟩
        rw [Nat.zero_add]
        exact hmid pre (List.infix_cons hp.isInfix) hu
    | false =>
      rw [fits_add ha]
      constructor
      · rintro ⟨hle, hfits⟩
        obtain ⟨hpre, hmid⟩ := (ih hle).mp hfits
        have hfirst : ∀ pre, pre <+: a :: l → Unbroken resets pre →
            n + total weight pre ≤ bound := fun pre hp hu => by
          rcases List.prefix_cons_iff.mp hp with rfl | ⟨t, rfl, ht⟩
          · exact hn
          · rw [total_cons, ← Nat.add_assoc]
            exact hpre t ht (unbroken_cons.mp hu).2
        refine ⟨hfirst, fun mid hm hu => ?_⟩
        rcases List.infix_cons_iff.mp hm with hm | hm
        · exact Nat.le_trans (Nat.le_add_left _ _) (hfirst mid hm hu)
        · exact hmid mid hm hu
      · rintro ⟨hpre, hmid⟩
        have hle : n + weight a ≤ bound := by
          have := hpre [a] ⟨l, rfl⟩ (by simp [ha])
          simpa using this
        refine ⟨hle, (ih hle).mpr ⟨fun pre hp hu => ?_, fun mid hm =>
          hmid mid (List.infix_cons hm)⟩⟩
        have := hpre (a :: pre) (List.cons_prefix_cons.mpr ⟨rfl, hp⟩) (by simp [ha, hu])
        rwa [total_cons, ← Nat.add_assoc] at this

/-- From zero, the bound is a bound on the stretches. -/
theorem fits_zero_iff : Fits weight resets bound 0 l ↔
    ∀ mid, mid <:+: l → Unbroken resets mid → total weight mid ≤ bound := by
  rw [fits_iff (Nat.zero_le _)]
  refine ⟨And.right, fun h => ⟨fun pre hp hu => ?_, h⟩⟩
  rw [Nat.zero_add]
  exact h pre hp.isInfix hu

end Stretches
