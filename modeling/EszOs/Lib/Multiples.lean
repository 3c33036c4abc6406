import Mathlib.Algebra.Order.Floor.Div
import Mathlib.GroupTheory.GroupAction.Ring
import Mathlib.Order.Bounds.Image

/-!
# Multiples around a value

The multiples of `b` next to `a` are `b` times the rounded quotients of `a` and `b`
(`isLeast_mul_ceilDiv`, `isGreatest_mul_floorDiv`). They are the same exactly if `a` is a multiple.
-/

namespace Multiples

/-- The multiples of `b` that are not below `a`. -/
def notBelow {α : Type*} [Dvd α] [LE α] (a b : α) : Set α := {m | b ∣ m ∧ a ≤ m}

/-- The multiples of `b` that are not above `a`. -/
def notAbove {α : Type*} [Dvd α] [LE α] (a b : α) : Set α := {m | b ∣ m ∧ m ≤ a}

section Semiring

variable {α : Type*} [Semiring α] [PartialOrder α] {a b : α}

theorem isLeast_mul_ceilDiv [CeilDiv α α] (hb : 0 < b) : IsLeast (notBelow a b) (b * (a ⌈/⌉ b)) := by
  have himage : notBelow a b = (b * ·) '' {c | a ≤ b * c} := by
    ext m
    constructor
    · rintro ⟨⟨c, rfl⟩, hle⟩
      exact ⟨c, hle, rfl⟩
    · rintro ⟨c, hle, rfl⟩
      exact ⟨Dvd.intro c rfl, hle⟩
  have hgc : GaloisConnection (· ⌈/⌉ b) (b * ·) := gc_mul_ceilDiv hb
  rw [himage]
  exact hgc.monotone_u.map_isLeast hgc.isLeast_l

theorem isGreatest_mul_floorDiv [FloorDiv α α] (hb : 0 < b) :
    IsGreatest (notAbove a b) (b * (a ⌊/⌋ b)) := by
  have himage : notAbove a b = (b * ·) '' {c | b * c ≤ a} := by
    ext m
    constructor
    · rintro ⟨⟨c, rfl⟩, hle⟩
      exact ⟨c, hle, rfl⟩
    · rintro ⟨c, hle, rfl⟩
      exact ⟨Dvd.intro c rfl, hle⟩
  have hgc : GaloisConnection (b * ·) (· ⌊/⌋ b) := gc_floorDiv_mul hb
  rw [himage]
  exact hgc.monotone_l.map_isGreatest hgc.isGreatest_u

end Semiring

/-- The two multiples next to `a` are the same exactly if `a` is one. -/
theorem isGreatest_eq_isLeast_iff {α : Type*} [Dvd α] [PartialOrder α] {a b down up : α}
    (hdown : IsGreatest (notAbove a b) down) (hup : IsLeast (notBelow a b) up) :
    down = up ↔ b ∣ a := by
  constructor
  · rintro rfl
    have ha : a = down := le_antisymm hup.1.2 hdown.1.2
    rw [ha]
    exact hdown.1.1
  · intro hdvd
    have hle : up ≤ a := hup.2 ⟨hdvd, le_refl a⟩
    have hge : a ≤ down := hdown.2 ⟨hdvd, le_refl a⟩
    exact le_antisymm (hdown.1.2.trans hup.1.2) (hle.trans hge)

end Multiples
