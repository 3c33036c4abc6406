import EszOs.Config
import EszOs.Lib.Multiples

/-!
# Rounding to multiples (`math/math.h`)

`align_up` and `align_down` round an address to a multiple, and `divide_round_up` counts the pieces
that cover a size. `align_up` adds what is missing and only wraps if its result does. The sum of
`divide_round_up` can wrap before.

* `alignUp_eq`, `alignDown_eq`: the multiples next to an address.
* `divideRoundUp_mul_eq_iff`: where `divide_round_up` is right.
* `Rounds.of_dvd`: it is for every divisor of `2 ^ 64`, as the size of a page.
* `rounds_iff`: all of them round alike exactly if the sum does not wrap.
-/

namespace EszOs

open Multiples

def isAligned (addr align : Nat) : Bool := if align = 0 then addr == 0 else addr % align == 0

def alignUp (addr align : Nat) : Nat :=
  if align = 0 then addr
  else
    let remainder := addr % align
    if remainder = 0 then addr else u64 (addr + (align - remainder))

def alignDown (addr align : Nat) : Nat := if align = 0 then addr else addr - addr % align

variable {a b m : Nat}

theorem isAligned_iff (hb : 0 < b) : isAligned a b = true ↔ b ∣ a := by
  rw [isAligned, if_neg (Nat.ne_of_gt hb), beq_iff_eq, Nat.dvd_iff_mod_eq_zero]

theorem alignDown_eq (hb : 0 < b) : alignDown a b = b * (a ⌊/⌋ b) := by
  have hdiv := Nat.div_add_mod a b
  rw [alignDown, if_neg (Nat.ne_of_gt hb), Nat.floorDiv_eq_div]
  omega

theorem alignDown_isGreatest (hb : 0 < b) : IsGreatest (notAbove a b) (alignDown a b) := by
  rw [alignDown_eq hb]
  exact isGreatest_mul_floorDiv hb

/-- What `align_up` adds to an address that is not aligned leads to the next multiple. -/
theorem isLeast_add_sub_mod (hb : 0 < b) (hr : a % b ≠ 0) : IsLeast (notBelow a b) (a + (b - a % b)) := by
  have hdiv := Nat.div_add_mod a b
  have hmod := Nat.mod_lt a hb
  have hsum : a + (b - a % b) = b * (a / b + 1) := by
    rw [Nat.mul_succ]
    omega
  rw [hsum]
  refine ⟨⟨Nat.dvd_mul_right _ _, by omega⟩, ?_⟩
  rintro _ ⟨⟨c, rfl⟩, hle⟩
  refine Nat.mul_le_mul_left b (Nat.succ_le_of_lt ?_)
  -- A smaller factor gives at most the multiple below the address.
  by_contra hge
  have hbelow : b * c ≤ b * (a / b) := Nat.mul_le_mul_left b (Nat.le_of_not_lt hge)
  omega

theorem alignUp_eq (hb : 0 < b) (hm : IsLeast (notBelow a b) m) (hm64 : m < 2 ^ 64) :
    alignUp a b = m := by
  rw [alignUp, if_neg (Nat.ne_of_gt hb)]
  by_cases hr : a % b = 0
  · have ha : IsLeast (notBelow a b) a := ⟨⟨Nat.dvd_of_mod_eq_zero hr, Nat.le_refl a⟩, fun _ h => h.2⟩
    dsimp only
    rw [if_pos hr]
    exact ha.unique hm
  · have hsum := (isLeast_add_sub_mod hb hr).unique hm
    dsimp only
    rw [if_neg hr, hsum, u64_of_lt hm64]

theorem divideRoundUp_mul_eq_iff (ha : a < 2 ^ 64) (hb : 0 < b) (hb64 : b < 2 ^ 64)
    (hm : IsLeast (notBelow a b) m) : divideRoundUp a b * b = m ↔ a + b ≤ 2 ^ 64 := by
  constructor
  · intro h
    by_contra hwraps
    rw [divideRoundUp_of_wraps ha hb64 (Nat.lt_of_not_le hwraps), Nat.zero_mul] at h
    have hle := hm.1.2
    omega
  · intro h
    have hceil : divideRoundUp a b = a ⌈/⌉ b := divideRoundUp_eq hb (by omega)
    rw [hceil, Nat.mul_comm]
    exact (isLeast_mul_ceilDiv hb).unique hm

/-- `m` is the multiple of `b` that `a` is rounded up to, by both functions, and `align_down` rounds
down. -/
structure Rounds (a b m : Nat) : Prop where
  up : alignUp a b = m
  divide : divideRoundUp a b * b = m
  down : IsGreatest (notAbove a b) (alignDown a b)
  aligned : alignDown a b = alignUp a b ↔ isAligned a b = true

theorem Rounds.of_le (ha : a < 2 ^ 64) (hb : 0 < b) (hb64 : b < 2 ^ 64)
    (hm : IsLeast (notBelow a b) m) (hm64 : m < 2 ^ 64) (h : a + b ≤ 2 ^ 64) : Rounds a b m where
  up := alignUp_eq hb hm hm64
  divide := (divideRoundUp_mul_eq_iff ha hb hb64 hm).mpr h
  down := alignDown_isGreatest hb
  aligned := by
    rw [alignUp_eq hb hm hm64, isAligned_iff hb]
    exact isGreatest_eq_isLeast_iff (alignDown_isGreatest hb) hm

/-- The sum does not wrap for a divisor of `2 ^ 64` if the multiple fits. -/
theorem Rounds.of_dvd (ha : a < 2 ^ 64) (hb : 0 < b) (hb64 : b < 2 ^ 64) (hdvd : b ∣ 2 ^ 64)
    (hm : IsLeast (notBelow a b) m) (hm64 : m < 2 ^ 64) : Rounds a b m := by
  have hgap : b ≤ 2 ^ 64 - m := Nat.le_of_dvd (by omega) (Nat.dvd_sub hdvd hm.1.1)
  have hle := hm.1.2
  exact Rounds.of_le ha hb hb64 hm hm64 (by omega)

/-- Where the multiple fits, the functions agree on it exactly if `a + b` is at most `2 ^ 64`. -/
theorem rounds_iff (ha : a < 2 ^ 64) (hb : 0 < b) (hb64 : b < 2 ^ 64)
    (hm : IsLeast (notBelow a b) m) (hm64 : m < 2 ^ 64) : Rounds a b m ↔ a + b ≤ 2 ^ 64 := by
  constructor
  · intro h
    exact (divideRoundUp_mul_eq_iff ha hb hb64 hm).mp h.divide
  · exact Rounds.of_le ha hb hb64 hm hm64

/-- 5000 bytes are two pages. -/
theorem rounds_page : Rounds 5000 pageSize 8192 := by
  have hm : IsLeast (notBelow 5000 pageSize) 8192 := isLeast_mul_ceilDiv (by decide)
  exact (rounds_iff (by decide) (by decide) (by decide) hm (by decide)).mpr (by decide)

/-- The last address is a multiple of 3, and `divide_round_up` returns 0. -/
theorem not_rounds_last : ¬ ∀ a b m : Nat, a < 2 ^ 64 → 0 < b → b < 2 ^ 64 →
    IsLeast (notBelow a b) m → m < 2 ^ 64 → Rounds a b m := by
  intro h
  have hm : IsLeast (notBelow (2 ^ 64 - 1) 3) (2 ^ 64 - 1) :=
    ⟨⟨by decide, Nat.le_refl _⟩, fun _ hle => hle.2⟩
  have hdivide := (h _ _ _ (by decide) (by decide) (by decide) hm (by decide)).divide
  exact absurd hdivide (by decide)

end EszOs
