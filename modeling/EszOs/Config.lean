import Mathlib.Algebra.Group.Nat.Defs

/-!
# Constants and machine arithmetic

The constants of `config.h` the modelled code uses, the wrap-around of the fixed-width unsigned
types, and `math.h`. A machine word is a `Nat`; an operation of the source whose result can exceed
its type is followed by `u64` or `u32`.
-/

namespace EszOs

/-- Wrap-around of `uint64_t`. -/
def u64 (n : Nat) : Nat := n % 2 ^ 64

/-- Wrap-around of `uint32_t`. -/
def u32 (n : Nat) : Nat := n % 2 ^ 32

theorem u64_of_lt {n : Nat} (h : n < 2 ^ 64) : u64 n = n := Nat.mod_eq_of_lt h

theorem u64_lt (n : Nat) : u64 n < 2 ^ 64 := Nat.mod_lt _ (by decide)

theorem u32_of_lt {n : Nat} (h : n < 2 ^ 32) : u32 n = n := Nat.mod_eq_of_lt h

/-! ## `config.h` -/

def pageSize : Nat := 4096

/-- `INIT_HEAP_SIZE`: 16 MiB. -/
def initHeapSize : Nat := 4096 * 1024 * 4

def virtualOffsetVmm : Nat := 0xFFFFB00000000000

/-- `MAX_PATH_LENGTH`: chars. -/
def maxPathLength : Nat := 4096

/-- `MAX_PATH_DEPTH`: segments. -/
def maxPathDepth : Nat := 64

def terminalBufferSize : Nat := 256

def maxCommandHistory : Nat := 100

def scrollHistoryLines : Nat := 100

/-- `PIT_TICK_HZ`: ticks in a second. -/
def pitTickHz : Nat := 100

def fontSize : Nat := 1

def cursorHeight : Nat := 2

/-! ## `math.h` -/

/-- `divide_round_up`; the sum wraps. -/
def divideRoundUp (a b : Nat) : Nat :=
  if b = 0 then 0 else u64 (a + b - 1) / b

/-- Without overflow, `divide_round_up` is the number of `b`-sized pieces that cover `a`. -/
theorem divideRoundUp_eq {a b : Nat} (hb : 0 < b) (h : a + b - 1 < 2 ^ 64) :
    divideRoundUp a b = (a + b - 1) / b := by
  rw [divideRoundUp, if_neg (by omega), u64_of_lt h]

/-- The quotient of a sum that wraps is 0. -/
theorem divideRoundUp_of_wraps {a b : Nat} (ha : a < 2 ^ 64) (hb : b < 2 ^ 64) (h : 2 ^ 64 < a + b) :
    divideRoundUp a b = 0 := by
  have hwrapped : u64 (a + b - 1) < b := by
    rw [u64]
    omega
  rw [divideRoundUp, if_neg (by omega)]
  exact Nat.div_eq_of_lt hwrapped

theorem le_divideRoundUp_mul {a b : Nat} (hb : 0 < b) (h : a + b - 1 < 2 ^ 64) :
    a ≤ divideRoundUp a b * b := by
  rw [divideRoundUp_eq hb h]
  have h1 := Nat.div_add_mod (a + b - 1) b
  have h2 := Nat.mod_lt (a + b - 1) hb
  rw [Nat.mul_comm] at h1
  omega

end EszOs
