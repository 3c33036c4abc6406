import Mathlib.Data.List.DropRight

/-!
# Transcripts

A `Transcript` is everything that was written, as lines: those that are finished and the current one.
It only grows. `List.rtake` is what a store of limited size keeps of it.

* `rtake_concat_of_lt`, `rtake_concat_of_full`: one more line, and the store drops its oldest if it is
  full.
* `lines_rtake`: a store that holds the last finished lines and the current one holds the last lines.
-/

universe u

/-! ## The last entries of a list -/

namespace List

variable {α : Type u} {l : List α} {n : Nat}

theorem length_rtake (l : List α) (n : Nat) : (l.rtake n).length = min n l.length := by
  rw [rtake, length_drop]
  omega

theorem rtake_of_length_le (h : l.length ≤ n) : l.rtake n = l := by
  rw [rtake, Nat.sub_eq_zero_of_le h, drop_zero]

theorem rtake_concat_of_lt (h : l.length < n) (a : α) : (l ++ [a]).rtake n = l.rtake n ++ [a] := by
  rw [rtake_of_length_le (Nat.le_of_lt h), rtake_of_length_le]
  rw [length_append, length_singleton]
  exact h

theorem rtake_concat_of_full (h : n ≤ l.length) (a : α) :
    (l ++ [a]).rtake n = (l.rtake n ++ [a]).tail := by
  have hlength : (l ++ [a]).length - n = l.length - n + 1 := by
    rw [length_append, length_singleton]
    omega
  rw [rtake, hlength, rtake, ← drop_append_of_le_length (Nat.sub_le _ _), tail_drop]

/-- What is dropped does not matter for what is kept later. -/
theorem rtake_concat_rtake (l : List α) (n : Nat) (a : α) :
    (l.rtake n ++ [a]).rtake n = (l ++ [a]).rtake n := by
  rcases Nat.lt_or_ge l.length n with h | h
  · rw [rtake_of_length_le (Nat.le_of_lt h)]
  · have hfull : n ≤ (l.rtake n).length := by
      rw [length_rtake]
      omega
    rw [rtake_concat_of_full hfull, rtake_concat_of_full h, rtake_of_length_le]
    rw [length_rtake]
    exact Nat.min_le_left _ _

/-- As many of the last entries as there are. -/
theorem rtake_length_rtake (l : List α) (n : Nat) : l.rtake (l.rtake n).length = l.rtake n := by
  rw [length_rtake]
  rcases Nat.le_total n l.length with h | h
  · rw [Nat.min_eq_left h]
  · rw [Nat.min_eq_right h, rtake_of_length_le (Nat.le_refl _), rtake_of_length_le h]

end List

/-- The lines that were written. -/
structure Transcript (α : Type u) where
  finished : List (List α)
  current : List α

namespace Transcript

variable {α : Type u}

def lines (t : Transcript α) : List (List α) := t.finished ++ [t.current]

/-- The next line. -/
def breakLine (t : Transcript α) : Transcript α := ⟨t.lines, []⟩

/-- One more entry. A line of `width` entries is finished. -/
def put (width : Nat) (t : Transcript α) (a : α) : Transcript α :=
  let t' := { t with current := t.current ++ [a] }
  if width ≤ t'.current.length then t'.breakLine else t'

theorem lines_rtake (t : Transcript α) (n : Nat) :
    t.finished.rtake n ++ [t.current] = t.lines.rtake ((t.finished.rtake n).length + 1) := by
  rw [lines, List.rtake_concat_succ, List.rtake_length_rtake]

end Transcript
