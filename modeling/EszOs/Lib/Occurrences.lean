import Mathlib.Data.List.Basic
import Mathlib.Data.List.Induction
import Mathlib.Data.List.Pairwise

/-!
# Occurrences of a pattern

The positions at which a pattern stands in a text, and what becomes of the text when a list is
written in place of them.

* `mem_occurrences`: the positions are those at which the text can be cut around the pattern.
* `leftmost_eq_occurrences_iff`: the occurrences that a scan from the left keeps are all of them
  exactly if no two overlap.
* `rewriteAll_apart`: one replacement after the other, with the positions moved along, replaces all
  occurrences that lie apart.
* `getElem?_overwriteAll`: if the lengths are the same, each position has what the last one there
  wrote.
-/

namespace Occurrences

variable {α : Type*}

/-! ## Positions -/

section Positions

variable [DecidableEq α]

/-- The positions of `p` in `t`. -/
def occurrences (p t : List α) : List Nat :=
  (List.range (t.length + 1)).filter fun i => p.isPrefixOf (t.drop i)

theorem mem_occurrences {p t : List α} {i : Nat} :
    i ∈ occurrences p t ↔ ∃ a b, t = a ++ p ++ b ∧ a.length = i := by
  rw [occurrences, List.mem_filter, List.mem_range, List.isPrefixOf_iff_prefix]
  constructor
  · rintro ⟨hi, b, hb⟩
    refine ⟨t.take i, b, ?_, List.length_take_of_le (Nat.le_of_lt_succ hi)⟩
    rw [List.append_assoc, hb, List.take_append_drop]
  · rintro ⟨a, b, rfl, rfl⟩
    refine ⟨?_, b, ?_⟩
    · rw [List.length_append, List.length_append]
      omega
    · rw [List.append_assoc, List.drop_left]

theorem add_le_of_mem_occurrences {p t : List α} {i : Nat} (h : i ∈ occurrences p t) :
    i + p.length ≤ t.length := by
  obtain ⟨a, b, rfl, rfl⟩ := mem_occurrences.mp h
  simp

theorem occurrences_sorted (p t : List α) : (occurrences p t).Pairwise (· < ·) :=
  List.pairwise_lt_range.sublist List.filter_sublist

theorem occurrences_nodup (p t : List α) : (occurrences p t).Nodup :=
  (occurrences_sorted p t).imp Nat.ne_of_lt

/-- A text has as many positions for the empty pattern as there are gaps. -/
theorem occurrences_nil (t : List α) : occurrences [] t = List.range (t.length + 1) := by
  simp [occurrences]

end Positions

/-! ## From the left -/

/-- The positions that a scan keeps which goes on `k` behind each: those from `stop` on that do not
begin before the last one kept ends. -/
def thin (k : Nat) : Nat → List Nat → List Nat
  | _, [] => []
  | stop, m :: ms => if stop ≤ m then m :: thin k (m + k) ms else thin k stop ms

/-- The leftmost occurrences that do not overlap. -/
def leftmost [DecidableEq α] (p t : List α) : List Nat := thin p.length 0 (occurrences p t)

/-- The positions are in order, and `k` places from each to the next. -/
def Apart (k : Nat) (ms : List Nat) : Prop := ms.Pairwise fun m m' => m + k ≤ m'

instance (k : Nat) (ms : List Nat) : Decidable (Apart k ms) := inferInstanceAs (Decidable (ms.Pairwise _))

theorem thin_sublist (k stop : Nat) (ms : List Nat) : (thin k stop ms).Sublist ms := by
  induction ms generalizing stop with
  | nil => exact List.Sublist.refl []
  | cons m ms ih =>
    rw [thin]
    split
    · exact (ih _).cons_cons m
    · exact (ih _).cons m

theorem le_of_mem_thin {k stop : Nat} {ms : List Nat} : ∀ m ∈ thin k stop ms, stop ≤ m := by
  induction ms generalizing stop with
  | nil => exact fun m hm => absurd hm List.not_mem_nil
  | cons m ms ih =>
    rw [thin]
    split
    · rename_i hle
      intro m' hm'
      rcases List.mem_cons.mp hm' with rfl | hm'
      · exact hle
      · exact Nat.le_trans (Nat.le_trans hle (Nat.le_add_right m k)) (ih m' hm')
    · exact ih

theorem thin_apart (k stop : Nat) (ms : List Nat) : Apart k (thin k stop ms) := by
  induction ms generalizing stop with
  | nil => exact List.Pairwise.nil
  | cons m ms ih =>
    rw [thin]
    split
    · exact List.Pairwise.cons le_of_mem_thin (ih _)
    · exact ih _

theorem thin_of_apart {k stop : Nat} {ms : List Nat} (h : Apart k ms) (hstop : ∀ m ∈ ms, stop ≤ m) :
    thin k stop ms = ms := by
  induction ms generalizing stop with
  | nil => rfl
  | cons m ms ih =>
    obtain ⟨hm, hms⟩ := List.pairwise_cons.mp h
    rw [thin, if_pos (hstop m List.mem_cons_self), ih hms hm]

section Leftmost

variable [DecidableEq α]

theorem leftmost_sublist (p t : List α) : (leftmost p t).Sublist (occurrences p t) := thin_sublist _ _ _

theorem leftmost_apart (p t : List α) : Apart p.length (leftmost p t) := thin_apart _ _ _

theorem leftmost_eq_occurrences_iff {p t : List α} :
    leftmost p t = occurrences p t ↔ Apart p.length (occurrences p t) := by
  constructor
  · intro h
    rw [← h]
    exact leftmost_apart p t
  · exact fun h => thin_of_apart h fun m _ => Nat.zero_le m

/-- Where occurrences overlap, the scan from the left skips some. -/
theorem length_leftmost_lt {p t : List α} (h : ¬ Apart p.length (occurrences p t)) :
    (leftmost p t).length < (occurrences p t).length := by
  have hsub := leftmost_sublist p t
  refine Nat.lt_of_le_of_ne hsub.length_le fun heq => h ?_
  exact leftmost_eq_occurrences_iff.mp (hsub.eq_of_length heq)

end Leftmost

/-! ## Replacing -/

/-- The text from position `pos` on, with `r` in place of the `k` entries at each of the positions. -/
def splice (k : Nat) (r : List α) : Nat → List Nat → List α → List α
  | _, [], t => t
  | pos, m :: ms, t => t.take (m - pos) ++ r ++ splice k r (m + k) ms (t.drop (m - pos + k))

/-- The text with `r` in place of the `k` entries from `q` on. -/
def rewriteAt (k : Nat) (r : List α) (q : Nat) (t : List α) : List α := t.take q ++ r ++ t.drop (q + k)

/-- One position after the other, each moved along by what the replacements before it have changed. -/
def rewriteAll (k : Nat) (r : List α) : Int → List Nat → List α → List α
  | _, [], t => t
  | offset, m :: ms, t =>
    rewriteAll k r (offset + r.length - k) ms (rewriteAt k r (m + offset).toNat t)

/-- No position is moved in front of the text, if `n` entries take the place of `k`. -/
def Stays (k n : Nat) : Int → List Nat → Prop
  | _, [] => True
  | offset, m :: ms => 0 ≤ m + offset ∧ Stays k n (offset + n - k) ms

theorem stays_of_apart {k n : Nat} {pos : Nat} {offset : Int} {ms : List Nat} (h : Apart k ms)
    (hpos : ∀ m ∈ ms, pos ≤ m) (hoffset : 0 ≤ pos + offset) : Stays k n offset ms := by
  induction ms generalizing pos offset with
  | nil => trivial
  | cons m ms ih =>
    obtain ⟨hm, hms⟩ := List.pairwise_cons.mp h
    have hp := hpos m List.mem_cons_self
    exact ⟨by omega, ih hms hm (by omega)⟩

theorem stays_same {n : Nat} {ms : List Nat} : Stays n n 0 ms := by
  induction ms with
  | nil => trivial
  | cons m ms ih =>
    refine ⟨by omega, ?_⟩
    rw [Int.zero_add, Int.sub_self]
    exact ih

theorem length_rewriteAt {k q : Nat} {r t : List α} (h : q + k ≤ t.length) :
    (rewriteAt k r q t).length + k = t.length + r.length := by
  rw [rewriteAt, List.length_append, List.length_append, List.length_take, List.length_drop]
  omega

theorem length_rewriteAll {k n : Nat} {r t : List α} {offset : Int} {ms : List Nat}
    (hstays : Stays k r.length offset ms) (hle : ∀ m ∈ ms, m + k ≤ n)
    (ht : (t.length : Int) = n + offset) :
    (rewriteAll k r offset ms t).length + ms.length * k = t.length + ms.length * r.length := by
  induction ms generalizing t offset with
  | nil => rw [rewriteAll, List.length_nil, Nat.zero_mul, Nat.zero_mul]
  | cons m ms ih =>
    obtain ⟨h0, hstays⟩ := hstays
    have hl := hle m List.mem_cons_self
    have hone : (rewriteAt k r (m + offset).toNat t).length + k = t.length + r.length :=
      length_rewriteAt (by omega)
    have hnext : ((rewriteAt k r (m + offset).toNat t).length : Int) =
        n + (offset + r.length - k) := by
      omega
    have hstep := ih hstays (fun m' hm' => hle m' (List.mem_cons_of_mem m hm')) hnext
    rw [rewriteAll, List.length_cons, Nat.succ_mul, Nat.succ_mul]
    omega

theorem mem_rewriteAt {k q : Nat} {r t : List α} {a : α} (h : a ∈ rewriteAt k r q t) :
    a ∈ t ∨ a ∈ r := by
  rw [rewriteAt, List.mem_append, List.mem_append] at h
  rcases h with (h | h) | h
  · exact .inl (List.mem_of_mem_take h)
  · exact .inr h
  · exact .inl (List.mem_of_mem_drop h)

theorem mem_rewriteAll {k : Nat} {r t : List α} {offset : Int} {ms : List Nat} {a : α}
    (h : a ∈ rewriteAll k r offset ms t) : a ∈ t ∨ a ∈ r := by
  induction ms generalizing t offset with
  | nil => exact .inl h
  | cons m ms ih =>
    rcases ih h with h | h
    · exact mem_rewriteAt h
    · exact .inr h

theorem length_splice {k : Nat} {r t : List α} {pos : Nat} {ms : List Nat} (h : Apart k ms)
    (hpos : ∀ m ∈ ms, pos ≤ m) (hle : ∀ m ∈ ms, m + k ≤ pos + t.length) :
    (splice k r pos ms t).length + ms.length * k = t.length + ms.length * r.length := by
  induction ms generalizing pos t with
  | nil => rw [splice, List.length_nil, Nat.zero_mul, Nat.zero_mul]
  | cons m ms ih =>
    obtain ⟨hm, hms⟩ := List.pairwise_cons.mp h
    have hp := hpos m List.mem_cons_self
    have hl := hle m List.mem_cons_self
    have hbehind : ∀ m' ∈ ms, m' + k ≤ m + k + (t.drop (m - pos + k)).length := by
      intro m' hm'
      have hl' := hle m' (List.mem_cons_of_mem m hm')
      have hkm := hm m' hm'
      rw [List.length_drop]
      omega
    have hstep := ih hms hm hbehind
    rw [List.length_drop] at hstep
    rw [splice, List.length_append, List.length_append, List.length_take, List.length_cons,
      Nat.succ_mul, Nat.succ_mul]
    omega

/-- Positions that lie apart do not get into each other's way. -/
theorem rewriteAll_apart {k : Nat} {r s t : List α} {pos : Nat} {offset : Int} {ms : List Nat}
    (h : Apart k ms) (hpos : ∀ m ∈ ms, pos ≤ m) (hle : ∀ m ∈ ms, m + k ≤ pos + t.length)
    (hs : (s.length : Int) = pos + offset) :
    rewriteAll k r offset ms (s ++ t) = s ++ splice k r pos ms t := by
  induction ms generalizing pos s t offset with
  | nil => rfl
  | cons m ms ih =>
    obtain ⟨hm, hms⟩ := List.pairwise_cons.mp h
    have hp := hpos m List.mem_cons_self
    have hl := hle m List.mem_cons_self
    have hq : (m + offset).toNat = s.length + (m - pos) := by omega
    have hrewrite : rewriteAt k r (m + offset).toNat (s ++ t) =
        (s ++ t.take (m - pos) ++ r) ++ t.drop (m - pos + k) := by
      rw [rewriteAt, hq, Nat.add_assoc, List.take_length_add_append, List.drop_length_add_append]
    rw [rewriteAll, hrewrite, ih hms hm]
    · rw [splice]
      simp
    · intro m' hm'
      have hl' := hle m' (List.mem_cons_of_mem m hm')
      have hkm := hm m' hm'
      rw [List.length_drop]
      omega
    · simp
      omega

/-! ## Overwriting -/

/-- The last of the positions from which `n` entries reach `p`. -/
def lastCover (n : Nat) (ms : List Nat) (p : Nat) : Option Nat :=
  (ms.filter fun m => m ≤ p ∧ p < m + n).getLast?

/-- What stands at `p` if `r` was written to the positions one after the other. -/
def overwritten (r : List α) (ms : List Nat) (t : List α) (p : Nat) : Option α :=
  match lastCover r.length ms p with
  | some m => r[p - m]?
  | none => t[p]?

theorem getElem?_rewriteAt {q p : Nat} {r t : List α} (h : q + r.length ≤ t.length) :
    (rewriteAt r.length r q t)[p]? = if q ≤ p ∧ p < q + r.length then r[p - q]? else t[p]? := by
  have hq : (t.take q).length = q := List.length_take_of_le (by omega)
  rw [rewriteAt]
  split
  · rename_i hp
    rw [List.getElem?_append_left (by rw [List.length_append, hq]; exact hp.2),
      List.getElem?_append_right (by omega), hq]
  · rename_i hp
    by_cases hlt : p < q
    · rw [List.append_assoc, List.getElem?_append_left (by omega), List.getElem?_take_of_lt hlt]
    · rw [List.getElem?_append_right (by rw [List.length_append, hq]; omega), List.length_append, hq,
        List.getElem?_drop]
      congr 1
      omega

/-- Where the lengths are the same nothing moves. -/
theorem rewriteAll_concat (r : List α) (ms : List Nat) (m : Nat) (t : List α) :
    rewriteAll r.length r 0 (ms ++ [m]) t =
      rewriteAt r.length r m (rewriteAll r.length r 0 ms t) := by
  have hoffset : (0 : Int) + r.length - r.length = 0 := by omega
  induction ms generalizing t with
  | nil =>
    rw [List.nil_append, rewriteAll, rewriteAll, rewriteAll, Int.add_zero, Int.toNat_natCast]
  | cons m' ms ih => rw [List.cons_append, rewriteAll, rewriteAll, hoffset, ih]

theorem lastCover_concat (n : Nat) (ms : List Nat) (m p : Nat) :
    lastCover n (ms ++ [m]) p = if m ≤ p ∧ p < m + n then some m else lastCover n ms p := by
  unfold lastCover
  split
  · rename_i h
    simp [h]
  · rename_i h
    simp [List.filter_append, h]

theorem length_overwriteAll {r t : List α} {ms : List Nat} (h : ∀ m ∈ ms, m + r.length ≤ t.length) :
    (rewriteAll r.length r 0 ms t).length = t.length := by
  induction ms using List.reverseRecOn with
  | nil => rfl
  | append_singleton ms m ih =>
    have hms := ih fun m' hm' => h m' (List.mem_append_left _ hm')
    have hm := h m (List.mem_append_right _ List.mem_cons_self)
    rw [rewriteAll_concat]
    have := length_rewriteAt (r := r) (t := rewriteAll r.length r 0 ms t) (k := r.length) (q := m)
      (by omega)
    omega

theorem getElem?_overwriteAll {r t : List α} {ms : List Nat} (h : ∀ m ∈ ms, m + r.length ≤ t.length)
    (p : Nat) : (rewriteAll r.length r 0 ms t)[p]? = overwritten r ms t p := by
  induction ms using List.reverseRecOn with
  | nil => rfl
  | append_singleton ms m ih =>
    have hms : ∀ m' ∈ ms, m' + r.length ≤ t.length := fun m' hm' => h m' (List.mem_append_left _ hm')
    have hm := h m (List.mem_append_right _ List.mem_cons_self)
    rw [rewriteAll_concat, getElem?_rewriteAt (by rw [length_overwriteAll hms]; exact hm), ih hms,
      overwritten, overwritten, lastCover_concat]
    split <;> rfl

/-- Two lists of positions leave the same text exactly if they leave the same at every position. -/
theorem overwriteAll_eq_iff {r t : List α} {ms ms' : List Nat} (h : ∀ m ∈ ms, m + r.length ≤ t.length)
    (h' : ∀ m ∈ ms', m + r.length ≤ t.length) :
    rewriteAll r.length r 0 ms t = rewriteAll r.length r 0 ms' t ↔
      ∀ p < t.length, overwritten r ms t p = overwritten r ms' t p := by
  constructor
  · intro heq p _
    rw [← getElem?_overwriteAll h, ← getElem?_overwriteAll h', heq]
  · intro hp
    apply List.ext_getElem?
    intro p
    rw [getElem?_overwriteAll h, getElem?_overwriteAll h']
    by_cases hlt : p < t.length
    · exact hp p hlt
    · rw [← getElem?_overwriteAll h, ← getElem?_overwriteAll h', List.getElem?_eq_none,
        List.getElem?_eq_none]
      · rw [length_overwriteAll h']
        omega
      · rw [length_overwriteAll h]
        omega

end Occurrences
