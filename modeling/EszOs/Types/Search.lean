import EszOs.Lib.Occurrences
import EszOs.Types.Text
import Mathlib.Data.Set.Card

/-!
# Searching in a text (`types/string/string.cpp`)

* `strCount_eq_length`, `strContains_iff`, `strStartsWith_iff`, `strEndsWith_iff`: each function in
  terms of the occurrences.
* `search_positions`: the four agree on where the searched text stands.
-/

namespace EszOs

open Occurrences

/-! ## The functions -/

/-- The copy of `searchText_len` characters in `comparison`. -/
def comparison (text : CString) (i searchTextLen : Nat) : CString := (text.drop i).take searchTextLen

/-- The positions of the loops of `str_contains`, `str_count` and `str_replace`. -/
def searchRange (text searchText : CString) : List Nat :=
  List.range (text.length - searchText.length + 1)

def strContains (text searchText : CString) : Bool :=
  if searchText.length > text.length then false
  else (searchRange text searchText).any fun i =>
    strEqual searchText (comparison text i searchText.length)

def strCount (text searchText : CString) : Nat :=
  if searchText.length > text.length then 0
  else (searchRange text searchText).countP fun i =>
    strEqual searchText (comparison text i searchText.length)

def strEndsWith (text searchText : CString) : Bool :=
  if searchText.length > text.length then false
  else
    let offset := text.length - searchText.length
    ((text.drop offset).zip searchText).all fun p => p.1 == p.2

/-! ## Comparisons -/

theorem strEqual_comparison (text searchText : CString) (i : Nat) :
    strEqual searchText (comparison text i searchText.length) =
      searchText.isPrefixOf (text.drop i) := by
  rw [strEqual_eq, comparison, Bool.eq_iff_iff, decide_eq_true_iff, List.isPrefixOf_iff_prefix,
    List.prefix_iff_eq_take]

/-- Behind the last position of the loops there is no room for the searched text. -/
theorem filter_searchRange {text searchText : CString} (h : searchText.length ≤ text.length) :
    ((searchRange text searchText).filter fun i =>
      strEqual searchText (comparison text i searchText.length)) = occurrences searchText text := by
  have hsplit : List.range (text.length + 1) = searchRange text searchText ++
      (List.range searchText.length).map (text.length - searchText.length + 1 + ·) := by
    rw [searchRange, ← List.range_add]
    congr 1
    omega
  have hnone : ∀ i ∈ (List.range searchText.length).map (text.length - searchText.length + 1 + ·),
      ¬ searchText.isPrefixOf (text.drop i) = true := by
    intro i hi hprefix
    obtain ⟨j, hj, rfl⟩ := List.mem_map.mp hi
    rw [List.mem_range] at hj
    have hlength := (List.isPrefixOf_iff_prefix.mp hprefix).length_le
    rw [List.length_drop] at hlength
    omega
  rw [occurrences, hsplit, List.filter_append, List.filter_eq_nil_iff.mpr hnone, List.append_nil]
  exact List.filter_congr fun i _ => strEqual_comparison text searchText i

/-- A text that is too short has no occurrences. -/
theorem occurrences_eq_nil {text searchText : CString} (h : text.length < searchText.length) :
    occurrences searchText text = [] := by
  apply List.eq_nil_iff_forall_not_mem.mpr
  intro i hi
  have := add_le_of_mem_occurrences hi
  omega

/-- The loops that compare up to the length of the second text. -/
theorem all_zip_iff {text searchText : CString} (h : searchText.length ≤ text.length) :
    ((text.zip searchText).all fun p => p.1 == p.2) = true ↔ searchText <+: text := by
  induction searchText generalizing text with
  | nil => simp
  | cons c searchText ih =>
    cases text with
    | nil => simp at h
    | cons d text =>
      rw [List.zip_cons_cons, List.all_cons, Bool.and_eq_true, beq_iff_eq,
        ih (Nat.le_of_succ_le_succ h), List.cons_prefix_cons]
      exact and_congr_left fun _ => eq_comm

/-! ## The functions on occurrences -/

theorem strCount_eq_length (text searchText : CString) :
    strCount text searchText = (occurrences searchText text).length := by
  unfold strCount
  split
  · rename_i h
    rw [occurrences_eq_nil h, List.length_nil]
  · rename_i h
    rw [List.countP_eq_length_filter, filter_searchRange (Nat.not_lt.mp h)]

theorem strContains_iff (text searchText : CString) :
    strContains text searchText = true ↔ 0 < strCount text searchText := by
  unfold strContains strCount
  split
  · simp
  · rw [List.any_eq_true, List.countP_pos_iff]

theorem strStartsWith_iff (text searchText : CString) :
    strStartsWith text searchText = true ↔ searchText <+: text := by
  unfold strStartsWith
  split
  · rename_i h
    exact iff_of_false Bool.false_ne_true fun hp => absurd hp.length_le (Nat.not_le.mpr h)
  · rename_i h
    exact all_zip_iff (Nat.not_lt.mp h)

theorem strEndsWith_iff (text searchText : CString) :
    strEndsWith text searchText = true ↔ searchText <:+ text := by
  unfold strEndsWith
  split
  · rename_i h
    exact iff_of_false Bool.false_ne_true fun hs => absurd hs.length_le (Nat.not_le.mpr h)
  · rename_i h
    have hlength : searchText.length = (text.drop (text.length - searchText.length)).length := by
      rw [List.length_drop]
      omega
    rw [all_zip_iff (Nat.le_of_eq hlength), List.suffix_iff_eq_drop]
    constructor
    · exact fun hp => hp.eq_of_length hlength
    · intro heq
      rw [← heq]

/-- The positions at which `searchText` stands: how many there are is what `str_count` returns, and
the other functions ask whether there is one, whether 0 is one, and whether the last possible one
is. -/
theorem search_positions (text searchText : CString) :
    let positions := {i : Nat | ∃ a b, text = a ++ searchText ++ b ∧ a.length = i}
    strCount text searchText = positions.ncard ∧
      (strContains text searchText = true ↔ 0 < positions.ncard) ∧
      (strStartsWith text searchText = true ↔ 0 ∈ positions) ∧
      (strEndsWith text searchText = true ↔ text.length - searchText.length ∈ positions) := by
  intro positions
  have hpositions : positions = ((occurrences searchText text).toFinset : Set Nat) := by
    ext i
    rw [Finset.mem_coe, List.mem_toFinset, mem_occurrences]
    rfl
  have hcount : strCount text searchText = positions.ncard := by
    rw [hpositions, Set.ncard_coe_finset, List.toFinset_card_of_nodup (occurrences_nodup _ _),
      strCount_eq_length]
  refine ⟨hcount, ?_, ?_, ?_⟩
  · rw [← hcount, strContains_iff]
  · rw [strStartsWith_iff]
    constructor
    · rintro ⟨b, rfl⟩
      exact ⟨[], b, rfl, rfl⟩
    · rintro ⟨a, b, rfl, ha⟩
      obtain rfl := List.length_eq_zero_iff.mp ha
      exact ⟨b, rfl⟩
  · rw [strEndsWith_iff]
    constructor
    · rintro ⟨a, rfl⟩
      exact ⟨a, [], (List.append_nil _).symm, by simp⟩
    · rintro ⟨a, b, rfl, ha⟩
      have hb : b = [] := by
        apply List.length_eq_zero_iff.mp
        simp at ha
        omega
      rw [hb, List.append_nil]
      exact List.suffix_append a searchText

end EszOs
