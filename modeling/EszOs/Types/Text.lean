import Mathlib.Data.List.DropRight
import EszOs.Types.String

/-!
# Characters and UTF-16 text (`types/char`, `types/utf16`, `types/string`)

* `strSplit_length`: a text is split into one section more than it has separators.
* `strSplitStores_index`: the sections are stored one after the other from index 0.
-/

namespace EszOs

/-! ## Characters -/

def isUpperAlpha (c : UInt8) : Bool := 0x41 ≤ c && c ≤ 0x5A

def isWhitespace (c : UInt8) : Bool := c == 32 || c == 9

def toLower (c : UInt8) : UInt8 := if isUpperAlpha c then c + 32 else c

/-! ## Strings -/

/-- The C string in an array of characters. -/
def cstring (chars : List UInt8) : CString := chars.takeWhile (· ≠ 0)

/-- `str_trim`: one loop skips the whitespace in front, one cuts off the whitespace behind. -/
def strTrim (text : CString) : CString := (text.dropWhile isWhitespace).rdropWhile isWhitespace

def strToLower (text : CString) : CString := text.map toLower

/-- The loop of `utf16_text_to_ascii`: the low bytes of the characters before the terminator or the
padding. -/
def utf16Loop : List (UInt8 × UInt8) → List UInt8
  | [] => []
  | (low, high) :: text =>
    if (low = 0 ∧ high = 0) ∨ (low = 0xFF ∧ high = 0xFF) then [] else low :: utf16Loop text

/-- `utf16_text_to_ascii` of characters given as low and high byte. -/
def utf16TextToAscii (text : List (UInt8 × UInt8)) : CString := cstring (utf16Loop text)

/-- What a check of the characters or records of a list shows. -/
theorem forall_mem_of_all {α : Type} {P : α → Prop} [DecidablePred P] {as : List α}
    (h : (as.all fun a => decide (P a)) = true) : ∀ a ∈ as, P a :=
  fun a ha => of_decide_eq_true (List.all_eq_true.mp h a ha)

/-! ## Lengths -/

theorem cstring_length_le (chars : List UInt8) : (cstring chars).length ≤ chars.length :=
  (List.takeWhile_sublist _).length_le

theorem strTrim_length_le (text : CString) : (strTrim text).length ≤ text.length := by
  refine Nat.le_trans (List.IsPrefix.length_le (List.rdropWhile_prefix _ _)) ?_
  exact (List.dropWhile_sublist _).length_le

@[simp] theorem strToLower_length (text : CString) : (strToLower text).length = text.length :=
  List.length_map _

/-! ## The sections of `str_split` -/

/-- The stores of `str_split` into `outSplits`, each with its index. -/
def strSplitStores (splitChar : UInt8) : CString → CString → Nat → List (Nat × CString)
  | [], part, partNo => [(partNo, part)]
  | c :: text, part, partNo =>
    if c ≠ splitChar then strSplitStores splitChar text (part ++ [c]) partNo
    else (partNo, part) :: strSplitStores splitChar text [] (partNo + 1)

theorem strSplitLoop_length (splitChar : UInt8) (text part : CString) :
    (strSplitLoop splitChar text part).length = text.count splitChar + 1 := by
  induction text generalizing part with
  | nil => rfl
  | cons c text ih =>
    rw [strSplitLoop]
    split
    · rename_i hc
      rw [ih, List.count_cons_of_ne hc]
    · rename_i hc
      rw [List.length_cons, ih, not_not.mp hc, List.count_cons_self]

/-- One section more than separators. -/
theorem strSplit_length (text : CString) (splitChar : UInt8) :
    (strSplit text splitChar).length = text.count splitChar + 1 :=
  strSplitLoop_length splitChar text []

/-- The sections are stored one after the other. -/
theorem strSplitStores_eq (splitChar : UInt8) (text part : CString) (partNo : Nat) :
    strSplitStores splitChar text part partNo =
      ((strSplitLoop splitChar text part).zipIdx partNo).map Prod.swap := by
  induction text generalizing part partNo with
  | nil => rfl
  | cons c text ih =>
    rw [strSplitStores, strSplitLoop]
    split
    · exact ih _ _
    · rw [ih, List.zipIdx_cons, List.map_cons]
      rfl

/-- The indexes that `str_split` stores to are those below the number of sections. -/
theorem strSplitStores_index (text : CString) (splitChar : UInt8) :
    (strSplitStores splitChar text [] 0).map Prod.fst =
      List.range (text.count splitChar + 1) := by
  rw [strSplitStores_eq, List.map_map, ← strSplit_length, List.range_eq_range', strSplit]
  exact List.zipIdx_map_snd 0 _

/-- All sections are stored below `capacity` exactly if there are fewer separators. -/
theorem strSplitStores_lt_iff {text : CString} {splitChar : UInt8} {capacity : Nat} :
    (∀ s ∈ strSplitStores splitChar text [] 0, s.1 < capacity) ↔
      text.count splitChar < capacity := by
  have hindex := strSplitStores_index text splitChar
  have hforall : (∀ s ∈ strSplitStores splitChar text [] 0, s.1 < capacity) ↔
      ∀ i ∈ (strSplitStores splitChar text [] 0).map Prod.fst, i < capacity := by
    rw [List.forall_mem_map]
  rw [hforall, hindex]
  constructor
  · intro h
    exact h _ (List.mem_range.mpr (Nat.lt_succ_self _))
  · intro h i hi
    exact Nat.lt_of_le_of_lt (Nat.le_of_lt_succ (List.mem_range.mp hi)) h

/-- A text with a separator in it has the sections of the parts. -/
theorem strSplitLoop_append (splitChar : UInt8) (text text' part : CString) :
    strSplitLoop splitChar (text ++ splitChar :: text') part =
      strSplitLoop splitChar text part ++ strSplit text' splitChar := by
  induction text generalizing part with
  | nil =>
    have hsep : strSplitLoop splitChar (splitChar :: text') part =
        part :: strSplitLoop splitChar text' [] := by
      rw [strSplitLoop]
      simp
    exact hsep
  | cons c text ih =>
    rw [List.cons_append, strSplitLoop, strSplitLoop]
    split
    · exact ih _
    · rw [ih, List.cons_append]

theorem strSplit_append (splitChar : UInt8) (text text' : CString) :
    strSplit (text ++ splitChar :: text') splitChar =
      strSplit text splitChar ++ strSplit text' splitChar :=
  strSplitLoop_append splitChar text text' []

theorem strSplitLoop_of_not_mem {splitChar : UInt8} {text : CString} (h : splitChar ∉ text)
    (part : CString) : strSplitLoop splitChar text part = [part ++ text] := by
  induction text generalizing part with
  | nil => rw [strSplitLoop, List.append_nil]
  | cons c text ih =>
    obtain ⟨hc, htext⟩ := List.ne_and_not_mem_of_not_mem_cons h
    rw [strSplitLoop, if_pos (Ne.symm hc), ih htext, List.append_assoc]
    rfl

/-- A text without a separator is one section. -/
theorem strSplit_of_not_mem {splitChar : UInt8} {text : CString} (h : splitChar ∉ text) :
    strSplit text splitChar = [text] :=
  strSplitLoop_of_not_mem h []

theorem not_mem_of_mem_strSplitLoop {splitChar : UInt8} {text part s : CString}
    (hpart : splitChar ∉ part) (hs : s ∈ strSplitLoop splitChar text part) : splitChar ∉ s := by
  induction text generalizing part with
  | nil =>
    rw [strSplitLoop, List.mem_singleton] at hs
    exact hs ▸ hpart
  | cons c text ih =>
    rw [strSplitLoop] at hs
    split at hs
    · rename_i hc
      refine ih ?_ hs
      rw [List.mem_append, List.mem_singleton]
      exact fun h => h.elim hpart fun h => hc h.symm
    · rcases List.mem_cons.mp hs with rfl | hs
      · exact hpart
      · exact ih List.not_mem_nil hs

/-- No section has a separator in it. -/
theorem not_mem_of_mem_strSplit {splitChar : UInt8} {text s : CString}
    (hs : s ∈ strSplit text splitChar) : splitChar ∉ s :=
  not_mem_of_mem_strSplitLoop List.not_mem_nil hs

/-! ## Comparing -/

theorem strEqual_eq (a b : CString) : strEqual a b = decide (a = b) := by
  rw [strEqual]
  split
  · rename_i h
    exact (decide_eq_false fun heq => h (congrArg List.length heq)).symm
  · rename_i h
    rw [Bool.eq_iff_iff, decide_eq_true_iff, List.all_eq_true]
    constructor
    · intro hall
      refine List.ext_getElem (not_not.mp h) fun i hi hi' => ?_
      have hmem : (a[i], b[i]) ∈ a.zip b :=
        List.mem_iff_getElem.mpr ⟨i, by rw [List.length_zip]; omega, List.getElem_zip⟩
      exact eq_of_beq (hall _ hmem)
    · rintro rfl ⟨x, y⟩ hp
      have hxy : x = y := by
        obtain ⟨i, hi, hget⟩ := List.mem_iff_getElem.mp hp
        rw [List.getElem_zip] at hget
        cases hget
        rfl
      simp [hxy]

end EszOs
