import EszOs.Lib.Regions
import EszOs.Types.Text

/-!
# Trimming a text (`types/string/string.cpp`)

`str_trim_start` skips the whitespace in front while it copies, `str_trim_end` copies and then cuts off
the whitespace behind, and `str_trim` does the one and then the other in a single block. A block is a
cleared region of the length that is asked for.

* `trimStartLoop_eq`, `trimEndLoop_eq`: what the loops leave.
* `trimmed_both`, `Trimmed.both`: both sides, in either order, leave the trimmed part.
* `strTrim_composes`: the three functions agree.
-/

namespace EszOs

namespace Trims

/-! ## The functions -/

/-- The loop that copies, with the flag that skips the whitespace in front. -/
def trimStartLoop : CString → Bool → Nat → Region → Option (Nat × Region)
  | [], _, newLength, returnString => some (newLength, returnString)
  | c :: text, spottedChars, newLength, returnString =>
    if isWhitespace c && !spottedChars then trimStartLoop text spottedChars newLength returnString
    else do
      let returnString ← returnString.set newLength c
      trimStartLoop text true (newLength + 1) returnString

/-- The loop that cuts, over the values of `i` from `newLength - 1` to 0. -/
def trimEndLoop : Nat → Region → Option Region
  | 0, returnString => some returnString
  | i + 1, returnString => do
    let c ← returnString.get i
    if isWhitespace c then do
      let returnString ← returnString.set i 0
      trimEndLoop i returnString
    else some returnString

def strTrimStart (text : CString) : Option Region := do
  let copied ← trimStartLoop text false 0 (Region.cleared (text.length + 1))
  some copied.2

def strTrimEnd (text : CString) : Option Region := do
  -- `str_copy`
  let returnString ← (Region.cleared (text.length + 1)).store 0 text
  let returnString ← returnString.set text.length 0
  trimEndLoop text.length returnString

def strTrim (text : CString) : Option Region := do
  let copied ← trimStartLoop text false 0 (Region.cleared (text.length + 1))
  trimEndLoop copied.1 copied.2

/-! ## Trimmed texts -/

/-- The function returns a block with that text in it. -/
def Returns (f : CString → Option Region) (text s : CString) : Prop :=
  ∃ m, f text = some m ∧ m.string 0 = some s

/-- `s` is the part of the text from its first to its last character that is not whitespace. -/
def Trimmed (text s : CString) : Prop :=
  ∃ a b, text = a ++ s ++ b ∧ (∀ c ∈ a, isWhitespace c = true) ∧ (∀ c ∈ b, isWhitespace c = true) ∧
    (∀ c ∈ s.head?, isWhitespace c = false) ∧ ∀ c ∈ s.getLast?, isWhitespace c = false

section Sides

variable {text s : CString}

theorem dropWhile_of_head (h : ∀ c ∈ s.head?, isWhitespace c = false) (b : CString) (hs : s ≠ []) :
    (s ++ b).dropWhile isWhitespace = s ++ b := by
  obtain ⟨c, s, rfl⟩ := List.exists_cons_of_ne_nil hs
  have hc : isWhitespace c = false := h c rfl
  simp [hc]

theorem rdropWhile_of_getLast (h : ∀ c ∈ s.getLast?, isWhitespace c = false) (a : CString)
    (hs : s ≠ []) : (a ++ s).rdropWhile isWhitespace = a ++ s := by
  rw [List.rdropWhile_eq_self_iff]
  intro hne
  rw [List.getLast_append_of_ne_nil hne hs]
  simp [h _ (List.getLast?_eq_getLast_of_ne_nil hs)]

theorem rdropWhile_append {b : CString} (hb : ∀ c ∈ b, isWhitespace c = true) (s : CString) :
    (s ++ b).rdropWhile isWhitespace = s.rdropWhile isWhitespace := by
  induction b using List.reverseRecOn with
  | nil => simp
  | append_singleton b c ih =>
    have hc : isWhitespace c = true := hb c (by simp)
    rw [← List.append_assoc, List.rdropWhile_concat_pos _ _ _ hc]
    exact ih fun c' hc' => hb c' (List.mem_append_left _ hc')

/-- What is left after both sides is trimmed. -/
theorem trimmed_both (text : CString) :
    Trimmed text ((text.dropWhile isWhitespace).rdropWhile isWhitespace) := by
  let t := text.dropWhile isWhitespace
  have hfront : text.takeWhile isWhitespace ++ t = text := List.takeWhile_append_dropWhile
  have hbehind : t.rdropWhile isWhitespace ++ t.rtakeWhile isWhitespace = t :=
    List.rdropWhile_append_rtakeWhile
  refine ⟨text.takeWhile isWhitespace, t.rtakeWhile isWhitespace, ?_, ?_, ?_, ?_, ?_⟩
  · rw [List.append_assoc, hbehind, hfront]
  · exact fun c hc => List.mem_takeWhile_imp hc
  · exact fun c hc => List.mem_rtakeWhile_imp hc
  · intro c hc
    -- the head is the one of `t`
    have hhead : t.head? = some c := by
      rw [← hbehind, List.head?_append, Option.mem_def.mp hc]
      rfl
    have hnot := List.head?_dropWhile_not isWhitespace text
    rw [hhead] at hnot
    simpa using hnot
  · intro c hc
    have hne : t.rdropWhile isWhitespace ≠ [] := by
      intro h
      rw [h] at hc
      cases hc
    rw [List.getLast?_eq_getLast_of_ne_nil hne] at hc
    have hlast := List.rdropWhile_last_not isWhitespace t hne
    rw [Option.some.inj hc] at hlast
    simpa using hlast

/-- It does not matter which side is first. -/
theorem Trimmed.both (h : Trimmed text s) :
    (text.dropWhile isWhitespace).rdropWhile isWhitespace = s ∧
      (text.rdropWhile isWhitespace).dropWhile isWhitespace = s := by
  obtain ⟨a, b, rfl, ha, hb, hhead, hlast⟩ := h
  rw [rdropWhile_append hb, List.append_assoc, List.dropWhile_append_of_pos ha]
  by_cases hs : s = []
  · have hnil : b.dropWhile isWhitespace = [] := List.dropWhile_eq_nil_iff.mpr hb
    have hnil' : a.rdropWhile isWhitespace = [] := List.rdropWhile_eq_nil_iff.mpr ha
    simp [hs, hnil, hnil']
  · rw [dropWhile_of_head hhead b hs, rdropWhile_append hb, rdropWhile_of_getLast hlast a hs,
      List.dropWhile_append_of_pos ha]
    have hstart := dropWhile_of_head hhead [] hs
    have hend := rdropWhile_of_getLast hlast [] hs
    exact ⟨hend, by simpa using hstart⟩

/-- A trimmed text is its own trimmed part. -/
theorem Trimmed.self (h : Trimmed text s) : Trimmed s s := by
  obtain ⟨a, b, -, -, -, hhead, hlast⟩ := h
  exact ⟨[], [], by simp, by simp, by simp, hhead, hlast⟩

end Sides

/-! ## The loops -/

/-- Behind the whitespace in front, the loop copies everything. -/
theorem trimStartLoop_true (text : CString) (newLength : Nat) (m : Region) :
    trimStartLoop text true newLength m =
      (m.store newLength text).map fun m => (newLength + text.length, m) := by
  induction text generalizing newLength m with
  | nil => rfl
  | cons c text ih =>
    simp only [trimStartLoop, Bool.not_true, Bool.and_false, Bool.false_eq_true, if_false,
      Region.store, List.length_cons]
    cases m.set newLength c with
    | none => rfl
    | some m => simp [ih, Nat.add_assoc, Nat.add_comm 1]

theorem trimStartLoop_eq (text : CString) (m : Region) :
    trimStartLoop text false 0 m = (m.store 0 (text.dropWhile isWhitespace)).map
      fun m => ((text.dropWhile isWhitespace).length, m) := by
  induction text with
  | nil => rfl
  | cons c text ih =>
    by_cases hc : isWhitespace c = true
    · simp only [trimStartLoop, hc, Bool.not_false, Bool.and_true, if_true, List.dropWhile_cons, ih]
    · have hcopied := trimStartLoop_true (c :: text) 0 m
      rw [List.dropWhile_cons_of_neg hc]
      simp only [trimStartLoop, hc, Bool.not_true, Bool.false_and, Bool.and_false,
        Bool.false_eq_true, if_false, Nat.zero_add] at hcopied ⊢
      exact hcopied

/-- The loop puts zero bytes over the whitespace behind. -/
theorem trimEndLoop_string {s : CString} (hs : 0 ∉ s) (bs : List UInt8) (st : List Nat) :
    ∃ m, trimEndLoop s.length ⟨s ++ 0 :: bs, st⟩ = some m ∧
      m.string 0 = some (s.rdropWhile isWhitespace) := by
  induction s using List.reverseRecOn generalizing bs st with
  | nil => exact ⟨_, rfl, Region.string_zero List.not_mem_nil bs st⟩
  | append_singleton s c ih =>
    have hget : Region.get ⟨s ++ [c] ++ 0 :: bs, st⟩ s.length = some c := by simp [Region.get]
    have hset := Region.set_mid s c (0 :: bs) st 0
    rw [List.append_cons] at hset
    simp only [List.length_append, List.length_singleton, trimEndLoop, hget, Option.bind_eq_bind,
      Option.bind_some]
    by_cases hc : isWhitespace c = true
    · rw [if_pos hc, hset, Option.bind_some, List.rdropWhile_concat_pos _ _ _ hc]
      exact ih (fun h => hs (List.mem_append_left _ h)) _ _
    · rw [if_neg hc, List.rdropWhile_concat_neg _ _ _ hc]
      exact ⟨_, rfl, Region.string_zero hs bs st⟩

/-! ## The functions on every text -/

section Functions

variable {text : CString}

theorem zero_notMem_dropWhile (htext : 0 ∉ text) : 0 ∉ text.dropWhile isWhitespace :=
  fun h => htext ((List.dropWhile_suffix _).subset h)

theorem length_dropWhile_lt (text : CString) :
    (text.dropWhile isWhitespace).length < text.length + 1 :=
  Nat.lt_succ_of_le (List.dropWhile_suffix _).length_le

theorem strTrimStart_returns (htext : 0 ∉ text) :
    Returns strTrimStart text (text.dropWhile isWhitespace) := by
  obtain ⟨m, hstore, hstring⟩ := Region.string_cleared (zero_notMem_dropWhile htext)
    (length_dropWhile_lt text)
  refine ⟨m, ?_, hstring⟩
  simp [strTrimStart, trimStartLoop_eq, hstore]

theorem strTrimEnd_returns (htext : 0 ∉ text) :
    Returns strTrimEnd text (text.rdropWhile isWhitespace) := by
  obtain ⟨st, hstore⟩ := Region.store_cleared (Nat.lt_succ_self text.length)
  have hset := Region.set_mid text 0 (List.replicate (text.length.succ - text.length - 1) 0) st 0
  obtain ⟨m, hloop, hstring⟩ := trimEndLoop_string htext
    (List.replicate (text.length.succ - text.length - 1) 0) (text.length :: st)
  refine ⟨m, ?_, hstring⟩
  unfold strTrimEnd
  rw [hstore, Option.bind_eq_bind, Option.bind_some, hset, Option.bind_some, hloop]

theorem strTrim_returns (htext : 0 ∉ text) :
    Returns strTrim text ((text.dropWhile isWhitespace).rdropWhile isWhitespace) := by
  obtain ⟨st, hstore⟩ := Region.store_cleared (length_dropWhile_lt text)
  obtain ⟨m, hloop, hstring⟩ := trimEndLoop_string (zero_notMem_dropWhile htext) (List.replicate
    (text.length + 1 - (text.dropWhile isWhitespace).length - 1) 0) st
  refine ⟨m, ?_, hstring⟩
  unfold strTrim
  rw [trimStartLoop_eq, hstore, Option.map_some, Option.bind_eq_bind, Option.bind_some, hloop]

/-- `str_trim` is `str_trim_start` and `str_trim_end` in either order, gives the trimmed part of the
text, and leaves that part as it is. -/
theorem strTrim_composes (htext : 0 ∉ text) :
    ∃ s front behind, Returns strTrim text s ∧ Trimmed text s ∧ Returns strTrim s s ∧
      Returns strTrimStart text front ∧ Returns strTrimEnd front s ∧
      Returns strTrimEnd text behind ∧ Returns strTrimStart behind s := by
  have htrimmed := trimmed_both text
  have hbehind : 0 ∉ text.rdropWhile isWhitespace :=
    fun h => htext ((List.rdropWhile_prefix _ _).subset h)
  have hs : 0 ∉ (text.dropWhile isWhitespace).rdropWhile isWhitespace :=
    fun h => zero_notMem_dropWhile htext ((List.rdropWhile_prefix _ _).subset h)
  refine ⟨_, _, _, strTrim_returns htext, htrimmed, ?_, strTrimStart_returns htext,
    strTrimEnd_returns (zero_notMem_dropWhile htext), strTrimEnd_returns htext, ?_⟩
  · have hagain := strTrim_returns hs
    rw [htrimmed.self.both.1] at hagain
    exact hagain
  · have hstart := strTrimStart_returns hbehind
    rw [htrimmed.both.2] at hstart
    exact hstart

/-- Whitespace on both sides and between the words. -/
theorem strTrim_words : ∃ s front behind, Returns strTrim (literal " a  b ") s ∧
    Trimmed (literal " a  b ") s ∧ Returns strTrim s s ∧
    Returns strTrimStart (literal " a  b ") front ∧ Returns strTrimEnd front s ∧
    Returns strTrimEnd (literal " a  b ") behind ∧ Returns strTrimStart behind s :=
  strTrim_composes (by decide)

end Functions

end Trims

end EszOs
