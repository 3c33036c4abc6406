/-!
# C strings (`types/string/string.cpp`)

A C string is the list of its bytes before the terminator, so `str_length` is the length of the
list. The functions that return a new string or change one in place return the new bytes. What they
allocate is left out.
-/

namespace EszOs

/-- A C string: its bytes before the terminator. -/
abbrev CString := List UInt8

/-- `'/'` -/
def slash : UInt8 := 0x2F

/-- `' '` -/
def space : UInt8 := 0x20

/-- The bytes of a string literal. -/
def literal (text : String) : CString := text.toList.map fun c => c.toNat.toUInt8

def strEqual (a b : CString) : Bool :=
  if a.length ≠ b.length then false else (a.zip b).all fun p => p.1 == p.2

def strStartsWith (text searchText : CString) : Bool :=
  if searchText.length > text.length then false else (text.zip searchText).all fun p => p.1 == p.2

/-- `str_add`: the new content of `target`. -/
def strAdd (target value : CString) : CString := target ++ value

/-- `str_add` of a character; a zero byte is a second terminator. -/
def strAddChar (target : CString) (c : UInt8) : CString := if c = 0 then target else target ++ [c]

/-- The loop of `str_split`; `part` was read since the last separator. -/
def strSplitLoop (splitChar : UInt8) : CString → CString → List CString
  | [], part => [part]
  | c :: text, part =>
    if c ≠ splitChar then strSplitLoop splitChar text (part ++ [c])
    else part :: strSplitLoop splitChar text []

/-- `str_split`: the entries of `outSplits`; their number is `outSplitQty`. -/
def strSplit (text : CString) (splitChar : UInt8) : List CString := strSplitLoop splitChar text []

/-! ## Characters -/

/-- Text of printable characters. -/
def Printable (text : CString) : Prop := ∀ c ∈ text, 32 ≤ c ∧ c ≤ 126

instance (text : CString) : Decidable (Printable text) :=
  inferInstanceAs (Decidable (∀ c ∈ text, _))

theorem Printable.ne {text : CString} (h : Printable text) {c d : UInt8} (hc : c ∈ text)
    (hd : d < 32) : c ≠ d := by
  rintro rfl
  exact absurd (h c hc).1 (UInt8.not_le.mpr hd)

/-! ## Splitting -/

theorem strSplitLoop_ne_nil (splitChar : UInt8) (text part : CString) :
    strSplitLoop splitChar text part ≠ [] := by
  induction text generalizing part with
  | nil => simp [strSplitLoop]
  | cons c text ih =>
    rw [strSplitLoop]
    split
    · exact ih _
    · simp

/-- A single part is the whole text. -/
theorem strSplitLoop_eq_singleton {splitChar : UInt8} {text part p : CString}
    (h : strSplitLoop splitChar text part = [p]) : p = part ++ text := by
  induction text generalizing part with
  | nil => simpa [strSplitLoop] using h.symm
  | cons c text ih =>
    rw [strSplitLoop] at h
    split at h
    · rw [ih h, List.append_assoc]
      rfl
    · obtain ⟨-, htail⟩ := List.cons.inj h
      exact absurd htail (strSplitLoop_ne_nil _ _ _)

theorem strSplit_eq_singleton {splitChar : UInt8} {text p : CString}
    (h : strSplit text splitChar = [p]) : p = text :=
  strSplitLoop_eq_singleton h

end EszOs
