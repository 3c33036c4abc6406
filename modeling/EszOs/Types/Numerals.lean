import EszOs.Lib.Regions
import EszOs.Types.StringNulls
import Mathlib.Data.Nat.Digits.Lemmas

/-!
# Numerals (`types/string/string.cpp`, `types/integer/integer.cpp`, `types/char/char.h`)

`to_string` divides the digits off a number and turns them round, `to_int` reads them back. A block is
a cleared region of the length that is asked for.

* `unsigned_iff`, `Canonical.unique`: every number has one numeral.
* `toStringI64_writes`: `to_string` writes the numeral of a number.
* `toInt_canonical`: `to_int` gives the value of a numeral.
* `toString_toInt_inverse`: the two undo each other.
-/

namespace EszOs

/-! ## Characters -/

def isDigit (c : UInt8) : Bool := 0x30 ≤ c && c ≤ 0x39

def isAlpha (c : UInt8) : Bool := (0x41 ≤ c && c ≤ 0x5A) || (0x61 ≤ c && c ≤ 0x7A)

/-- `'-'` -/
def minus : UInt8 := 0x2D

namespace Numerals

/-! ## `string.cpp` -/

/-- A base in which dividing ends. -/
abbrev Radix := { base : UInt8 // 2 ≤ base }

theorem div_lt_of_radix (base : Radix) {calcValue : UInt64} (h : calcValue ≠ 0) :
    (calcValue / base.1.toUInt64).toNat < calcValue.toNat := by
  have hbase : 2 ≤ base.1.toNat := base.2
  have hpos : 0 < calcValue.toNat :=
    Nat.pos_of_ne_zero fun h0 => h (UInt64.toNat_inj.mp (h0.trans UInt64.toNat_zero.symm))
  rw [UInt64.toNat_div, UInt8.toNat_toUInt64]
  exact Nat.div_lt_self hpos hbase

/-- The loop that counts the digits. -/
def countLoop (base : Radix) (calcValue : UInt64) (strLength : Nat) : Nat :=
  if h : calcValue = 0 then strLength
  else countLoop base (calcValue / base.1.toUInt64) (strLength + 1)
termination_by calcValue.toNat
decreasing_by exact div_lt_of_radix base h

/-- The loop that composes the digits, the lowest one first. -/
def composeLoop (base : Radix) (calcValue : UInt64) (strLength : Nat) (composedString : Region) :
    Option (Nat × Region) :=
  if h : calcValue = 0 then some (strLength, composedString)
  else do
    let newValue := calcValue % base.1.toUInt64
    let composedString ← composedString.set strLength (digitChar newValue.toNat)
    composeLoop base (calcValue / base.1.toUInt64) (strLength + 1) composedString
termination_by calcValue.toNat
decreasing_by exact div_lt_of_radix base h

/-- The loop that turns the digits round, over the values of `i` from `strLength - 1` to 0. -/
def reverseLoop (composedString : Region) : Nat → Nat → Region → Option Region
  | 0, _, returnString => some returnString
  | i + 1, counter, returnString => do
    let c ← composedString.get i
    let returnString ← returnString.set counter c
    reverseLoop composedString i (counter + 1) returnString

/-- `malloc_empty_str` -/
def mallocEmptyStr : Option Region := do
  let ret ← (Region.cleared 2).set 0 0x30
  ret.set 1 0

theorem two_le_base {inputValue : UInt64} {base : UInt8}
    (h : ¬ (inputValue = 0 ∨ base = 0 ∨ base = 1)) : 2 ≤ base := by
  grind

/-- `to_string` of a `uint64_t`. -/
def toStringU64 (inputValue : UInt64) (base : UInt8) : Option Region :=
  if h : inputValue = 0 ∨ base = 0 ∨ base = 1 then mallocEmptyStr
  else do
    let radix : Radix := ⟨base, two_le_base h⟩
    let strLength := countLoop radix inputValue 0
    let composed ← composeLoop radix inputValue 0 (Region.cleared (strLength + 1))
    let returnString ← reverseLoop composed.2 composed.1 0 (Region.cleared (strLength + 1))
    returnString.set composed.1 0

/-- `str_combine` -/
def strCombine (a b : CString) : Option Region := do
  let returnString ← (Region.cleared (a.length + b.length + 1)).store 0 a
  let returnString ← returnString.store a.length b
  returnString.set (a.length + b.length : Nat) 0

/-- `to_string` of an `int64_t`. -/
def toStringI64 (inputValue : Int64) (base : UInt8) : Option Region :=
  if 0 ≤ inputValue then toStringU64 inputValue.toUInt64 base
  else do
    let digits ← toStringU64 (-inputValue).toUInt64 base
    let text ← digits.string 0
    strCombine (literal "-") text

/-! ## `integer.cpp` -/

def digitValue (c : UInt8) : UInt64 :=
  if isDigit c then (c - 0x30).toUInt64
  else if isAlpha c then (toLower c - 0x61 + 10).toUInt64
  else 0

/-- The loop of `to_int`; the sum is an unsigned one. -/
def toIntLoop (base : UInt64) (text : CString) : Int64 :=
  text.foldl (fun result c => (result.toUInt64 * base + digitValue c).toInt64) 0

/-- `to_int` -/
def toInt (text : CString) (base : UInt64) : Int64 :=
  if text = [] then 0
  else
    let isNegative := text.head? == some minus
    let numberStartAtIdx := if isNegative then 1 else 0
    let result := toIntLoop base (text.drop numberStartAtIdx)
    if isNegative then 0 - result else result

/-! ## Canonical numerals -/

/-- The digits, in their order. -/
def alphabet : CString := literal "0123456789abcdefghijklmnopqrstuvwxyz"

/-- The value of digits, the highest one first. -/
def value (base : Nat) (ds : List Nat) : Nat := ds.foldl (fun v d => v * base + d) 0

/-- `s` is the numeral of `v`: digits below the base, with no zero in front of others. -/
def Unsigned (base : Nat) (s : CString) (v : Nat) : Prop :=
  ∃ ds : List Nat, ds ≠ [] ∧ (∀ d ∈ ds, d < base) ∧ (ds.head? = some 0 → ds = [0]) ∧
    s.map some = ds.map (alphabet[·]?) ∧ value base ds = v

/-- The same with a sign: a negative number has a minus in front, and zero has none. -/
def Canonical (base : Nat) (s : CString) (v : Int) : Prop :=
  (∃ n : Nat, Unsigned base s n ∧ v = n) ∨
    ∃ (t : CString) (n : Nat), Unsigned base t n ∧ t ≠ literal "0" ∧ s = minus :: t ∧ v = -n

/-- `to_string` writes that text. -/
def Writes (n : Int64) (base : UInt8) (text : CString) : Prop :=
  ∃ m, toStringI64 n base = some m ∧ m.string 0 = some text

/-! ## The loops of `to_string` -/

section Loops

variable (base : Radix)

theorem digits_of_ne_zero {calcValue : UInt64} (h : calcValue ≠ 0) :
    Nat.digits base.1.toNat calcValue.toNat = (calcValue % base.1.toUInt64).toNat ::
      Nat.digits base.1.toNat (calcValue / base.1.toUInt64).toNat := by
  have hpos : 0 < calcValue.toNat :=
    Nat.pos_of_ne_zero fun h0 => h (UInt64.toNat_inj.mp (h0.trans UInt64.toNat_zero.symm))
  rw [UInt64.toNat_mod, UInt64.toNat_div, UInt8.toNat_toUInt64]
  exact Nat.digits_def' base.2 hpos

theorem countLoop_eq (calcValue : UInt64) (strLength : Nat) :
    countLoop base calcValue strLength =
      strLength + (Nat.digits base.1.toNat calcValue.toNat).length := by
  fun_induction countLoop with
  | case1 => simp
  | case2 calcValue strLength h ih =>
    rw [ih, digits_of_ne_zero base h, List.length_cons]
    omega

/-- The loop stores the digits, one after the other. -/
theorem composeLoop_eq (calcValue : UInt64) (strLength : Nat) (composedString : Region) :
    composeLoop base calcValue strLength composedString =
      (composedString.store strLength
        ((Nat.digits base.1.toNat calcValue.toNat).map digitChar)).map
          fun m => (strLength + (Nat.digits base.1.toNat calcValue.toNat).length, m) := by
  fun_induction composeLoop with
  | case1 => simp [Region.store]
  | case2 calcValue strLength composedString h newValue ih =>
    rw [digits_of_ne_zero base h, List.map_cons, Region.store]
    cases composedString.set strLength (digitChar newValue.toNat) with
    | none => simp
    | some m => simp [ih, Nat.add_assoc, Nat.add_comm 1]

/-- The loop stores the first characters in reverse order. -/
theorem reverseLoop_eq {composedString : Region} {i : Nat} (hi : i ≤ composedString.bytes.length)
    (counter : Nat) (returnString : Region) :
    reverseLoop composedString i counter returnString =
      returnString.store counter (composedString.bytes.take i).reverse := by
  induction i generalizing counter returnString with
  | zero => rfl
  | succ i ih =>
    have hget : composedString.get i = some composedString.bytes[i] := by
      simp [Region.get]
    rw [reverseLoop, hget, List.take_succ_eq_append_getElem hi, List.reverse_append]
    simp [Region.store, ih (Nat.le_of_succ_le hi)]

end Loops

/-! ## Digits -/

theorem digitChar_alphabet : ∀ d < 36, alphabet[d]? = some (digitChar d) := by decide

theorem digitValue_digitChar : ∀ d < 36, digitValue (digitChar d) = UInt64.ofNat d := by decide

theorem digitChar_ne : ∀ d < 36, digitChar d ≠ 0 ∧ digitChar d ≠ minus := by decide

theorem eq_zero_of_digitChar : ∀ d < 36, [digitChar d] = literal "0" → d = 0 := by decide

theorem value_eq_ofDigits (base : Nat) (ds : List Nat) :
    value base ds = Nat.ofDigits base ds.reverse := by
  rw [Nat.ofDigits_eq_foldr, List.foldr_reverse]
  simp [value, Nat.add_comm, Nat.mul_comm]

/-- The characters of a list of digits. -/
theorem map_alphabet {s : CString} {ds : List Nat} (hds : ∀ d ∈ ds, d < 36) :
    s.map some = ds.map (alphabet[·]?) ↔ s = ds.map digitChar := by
  have halphabet : ds.map (alphabet[·]?) = (ds.map digitChar).map some := by
    rw [List.map_map]
    exact List.map_congr_left fun d hd => digitChar_alphabet d (hds d hd)
  rw [halphabet]
  exact List.map_inj_right fun _ _ => Option.some.inj

section Base

variable {base : Nat}

/-- The text that the division gives. -/
def natText (base n : Nat) : CString :=
  if n = 0 then literal "0" else ((Nat.digits base n).map digitChar).reverse

theorem natText_zero (base : Nat) : natText base 0 = [0].map digitChar := by
  rw [natText, if_pos rfl]
  decide

theorem exists_digits (hbase : 2 ≤ base) (n : Nat) :
    ∃ ds : List Nat, ds ≠ [] ∧ (∀ d ∈ ds, d < base) ∧ (ds.head? = some 0 → ds = [0]) ∧
      value base ds = n ∧ natText base n = ds.map digitChar := by
  by_cases hn : n = 0
  · refine ⟨[0], List.cons_ne_nil _ _, ?_, fun _ => rfl, by simp [value, hn], hn ▸ natText_zero base⟩
    intro d hd
    rw [List.mem_singleton.mp hd]
    omega
  · have hne : Nat.digits base n ≠ [] := Nat.digits_ne_nil_iff_ne_zero.mpr hn
    refine ⟨(Nat.digits base n).reverse, by simpa using hne, ?_, ?_, ?_, ?_⟩
    · intro d hd
      exact Nat.digits_lt_base hbase (List.mem_reverse.mp hd)
    · intro hhead
      rw [List.head?_reverse, List.getLast?_eq_getLast_of_ne_nil hne] at hhead
      exact absurd (Option.some.inj hhead) (Nat.getLast_digit_ne_zero base hn)
    · rw [value_eq_ofDigits, List.reverse_reverse, Nat.ofDigits_digits]
    · rw [natText, if_neg hn, List.map_reverse]

/-- A number has one numeral. -/
theorem unsigned_iff (hbase : 2 ≤ base) (hbase' : base ≤ 36) {s : CString} {n : Nat} :
    Unsigned base s n ↔ s = natText base n := by
  constructor
  · rintro ⟨ds, hne, hlt, hzero, htext, rfl⟩
    rw [(map_alphabet fun d hd => Nat.lt_of_lt_of_le (hlt d hd) hbase').mp htext]
    by_cases hhead : ds.head? = some 0
    · have hvalue : value base [0] = 0 := by simp [value]
      rw [hzero hhead, hvalue, natText_zero]
    · have hdigits : Nat.digits base (value base ds) = ds.reverse := by
        rw [value_eq_ofDigits]
        refine Nat.digits_ofDigits base hbase _ (fun d hd => hlt d (List.mem_reverse.mp hd)) ?_
        intro h hlast
        rw [List.getLast_reverse] at hlast
        exact hhead (by rw [List.head?_eq_some_head hne, hlast])
      have hvalue : value base ds ≠ 0 := by
        intro h
        rw [h, Nat.digits_zero] at hdigits
        exact hne (List.reverse_eq_nil_iff.mp hdigits.symm)
      rw [natText, if_neg hvalue, hdigits, List.map_reverse, List.reverse_reverse]
  · rintro rfl
    obtain ⟨ds, hne, hlt, hzero, hvalue, htext⟩ := exists_digits hbase n
    refine ⟨ds, hne, hlt, hzero, ?_, hvalue⟩
    exact (map_alphabet fun d hd => Nat.lt_of_lt_of_le (hlt d hd) hbase').mpr htext

theorem natText_ne (hbase : 2 ≤ base) (hbase' : base ≤ 36) {n : Nat} (hn : n ≠ 0) :
    natText base n ≠ literal "0" := by
  obtain ⟨ds, hne, hlt, -, hvalue, htext⟩ := exists_digits hbase n
  intro h
  have hlength : ds.length = 1 := by
    rw [← List.length_map digitChar, ← htext, h]
    rfl
  obtain ⟨d, rfl⟩ := List.length_eq_one_iff.mp hlength
  have hd := Nat.lt_of_lt_of_le (hlt d List.mem_cons_self) hbase'
  rw [eq_zero_of_digitChar d hd (htext.symm.trans h)] at hvalue
  exact hn (hvalue.symm.trans (by simp [value]))

/-- `to_int` of the digits of a numeral, with a number in front of them. -/
theorem foldl_digits {ds : List Nat} (hds : ∀ d ∈ ds, d < 36) (n : Nat) :
    (ds.map digitChar).foldl (fun result c =>
        (result.toUInt64 * UInt64.ofNat base + digitValue c).toInt64) (Int64.ofNat n) =
      Int64.ofNat (ds.foldl (fun v d => v * base + d) n) := by
  induction ds generalizing n with
  | nil => rfl
  | cons d ds ih =>
    have hstep : ((Int64.ofNat n).toUInt64 * UInt64.ofNat base + digitValue (digitChar d)).toInt64 =
        Int64.ofNat (n * base + d) := by
      rw [digitValue_digitChar d (hds d List.mem_cons_self), Int64.toUInt64_ofNat', ← UInt64.ofNat_mul,
        ← UInt64.ofNat_add, UInt64.toInt64_ofNat']
    rw [List.map_cons, List.foldl_cons, hstep, ih fun d hd => hds d (List.mem_cons_of_mem _ hd)]
    rfl

theorem toIntLoop_unsigned (hbase' : base ≤ 36) {s : CString} {n : Nat} (h : Unsigned base s n) :
    toIntLoop (UInt64.ofNat base) s = Int64.ofNat n := by
  obtain ⟨ds, -, hlt, -, htext, rfl⟩ := h
  have hds : ∀ d ∈ ds, d < 36 := fun d hd => Nat.lt_of_lt_of_le (hlt d hd) hbase'
  rw [(map_alphabet hds).mp htext]
  exact foldl_digits hds 0

/-- A numeral has no sign. -/
theorem Unsigned.head_ne (hbase' : base ≤ 36) {s : CString} {n : Nat} (h : Unsigned base s n) :
    s ≠ [] ∧ s.head? ≠ some minus ∧ 0 ∉ s := by
  obtain ⟨ds, hne, hlt, -, htext, -⟩ := h
  have hds : ∀ d ∈ ds, d < 36 := fun d hd => Nat.lt_of_lt_of_le (hlt d hd) hbase'
  rw [(map_alphabet hds).mp htext]
  refine ⟨by simpa using hne, ?_, ?_⟩
  · obtain ⟨d, ds, rfl⟩ := List.exists_cons_of_ne_nil hne
    simpa using (digitChar_ne d (hds d List.mem_cons_self)).2
  · rw [List.mem_map]
    rintro ⟨d, hd, h0⟩
    exact (digitChar_ne d (hds d hd)).1 h0

/-- `to_int` gives the value of a numeral, up to the wrap of the sum. -/
theorem toInt_canonical (hbase' : base ≤ 36) {s : CString} {v : Int} (h : Canonical base s v) :
    toInt s (UInt64.ofNat base) = Int64.ofInt v := by
  rcases h with ⟨n, hn, rfl⟩ | ⟨t, n, ht, -, rfl, rfl⟩
  · obtain ⟨hne, hhead, -⟩ := hn.head_ne hbase'
    simp [toInt, hne, hhead, toIntLoop_unsigned hbase' hn, Int64.ofInt_eq_ofNat]
  · simp [toInt, toIntLoop_unsigned hbase' ht, Int64.ofInt_neg, Int64.ofInt_eq_ofNat]

/-- A number has one numeral with a sign, too. -/
theorem Canonical.unique (hbase : 2 ≤ base) (hbase' : base ≤ 36) {s s' : CString} {v : Int}
    (h : Canonical base s v) (h' : Canonical base s' v) : s = s' := by
  have hzero : ∀ {t : CString} {n : Nat}, Unsigned base t n → t ≠ literal "0" → n ≠ 0 := by
    rintro t n ht hne rfl
    apply hne
    rw [(unsigned_iff hbase hbase').mp ht, natText, if_pos rfl]
  rcases h with ⟨n, hn, rfl⟩ | ⟨t, n, ht, hne, rfl, rfl⟩ <;>
    rcases h' with ⟨n', hn', heq⟩ | ⟨t', n', ht', hne', rfl, heq⟩
  · obtain rfl : n = n' := by omega
    exact ((unsigned_iff hbase hbase').mp hn).trans ((unsigned_iff hbase hbase').mp hn').symm
  · have := hzero ht' hne'
    omega
  · have := hzero ht hne
    omega
  · obtain rfl : n = n' := by omega
    rw [(unsigned_iff hbase hbase').mp ht, (unsigned_iff hbase hbase').mp ht']

end Base

/-! ## What `to_string` writes -/

section Written

variable {base : UInt8}

theorem mallocEmptyStr_eq : ∃ m, mallocEmptyStr = some m ∧ m.string 0 = some (natText 2 0) :=
  ⟨⟨[0x30, 0], [1, 0]⟩, by decide⟩

/-- `to_string` of a `uint64_t` writes the digits and a terminator. -/
theorem toStringU64_writes (hbase : 2 ≤ base) (hbase' : base ≤ 36) (n : UInt64) :
    ∃ m, toStringU64 n base = some m ∧ m.string 0 = some (natText base.toNat n.toNat) := by
  by_cases hn : n = 0
  · obtain ⟨m, hm, hstring⟩ := mallocEmptyStr_eq
    refine ⟨m, ?_, ?_⟩
    · rw [toStringU64, dif_pos (.inl hn), hm]
    · rw [hstring, hn]
      rfl
  · have hnot : ¬ (n = 0 ∨ base = 0 ∨ base = 1) := by grind
    have hne : n.toNat ≠ 0 := fun h0 => hn (UInt64.toNat_inj.mp (h0.trans UInt64.toNat_zero.symm))
    let composed := (Nat.digits base.toNat n.toNat).map digitChar
    have hcount : countLoop ⟨base, two_le_base hnot⟩ n 0 = composed.length := by
      rw [countLoop_eq, Nat.zero_add, List.length_map]
    have hdigits : (Nat.digits base.toNat n.toNat).length = composed.length :=
      (List.length_map _).symm
    have h0 : 0 ∉ composed.reverse := by
      rw [List.mem_reverse, List.mem_map]
      rintro ⟨d, hd, h0⟩
      exact (digitChar_ne d (Nat.lt_of_lt_of_le (Nat.digits_lt_base hbase hd) hbase')).1 h0
    obtain ⟨st, hstore⟩ := Region.store_cleared (Nat.lt_succ_self composed.length)
    have hlength : composed.reverse.length < composed.length + 1 := by simp
    obtain ⟨m, m', hstore', hset, hstring⟩ := Region.put_cleared h0 hlength
    rw [List.length_reverse] at hset
    refine ⟨m', ?_, ?_⟩
    · unfold toStringU64
      rw [dif_neg hnot]
      dsimp only
      rw [hcount, composeLoop_eq, Int.natCast_zero, hstore, Option.map_some, Option.bind_eq_bind,
        Option.bind_some, hdigits, Nat.zero_add, reverseLoop_eq (by simp), List.take_left,
        Int.natCast_zero, hstore']
      exact hset
    · rw [hstring, natText, if_neg hne]

/-- The digits in the model without the loops are the same. -/
theorem u64Text_eq (hbase : 2 ≤ base) (n : UInt64) :
    NullChecks.u64Text n base = natText base.toNat n.toNat := by
  have hzero : n = 0 ↔ n.toNat = 0 := by rw [← UInt64.toNat_inj, UInt64.toNat_zero]
  have hbase0 : base ≠ 0 ∧ base ≠ 1 := by grind
  simp [NullChecks.u64Text, natText, hzero, hbase0]

theorem strCombine_string {a b : CString} (ha : 0 ∉ a) (hb : 0 ∉ b) :
    ∃ m, strCombine a b = some m ∧ m.string 0 = some (a ++ b) := by
  have hab : 0 ∉ a ++ b := fun h => (List.mem_append.mp h).elim ha hb
  have hlength : (a ++ b).length < a.length + b.length + 1 := by simp
  obtain ⟨m, m', hstore, hset, hstring⟩ := Region.put_cleared hab hlength
  rw [Region.store_append, Int.zero_add] at hstore
  obtain ⟨m₁, hstore₁, hstore₂⟩ := Option.bind_eq_some_iff.mp hstore
  rw [List.length_append] at hset
  refine ⟨m', ?_, hstring⟩
  simp only [strCombine, hstore₁, hstore₂, Option.bind_eq_bind, Option.bind_some, hset]

/-- The magnitude of a number, the least one included. -/
theorem magnitude (n : Int64) :
    (0 ≤ n → n.toInt = n.toUInt64.toNat) ∧ (¬ 0 ≤ n → n.toInt = -((-n).toUInt64.toNat : Int)) := by
  have htoNat : ∀ k < 2 ^ 64, (Int64.ofNat k).toUInt64.toNat = k := by
    intro k hk
    rw [Int64.toUInt64_ofNat', UInt64.toNat_ofNat_of_lt' hk]
  have hn : Int64.ofInt n.toInt = n := Int64.ofInt_toInt n
  have hle : 0 ≤ n ↔ 0 ≤ n.toInt := Int64.le_iff_toInt_le
  have hmin := Int64.le_toInt n
  have hmax := Int64.toInt_lt n
  rw [hle]
  constructor
  · intro h
    obtain ⟨k, hk⟩ := Int.eq_ofNat_of_zero_le h
    rw [hk, Int64.ofInt_eq_ofNat] at hn
    rw [hk, ← hn, htoNat k (by omega)]
  · intro h
    obtain ⟨k, hk⟩ := Int.eq_ofNat_of_zero_le (a := -n.toInt) (by omega)
    have hneg : n.toInt = -(k : Int) := by omega
    rw [hneg, Int64.ofInt_neg, Int64.ofInt_eq_ofNat] at hn
    rw [hneg, ← hn, Int64.neg_neg, htoNat k (by omega)]

/-- What is written is a numeral of the number. -/
theorem toStringI64_writes (hbase : 2 ≤ base) (hbase' : base ≤ 36) (n : Int64) :
    ∃ s, Writes n base s ∧ Canonical base.toNat s n.toInt := by
  have hunsigned : ∀ k, Unsigned base.toNat (natText base.toNat k) k := fun k =>
    (unsigned_iff hbase hbase').mpr rfl
  by_cases hn : 0 ≤ n
  · obtain ⟨m, hm, hstring⟩ := toStringU64_writes hbase hbase' n.toUInt64
    refine ⟨_, ⟨m, ?_, hstring⟩, .inl ⟨_, hunsigned _, (magnitude n).1 hn⟩⟩
    rw [toStringI64, if_pos hn, hm]
  · obtain ⟨m, hm, hstring⟩ := toStringU64_writes hbase hbase' (-n).toUInt64
    have hvalue := (magnitude n).2 hn
    have hsign : 0 ∉ literal "-" := by decide
    obtain ⟨m', hm', hstring'⟩ := strCombine_string hsign ((hunsigned _).head_ne hbase').2.2
    refine ⟨_, ⟨m', ?_, hstring'⟩, .inr ⟨_, _, hunsigned _, ?_, rfl, hvalue⟩⟩
    · simp only [toStringI64, if_neg hn, hm, Option.bind_eq_bind, Option.bind_some, hstring, hm']
    · apply natText_ne hbase hbase'
      intro h0
      rw [h0] at hvalue
      exact hn (Int64.le_iff_toInt_le.mpr (by rw [hvalue]; rfl))

/-- `to_int` undoes `to_string`, and `to_string` undoes `to_int` on the numerals of its range. -/
theorem toString_toInt_inverse (base : UInt8) (hbase : 2 ≤ base) (hbase' : base ≤ 36) :
    (∀ n : Int64, ∃ s, Writes n base s ∧ toInt s base.toUInt64 = n) ∧
    ∀ (s : CString) (v : Int), Canonical base.toNat s v → -2 ^ 63 ≤ v → v < 2 ^ 63 →
      Writes (toInt s base.toUInt64) base s := by
  have h2 : 2 ≤ base.toNat := hbase
  have h36 : base.toNat ≤ 36 := hbase'
  have hbase'' : base.toUInt64 = UInt64.ofNat base.toNat := by
    apply UInt64.toNat_inj.mp
    have := base.toNat_lt
    rw [UInt8.toNat_toUInt64, UInt64.toNat_ofNat_of_lt' (by rw [UInt64.size]; omega)]
  rw [hbase'']
  constructor
  · intro n
    obtain ⟨s, hwrites, hcanonical⟩ := toStringI64_writes hbase hbase' n
    refine ⟨s, hwrites, ?_⟩
    rw [toInt_canonical h36 hcanonical, Int64.ofInt_toInt]
  · intro s v hs hmin hmax
    rw [toInt_canonical h36 hs]
    obtain ⟨s', hwrites, hcanonical⟩ := toStringI64_writes hbase hbase' (Int64.ofInt v)
    rw [Int64.toInt_ofInt_of_le hmin hmax] at hcanonical
    rw [hs.unique h2 h36 hcanonical]
    exact hwrites

/-- The least number, and a negative numeral in base 16. -/
theorem toString_toInt_hex :
    (∃ s, Writes Int64.minValue 16 s ∧ toInt s 16 = Int64.minValue) ∧
      Writes (toInt (literal "-ff") 16) 16 (literal "-ff") := by
  have hnumeral : Unsigned 16 (literal "ff") 255 :=
    ⟨[15, 15], by decide, by decide, by decide, by decide, by decide⟩
  have hinverse := toString_toInt_inverse 16 (by decide) (by decide)
  refine ⟨hinverse.1 Int64.minValue, hinverse.2 _ (-255) (.inr ⟨literal "ff", 255, hnumeral, ?_, ?_, ?_⟩)
    (by decide) (by decide)⟩ <;> decide

end Written

end Numerals

end EszOs
