import EszOs.Memory.PmmCounts
import EszOs.Types.Numerals

/-!
# The bar of `meminfo` (`helper/print_helper/print_helper.cpp`)

`getPercentBar` puts a bar of `elements` characters and the percentage into a block of `elements + 9`
bytes, which is a `Region` here: a store outside of it fails.

* `getPercentBar_text`: up to 100 % the block is large enough, and what is in it.
* `ramUtilisation_text`: so it is for the bar of the used memory, in every state of the PMM.
-/

namespace EszOs

open Numerals (natText)

/-- `str_add` to the string of a block. -/
def strAddIn (target : Region) (value : CString) : Option Region := do
  let text ← target.string 0
  let target ← target.store text.length value
  target.set (text.length + value.length) 0

/-- `getPercentBar`. The second loop ends at once if `elementCount` is not below `elements`. -/
def getPercentBar (count outOf elements : Nat) (showPercentage : Bool) : Option Region :=
  if outOf = 0 then Numerals.mallocEmptyStr
  else do
    let outText ← (Region.cleared (u64 (elements + 9))).set 0 0x5B
    let outText ← outText.set (u64 (elements + 1) : Nat) 0x5D
    let outText ← outText.set (u64 (if showPercentage then elements + 8 else elements + 2) : Nat) 0
    let percentage := u64 (count * 100) / outOf
    let elementCount := u64 (percentage * elements) / 100
    let outText ← outText.store 1 (List.replicate elementCount 0x23)
    let outText ← outText.store (elementCount + 1) (List.replicate (elements - elementCount) 0x2D)
    if showPercentage then
      strAddIn outText (literal " " ++ natText 10 percentage ++ literal "%")
    else return outText

/-- The bar of which `n` elements of `elements` are full. -/
def barText (n elements : Nat) : CString :=
  0x5B :: (List.replicate n 0x23 ++ List.replicate (elements - n) 0x2D) ++ [0x5D]

/-! ## The percentage -/

theorem percentage_le {count outOf : Nat} (h : count ≤ outOf) : count * 100 / outOf ≤ 100 := by
  rcases Nat.eq_zero_or_pos outOf with rfl | hpos
  · simp
  · exact Nat.div_le_of_le_mul (Nat.mul_le_mul_right 100 h)

theorem natText_percentage {p : Nat} (h : p ≤ 100) :
    (natText 10 p).length ≤ 3 ∧ 0 ∉ natText 10 p := by
  unfold natText
  by_cases hp : p = 0
  · rw [if_pos hp]
    decide
  · rw [if_neg hp, List.length_reverse, List.length_map, List.mem_reverse]
    refine ⟨(Nat.digits_length_le_iff (by decide) p).mpr (by omega), fun hmem => ?_⟩
    obtain ⟨d, hd, hzero⟩ := List.mem_map.mp hmem
    have hlt := Nat.digits_lt_base (by decide : 1 < 10) hd
    exact (Numerals.digitChar_ne d (by omega)).1 hzero

theorem zero_notMem_barText (n elements : Nat) : 0 ∉ barText n elements := by
  simp [barText, List.mem_replicate]

/-! ## The stores -/

/-- A short text behind the string of a block. -/
theorem strAddIn_string {s value : CString} (hs : 0 ∉ s) (hvalue : 0 ∉ value) {n : Nat}
    (hlength : value.length < n) (st : List Nat) :
    ∃ m, strAddIn ⟨s ++ List.replicate n 0, st⟩ value = some m ∧ m.string 0 = some (s ++ value) := by
  obtain ⟨n, rfl⟩ := Nat.exists_eq_add_one_of_ne_zero (Nat.ne_zero_of_lt hlength)
  have hstring : Region.string ⟨s ++ List.replicate (n + 1) 0, st⟩ 0 = some s := by
    rw [List.replicate_succ]
    exact Region.string_zero hs _ st
  have hroom : value.length < (List.replicate (n + 1) (0 : UInt8)).length := by
    rw [List.length_replicate]
    exact hlength
  obtain ⟨m, st', hstore, hset, -⟩ := Region.put_mid s hroom st
  have hsum : 0 ∉ s ++ value := fun h => (List.mem_append.mp h).elim hs hvalue
  have hadd : strAddIn ⟨s ++ List.replicate (n + 1) 0, st⟩ value =
      some ⟨s ++ value ++ 0 :: (List.replicate (n + 1) 0).drop (value.length + 1), st' ++ st⟩ := by
    simp only [strAddIn, Option.bind_eq_bind, hstring, Option.bind_some, hstore, hset]
  exact ⟨_, hadd, Region.string_zero hsum _ _⟩

/-- The terminator is stored where a zero is. -/
theorem terminator_set {elements j : Nat} (hj : j = elements + 8 ∨ j = elements + 2) (st : List Nat) :
    Region.set ⟨0x5B :: (List.replicate elements 0 ++ 0x5D :: List.replicate 7 0), st⟩ j 0 =
      some ⟨0x5B :: (List.replicate elements 0 ++ 0x5D :: List.replicate 7 0), j :: st⟩ := by
  rcases hj with rfl | rfl
  · have hset := Region.set_mid (0x5B :: List.replicate elements 0 ++ 0x5D :: List.replicate 6 0) 0 []
      st 0
    have hpos : (0x5B :: List.replicate elements (0 : UInt8) ++ 0x5D :: List.replicate 6 0).length =
        elements + 8 := by simp
    rw [hpos, List.append_assoc] at hset
    exact hset
  · have hset := Region.set_mid (0x5B :: List.replicate elements 0 ++ [0x5D]) 0 (List.replicate 6 0)
      st 0
    have hpos : (0x5B :: List.replicate elements (0 : UInt8) ++ [0x5D]).length = elements + 2 := by
      simp
    rw [hpos, List.append_assoc] at hset
    exact hset

/-- The brackets and a terminator, and the elements between the brackets. -/
theorem bar_stores {n elements j : Nat} (h : n ≤ elements)
    (hj : j = elements + 8 ∨ j = elements + 2) :
    ∃ st, ((Region.cleared (elements + 9)).set 0 0x5B).bind (fun m =>
      (m.set (elements + 1 : Nat) 0x5D).bind fun m => (m.set j 0).bind fun m =>
        (m.store 1 (List.replicate n 0x23)).bind fun m =>
          m.store (n + 1) (List.replicate (elements - n) 0x2D)) =
      some ⟨barText n elements ++ List.replicate 7 0, st⟩ := by
  obtain ⟨k, rfl⟩ := Nat.exists_eq_add_of_le h
  have hcleared : Region.cleared (n + k + 9) =
      ⟨[] ++ 0 :: (List.replicate (n + k) 0 ++ 0 :: List.replicate 7 0), []⟩ := by
    rw [Region.cleared, List.nil_append, ← List.replicate_succ, List.replicate_append_replicate,
      ← List.replicate_succ]
  have hfirst : Region.set ⟨[] ++ 0 :: (List.replicate (n + k) 0 ++ 0 :: List.replicate 7 0), []⟩ 0
      0x5B = some ⟨0x5B :: (List.replicate (n + k) 0 ++ 0 :: List.replicate 7 0), [0]⟩ :=
    Region.set_mid [] 0 _ [] 0x5B
  have hlast := Region.set_mid (0x5B :: List.replicate (n + k) 0) 0 (List.replicate 7 0) [0] 0x5D
  have hlength : (0x5B :: List.replicate (n + k) (0 : UInt8)).length = n + k + 1 := by simp
  rw [hlength, List.cons_append, List.cons_append] at hlast
  have hterminator := terminator_set hj [n + k + 1, 0]
  rw [List.replicate_add, List.append_assoc] at hterminator
  have hsame : ∀ i, (List.replicate i (0 : UInt8)).length = (List.replicate i (0x23 : UInt8)).length ∧
      (List.replicate i (0 : UInt8)).length = (List.replicate i (0x2D : UInt8)).length := by simp
  obtain ⟨st₁, hfull, -⟩ := Region.store_mid [0x5B] (hsame n).1
    (List.replicate k 0 ++ 0x5D :: List.replicate 7 0) [j, n + k + 1, 0]
  have hfull' : Region.store ⟨0x5B :: (List.replicate n 0 ++ (List.replicate k 0 ++
      0x5D :: List.replicate 7 0)), [j, n + k + 1, 0]⟩ 1 (List.replicate n 0x23) =
      some ⟨0x5B :: (List.replicate n 0x23 ++ (List.replicate k 0 ++ 0x5D :: List.replicate 7 0)),
        st₁ ++ [j, n + k + 1, 0]⟩ := hfull
  obtain ⟨st₂, hempty, -⟩ := Region.store_mid (0x5B :: List.replicate n 0x23) (hsame k).2
    (0x5D :: List.replicate 7 0) (st₁ ++ [j, n + k + 1, 0])
  have hpos : ((0x5B :: List.replicate n (0x23 : UInt8)).length : Int) = n + 1 := by simp
  rw [hpos, List.append_assoc, List.cons_append] at hempty
  have hbar : 0x5B :: List.replicate n 0x23 ++ List.replicate k 0x2D ++ 0x5D :: List.replicate 7 0 =
      barText n (n + k) ++ List.replicate 7 0 := by
    rw [barText, Nat.add_sub_cancel_left]
    simp
  refine ⟨st₂ ++ (st₁ ++ [j, n + k + 1, 0]), ?_⟩
  rw [hcleared, hfirst, Option.bind_some, hlast, Option.bind_some, List.replicate_add,
    List.append_assoc, hterminator, Option.bind_some, hfull', Option.bind_some,
    Nat.add_sub_cancel_left, hempty, hbar]

/-! ## The bar -/

/-- Up to 100 % no store is outside of the block. -/
theorem getPercentBar_text {count outOf elements : Nat} (hpos : 0 < outOf) (hle : count ≤ outOf)
    (hcount : outOf * 100 < 2 ^ 64) (helements : elements * 100 + 9 < 2 ^ 64) (showPercentage : Bool) :
    ∃ m, getPercentBar count outOf elements showPercentage = some m ∧
      m.string 0 = some (barText (count * 100 / outOf * elements / 100) elements ++
        if showPercentage then literal " " ++ natText 10 (count * 100 / outOf) ++ literal "%"
        else []) := by
  have hp := percentage_le hle
  obtain ⟨p, hpe⟩ : ∃ p, p = count * 100 / outOf := ⟨_, rfl⟩
  rw [← hpe] at hp ⊢
  have hmul : p * elements ≤ 100 * elements := Nat.mul_le_mul_right _ hp
  have hn : p * elements / 100 ≤ elements := Nat.div_le_of_le_mul hmul
  have hj : (if showPercentage = true then elements + 8 else elements + 2) = elements + 8 ∨
      (if showPercentage = true then elements + 8 else elements + 2) = elements + 2 := by
    split <;> simp
  obtain ⟨st, hst⟩ := bar_stores hn hj
  obtain ⟨m₁, h₁, hst⟩ := Option.bind_eq_some_iff.mp hst
  obtain ⟨m₂, h₂, hst⟩ := Option.bind_eq_some_iff.mp hst
  obtain ⟨m₃, h₃, hst⟩ := Option.bind_eq_some_iff.mp hst
  obtain ⟨m₄, h₄, h₅⟩ := Option.bind_eq_some_iff.mp hst
  have hjlt : (if showPercentage = true then elements + 8 else elements + 2) < 2 ^ 64 := by
    split <;> omega
  have hbar := zero_notMem_barText (p * elements / 100) elements
  unfold getPercentBar
  rw [if_neg (Nat.ne_of_gt hpos), u64_of_lt (by omega), u64_of_lt (by omega), u64_of_lt hjlt,
    u64_of_lt (by omega : count * 100 < 2 ^ 64), ← hpe]
  have hproduct : u64 (p * elements) = p * elements := u64_of_lt (by omega)
  simp only [Option.bind_eq_bind, hproduct, h₁, h₂, h₃, h₄, h₅, Option.bind_some]
  cases showPercentage with
  | false =>
    rw [if_neg Bool.false_ne_true, if_neg Bool.false_ne_true, List.append_nil]
    exact ⟨_, rfl, Region.string_zero hbar _ _⟩
  | true =>
    obtain ⟨hlength, hzero⟩ := natText_percentage hp
    rw [if_pos rfl, if_pos rfl]
    refine strAddIn_string hbar ?_ ?_ st
    · simp only [List.mem_append, not_or]
      exact ⟨⟨by decide, hzero⟩, by decide⟩
    · have h1 : (literal " ").length = 1 := by decide
      have h2 : (literal "%").length = 1 := by decide
      rw [List.length_append, List.length_append, h1, h2]
      omega

/-- `RAM_UTILISATION_BAR_LENGTH` -/
def ramUtilisationBarLength : Nat := 16

/-- In every state that the PMM reaches from boot, the bar of the used memory is inside its block and
shows the percentage of the usable bytes that are not free. -/
theorem ramUtilisation_text {entries : List MemmapEntry} {m : Bytes.Mem} (hmap : UsableMap entries)
    (hend : ∀ e ∈ entries, e.usable = true → e.base + e.length < 2 ^ 64) {b : Bitmap}
    {live : LiveFrames}
    (hr : PmmReach ((getFreeLocationForBitmap entries (getMemoryRegions entries).highestAddress m).2,
      []) (b, live))
    (hpos : 0 < (getMemoryRegions entries).totalUsableBytes)
    (hsmall : (getMemoryRegions entries).totalUsableBytes * 100 < 2 ^ 64) :
    let total := (getMemoryRegions entries).totalUsableBytes
    let percentage := (total - b.freePages.card * pageSize) * 100 / total
    ∃ text, getPercentBar (ramUsedBytes total b) total ramUtilisationBarLength true = some text ∧
      text.string 0 = some (barText (percentage * ramUtilisationBarLength / 100) ramUtilisationBarLength ++
        (literal " " ++ natText 10 percentage ++ literal "%")) := by
  intro total percentage
  obtain ⟨-, hsum⟩ := ramUsedBytes_add_freePages hmap hend hr
  have hused : ramUsedBytes total b = total - b.freePages.card * pageSize :=
    Nat.eq_sub_of_add_eq hsum
  have hle : ramUsedBytes total b ≤ total := hused ▸ Nat.sub_le _ _
  rw [hused] at hle ⊢
  exact getPercentBar_text hpos hle hsmall (by decide) true

/-- Four usable pages, one of them for the bitmap. -/
theorem ramUtilisation_four :
    let entries : List MemmapEntry := [⟨0, 0x1000, false, by decide⟩, ⟨0x1000, 0x4000, true, by decide⟩]
    let b := (getFreeLocationForBitmap entries (getMemoryRegions entries).highestAddress fun _ => 0).2
    ∃ text, getPercentBar (ramUsedBytes 0x4000 b) 0x4000 ramUtilisationBarLength true = some text ∧
      text.string 0 = some (literal "[####------------] 25%") := by
  intro entries b
  have hmap : UsableMap entries := by
    refine ⟨fun e he hu => ?_, by simp [entries]⟩
    rcases List.mem_pair.mp he with rfl | rfl
    · cases hu
    · exact ⟨⟨1, rfl⟩, ⟨4, rfl⟩⟩
  have hend : ∀ e ∈ entries, e.usable = true → e.base + e.length < 2 ^ 64 := by
    intro e he hu
    rcases List.mem_pair.mp he with rfl | rfl
    · cases hu
    · decide
  have htotal : (getMemoryRegions entries).totalUsableBytes = 0x4000 := by decide +kernel
  have hcard : b.freePages.card = 3 := by decide +kernel
  obtain ⟨text, hbar, hstring⟩ := ramUtilisation_text (m := fun _ => 0) hmap hend .refl
    (by rw [htotal]; decide) (by rw [htotal]; decide)
  have hdigits : natText 10 25 = literal "25" := by simp [natText]; decide
  refine ⟨text, htotal ▸ hbar, hstring.trans ?_⟩
  rw [htotal, hcard, show (0x4000 - 3 * pageSize) * 100 / 0x4000 = 25 from rfl, hdigits]
  decide

end EszOs
