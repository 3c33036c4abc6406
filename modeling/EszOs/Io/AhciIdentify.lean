import EszOs.Io.Ahci
import EszOs.Types.Trims

/-!
# The identity of a drive (`Get_AHCI_IdentifyResponse` in `io/ahci/ahci.cpp`)

A drive sends its serial number and its model name with the two bytes of each word swapped, padded
with spaces and without a terminator. The driver swaps the bytes back and cuts the padding off, in
place.

* `trimText_eq`: what this does to one of the two texts.
* `identifyResponse_texts`: the strings are the drive's texts, and the rest of the response is as the
  drive sent it.
-/

namespace EszOs

open Bytes

/-! ## Definitions -/

/-- The loop of `ata_string_byteswap` from byte `i` on, with `n` words left. -/
def byteswapLoop (text : Nat) : Nat → Nat → Mem → Mem
  | 0, _, m => m
  | n + 1, i, m =>
    let temp := m (text + i)
    let m := store m (text + i) (m (text + i + 1))
    byteswapLoop text n (i + 2) (store m (text + i + 1) temp)

def ataStringByteswap (m : Mem) (text length : Nat) : Mem := byteswapLoop text ((length + 1) / 2) 0 m

/-- The string at `a`; `none` if it has no terminator among the next `fuel` bytes. -/
def readString (m : Mem) : Nat → Nat → Option CString
  | 0, _ => none
  | fuel + 1, a => if m a = 0 then some [] else (readString m fuel (a + 1)).map (m a :: ·)

/-- `str_copy` -/
def strCopy (m : Mem) (dest : Nat) : CString → Mem
  | [] => store m dest 0
  | c :: src => strCopy (store m dest c) (dest + 1) src

/-- What is done to each text of the response. -/
def trimText (m : Mem) (text length fuel : Nat) : Option Mem := do
  let m := ataStringByteswap m text length
  let chars ← readString m fuel text
  let block ← Trims.strTrimEnd chars
  let value ← block.string 0
  some (strCopy m text value)

/-- `Get_AHCI_IdentifyResponse` for the response at `identifyData`. -/
def getAHCIIdentifyResponse (m : Mem) (identifyData fuel : Nat) : Option Mem := do
  -- `Reserved2[0]` and `Reserved3[0]`, behind the texts
  let m := store m (identifyData + 40) 0
  let m := store m (identifyData + 94) 0
  let m ← trimText m (identifyData + 20) 20 fuel
  trimText m (identifyData + 54) 40 fuel

/-- The other byte of the word. -/
def partner (i : Nat) : Nat := if i % 2 = 0 then i + 1 else i - 1

/-- A text of `length` bytes as the drive sends it. -/
def HasAtaText (m : Mem) (text length : Nat) (s : CString) : Prop :=
  ∀ i < length, m (text + partner i) = (s ++ List.replicate (length - s.length) space).getD i 0

instance (m : Mem) (text length : Nat) (s : CString) : Decidable (HasAtaText m text length s) :=
  inferInstanceAs (Decidable (∀ i < length, _))

/-- A text without zero bytes that fits into the field and does not end with whitespace. -/
structure IsAtaText (length : Nat) (s : CString) : Prop where
  fits : s.length ≤ length
  noZero : 0 ∉ s
  noPadding : ∀ c ∈ s.getLast?, isWhitespace c = false

/-! ## The loops -/

theorem byteswapLoop_apply (text n i x : Nat) (m : Mem) :
    byteswapLoop text n i m x = if text + i ≤ x ∧ x < text + i + 2 * n
      then m (text + i + partner (x - (text + i))) else m x := by
  induction n generalizing i m with
  | zero => rw [if_neg (by omega)]; rfl
  | succ n ih =>
    have hstore : ∀ y, text + i + 2 ≤ y ∨ y < text + i →
        store (store m (text + i) (m (text + i + 1))) (text + i + 1) (m (text + i)) y = m y :=
      fun y hy => (store_of_ne (by omega)).trans (store_of_ne (by omega))
    rw [byteswapLoop, ih]
    by_cases hrest : text + (i + 2) ≤ x ∧ x < text + (i + 2) + 2 * n
    · have hpartner : text + (i + 2) + partner (x - (text + (i + 2))) =
          text + i + partner (x - (text + i)) := by
        simp only [partner]
        split <;> split <;> omega
      rw [if_pos hrest, if_pos (by omega), hstore _ (by omega), hpartner]
    · rw [if_neg hrest]
      by_cases hfirst : x = text + i
      · subst hfirst
        rw [if_pos (by omega), store_of_ne (by omega), store_self, Nat.sub_self]
        rfl
      · by_cases hsecond : x = text + i + 1
        · subst hsecond
          rw [if_pos (by omega), store_self, Nat.add_sub_cancel_left]
          rfl
        · rw [if_neg (by omega), hstore x (by omega)]

/-- Inside of a text of whole words each byte is the other one of its word. -/
theorem ataStringByteswap_apply {m : Mem} {text length : Nat} (heven : length % 2 = 0) (x : Nat) :
    ataStringByteswap m text length x =
      if text ≤ x ∧ x < text + length then m (text + partner (x - text)) else m x := by
  have hwords : 2 * ((length + 1) / 2) = length := by omega
  rw [ataStringByteswap, byteswapLoop_apply, hwords, Nat.add_zero]

theorem readString_eq {m : Mem} {a fuel : Nat} {s : CString} (hs : 0 ∉ s)
    (h : BytesAt m a (s ++ [0])) (hfuel : s.length < fuel) : readString m fuel a = some s := by
  induction s generalizing a fuel with
  | nil =>
    obtain ⟨fuel, rfl⟩ := Nat.exists_eq_add_one_of_ne_zero (Nat.ne_zero_of_lt hfuel)
    have hend : m a = 0 := h 0 (Nat.succ_pos _)
    rw [readString, if_pos hend]
  | cons c s ih =>
    obtain ⟨fuel, rfl⟩ := Nat.exists_eq_add_one_of_ne_zero (Nat.ne_zero_of_lt hfuel)
    rw [List.mem_cons, not_or] at hs
    have hc : m a = c := h 0 (Nat.succ_pos _)
    have hsplit : BytesAt m a ([c] ++ (s ++ [0])) := h
    have hrest : BytesAt m (a + 1) (s ++ [0]) := (bytesAt_append.mp hsplit).2
    rw [readString, hc, if_neg (Ne.symm hs.1), ih hs.2 hrest (Nat.lt_of_succ_lt_succ hfuel)]
    rfl

theorem strCopy_outside {m : Mem} {dest x : Nat} {s : CString}
    (h : x < dest ∨ dest + s.length < x) : strCopy m dest s x = m x := by
  induction s generalizing m dest with
  | nil => exact store_of_ne (by simp only [List.length_nil] at h; omega)
  | cons c s ih =>
    rw [List.length_cons] at h
    rw [strCopy, ih (by omega), store_of_ne (by omega)]

theorem strCopy_bytesAt (m : Mem) (dest : Nat) (s : CString) :
    BytesAt (strCopy m dest s) dest (s ++ [0]) := by
  induction s generalizing m dest with
  | nil =>
    intro i hi
    obtain rfl : i = 0 := by simpa using hi
    exact store_self m dest 0
  | cons c s ih =>
    have hfirst : strCopy m dest (c :: s) dest = c :=
      (strCopy_outside (.inl (Nat.lt_succ_self dest))).trans (store_self m dest c)
    intro i hi
    cases i with
    | zero => exact hfirst
    | succ i =>
      rw [show dest + (i + 1) = dest + 1 + i by omega]
      exact ih (store m dest c) (dest + 1) i (Nat.lt_of_succ_lt_succ hi)

/-! ## One text -/

section OneText

variable {m : Mem} {text length fuel : Nat} {s : CString}

/-- The padding is cut off. -/
theorem rdropWhile_padded (hs : IsAtaText length s) (n : Nat) :
    (s ++ List.replicate n space).rdropWhile isWhitespace = s := by
  have hpadding : ∀ c ∈ List.replicate n space, isWhitespace c = true := fun c hc => by
    rw [List.eq_of_mem_replicate hc]
    decide
  rw [Trims.rdropWhile_append hpadding]
  by_cases hnil : s = []
  · rw [hnil, List.rdropWhile_nil]
  · simpa using Trims.rdropWhile_of_getLast hs.noPadding [] hnil

/-- The bytes of a text that was swapped back. -/
theorem bytesAt_ataStringByteswap (heven : length % 2 = 0) (hs : IsAtaText length s)
    (htext : HasAtaText m text length s) (hend : m (text + length) = 0) :
    BytesAt (ataStringByteswap m text length) text
      (s ++ List.replicate (length - s.length) space ++ [0]) := by
  have hlen : (s ++ List.replicate (length - s.length) space).length = length := by
    rw [List.length_append, List.length_replicate]
    exact Nat.add_sub_cancel' hs.fits
  intro i hi
  rw [ataStringByteswap_apply heven]
  rw [List.length_append, hlen] at hi
  by_cases hin : i < length
  · rw [if_pos (by omega), Nat.add_sub_cancel_left, htext i hin, List.getElem_append_left (by omega),
      List.getD_eq_getElem _ _ (by omega)]
  · obtain rfl : i = length := by
      rw [List.length_singleton] at hi
      omega
    rw [if_neg (by omega), hend, List.getElem_append_right (by omega)]
    simp

/-- A text is left without its padding, and nothing else changes. -/
theorem trimText_eq (heven : length % 2 = 0) (hs : IsAtaText length s)
    (htext : HasAtaText m text length s) (hend : m (text + length) = 0) (hfuel : length < fuel) :
    ∃ m', trimText m text length fuel = some m' ∧ BytesAt m' text (s ++ [0]) ∧
      ∀ x, x < text ∨ text + length ≤ x → m' x = m x := by
  obtain ⟨chars, hchars⟩ : ∃ chars, chars = s ++ List.replicate (length - s.length) space := ⟨_, rfl⟩
  have hlen : chars.length = length := by
    rw [hchars, List.length_append, List.length_replicate]
    exact Nat.add_sub_cancel' hs.fits
  have hzero : 0 ∉ chars := by
    rw [hchars, List.mem_append, not_or]
    refine ⟨hs.noZero, fun hmem => ?_⟩
    exact absurd (List.eq_of_mem_replicate hmem) (by decide)
  have hswapped := bytesAt_ataStringByteswap heven hs htext hend
  rw [← hchars] at hswapped
  have hread : readString (ataStringByteswap m text length) fuel text = some chars :=
    readString_eq hzero hswapped (by omega)
  obtain ⟨block, hblock, hstring⟩ := Trims.strTrimEnd_returns hzero
  have htrimmed : chars.rdropWhile isWhitespace = s := hchars ▸ rdropWhile_padded hs _
  rw [htrimmed] at hstring
  refine ⟨strCopy (ataStringByteswap m text length) text s, ?_, strCopy_bytesAt _ _ _, ?_⟩
  · simp only [trimText, hread, hblock, hstring, Option.bind_eq_bind, Option.bind_some]
  · intro x hx
    have hfits := hs.fits
    have hswap : ataStringByteswap m text length x = m x := by
      rw [ataStringByteswap_apply heven, if_neg (by omega)]
    by_cases hin : x = text + s.length
    · -- the terminator of a text that fills the field
      obtain rfl : x = text + length := by omega
      have hlast := strCopy_bytesAt (ataStringByteswap m text length) text s s.length (by simp)
      rw [← hin, List.getElem_append_right (Nat.le_refl _)] at hlast
      rw [hlast, hend]
      simp
    · rw [strCopy_outside (by omega), hswap]

end OneText

/-- From the response of any drive the driver makes the strings of its serial number and its model
name, and leaves all other bytes but the two terminators behind the fields as they are. -/
theorem identifyResponse_texts {m : Mem} {a fuel : Nat} {serialNumber modelName : CString}
    (hserial : IsAtaText 20 serialNumber) (hmodel : IsAtaText 40 modelName)
    (hserialField : HasAtaText m (a + 20) 20 serialNumber)
    (hmodelField : HasAtaText m (a + 54) 40 modelName) (hfuel : 40 < fuel) :
    ∃ m', getAHCIIdentifyResponse m a fuel = some m' ∧
      readString m' fuel (a + 20) = some serialNumber ∧
      readString m' fuel (a + 54) = some modelName ∧
      ∀ x, x < a + 20 ∨ a + 40 < x ∧ x < a + 54 ∨ a + 94 < x → m' x = m x := by
  obtain ⟨m₀, hm₀⟩ : ∃ m₀, m₀ = store (store m (a + 40) 0) (a + 94) 0 := ⟨_, rfl⟩
  have hkept : ∀ x, x ≠ a + 40 → x ≠ a + 94 → m₀ x = m x := fun x h h' => by
    rw [hm₀, store_of_ne h', store_of_ne h]
  have hpartner : ∀ i n, i < 2 * n → partner i < 2 * n := fun i n hi => by
    rw [partner]
    split <;> omega
  have hserialField₀ : HasAtaText m₀ (a + 20) 20 serialNumber := fun i hi => by
    have := hpartner i 10 (by omega)
    rw [hkept _ (by omega) (by omega)]
    exact hserialField i hi
  obtain ⟨m₁, hm₁, hbytes₁, hout₁⟩ := trimText_eq (by decide) hserial hserialField₀
    (by rw [hm₀, store_of_ne (by omega), store_self]) (by omega : 20 < fuel)
  have hmodelField₁ : HasAtaText m₁ (a + 54) 40 modelName := fun i hi => by
    have := hpartner i 20 (by omega)
    rw [hout₁ _ (by omega), hkept _ (by omega) (by omega)]
    exact hmodelField i hi
  obtain ⟨m₂, hm₂, hbytes₂, hout₂⟩ := trimText_eq (by decide) hmodel hmodelField₁
    (by rw [hout₁ _ (by omega), hm₀, store_self]) hfuel
  have hserialFits := hserial.fits
  have hmodelFits := hmodel.fits
  refine ⟨m₂, ?_, readString_eq hserial.noZero (hbytes₁.congr fun i hi => ?_) (by omega),
    readString_eq hmodel.noZero hbytes₂ (by omega), fun x hx => ?_⟩
  · simp only [getAHCIIdentifyResponse, ← hm₀, hm₁, Option.bind_eq_bind, Option.bind_some]
    exact hm₂
  · rw [List.length_append, List.length_singleton] at hi
    exact hout₂ _ (by omega)
  · rw [hout₂ x (by omega), hout₁ x (by omega), hkept x (by omega) (by omega)]

/-- The response of a drive with the serial number `QM1` and the model name `QEMU HARDDISK`. -/
def qemuResponse : Mem := fun x =>
  if 20 ≤ x ∧ x < 40 then (literal "QM1" ++ List.replicate 17 space).getD (partner (x - 20)) 0
  else if 54 ≤ x ∧ x < 94 then
    (literal "QEMU HARDDISK" ++ List.replicate 27 space).getD (partner (x - 54)) 0
  else 1

theorem identifyResponse_texts_qemu :
    ∃ m', getAHCIIdentifyResponse qemuResponse 0 41 = some m' ∧
      readString m' 41 (0 + 20) = some (literal "QM1") ∧
      readString m' 41 (0 + 54) = some (literal "QEMU HARDDISK") ∧
      ∀ x, x < 0 + 20 ∨ 0 + 40 < x ∧ x < 0 + 54 ∨ 0 + 94 < x → m' x = qemuResponse x :=
  identifyResponse_texts
    ⟨by decide, by decide, fun _ hc => Option.some_inj.mp hc ▸ by decide⟩
    ⟨by decide, by decide, fun _ hc => Option.some_inj.mp hc ▸ by decide⟩
    (by decide +kernel) (by decide +kernel) (by decide)

end EszOs
