import EszOs.Memory.Fill
import EszOs.Memory.PmmRuns

/-!
# The bitmap that boot builds (`memory/physical/pmm_bitmap/pmm_bitmap.cpp`)

The bitmap is put at the start of the first usable entry of the memory map that can hold it. All its
bits are set, those of the usable entries are cleared, and the pages of the bitmap itself are
marked again.

* `getFreeLocationForBitmap_base`: where the bitmap is.
* `getFreeLocationForBitmap_free`: which pages are free afterwards.
* `getFreeLocationForBitmap_outside`: no byte behind the bitmap is written.
-/

namespace EszOs

open Bytes

/-! ## Definitions -/

/-- An entry of the bootloader's memory map. `usable` is `type == LIMINE_MEMMAP_USABLE`. -/
structure MemmapEntry where
  base : Nat
  length : Nat
  usable : Bool
  length_lt : length < 2 ^ 64

structure MemoryRegions where
  totalUsableBytes : Nat
  highestAddress : Nat

/-- One round of the loop of `get_memory_regions`. -/
def MemoryRegions.add (r : MemoryRegions) (entry : MemmapEntry) : MemoryRegions :=
  if entry.usable then
    let currAddr := u64 (entry.base + entry.length)
    { totalUsableBytes := u64 (r.totalUsableBytes + entry.length)
      highestAddress := if currAddr > r.highestAddress then currAddr else r.highestAddress }
  else r

def getMemoryRegions (entries : List MemmapEntry) : MemoryRegions :=
  entries.foldl MemoryRegions.add ⟨0, 0⟩

/-- The loop of `get_free_location_for_bitmap`: the base of the entry it stops at. -/
def bitmapEntryBase (reqSize : Nat) : List MemmapEntry → Option Nat
  | [] => none
  | entry :: entries =>
    if entry.usable then
      if reqSize ≤ entry.length then some entry.base else bitmapEntryBase reqSize entries
    else bitmapEntryBase reqSize entries

def initBitmapData (entries : List MemmapEntry) (b : Bitmap) : Bitmap :=
  entries.foldl (fun b entry =>
    if entry.usable then { b with bitmap := pmmFree b entry.base entry.length } else b) b

/-- `get_free_location_for_bitmap`: `bitmapPhysBase` and the bitmap. `m` is what the memory from
`pmm_bitmap.bitmap` on holds before. -/
def getFreeLocationForBitmap (entries : List MemmapEntry) (highestAddress : Nat) (m : Mem) :
    Nat × Bitmap :=
  let count := highestAddress / pageSize
  let reqSize := divideRoundUp count 8
  let bitmapPhysBase := (bitmapEntryBase reqSize entries).getD 0
  let b := initBitmapData entries ⟨memoryFill m 0 0xFF reqSize, count⟩
  let bitmapStartPage := bitmapPhysBase / pageSize
  let bitmapPagesCount := divideRoundUp reqSize pageSize
  (bitmapPhysBase, { b with bitmap := pmmMallocPageRange b bitmapStartPage bitmapPagesCount })

/-! ## What the pages are for -/

/-- Page `p` lies in the entry. -/
def MemmapEntry.Contains (e : MemmapEntry) (p : Nat) : Prop :=
  e.base ≤ p * pageSize ∧ (p + 1) * pageSize ≤ e.base + e.length

/-- Page `p` has a byte of the `size` bytes from address `a`. -/
def Touches (a size p : Nat) : Prop := a < (p + 1) * pageSize ∧ p * pageSize < a + size

instance (e : MemmapEntry) (p : Nat) : Decidable (e.Contains p) := inferInstanceAs (Decidable (_ ∧ _))

instance (a size p : Nat) : Decidable (Touches a size p) := inferInstanceAs (Decidable (_ ∧ _))

/-- What the bootloader guarantees: the usable entries are page aligned and do not overlap. -/
structure UsableMap (entries : List MemmapEntry) : Prop where
  aligned : ∀ e ∈ entries, e.usable = true → pageSize ∣ e.base ∧ pageSize ∣ e.length
  apart : (entries.filter (·.usable)).Pairwise
    fun e e' => e.base + e.length ≤ e'.base ∨ e'.base + e'.length ≤ e.base

/-- The pages from a page address on are those the byte range touches. -/
theorem mem_pageRange_iff_touches {a size p : Nat} (ha : pageSize ∣ a)
    (hs : size + pageSize - 1 < 2 ^ 64) : p ∈ pageRange (a, size) ↔ Touches a size p := by
  obtain ⟨k, rfl⟩ := ha
  have hdiv : pageSize * k / pageSize = k := Nat.mul_div_cancel_left k (by decide)
  rw [pageRange, Set.mem_Ico, hdiv, divideRoundUp_eq (by decide) hs]
  simp only [Touches, pageSize]
  omega

theorem mem_pageRange_iff_contains {e : MemmapEntry} {p : Nat} (hb : pageSize ∣ e.base)
    (hl : pageSize ∣ e.length) : p ∈ pageRange (e.base, e.length) ↔ e.Contains p := by
  have hlt := e.length_lt
  obtain ⟨n, hn⟩ := hl
  have hs : e.length + pageSize - 1 < 2 ^ 64 := by simp only [pageSize] at hn ⊢; omega
  rw [mem_pageRange_iff_touches hb hs]
  obtain ⟨k, hk⟩ := hb
  simp only [Touches, MemmapEntry.Contains, pageSize] at hk hn ⊢
  omega

/-! ## The loops -/

/-- The loop stops at a usable entry that can hold the bitmap, if there is one. -/
theorem bitmapEntryBase_spec {reqSize : Nat} {entries : List MemmapEntry}
    (h : ∃ e ∈ entries, e.usable = true ∧ reqSize ≤ e.length) :
    ∃ e ∈ entries, e.usable = true ∧ reqSize ≤ e.length ∧
      bitmapEntryBase reqSize entries = some e.base := by
  induction entries with
  | nil => simp at h
  | cons e entries ih =>
    by_cases hfit : e.usable = true ∧ reqSize ≤ e.length
    · refine ⟨e, List.mem_cons_self, hfit.1, hfit.2, ?_⟩
      rw [bitmapEntryBase, if_pos hfit.1, if_pos hfit.2]
    · obtain ⟨e', he', hu, hl, hbase⟩ := ih (by
        obtain ⟨e', he' | ⟨_, he'⟩, hu, hl⟩ := h
        · exact absurd ⟨hu, hl⟩ hfit
        · exact ⟨e', he', hu, hl⟩)
      refine ⟨e', List.mem_cons_of_mem _ he', hu, hl, ?_⟩
      rw [bitmapEntryBase]
      split
      · rw [if_neg fun hle => hfit ⟨‹_›, hle⟩, hbase]
      · exact hbase

theorem initBitmapData_count (entries : List MemmapEntry) (b : Bitmap) :
    (initBitmapData entries b).count = b.count := by
  induction entries generalizing b with
  | nil => rfl
  | cons e entries ih =>
    rw [initBitmapData, List.foldl_cons]
    refine (ih _).trans ?_
    split <;> rfl

/-- `init_bitmap_data` frees the pages of the usable entries. -/
theorem mem_usedPages_initBitmapData (entries : List MemmapEntry) (b : Bitmap) (p : Nat) :
    p ∈ (initBitmapData entries b).usedPages ↔
      p ∈ b.usedPages ∧ ∀ e ∈ entries, e.usable = true → p ∉ pageRange (e.base, e.length) := by
  induction entries generalizing b with
  | nil => simp [initBitmapData]
  | cons e entries ih =>
    rw [initBitmapData, List.foldl_cons, ← initBitmapData, ih]
    by_cases hu : e.usable = true
    · rw [if_pos hu, pmmFree_usedPages b (e.base, e.length), Set.mem_sdiff, List.forall_mem_cons]
      tauto
    · rw [if_neg hu, List.forall_mem_cons]
      tauto

/-! ## `get_memory_regions` -/

namespace MemoryRegions

theorem add_highestAddress_lt {r : MemoryRegions} (entry : MemmapEntry)
    (h : r.highestAddress < 2 ^ 64) : (r.add entry).highestAddress < 2 ^ 64 := by
  have hcurr := u64_lt (entry.base + entry.length)
  unfold add
  split
  · simp only
    split <;> assumption
  · exact h

theorem le_add_highestAddress (r : MemoryRegions) (entry : MemmapEntry) :
    r.highestAddress ≤ (r.add entry).highestAddress := by
  unfold add
  split
  · simp only
    split <;> omega
  · exact Nat.le_refl _

theorem le_add_of_usable (r : MemoryRegions) {entry : MemmapEntry} (hu : entry.usable = true) :
    u64 (entry.base + entry.length) ≤ (r.add entry).highestAddress := by
  rw [add, if_pos hu]
  simp only
  split <;> omega

theorem foldl_add_lt {r : MemoryRegions} (entries : List MemmapEntry)
    (h : r.highestAddress < 2 ^ 64) : (entries.foldl add r).highestAddress < 2 ^ 64 := by
  induction entries generalizing r with
  | nil => exact h
  | cons e entries ih => exact ih (add_highestAddress_lt e h)

theorem le_foldl_add (r : MemoryRegions) (entries : List MemmapEntry) :
    r.highestAddress ≤ (entries.foldl add r).highestAddress := by
  induction entries generalizing r with
  | nil => exact Nat.le_refl _
  | cons e entries ih => exact (r.le_add_highestAddress e).trans (ih (r.add e))

theorem foldl_add_of_usable {r : MemoryRegions} {entries : List MemmapEntry} {e : MemmapEntry}
    (he : e ∈ entries) (hu : e.usable = true) :
    u64 (e.base + e.length) ≤ (entries.foldl add r).highestAddress := by
  induction entries generalizing r with
  | nil => cases he
  | cons e' entries ih =>
    cases he with
    | head => exact (r.le_add_of_usable hu).trans (le_foldl_add _ entries)
    | tail _ he => exact ih he

end MemoryRegions

/-- `highestAddress` is a 64-bit address. -/
theorem getMemoryRegions_lt (entries : List MemmapEntry) :
    (getMemoryRegions entries).highestAddress < 2 ^ 64 :=
  MemoryRegions.foldl_add_lt entries (by decide)

/-- No usable entry ends above `highestAddress`. -/
theorem le_getMemoryRegions {entries : List MemmapEntry} {e : MemmapEntry} (he : e ∈ entries)
    (hu : e.usable = true) (h : e.base + e.length < 2 ^ 64) :
    e.base + e.length ≤ (getMemoryRegions entries).highestAddress := by
  have := MemoryRegions.foldl_add_of_usable (r := ⟨0, 0⟩) he hu
  rwa [u64_of_lt h] at this

/-! ## The bitmap -/

section

variable {entries : List MemmapEntry} {m : Mem} {highest : Nat}

theorem getFreeLocationForBitmap_count :
    (getFreeLocationForBitmap entries highest m).2.count = highest / pageSize :=
  initBitmapData_count entries _

/-- `pmm_malloc` starts from such a bitmap: its runs are those of `pmm_reachable`. -/
theorem getFreeLocationForBitmap_count_le :
    (getFreeLocationForBitmap entries (getMemoryRegions entries).highestAddress m).2.count ≤
      2 ^ 52 := by
  have := getMemoryRegions_lt entries
  rw [getFreeLocationForBitmap_count, pageSize]
  omega

theorem usedPages_pmmMallocPageRange (b : Bitmap) (page pageAmount : Nat) :
    ({ b with bitmap := pmmMallocPageRange b page pageAmount } : Bitmap).usedPages =
      b.usedPages ∪ Set.Ico page (page + pageAmount) := by
  ext q
  simp only [Bitmap.usedPages, pmmMallocPageRange, Set.mem_ofPred_eq, Set.mem_union, Set.mem_Ico,
    bitRead_writeLoop]
  by_cases hq : page ≤ q ∧ q < page + pageAmount <;> simp [hq]

/-- Every page below `count` is marked first. -/
theorem mem_usedPages_filled {count p : Nat} (hc : count < 2 ^ 52) (hp : p < count) :
    p ∈ (⟨memoryFill m 0 0xFF (divideRoundUp count 8), count⟩ : Bitmap).usedPages := by
  have hbyte : p / 8 < divideRoundUp count 8 := by
    rw [divideRoundUp_eq (by decide) (by omega)]
    omega
  have hfill : memoryFill m 0 0xFF (divideRoundUp count 8) (p / 8) = 0xFF := by
    rw [memoryFill_apply, if_pos ⟨Nat.zero_le _, by omega⟩]
  show bitRead (memoryFill m 0 0xFF (divideRoundUp count 8)) p = true
  rw [bitRead_eq, hfill]
  have hbits : ∀ k < 8, (0xFF : UInt8).toNat.testBit k = true := by decide
  exact hbits _ (Nat.mod_lt p (by decide))

/-- Which pages are free, in the page numbers of the loops. -/
theorem getFreeLocationForBitmap_bits (hh : highest < 2 ^ 64) {p : Nat}
    (hp : p < highest / pageSize) :
    p ∉ (getFreeLocationForBitmap entries highest m).2.usedPages ↔
      (∃ e ∈ entries, e.usable = true ∧ p ∈ pageRange (e.base, e.length)) ∧
        p ∉ pageRange ((getFreeLocationForBitmap entries highest m).1,
          divideRoundUp (highest / pageSize) 8) := by
  have hcount : highest / pageSize < 2 ^ 52 := by rw [pageSize]; omega
  have hinit := mem_usedPages_initBitmapData entries
    ⟨memoryFill m 0 0xFF (divideRoundUp (highest / pageSize) 8), highest / pageSize⟩ p
  simp only [mem_usedPages_filled (m := m) hcount hp, true_and] at hinit
  simp only [getFreeLocationForBitmap, usedPages_pmmMallocPageRange, Set.mem_union, not_or, hinit]
  refine and_congr_left fun _ => ?_
  push Not
  rfl

end

/-- Where the bitmap is: in one usable entry. -/
theorem getFreeLocationForBitmap_base {entries : List MemmapEntry} {m : Mem}
    (hbig : ∃ e ∈ entries, e.usable = true ∧
      divideRoundUp ((getMemoryRegions entries).highestAddress / pageSize) 8 ≤ e.length) :
    let r := getFreeLocationForBitmap entries (getMemoryRegions entries).highestAddress m
    ∃ e ∈ entries, e.usable = true ∧ r.1 = e.base ∧ divideRoundUp r.2.count 8 ≤ e.length := by
  obtain ⟨e, he, hu, hl, hbase⟩ := bitmapEntryBase_spec hbig
  refine ⟨e, he, hu, ?_, by rwa [getFreeLocationForBitmap_count]⟩
  simp only [getFreeLocationForBitmap, hbase, Option.getD_some]

/-- After boot a page is free if it lies in a usable entry and has no byte of the bitmap, and the
bitmap lies in one usable entry. -/
theorem getFreeLocationForBitmap_free {entries : List MemmapEntry} {m : Mem}
    (hmap : UsableMap entries)
    (hbig : ∃ e ∈ entries, e.usable = true ∧
      divideRoundUp ((getMemoryRegions entries).highestAddress / pageSize) 8 ≤ e.length) :
    let r := getFreeLocationForBitmap entries (getMemoryRegions entries).highestAddress m
    (∀ p < r.2.count, bitRead r.2.bitmap p = false ↔
      (∃ e ∈ entries, e.usable = true ∧ e.Contains p) ∧
        ¬ Touches r.1 (divideRoundUp r.2.count 8) p) ∧
      ∃ e ∈ entries, e.usable = true ∧ e.base ≤ r.1 ∧
        r.1 + divideRoundUp r.2.count 8 ≤ e.base + e.length := by
  intro r
  obtain ⟨e₀, he₀, hu₀, hbase, hsize⟩ := getFreeLocationForBitmap_base (m := m) hbig
  refine ⟨fun p hp => ?_, e₀, he₀, hu₀, hbase.ge, Nat.add_le_add hbase.le hsize⟩
  have hcount : r.2.count = _ := getFreeLocationForBitmap_count
  have hle : r.2.count ≤ 2 ^ 52 := getFreeLocationForBitmap_count_le
  have hbits : p ∉ r.2.usedPages ↔ _ :=
    getFreeLocationForBitmap_bits (getMemoryRegions_lt entries) (hcount ▸ hp)
  have hreq : divideRoundUp r.2.count 8 ≤ 2 ^ 50 := by
    rw [divideRoundUp_eq (by decide) (by omega)]
    omega
  rw [Bool.eq_false_iff]
  refine hbits.trans (and_congr ?_ (not_congr ?_))
  · refine exists_congr fun e => and_congr_right fun he => and_congr_right fun hu => ?_
    exact mem_pageRange_iff_contains (hmap.aligned e he hu).1 (hmap.aligned e he hu).2
  · rw [← hcount]
    refine mem_pageRange_iff_touches ?_ (by rw [pageSize]; omega)
    rw [hbase]
    exact (hmap.aligned e₀ he₀ hu₀).1

/-- Four usable pages: the first one holds the bitmap, the others are free. -/
theorem getFreeLocationForBitmap_four :
    let entries : List MemmapEntry := [⟨0, 0x1000, false, by decide⟩, ⟨0x1000, 0x4000, true, by decide⟩]
    let r := getFreeLocationForBitmap entries (getMemoryRegions entries).highestAddress fun _ => 0
    bitRead r.2.bitmap 1 = true ∧ bitRead r.2.bitmap 4 = false := by
  intro entries r
  have hmap : UsableMap entries := by
    refine ⟨fun e he hu => ?_, by simp [entries]⟩
    rcases List.mem_pair.mp he with rfl | rfl
    · cases hu
    · exact ⟨⟨1, rfl⟩, ⟨4, rfl⟩⟩
  obtain ⟨hfree, -⟩ := getFreeLocationForBitmap_free (m := fun _ => 0) hmap
    ⟨_, List.mem_cons_of_mem _ List.mem_cons_self, rfl, by decide⟩
  refine ⟨?_, (hfree 4 (by decide)).mpr ⟨⟨_, List.mem_cons_of_mem _ List.mem_cons_self, rfl, ?_⟩, ?_⟩⟩
  · exact Bool.eq_true_of_not_eq_false fun h => ((hfree 1 (by decide)).mp h).2 (by decide)
  · decide
  · decide

/-! ## No write leaves the bitmap -/

/-- A loop over bits below `8 * size` writes no byte from `size` on. -/
theorem writeLoop_outside {bitmap : Mem} {state : Bool} {n i size a : Nat} (hn : i + n ≤ 8 * size)
    (ha : size ≤ a) : writeLoop bitmap state n i a = bitmap a := by
  induction n generalizing bitmap i with
  | zero => rfl
  | succ n ih =>
    rw [writeLoop, ih (by omega)]
    have hne : a ≠ i / 8 := by omega
    cases state <;> exact store_of_ne hne

theorem initBitmapData_outside {entries : List MemmapEntry} {b : Bitmap} {size a : Nat}
    (hend : ∀ e ∈ entries, e.usable = true →
      e.base / pageSize + divideRoundUp e.length pageSize ≤ 8 * size) (ha : size ≤ a) :
    (initBitmapData entries b).bitmap a = b.bitmap a := by
  induction entries generalizing b with
  | nil => rfl
  | cons e entries ih =>
    obtain ⟨he, hrest⟩ := List.forall_mem_cons.mp hend
    rw [initBitmapData, List.foldl_cons, ← initBitmapData, ih hrest]
    by_cases hu : e.usable = true
    · rw [if_pos hu]
      exact writeLoop_outside (he hu) ha
    · rw [if_neg hu]

/-- The pages of an entry that ends below `highest`. -/
theorem entry_pages_le {e : MemmapEntry} {highest size : Nat} (hb : pageSize ∣ e.base)
    (hl : pageSize ∣ e.length) (hend : e.base + e.length ≤ highest) (hs : size ≤ e.length) :
    e.base / pageSize + divideRoundUp size pageSize ≤ highest / pageSize := by
  have hlt := e.length_lt
  obtain ⟨k, hk⟩ := hb
  obtain ⟨n, hn⟩ := hl
  simp only [pageSize] at hk hn ⊢
  rw [divideRoundUp_eq (by decide) (by omega)]
  omega

/-- Boot writes no byte behind the bitmap. -/
theorem getFreeLocationForBitmap_outside {entries : List MemmapEntry} {m : Mem}
    (hmap : UsableMap entries) (hend : ∀ e ∈ entries, e.usable = true → e.base + e.length < 2 ^ 64)
    (hbig : ∃ e ∈ entries, e.usable = true ∧
      divideRoundUp ((getMemoryRegions entries).highestAddress / pageSize) 8 ≤ e.length) :
    let r := getFreeLocationForBitmap entries (getMemoryRegions entries).highestAddress m
    ∀ a, divideRoundUp r.2.count 8 ≤ a → r.2.bitmap a = m a := by
  intro r a ha
  have hcount : r.2.count = _ := getFreeLocationForBitmap_count
  have hle : r.2.count ≤ 2 ^ 52 := getFreeLocationForBitmap_count_le
  have hbits : r.2.count ≤ 8 * divideRoundUp r.2.count 8 := by
    rw [divideRoundUp_eq (by decide) (by omega)]
    omega
  obtain ⟨e₀, he₀, hu₀, hbase, hsize⟩ := getFreeLocationForBitmap_base (m := m) hbig
  have hpages : ∀ e ∈ entries, e.usable = true → ∀ size ≤ e.length,
      e.base / pageSize + divideRoundUp size pageSize ≤ 8 * divideRoundUp r.2.count 8 := by
    intro e he hu size hs
    have hal := hmap.aligned e he hu
    have := entry_pages_le hal.1 hal.2 (le_getMemoryRegions he hu (hend e he hu)) hs
    omega
  have hself : r.1 / pageSize + divideRoundUp (divideRoundUp r.2.count 8) pageSize ≤
      8 * divideRoundUp r.2.count 8 := by
    rw [show r.1 = e₀.base from hbase]
    exact hpages e₀ he₀ hu₀ _ hsize
  rw [hcount] at ha hpages hself
  refine (writeLoop_outside hself ha).trans ?_
  refine (initBitmapData_outside (fun e he hu => hpages e he hu _ (Nat.le_refl _)) ha).trans ?_
  exact (memoryFill_apply ..).trans (if_neg (by omega))

end EszOs
