import Mathlib.Algebra.BigOperators.Ring.List
import EszOs.Lib.Ranges
import EszOs.Memory.PmmBitmap

/-!
# How many pages are free (`memory/physical/pmm/pmm.cpp`, `memory/infos/memory_info.cpp`)

`print_memory_info` subtracts the bytes of the free pages from `totalUsableBytes`, which was summed up
at boot.

* `getPmmPageCounts_eq`: the loop counts the free pages.
* `totalUsableBytes_eq`: the sum over the memory map does not wrap.
* `ramUsedBytes_add_freePages`, `freePages_le_totalUsableBytes`: the free pages are never more than
  the usable bytes.
-/

namespace EszOs

open Bytes

/-! ## Definitions -/

/-- The loop of `get_pmm_page_counts`; `n` bits are left, the next one is bit `i`. -/
def pageCountsLoop (b : Bitmap) : Nat → Nat → Nat → Nat → Nat × Nat
  | 0, _, freePageCounter, usedPageCounter => (freePageCounter, usedPageCounter)
  | n + 1, i, freePageCounter, usedPageCounter =>
    if bitRead b.bitmap i = false then pageCountsLoop b n (i + 1) (freePageCounter + 1) usedPageCounter
    else pageCountsLoop b n (i + 1) freePageCounter (usedPageCounter + 1)

/-- `get_pmm_page_counts`: the free pages and the used ones. -/
def getPmmPageCounts (b : Bitmap) : Nat × Nat := pageCountsLoop b b.count 0 0 0

/-- `ramFreeBytes` of `print_memory_info`. -/
def ramFreeBytes (b : Bitmap) : Nat := u64 ((getPmmPageCounts b).1 * pageSize)

/-- `ramUsedBytes` of `print_memory_info`. -/
def ramUsedBytes (totalUsableBytes : Nat) (b : Bitmap) : Nat :=
  u64 (totalUsableBytes + 2 ^ 64 - ramFreeBytes b)

/-! ## The counts -/

theorem pageCountsLoop_fst (b : Bitmap) (n i f u : Nat) :
    (pageCountsLoop b n i f u).1 =
      f + {p ∈ Finset.Ico i (i + n) | bitRead b.bitmap p = false}.card := by
  induction n generalizing i f u with
  | zero => simp [pageCountsLoop]
  | succ n ih =>
    have hsplit : Finset.Ico i (i + (n + 1)) = insert i (Finset.Ico (i + 1) (i + 1 + n)) := by
      ext p
      simp only [Finset.mem_insert, Finset.mem_Ico]
      omega
    rw [pageCountsLoop, hsplit, Finset.filter_insert]
    by_cases hbit : bitRead b.bitmap i = false
    · rw [if_pos hbit, if_pos hbit, ih, Finset.card_insert_of_notMem (by simp), Nat.add_assoc,
        Nat.add_comm 1]
    · rw [if_neg hbit, if_neg hbit, ih]

/-- The first count is the number of free pages. -/
theorem getPmmPageCounts_eq (b : Bitmap) : (getPmmPageCounts b).1 = b.freePages.card := by
  rw [getPmmPageCounts, pageCountsLoop_fst, Nat.zero_add, Nat.zero_add, ← Finset.range_eq_Ico]
  rfl

/-! ## The memory map -/

/-- The usable ranges of the memory map. -/
def usableRanges (entries : List MemmapEntry) : List (Nat × Nat) :=
  (entries.filter (·.usable)).map fun e => (e.base, e.length)

/-- The same in pages. -/
def usablePages (entries : List MemmapEntry) : List (Nat × Nat) :=
  (entries.filter (·.usable)).map fun e => (e.base / pageSize, e.length / pageSize)

variable {entries : List MemmapEntry}

theorem foldl_add_totalUsableBytes (r : MemoryRegions)
    (h : r.totalUsableBytes + Ranges.total (usableRanges entries) < 2 ^ 64) :
    (entries.foldl MemoryRegions.add r).totalUsableBytes =
      r.totalUsableBytes + Ranges.total (usableRanges entries) := by
  induction entries generalizing r with
  | nil => rfl
  | cons e entries ih =>
    rw [List.foldl_cons]
    by_cases hu : e.usable = true
    · have hranges : usableRanges (e :: entries) = (e.base, e.length) :: usableRanges entries := by
        rw [usableRanges, List.filter_cons_of_pos hu, List.map_cons, usableRanges]
      rw [hranges, Ranges.total_cons] at h ⊢
      have hadd : (r.add e).totalUsableBytes = r.totalUsableBytes + e.length := by
        rw [MemoryRegions.add, if_pos hu]
        exact u64_of_lt (by omega)
      rw [ih _ (by omega), hadd, Nat.add_assoc]
    · have hranges : usableRanges (e :: entries) = usableRanges entries := by
        rw [usableRanges, List.filter_cons_of_neg hu, usableRanges]
      have hadd : r.add e = r := by rw [MemoryRegions.add, if_neg hu]
      rw [hranges] at h ⊢
      rw [hadd, ih _ h]

/-- The usable entries are apart, so together they are smaller than the address space. -/
theorem total_usableRanges_lt (hmap : UsableMap entries)
    (hend : ∀ e ∈ entries, e.usable = true → e.base + e.length < 2 ^ 64) :
    Ranges.total (usableRanges entries) < 2 ^ 64 := by
  refine Nat.lt_of_le_pred (by decide) ?_
  refine Ranges.total_le_of_apart (List.pairwise_map.mpr hmap.apart) fun q hq => ?_
  obtain ⟨e, he, rfl⟩ := List.mem_map.mp hq
  exact Nat.le_pred_of_lt (hend e (List.mem_of_mem_filter he) (List.of_mem_filter he))

theorem totalUsableBytes_eq (hmap : UsableMap entries)
    (hend : ∀ e ∈ entries, e.usable = true → e.base + e.length < 2 ^ 64) :
    (getMemoryRegions entries).totalUsableBytes = Ranges.total (usableRanges entries) := by
  have hlt := total_usableRanges_lt hmap hend
  have hsum := @foldl_add_totalUsableBytes entries ⟨0, 0⟩ (by rwa [Nat.zero_add])
  rw [Nat.zero_add] at hsum
  exact hsum

theorem total_usablePages (hmap : UsableMap entries) :
    Ranges.total (usablePages entries) * pageSize = Ranges.total (usableRanges entries) := by
  rw [Ranges.total, Ranges.total, usablePages, usableRanges, List.map_map, List.map_map,
    ← List.sum_map_mul_right]
  refine congrArg List.sum (List.map_congr_left fun e he => ?_)
  exact Nat.div_mul_cancel (hmap.aligned e (List.mem_of_mem_filter he) (List.of_mem_filter he)).2

/-- After boot the free pages lie in the usable entries. -/
theorem freePages_boot_subset {m : Mem} (hmap : UsableMap entries) :
    (getFreeLocationForBitmap entries (getMemoryRegions entries).highestAddress m).2.freePages ⊆
      Ranges.covered (usablePages entries) := by
  intro p hp
  obtain ⟨hlt, hfree⟩ := Bitmap.mem_freePages.mp hp
  rw [getFreeLocationForBitmap_count] at hlt
  have hnot : p ∉ (getFreeLocationForBitmap entries
      (getMemoryRegions entries).highestAddress m).2.usedPages := fun hu => by
    rw [Bitmap.usedPages, Set.mem_ofPred_eq, hfree] at hu
    cases hu
  obtain ⟨⟨e, he, hu, hpage⟩, -⟩ :=
    (getFreeLocationForBitmap_bits (getMemoryRegions_lt entries) hlt).mp hnot
  obtain ⟨-, ⟨n, hn⟩⟩ := hmap.aligned e he hu
  have hlength := e.length_lt
  have hpages : divideRoundUp e.length pageSize = e.length / pageSize := by
    simp only [pageSize] at hn ⊢
    rw [divideRoundUp_eq (by decide) (by omega)]
    omega
  rw [pageRange, Set.mem_Ico, hpages] at hpage
  exact Ranges.mem_covered.mpr
    ⟨_, List.mem_map_of_mem (List.mem_filter.mpr ⟨he, hu⟩), hpage.1, hpage.2⟩

/-- A run frees no page that was used at its start. -/
theorem freePages_reach_subset {b₀ b : Bitmap} {live : LiveFrames} (hc : b₀.count ≤ 2 ^ 52)
    (hr : PmmReach (b₀, []) (b, live)) : b.freePages ⊆ b₀.freePages := by
  have hstart : PmmInv b₀ b₀ [] := ⟨rfl, .init _, by simp⟩
  have hi : PmmInv b₀ b live := hstart.reach hc hr
  intro p hp
  obtain ⟨hlt, hfree⟩ := Bitmap.mem_freePages.mp hp
  refine Bitmap.mem_freePages.mpr ⟨hi.count_eq ▸ hlt, Bool.eq_false_iff.mpr fun hu => ?_⟩
  have hused : bitRead b.bitmap p = true := hi.ledger.base_subset hu
  rw [hfree] at hused
  cases hused

/-- The used bytes are those of the usable pages that are not free. -/
theorem ramUsedBytes_add_freePages {m : Mem} (hmap : UsableMap entries)
    (hend : ∀ e ∈ entries, e.usable = true → e.base + e.length < 2 ^ 64) {b : Bitmap}
    {live : LiveFrames}
    (hr : PmmReach ((getFreeLocationForBitmap entries (getMemoryRegions entries).highestAddress m).2,
      []) (b, live)) :
    b.freePages.card * pageSize ≤ (getMemoryRegions entries).totalUsableBytes ∧
      ramUsedBytes (getMemoryRegions entries).totalUsableBytes b + b.freePages.card * pageSize =
        (getMemoryRegions entries).totalUsableBytes := by
  have htotal := totalUsableBytes_eq hmap hend
  have hcard : b.freePages.card ≤ Ranges.total (usablePages entries) :=
    calc b.freePages.card
      _ ≤ (Ranges.covered (usablePages entries)).card := Finset.card_le_card
          ((freePages_reach_subset getFreeLocationForBitmap_count_le hr).trans
            (freePages_boot_subset hmap))
      _ ≤ Ranges.total (usablePages entries) := Ranges.card_covered_le _
  have hle : b.freePages.card * pageSize ≤ (getMemoryRegions entries).totalUsableBytes := by
    rw [htotal, ← total_usablePages hmap]
    exact Nat.mul_le_mul_right _ hcard
  have hlt : (getMemoryRegions entries).totalUsableBytes < 2 ^ 64 :=
    htotal ▸ total_usableRanges_lt hmap hend
  refine ⟨hle, ?_⟩
  rw [ramUsedBytes, ramFreeBytes, getPmmPageCounts_eq, u64_of_lt (Nat.lt_of_le_of_lt hle hlt), u64]
  omega

/-- In every state that the PMM reaches from boot the free pages, which `get_pmm_page_counts` counts,
have at most `totalUsableBytes` bytes, so `print_memory_info` subtracts without a wrap. -/
theorem freePages_le_totalUsableBytes {m : Mem} (hmap : UsableMap entries)
    (hend : ∀ e ∈ entries, e.usable = true → e.base + e.length < 2 ^ 64) {b : Bitmap}
    {live : LiveFrames}
    (hr : PmmReach ((getFreeLocationForBitmap entries (getMemoryRegions entries).highestAddress m).2,
      []) (b, live)) :
    (getPmmPageCounts b).1 = b.freePages.card ∧
      (getPmmPageCounts b).1 * pageSize ≤ (getMemoryRegions entries).totalUsableBytes ∧
      ramUsedBytes (getMemoryRegions entries).totalUsableBytes b + (getPmmPageCounts b).1 * pageSize =
        (getMemoryRegions entries).totalUsableBytes := by
  rw [getPmmPageCounts_eq]
  exact ⟨rfl, ramUsedBytes_add_freePages hmap hend hr⟩

/-- Four usable pages, one of them for the bitmap. Two are allocated, then the last one, and the two are
freed again. -/
theorem freePages_four :
    let entries : List MemmapEntry := [⟨0, 0x1000, false, by decide⟩, ⟨0x1000, 0x4000, true, by decide⟩]
    let b := (getFreeLocationForBitmap entries (getMemoryRegions entries).highestAddress fun _ => 0).2
    ∃ addr bits addr' bits', pmmMalloc b 0x2000 = some (addr, bits) ∧
      pmmMallocPage { b with bitmap := bits } = some (addr', bits') ∧
      let b' : Bitmap := { b with bitmap := pmmFree { b with bitmap := bits' } addr 0x2000 }
      ramUsedBytes (getMemoryRegions entries).totalUsableBytes b' + (getPmmPageCounts b').1 * pageSize =
        0x4000 := by
  intro entries b
  have hmap : UsableMap entries := by
    refine ⟨fun e he hu => ?_, by simp [entries]⟩
    rcases List.mem_pair.mp he with rfl | rfl
    · cases hu
    · exact ⟨⟨1, rfl⟩, ⟨4, rfl⟩⟩
  have hend : ∀ e ∈ entries, e.usable = true → e.base + e.length < 2 ^ 64 := by
    intro e he hu
    rcases List.mem_pair.mp he with rfl | rfl
    · cases hu
    · decide
  have hany : (pmmMalloc b 0x2000).any
      (fun r => (pmmMallocPage { b with bitmap := r.2 }).isSome) = true := by
    decide +kernel
  obtain ⟨⟨addr, bits⟩, hm, hpage⟩ := (Option.any_eq_true ..).mp hany
  obtain ⟨⟨addr', bits'⟩, hm'⟩ := Option.isSome_iff_exists.mp hpage
  have hone : PmmStep (b, []) ({ b with bitmap := bits }, [(addr, 0x2000)]) := .malloc hm
  have htwo : PmmStep ({ b with bitmap := bits }, [(addr, 0x2000)])
      ({ b with bitmap := bits' }, [(addr', pageSize), (addr, 0x2000)]) := .mallocPage hm'
  have hlive : (addr, 0x2000) ∈ [(addr', pageSize), (addr, 0x2000)] :=
    List.mem_cons_of_mem _ List.mem_cons_self
  have hr := ((Relation.ReflTransGen.single hone).tail htwo).tail (.free hlive)
  exact ⟨addr, bits, addr', bits', hm, hm', (freePages_le_totalUsableBytes hmap hend hr).2.2⟩

end EszOs
