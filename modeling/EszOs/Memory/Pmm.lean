import Mathlib.Data.Finset.Card
import Mathlib.Order.Interval.Finset.Nat
import EszOs.Memory.Bitmap

/-!
# The physical memory manager (`memory/physical/pmm/pmm.cpp`)

`pmm_bitmap` has one bit per physical page. The functions write the bitmap's bytes and never its
`count`, so they return the bytes; `none` is `PMM_MALLOC_FAILED`.

* `bitRead_writesRange`: what marking and freeing a range leave in each bit.
* `pmmMalloc_some`: the run handed out is the first free one, and only its bits are set.
* `pmmMalloc_none`: a failure means that there is no free run.
* `freePages_pmmMalloc`: a call takes as many of the `freePages` as it was asked for.
* `pmmMalloc_reserves`: the pages cover the bytes that were asked for.
* `pmmMallocPages_reserves_iff`: a number of pages from `2 ^ 52` on wraps around.
-/

namespace EszOs

open Bytes

def pmmMallocPageRange (b : Bitmap) (page pageAmount : Nat) : Mem :=
  writeLoop b.bitmap true pageAmount page

def pmmMalloc (b : Bitmap) (byteAmount : Nat) : Option (Nat × Mem) :=
  let reqPages := divideRoundUp byteAmount pageSize
  let r := b.findFreeRange reqPages
  if r.2 then some (u64 (r.1 * pageSize), pmmMallocPageRange b r.1 reqPages) else none

def pmmMallocPage (b : Bitmap) : Option (Nat × Mem) := pmmMalloc b pageSize

def pmmMallocPages (b : Bitmap) (pageAmount : Nat) : Option (Nat × Mem) :=
  pmmMalloc b (u64 (pageSize * pageAmount))

def pmmFree (b : Bitmap) (addr byteAmount : Nat) : Mem :=
  writeLoop b.bitmap false (divideRoundUp byteAmount pageSize) (addr / pageSize)

/-! ## Marking a range -/

/-- The three loops write the same bits. -/
theorem pmmMallocPageRange_eq (b : Bitmap) {page pageAmount : Nat} (h : page + pageAmount < 2 ^ 64) :
    pmmMallocPageRange b page pageAmount = (b.writeBitsInRangeFrom pageAmount page true).bitmap :=
  (b.writeBitsInRangeFrom_bitmap true h).symm

theorem pmmFree_eq (b : Bitmap) {addr byteAmount : Nat}
    (h : addr / pageSize + divideRoundUp byteAmount pageSize < 2 ^ 64) :
    pmmFree b addr byteAmount =
      (b.writeBitsInRangeFrom (divideRoundUp byteAmount pageSize) (addr / pageSize) false).bitmap :=
  (b.writeBitsInRangeFrom_bitmap false h).symm

/-- Each of them leaves its state in exactly the bits of the range, and keeps every other bit. -/
theorem bitRead_writesRange (b : Bitmap) {startBit range : Nat} (h : startBit + range < 2 ^ 64)
    (q : Nat) :
    (∀ state, bitRead (b.writeBitsInRangeFrom range startBit state).bitmap q =
      if startBit ≤ q ∧ q < startBit + range then state else bitRead b.bitmap q) ∧
    (bitRead (pmmMallocPageRange b startBit range) q =
      if startBit ≤ q ∧ q < startBit + range then true else bitRead b.bitmap q) ∧
    ∀ addr byteAmount, addr / pageSize = startBit → divideRoundUp byteAmount pageSize = range →
      bitRead (pmmFree b addr byteAmount) q =
        if startBit ≤ q ∧ q < startBit + range then false else bitRead b.bitmap q := by
  refine ⟨fun state => Bitmap.bitRead_writeBitsInRangeFrom q h, ?_, ?_⟩
  · rw [pmmMallocPageRange_eq b h]
    exact Bitmap.bitRead_writeBitsInRangeFrom q h
  · rintro addr byteAmount rfl rfl
    rw [pmmFree_eq b h]
    exact Bitmap.bitRead_writeBitsInRangeFrom q h

/-- Pages 6 to 8 of a bitmap of ones are freed: byte 0 keeps six bits, and byte 1 seven. -/
theorem bitRead_writesRange_bytes :
    bitRead (pmmFree ⟨fun _ => 0xFF, 16⟩ (6 * pageSize) (3 * pageSize)) 8 = false ∧
      bitRead (pmmFree ⟨fun _ => 0xFF, 16⟩ (6 * pageSize) (3 * pageSize)) 9 = true := by
  have hrange : 6 + 3 < 2 ^ 64 := by decide
  have hfree := fun q => (bitRead_writesRange ⟨fun _ => 0xFF, 16⟩ hrange q).2.2 (6 * pageSize)
    (3 * pageSize) (by decide) (by decide)
  exact ⟨(hfree 8).trans (by decide), (hfree 9).trans (by decide)⟩

/-! ## Handing out -/

/-- `pmm_malloc` hands out the first free run of pages and marks it. -/
theorem pmmMalloc_some {b : Bitmap} {n addr : Nat} {bits : Mem} {req : Nat}
    (hreq : divideRoundUp n pageSize = req) (h : pmmMalloc b n = some (addr, bits)) :
    ∃ p, addr = u64 (p * pageSize) ∧ b.FreeRun req p ∧ (∀ q < p, ¬ b.FreeRun req q) ∧
      ∀ q, bitRead bits q = (decide (p ≤ q ∧ q < p + req) || bitRead b.bitmap q) := by
  simp only [pmmMalloc, hreq] at h
  by_cases hs : (b.findFreeRange req).2 = true
  · simp only [hs, ↓reduceIte, Option.some.injEq, Prod.mk.injEq] at h
    obtain ⟨rfl, rfl⟩ := h
    obtain ⟨-, hrun, hfirst⟩ := Bitmap.findFreeRange_some (Prod.ext rfl hs)
    refine ⟨_, rfl, hrun, hfirst, fun q => ?_⟩
    rw [pmmMallocPageRange, bitRead_writeLoop]
    split
    · rename_i hq; simp [hq]
    · rename_i hq; simp [hq]
  · simp [hs] at h

theorem pmmMalloc_none {b : Bitmap} {n : Nat} {req : Nat} (hreq : divideRoundUp n pageSize = req)
    (h : pmmMalloc b n = none) : req = 0 ∨ ∀ p, ¬ b.FreeRun req p := by
  simp only [pmmMalloc, hreq] at h
  by_cases hs : (b.findFreeRange req).2 = true
  · simp [hs] at h
  · exact Bitmap.findFreeRange_none (by simpa using hs)

/-- Where first fit finds `n` pages. -/
def Bitmap.FirstRun (b : Bitmap) (n p : Nat) : Prop :=
  0 < n ∧ b.FreeRun n p ∧ ∀ q < p, ¬ b.FreeRun n q

/-- `pmm_malloc` hands out the first run, and only that. -/
theorem pmmMalloc_eq_some {b : Bitmap} {n addr : Nat} {bits : Mem} :
    pmmMalloc b n = some (addr, bits) ↔
      ∃ p, b.FirstRun (divideRoundUp n pageSize) p ∧ addr = u64 (p * pageSize) ∧
        bits = pmmMallocPageRange b p (divideRoundUp n pageSize) := by
  simp only [pmmMalloc]
  generalize divideRoundUp n pageSize = req
  constructor
  · intro h
    by_cases hs : (b.findFreeRange req).2 = true
    · simp only [hs, ↓reduceIte, Option.some.injEq, Prod.mk.injEq] at h
      exact ⟨_, Bitmap.findFreeRange_some (Prod.ext rfl hs), h.1.symm, h.2.symm⟩
    · simp [hs] at h
  · rintro ⟨p, ⟨hpos, hrun, hfirst⟩, rfl, rfl⟩
    rcases b.findFreeRange_cases hpos with ⟨p', hp', hrun', hfirst'⟩ | ⟨-, hno⟩
    · have heq : p' = p := by
        rcases Nat.lt_trichotomy p' p with hlt | heq | hlt
        · exact absurd hrun' (hfirst p' hlt)
        · exact heq
        · exact absurd hrun (hfirst' p hlt)
      simp only [hp', heq, ↓reduceIte]
    · exact absurd hrun (hno p)

/-- Without a free page nothing is handed out. -/
theorem pmmMalloc_of_full {b : Bitmap} {n : Nat} (h : ∀ p, ¬ b.Free p) : pmmMalloc b n = none := by
  refine Option.eq_none_iff_forall_ne_some.mpr fun r hr => ?_
  obtain ⟨p, ⟨hpos, hrun, -⟩, -⟩ := pmmMalloc_eq_some.mp hr
  exact h p ⟨by have := hrun.1; omega, hrun.2 p (Nat.le_refl _) (by omega)⟩

/-! ## One page -/

theorem divideRoundUp_pageSize : divideRoundUp pageSize pageSize = 1 := rfl

theorem freeRun_one {b : Bitmap} {p : Nat} : b.FreeRun 1 p ↔ b.Free p := by
  constructor
  · rintro ⟨h1, h2⟩
    exact ⟨by omega, h2 p (by omega) (by omega)⟩
  · rintro ⟨h1, h2⟩
    refine ⟨by omega, fun q h3 h4 => ?_⟩
    rwa [show q = p by omega]

/-- `pmm_malloc_page` hands out the first free page and marks it. -/
theorem pmmMallocPage_some {b : Bitmap} {addr : Nat} {bits : Mem}
    (h : pmmMallocPage b = some (addr, bits)) :
    ∃ p, addr = u64 (p * pageSize) ∧ b.Free p ∧ (∀ q < p, ¬ b.Free q) ∧
      ∀ q, bitRead bits q = (decide (q = p) || bitRead b.bitmap q) := by
  obtain ⟨p, haddr, hrun, hfirst, hbits⟩ := pmmMalloc_some divideRoundUp_pageSize h
  refine ⟨p, haddr, freeRun_one.mp hrun, fun q hq hf => hfirst q hq (freeRun_one.mpr hf), fun q => ?_⟩
  rw [hbits, decide_eq_decide.mpr (by omega : (p ≤ q ∧ q < p + 1) ↔ q = p)]

theorem pmmMallocPage_none {b : Bitmap} (h : pmmMallocPage b = none) (p : Nat) : ¬ b.Free p := by
  rcases pmmMalloc_none divideRoundUp_pageSize h with h0 | h0
  · exact absurd h0 (by decide)
  · exact fun hfree => h0 p (freeRun_one.mpr hfree)

/-- A page that `pmm_free` gets back by its address. -/
theorem bitRead_pmmFree (b : Bitmap) {p : Nat} (q : Nat) :
    bitRead (pmmFree b (p * pageSize) pageSize) q = (!decide (q = p) && bitRead b.bitmap q) := by
  rw [pmmFree, bitRead_writeLoop, divideRoundUp_pageSize,
    Nat.mul_div_cancel _ (by decide : 0 < pageSize)]
  by_cases hq : q = p
  · rw [if_pos (by omega)]; simp [hq]
  · rw [if_neg (by omega)]; simp [hq]

/-! ## Counting the free pages -/

/-- The free pages. -/
def Bitmap.freePages (b : Bitmap) : Finset Nat := {p ∈ Finset.range b.count | bitRead b.bitmap p = false}

theorem Bitmap.mem_freePages {b : Bitmap} {p : Nat} : p ∈ b.freePages ↔ b.Free p := by
  simp [freePages, Free]

theorem freePages_eq_empty {b : Bitmap} (h : pmmMallocPage b = none) : b.freePages = ∅ :=
  Finset.eq_empty_of_forall_notMem fun p hp =>
    pmmMallocPage_none h p (Bitmap.mem_freePages.mp hp)

/-- A call takes the pages it was asked for. -/
theorem freePages_pmmMalloc {b : Bitmap} {n addr : Nat} {bits : Mem} {req : Nat}
    (hreq : divideRoundUp n pageSize = req) (h : pmmMalloc b n = some (addr, bits)) :
    ({ b with bitmap := bits } : Bitmap).freePages.card + req = b.freePages.card := by
  obtain ⟨p, -, hrun, -, hbits⟩ := pmmMalloc_some hreq h
  have hsub : Finset.Ico p (p + req) ⊆ b.freePages := fun q hq => by
    have := hrun.1
    rw [Finset.mem_Ico] at hq
    exact Bitmap.mem_freePages.mpr ⟨by omega, hrun.2 q hq.1 hq.2⟩
  have hsdiff : ({ b with bitmap := bits } : Bitmap).freePages = b.freePages \ Finset.Ico p (p + req) := by
    ext q
    simp only [Bitmap.mem_freePages, Bitmap.Free, Finset.mem_sdiff, Finset.mem_Ico, hbits,
      Bool.or_eq_false_iff, decide_eq_false_iff_not]
    tauto
  rw [hsdiff, Finset.card_sdiff_of_subset hsub, Nat.card_Ico]
  have := Finset.card_le_card hsub
  rw [Nat.card_Ico] at this
  omega

theorem freePages_mallocPage {b : Bitmap} {addr : Nat} {bits : Mem}
    (h : pmmMallocPage b = some (addr, bits)) :
    ({ b with bitmap := bits } : Bitmap).freePages.card + 1 = b.freePages.card :=
  freePages_pmmMalloc divideRoundUp_pageSize h

/-! ## What a request covers -/

/-- The `n` pages from address `a` on were free and are in use now. -/
def ReservesPages (b : Bitmap) (bits : Mem) (a n : Nat) : Prop :=
  ∀ i < n, b.Free (a / pageSize + i) ∧ bitRead bits (a / pageSize + i) = true

/-- The same for the pages of the `n` bytes from address `a` on. -/
def ReservesBytes (b : Bitmap) (bits : Mem) (a n : Nat) : Prop :=
  ∀ x, a ≤ x → x < a + n → b.Free (x / pageSize) ∧ bitRead bits (x / pageSize) = true

/-- What `pmm_malloc` marks. -/
theorem bitRead_pmmMallocPageRange {b : Bitmap} {p n q : Nat} (h1 : p ≤ q) (h2 : q < p + n) :
    bitRead (pmmMallocPageRange b p n) q = true := by
  rw [pmmMallocPageRange, bitRead_writeLoop, if_pos ⟨h1, h2⟩]

/-- A page below `2 ^ 52` has a 64-bit address. -/
theorem Bitmap.FirstRun.addr_div {b : Bitmap} {n p : Nat} (hc : b.count ≤ 2 ^ 52) (h : b.FirstRun n p) :
    u64 (p * pageSize) / pageSize = p := by
  have hpos := h.1
  have hle := h.2.1.1
  rw [u64_of_lt (by rw [pageSize]; omega), Nat.mul_div_cancel _ (by decide)]

/-- Where the sum of `divide_round_up` wraps, the quotient is 0. -/
theorem le_divideRoundUp_pageSize {n : Nat} (hn : n < 2 ^ 64) (h : 0 < divideRoundUp n pageSize) :
    n ≤ divideRoundUp n pageSize * pageSize := by
  by_cases hwrap : n + pageSize - 1 < 2 ^ 64
  · exact le_divideRoundUp_mul (by decide) hwrap
  · have hzero : divideRoundUp n pageSize = 0 :=
      divideRoundUp_of_wraps hn (by decide) (by omega)
    omega

/-- The pages that `pmm_malloc` returns cover the bytes. -/
theorem pmmMalloc_reserves {b : Bitmap} {n a : Nat} {bits : Mem} (hc : b.count ≤ 2 ^ 52)
    (hn : n < 2 ^ 64) (h : pmmMalloc b n = some (a, bits)) : ReservesBytes b bits a n := by
  obtain ⟨p, hrun, rfl, rfl⟩ := pmmMalloc_eq_some.mp h
  have hcover := le_divideRoundUp_pageSize hn hrun.1
  have hdiv := hrun.addr_div hc
  have hpos := hrun.1
  have hle := hrun.2.1.1
  generalize divideRoundUp n pageSize = req at *
  intro x h1 h2
  have haddr : u64 (p * pageSize) = p * pageSize := u64_of_lt (by rw [pageSize]; omega)
  rw [haddr] at h1 h2
  have hp1 : p ≤ x / pageSize := (Nat.le_div_iff_mul_le (by decide)).mpr h1
  have hp2 : x / pageSize < p + req := by
    rw [Nat.div_lt_iff_lt_mul (by decide), Nat.add_mul]
    omega
  exact ⟨⟨by omega, hrun.2.1.2 _ hp1 hp2⟩, bitRead_pmmMallocPageRange hp1 hp2⟩

/-- The product of `pmm_malloc_pages` keeps the low 52 bits of the number of pages. -/
theorem divideRoundUp_pages (n : Nat) :
    divideRoundUp (u64 (pageSize * n)) pageSize = n % 2 ^ 52 := by
  rw [divideRoundUp, if_neg (by decide)]
  simp only [u64, pageSize]
  omega

/-- `pmm_malloc_pages` reserves all pages that it returns exactly if their number is below `2 ^ 52`, or
the low 52 bits of it are a request that fails. `pmm_malloc` always covers the bytes. -/
theorem pmmMallocPages_reserves_iff {b : Bitmap} (hc : b.count ≤ 2 ^ 52) (pageAmount : Nat)
    {byteAmount : Nat} (hn : byteAmount < 2 ^ 64) :
    ((∀ a bits, pmmMallocPages b pageAmount = some (a, bits) → ReservesPages b bits a pageAmount) ∧
        ∀ a bits, pmmMalloc b byteAmount = some (a, bits) → ReservesBytes b bits a byteAmount) ↔
      pageAmount < 2 ^ 52 ∨ pageAmount % 2 ^ 52 = 0 ∨ ∀ p, ¬ b.FreeRun (pageAmount % 2 ^ 52) p := by
  rw [and_iff_left fun a bits h => pmmMalloc_reserves hc hn h]
  constructor
  · intro h
    by_contra hno
    rw [not_or, not_or] at hno
    obtain ⟨hbig, hpos, hrun⟩ := hno
    have hsome : (pmmMallocPages b pageAmount).isSome := by
      rw [Option.isSome_iff_ne_none]
      intro hnone
      rcases pmmMalloc_none (divideRoundUp_pages pageAmount) hnone with h0 | h0
      · exact hpos h0
      · exact hrun h0
    obtain ⟨⟨a, bits⟩, hm⟩ := Option.isSome_iff_exists.mp hsome
    -- The last page of the range is not below `count`.
    have hmany : 2 ^ 52 < pageAmount := by omega
    have hlast := (h a bits hm (pageAmount - 1) (by omega)).1.1
    have hbelow : pageAmount - 1 < b.count := Nat.lt_of_le_of_lt (Nat.le_add_left _ _) hlast
    omega
  · intro h a bits hm i hi
    obtain ⟨p, hrun, rfl, rfl⟩ := pmmMalloc_eq_some.mp hm
    rw [hrun.addr_div hc]
    rw [divideRoundUp_pages] at hrun ⊢
    have hlt : pageAmount < 2 ^ 52 := by
      rcases h with h | h | h
      · exact h
      · exact absurd hrun.1 (by omega)
      · exact absurd hrun.2.1 (h p)
    rw [Nat.mod_eq_of_lt hlt] at hrun ⊢
    have hle := hrun.2.1.1
    exact ⟨⟨by omega, hrun.2.1.2 _ (by omega) (by omega)⟩,
      bitRead_pmmMallocPageRange (by omega) (by omega)⟩

/-- Two pages are reserved for two pages, and for 5000 bytes. -/
theorem pmmMallocPages_two :
    ReservesPages ⟨fun _ => 0, 16⟩ (pmmMallocPageRange ⟨fun _ => 0, 16⟩ 0 2) 0 2 ∧
      ReservesBytes ⟨fun _ => 0, 16⟩ (pmmMallocPageRange ⟨fun _ => 0, 16⟩ 0 2) 0 5000 := by
  have hn : 5000 < 2 ^ 64 := by decide
  obtain ⟨hpages, hbytes⟩ := (pmmMallocPages_reserves_iff (b := ⟨fun _ => 0, 16⟩) (by decide) 2
    hn).mpr (.inl (by decide))
  exact ⟨hpages 0 _ rfl, hbytes 0 _ rfl⟩

/-- One page is reserved for `2 ^ 52 + 1` pages. -/
theorem pmmMallocPages_not_reserves :
    ¬ ∀ (b : Bitmap) (pageAmount a : Nat) (bits : Mem), b.count ≤ 2 ^ 52 → pageAmount < 2 ^ 64 →
      pmmMallocPages b pageAmount = some (a, bits) → ReservesPages b bits a pageAmount := by
  intro h
  have hm : pmmMallocPages ⟨fun _ => 0, 1⟩ (2 ^ 52 + 1) =
      some (0, pmmMallocPageRange ⟨fun _ => 0, 1⟩ 0 1) := rfl
  have hsecond := h _ _ _ _ (by decide) (by decide) hm 1 (by decide)
  exact absurd hsecond.1.1 (by decide)

end EszOs
