import EszOs.Memory.Mapping

/-!
# Ranges of pages (`map_pages`, `free_pages` in `memory/virtual/paging/paging.cpp`)

Both functions take a size in bytes and visit as many pages as that many bytes need from a page
boundary on. A range that starts inside a page can touch one page more, which stays as it was
(`mapPages_translates_iff`).
-/

namespace EszOs

open Bytes Radix

namespace MemState

/-- The loop of `map_pages`, with `n` pages left from page `i` on. -/
def mapPagesLoop (virtualAddress physicalAddress : Nat) (flags : PagingFlags) :
    Nat → Nat → MemState → Bool → Bool × MemState
  | 0, _, s, success => (success, s)
  | n + 1, i, s, success =>
    let addressOffset := u64 (i * pageSize)
    let r := s.mapPage (u64 (virtualAddress + addressOffset))
      (u64 (physicalAddress + addressOffset)) flags
    mapPagesLoop virtualAddress physicalAddress flags n (i + 1) r.2 (r.1 && success)

def mapPages (s : MemState) (virtualAddress physicalAddress : Nat) (flags : PagingFlags)
    (requiredSize : Nat) : Bool × MemState :=
  mapPagesLoop virtualAddress physicalAddress flags (divideRoundUp requiredSize pageSize) 0 s true

/-- The loop of `free_pages`, with `n` pages left from page `i` on. -/
def freePagesLoop (virtualAddress : Nat) : Nat → Nat → MemState → Bool → Bool × MemState
  | 0, _, s, success => (success, s)
  | n + 1, i, s, success =>
    let r := s.freePage (u64 (virtualAddress + i * pageSize))
    freePagesLoop virtualAddress n (i + 1) r.2 (r.1 && success)

def freePages (s : MemState) (virtualAddress requiredSize : Nat) : Bool × MemState :=
  freePagesLoop virtualAddress (divideRoundUp requiredSize pageSize) 0 s true

/-- The physical address that an address translates to. -/
def physOf (s : MemState) (v : Nat) : Option Nat :=
  (s.translate v).map fun t => t.page * pageSize + v % pageSize

end MemState

/-! ## Addresses of one page -/

theorem pageBits_u64 (v : Nat) : pageBits (u64 v) = pageBits v := by
  simp only [pageBits, u64]
  omega

theorem translate_of_pageBits {s : MemState} {v v' : Nat} (h : pageBits v = pageBits v') :
    s.translate v = s.translate v' := by
  rw [MemState.translate, MemState.translate, path_eq_iff.mpr h]

theorem noLargePage_of_pageBits {s : MemState} {v v' : Nat} (h : pageBits v = pageBits v')
    (hc : NoLargePage s v) : NoLargePage s v' := by
  unfold NoLargePage at hc ⊢
  rwa [← path_eq_iff.mpr h]

/-- The unused indices select one of `512 ^ rest.length` pages. -/
theorem foldl_index_lt (rest : List Index) (n : Nat) :
    rest.foldl (fun n i => n * 512 + i.val) n < (n + 1) * 512 ^ rest.length := by
  induction rest generalizing n with
  | nil => simp
  | cons i rest ih =>
    have h := ih (n * 512 + i.val)
    have hi := i.isLt
    calc (i :: rest).foldl (fun n i => n * 512 + i.val) n
        < (n * 512 + i.val + 1) * 512 ^ rest.length := h
      _ ≤ (n + 1) * 512 * 512 ^ rest.length := Nat.mul_le_mul_right _ (by omega)
      _ = (n + 1) * 512 ^ (i :: rest).length := by
        rw [List.length_cons, Nat.pow_succ', Nat.mul_assoc]

/-- Entries name pages below `2 ^ 40`. -/
theorem leafPage_lt (e : PageTableEntry) {rest : List Index} (h : rest.length < 4) :
    leafPage e rest < 2 ^ 40 := by
  have haddr := e.address.isLt
  have hfold := foldl_index_lt rest 0
  rw [leafPage]
  obtain ⟨r, hr⟩ : ∃ r, r = rest.length := ⟨_, rfl⟩
  rw [← hr] at h hfold ⊢
  have hcases : r = 0 ∨ r = 1 ∨ r = 2 ∨ r = 3 := by omega
  rcases hcases with rfl | rfl | rfl | rfl <;> simp only [Nat.reducePow] at hfold haddr ⊢ <;> omega

theorem physOf_lt {s : MemState} {v x : Nat} (h : s.physOf v = some x) : x < 2 ^ 52 := by
  obtain ⟨t, ht, rfl⟩ := Option.map_eq_some_iff.mp h
  obtain ⟨r, hr, rfl⟩ := Option.map_eq_some_iff.mp ht
  have hpage := leafPage_lt r.1 (Tree.walkFrom_length_lt hr)
  have hoff := Nat.mod_lt v (by decide : 0 < pageSize)
  simp only [pageSize] at hoff ⊢
  omega

/-! ## The loop of `map_pages` -/

section Loop

variable {s : MemState} {v p n i : Nat} {flags : PagingFlags}

/-- One turn: the page is mapped, and no other translation changes. -/
theorem mapPages_step (flags : PagingFlags) (hd : DistinctTables s)
    (hc : NoLargePage s (v + i * pageSize)) (hp : p + i * pageSize < 2 ^ 52) :
    let r := s.mapPage (u64 (v + u64 (i * pageSize))) (u64 (p + u64 (i * pageSize))) flags
    DistinctTables r.2 ∧ Grows s r.2 ∧
      (∀ v', pageBits v' ≠ pageBits (v + i * pageSize) → r.2.translate v' = s.translate v') ∧
      (r.1 = true → ∃ e, r.2.translate (v + i * pageSize) =
        some ⟨(p + i * pageSize) / pageSize, e⟩) := by
  have hbits : pageBits (u64 (v + u64 (i * pageSize))) = pageBits (v + i * pageSize) := by
    rw [pageBits_u64]
    simp only [pageBits, u64]
    omega
  have hoff : u64 (i * pageSize) = i * pageSize := u64_of_lt (by omega)
  have haddr : u64 (p + u64 (i * pageSize)) = p + i * pageSize := by
    rw [hoff, u64_of_lt (by omega)]
  rw [haddr]
  generalize u64 (v + u64 (i * pageSize)) = a at *
  have hc' : NoLargePage s a := noLargePage_of_pageBits hbits.symm hc
  obtain ⟨hmap, hd', hother⟩ := mapPage_translate hd hc' hp flags
  have hG : Grows s (s.mapPage a (p + i * pageSize) flags).2 :=
    (mapPage_spec (fun _ hq => hq) hd.sound (path_length a) hc').2.1
  refine ⟨hd', hG, fun v' hv' => hother v' (by rwa [hbits]), fun hr => ?_⟩
  obtain ⟨e, he, -⟩ := hmap hr
  rw [translate_of_pageBits hbits.symm, he]
  exact ⟨e, by rw [Nat.shiftRight_eq_div_pow]; rfl⟩

/-- All pages were mapped if the loop returns true. A page that no later one of the range coincides
with is mapped as asked, and pages outside the range are left alone. -/
theorem mapPagesLoop_spec {success : Bool} (hd : DistinctTables s)
    (hc : ∀ j, i ≤ j → j < i + n → NoLargePage s (v + j * pageSize))
    (hp : ∀ j, i ≤ j → j < i + n → p + j * pageSize < 2 ^ 52)
    (hr : (MemState.mapPagesLoop v p flags n i s success).1 = true) :
    let s' := (MemState.mapPagesLoop v p flags n i s success).2
    success = true ∧
      (∀ v', (∀ j, i ≤ j → j < i + n → pageBits v' ≠ pageBits (v + j * pageSize)) →
        s'.translate v' = s.translate v') ∧
      ∀ j, i ≤ j → j < i + n →
        (∀ j', j < j' → j' < i + n → pageBits (v + j * pageSize) ≠ pageBits (v + j' * pageSize)) →
        ∃ e, s'.translate (v + j * pageSize) = some ⟨(p + j * pageSize) / pageSize, e⟩ := by
  induction n generalizing s i success with
  | zero => exact ⟨hr, fun _ _ => rfl, fun j h1 h2 => by omega⟩
  | succ n ih =>
    obtain ⟨hd₁, hG, hother, hself⟩ := mapPages_step flags hd (hc i (by omega) (by omega))
      (hp i (by omega) (by omega))
    simp only [MemState.mapPagesLoop] at hr ⊢
    generalize s.mapPage (u64 (v + u64 (i * pageSize))) (u64 (p + u64 (i * pageSize))) flags = r at *
    obtain ⟨hand, hout, hin⟩ := ih (i := i + 1) hd₁
      (fun j h1 h2 => hG.noLargePage (hc j (by omega) (by omega)))
      (fun j h1 h2 => hp j (by omega) (by omega)) hr
    obtain ⟨hmapped, hsucc⟩ := Bool.and_eq_true_iff.mp hand
    refine ⟨hsucc, fun v' hv' => ?_, fun j h1 h2 hlast => ?_⟩
    · rw [hout v' fun j h1 h2 => hv' j (by omega) (by omega), hother v' (hv' i (by omega) (by omega))]
    · rcases Nat.eq_or_lt_of_le h1 with rfl | hlt
      · rw [hout _ fun j' h1 h2 => hlast j' (by omega) (by omega)]
        exact hself hmapped
      · exact hin j (by omega) (by omega) fun j' h1 h2 => hlast j' h1 (by omega)

end Loop

/-! ## `map_pages` -/

/-- Two addresses less than `2 ^ 48` bytes apart are in the same page only if they are next to each
other. -/
theorem pageBits_add_inj {v j j' : Nat} (h : j < j' + 2 ^ 36) (h' : j' < j + 2 ^ 36)
    (he : pageBits (v + j * pageSize) = pageBits (v + j' * pageSize)) : j = j' := by
  simp only [pageBits, pageSize] at he
  omega

/-- Byte `k` of a range lies in page `(v % PAGE_SIZE + k) / PAGE_SIZE` of it. -/
theorem pageBits_add (v k : Nat) :
    pageBits (v + k) = pageBits (v + (v % pageSize + k) / pageSize * pageSize) := by
  simp only [pageBits, pageSize]
  omega

/-- Where `v + k` translates to, if the page `j` of the range is mapped as asked. -/
theorem physOf_add {s : MemState} {v p k j : Nat} {e : PageTableEntry}
    (ho : v % pageSize = p % pageSize) (hj : j = (v % pageSize + k) / pageSize)
    (h : s.translate (v + j * pageSize) = some ⟨(p + j * pageSize) / pageSize, e⟩) :
    s.physOf (v + k) = some (p + k) := by
  rw [MemState.physOf, translate_of_pageBits (pageBits_add v k), ← hj, h, Option.map_some]
  congr 1
  simp only [pageSize] at ho hj ⊢
  omega

/-- Bytes that are `2 ^ 48` apart translate to the same page. -/
theorem span_lt_of_physOf {s : MemState} {v p k : Nat}
    (h : ∀ k' ≤ k, s.physOf (v + k') = some (p + k')) : v % pageSize + k < 2 ^ 48 := by
  by_contra hk
  have hoff := Nat.mod_lt v (by decide : 0 < pageSize)
  -- The first byte of the page that coincides with the page of `v`.
  obtain ⟨k₁, hk₁⟩ : ∃ k₁, v % pageSize + k₁ = 2 ^ 48 :=
    ⟨2 ^ 48 - v % pageSize, by simp only [pageSize] at hoff ⊢; omega⟩
  obtain ⟨t, ht, hp⟩ := Option.map_eq_some_iff.mp (h 0 (Nat.zero_le k))
  obtain ⟨t', ht', hp'⟩ := Option.map_eq_some_iff.mp (h k₁ (by omega))
  have hsame : s.translate (v + k₁) = s.translate (v + 0) := by
    refine translate_of_pageBits ?_
    simp only [pageBits, pageSize] at hk₁ ⊢
    omega
  rw [hsame, ht] at ht'
  obtain rfl := Option.some.inj ht'
  simp only [pageSize] at hp hp' hk₁ hoff
  omega

/-- What a call that returns true does to a range that fits into both address spaces. -/
theorem physOf_mapPages {s : MemState} {v p size k : Nat} {flags : PagingFlags}
    (hd : DistinctTables s)
    (hc : ∀ j < divideRoundUp size pageSize, NoLargePage s (v + j * pageSize))
    (ho : v % pageSize = p % pageSize) (hr : (s.mapPages v p flags size).1 = true)
    (hfit : ∀ k < size, p + k < 2 ^ 52 ∧ v % pageSize + k < 2 ^ 48) (hk : k < size) :
    (s.mapPages v p flags size).2.physOf (v + k) =
      if divideRoundUp size pageSize * pageSize ≤ v % pageSize + k then s.physOf (v + k)
      else some (p + k) := by
  have hlast := hfit (size - 1) (by omega)
  have hreq : divideRoundUp size pageSize = (size + pageSize - 1) / pageSize :=
    divideRoundUp_eq (by decide) (by simp only [pageSize]; omega)
  rw [MemState.mapPages] at hr ⊢
  obtain ⟨n, hn⟩ : ∃ n, n = divideRoundUp size pageSize := ⟨_, rfl⟩
  rw [← hn] at hc hr hreq ⊢
  obtain ⟨j, hj⟩ : ∃ j, j = (v % pageSize + k) / pageSize := ⟨_, rfl⟩
  have hin : ∀ {j'}, j' < n → j' * pageSize < size := fun h => by
    simp only [pageSize] at hreq ⊢
    omega
  have hj48 : j < 2 ^ 36 := by
    have := (hfit k hk).2
    simp only [pageSize] at hj this
    omega
  have hn48 : n ≤ 2 ^ 36 := by
    simp only [pageSize] at hreq hlast
    omega
  obtain ⟨-, hout, hmapped⟩ := mapPagesLoop_spec hd (fun j' _ h => hc j' (by omega))
    (fun j' _ h => (hfit _ (hin (by omega))).1) hr
  by_cases hle : n * pageSize ≤ v % pageSize + k
  · -- The page is behind the mapped ones.
    have hjn : n ≤ j := hj ▸ (Nat.le_div_iff_mul_le (by decide)).mpr hle
    rw [if_pos hle, MemState.physOf, MemState.physOf, hout]
    intro j' _ hj' he
    rw [pageBits_add, ← hj] at he
    have := pageBits_add_inj (by omega) (by omega) he
    omega
  · have hjn : j < n := hj ▸ (Nat.div_lt_iff_lt_mul (by decide)).mpr (Nat.lt_of_not_le hle)
    rw [if_neg hle]
    obtain ⟨e, he⟩ := hmapped j (Nat.zero_le j) (by omega) fun j' h1 h2 he => by
      have := pageBits_add_inj (by omega) (by omega) he
      omega
    exact physOf_add ho hj he

/-- `map_pages` over page tables that are pairwise distinct used pages without large pages maps the
bytes of the range as asked exactly if the range fits into the physical and the virtual address
space and the bytes behind its first `requiredPages` pages were mapped so before. -/
theorem mapPages_translates_iff {s : MemState} {v p size : Nat} {flags : PagingFlags}
    (hd : DistinctTables s)
    (hc : ∀ j < divideRoundUp size pageSize, NoLargePage s (v + j * pageSize))
    (ho : v % pageSize = p % pageSize) (hr : (s.mapPages v p flags size).1 = true) :
    (∀ k < size, (s.mapPages v p flags size).2.physOf (v + k) = some (p + k)) ↔
      ∀ k < size, p + k < 2 ^ 52 ∧ v % pageSize + k < 2 ^ 48 ∧
        (divideRoundUp size pageSize * pageSize ≤ v % pageSize + k →
          s.physOf (v + k) = some (p + k)) := by
  constructor
  · intro h
    have hfit : ∀ k < size, p + k < 2 ^ 52 ∧ v % pageSize + k < 2 ^ 48 := fun k hk =>
      ⟨physOf_lt (h k hk), span_lt_of_physOf fun k' hk' => h k' (by omega)⟩
    refine fun k hk => ⟨(hfit k hk).1, (hfit k hk).2, fun hle => ?_⟩
    rw [← h k hk, physOf_mapPages hd hc ho hr hfit hk, if_pos hle]
  · intro h k hk
    rw [physOf_mapPages hd hc ho hr (fun k hk => ⟨(h k hk).1, (h k hk).2.1⟩) hk]
    split
    · exact (h k hk).2.2 ‹_›
    · rfl

/-! ## A range across a page boundary -/

/-- Page 1 is an empty PML4. Pages 2 to 7 are free. -/
def emptyTables : MemState where
  pmm := ⟨fun _ => 0b00000011, 8⟩
  vmm := ⟨fun _ => 0, 8⟩
  tables _ _ := .zero
  root := 1
  hhdmOffset := 0
  pmm_le := oneByte_le
  vmm_le := oneByte_le

theorem emptyTables_tableAt {π : List Index} {t : Nat} (h : emptyTables.tableAt π = some t) :
    π = [] ∧ t = 1 := by
  cases π with
  | nil => cases h; exact ⟨rfl, rfl⟩
  | cons i π => cases h

theorem emptyTables_distinct : DistinctTables emptyTables where
  distinct h h' := (emptyTables_tableAt h).1.trans (emptyTables_tableAt h').1.symm
  used h := by
    rw [(emptyTables_tableAt h).2]
    decide

theorem emptyTables_sound (V : Set (List Index)) : Sound V emptyTables where
  owned := {
    unique := fun _ _ h h' => (emptyTables_tableAt h').1.trans (emptyTables_tableAt h).1.symm
    depth := fun _ h _ => by rw [(emptyTables_tableAt h).1]; exact Nat.zero_le _ }
  taken h hf := by
    rw [(emptyTables_tableAt h).2] at hf
    exact absurd hf.2 (by decide)

/-- Two bytes, the last of a page and the first of the next: the second is not mapped. -/
theorem emptyTables_mapPages : (emptyTables.mapPages 0x1fff 0x9fff pageFlagWrite 2).1 = true ∧
    (emptyTables.mapPages 0x1fff 0x9fff pageFlagWrite 2).2.physOf (0x1fff + 1) = none := by
  decide +kernel

theorem emptyTables_noLargePage (v : Nat) : NoLargePage emptyTables v :=
  fun _ _ _ _ _ _ => rfl

/-- Two bytes of one page. -/
theorem emptyTables_mapPages_inside :
    (emptyTables.mapPages 0x1ffe 0x9ffe pageFlagWrite 2).2.physOf (0x1ffe + 1) =
      some (0x9ffe + 1) := by
  have hr : (emptyTables.mapPages 0x1ffe 0x9ffe pageFlagWrite 2).1 = true := by decide +kernel
  have hone : divideRoundUp 2 pageSize = 1 := by decide
  refine (mapPages_translates_iff emptyTables_distinct (fun j _ => emptyTables_noLargePage _)
    (by decide) hr).mpr (fun k hk => ⟨by omega, ?_, fun hle => ?_⟩) 1 (by decide)
  · simp only [pageSize]
    omega
  · rw [hone] at hle
    simp only [pageSize] at hle
    omega

end EszOs
