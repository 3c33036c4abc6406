import EszOs.Memory.PageRanges
import EszOs.Memory.PageWalk
import EszOs.Memory.Supply
import EszOs.Memory.VmmCore

/-!
# When a failing `vmm_malloc_pages` leaves no trace

`vmm_malloc_pages` undoes nothing but the bits of `vmm_bitmap`, and those only when the PMM has no
data page left. So a failing call leaves no trace exactly if it took nothing at all
(`leavesNoTrace_iff`): there was no free run, or not even one free physical page. In the remaining
states the call must not fail. Over page tables that the region owns that is a matter of counting:
one page for each page of the range and one for each missing table (`supplied_iff`,
`vmmMallocPages_rollback`).
-/

namespace EszOs

open Bytes Radix

/-! ## The call, step by step -/

/-- The physical pages that the loop of `vmm_malloc_pages` takes as data pages. -/
def dataPages (pageRangeBegin : Nat) : Nat → Nat → MemState → List Nat
  | 0, _, _ => []
  | n + 1, i, s =>
    match pmmMallocPage s.pmm with
    | none => []
    | some (currPhysAddr, bits) =>
      currPhysAddr / pageSize :: dataPages pageRangeBegin n (i + 1)
        ((s.setPmm bits).mapPage (vmmPageAddr (pageRangeBegin + i)) currPhysAddr pageFlagWrite).2

/-- The data pages that `vmm_malloc_pages(byteAmount)` takes. -/
def MemState.takenPages (s : MemState) (byteAmount : Nat) : List Nat :=
  let r := s.vmm.findFreeRange (reqPages byteAmount)
  if r.2 = false then []
  else dataPages r.1 (reqPages byteAmount) 0 (s.reserve (reqPages byteAmount) r.1)

/-- From page `i` on, `pmm_malloc_page` and `map_page` succeed for each of `n` pages. -/
def Supplied (pageRangeBegin : Nat) : Nat → Nat → MemState → Prop
  | 0, _, _ => True
  | n + 1, i, s => ∃ addr bits, pmmMallocPage s.pmm = some (addr, bits) ∧
      ((s.setPmm bits).mapPage (vmmPageAddr (pageRangeBegin + i)) addr pageFlagWrite).1 = true ∧
      Supplied pageRangeBegin n (i + 1)
        ((s.setPmm bits).mapPage (vmmPageAddr (pageRangeBegin + i)) addr pageFlagWrite).2

/-- `vmm_bitmap` and the translations of the region are those of `s`, and the data pages are free. -/
structure RolledBack (s s' : MemState) (taken : List Nat) : Prop where
  vmm : s'.vmm = s.vmm
  data : ∀ p ∈ taken, s'.pmm.Free p
  region : ∀ k < s.vmm.count, s'.translate (vmmPageAddr k) = s.translate (vmmPageAddr k)

theorem mallocLoop_true_iff {b n i : Nat} {s : MemState} (req : Nat) (success : Bool) :
    (s.vmmMallocLoop req b n i success).1 = true ↔ success = true ∧ Supplied b n i s := by
  induction n generalizing s i success with
  | zero => simp [MemState.vmmMallocLoop, Supplied]
  | succ n ih =>
    simp only [MemState.vmmMallocLoop, Supplied]
    cases hm : pmmMallocPage s.pmm with
    | none => simp
    | some q =>
      obtain ⟨addr, bits⟩ := q
      simp only [ih, Bool.and_eq_true_iff, Option.some.injEq, Prod.mk.injEq]
      constructor
      · rintro ⟨⟨hok, hs⟩, hsup⟩
        exact ⟨hs, addr, bits, ⟨rfl, rfl⟩, hok, hsup⟩
      · rintro ⟨hs, _, _, ⟨rfl, rfl⟩, hok, hsup⟩
        exact ⟨⟨hok, hs⟩, hsup⟩

/-! ## Pages in use stay in use -/

theorem getOrCreateNextTable_bits {s : MemState} {a p : Nat} {i : Index}
    (h : bitRead s.pmm.bitmap p = true) :
    bitRead (s.getOrCreateNextTable a i).2.pmm.bitmap p = true := by
  unfold MemState.getOrCreateNextTable
  split
  · exact h
  · cases hm : pmmMallocPage s.pmm with
    | none => exact h
    | some q =>
      obtain ⟨addr, bits⟩ := q
      obtain ⟨d, -, -, -, hbits⟩ := pmmMallocPage_some hm
      have : bitRead bits p = true := by rw [hbits, h, Bool.or_true]
      exact this

theorem nextTables_bits {s : MemState} {a p : Nat} {is : List Index}
    (h : bitRead s.pmm.bitmap p = true) : bitRead (nextTables s a is).2.pmm.bitmap p = true := by
  induction is generalizing s a with
  | nil => exact h
  | cons i is ih =>
    simp only [nextTables]
    split
    · exact getOrCreateNextTable_bits h
    · exact ih (getOrCreateNextTable_bits h)

theorem mapPage_bits {s : MemState} {v a p : Nat} {flags : PagingFlags}
    (h : bitRead s.pmm.bitmap p = true) :
    bitRead (s.mapPage v a flags).2.pmm.bitmap p = true := by
  have hw : bitRead (s.pageWalk v).2.pmm.bitmap p = true := by
    rw [pageWalk_eq]
    exact nextTables_bits h
  unfold MemState.mapPage
  generalize s.pageWalk v = w at hw ⊢
  obtain ⟨_ | ⟨t, i⟩, s₁⟩ := w <;> exact hw

theorem mapPage_freePages_subset (s : MemState) (v a : Nat) (flags : PagingFlags) :
    (s.mapPage v a flags).2.pmm.freePages ⊆ s.pmm.freePages := by
  intro p hp
  rw [Bitmap.mem_freePages] at hp ⊢
  refine (nextTables_keeps s s.getStartOfTree (lastTable v)).2.1 p ?_
  have hwalk : (s.pageWalk v).2 = (nextTables s s.getStartOfTree (lastTable v)).2 := by
    rw [pageWalk_eq]
  rw [← hwalk]
  unfold MemState.mapPage at hp
  generalize s.pageWalk v = w at hp ⊢
  obtain ⟨_ | ⟨t, i⟩, s₁⟩ := w <;> exact hp

theorem mallocLoop_bits {req b n i p : Nat} {s : MemState} {success : Bool}
    (h : bitRead s.pmm.bitmap p = true) :
    bitRead (s.vmmMallocLoop req b n i success).2.pmm.bitmap p = true := by
  induction n generalizing s i success with
  | zero => exact h
  | succ n ih =>
    simp only [MemState.vmmMallocLoop]
    cases hm : pmmMallocPage s.pmm with
    | none => exact h
    | some q =>
      obtain ⟨addr, bits⟩ := q
      obtain ⟨d, -, -, -, hbits⟩ := pmmMallocPage_some hm
      have : bitRead bits p = true := by rw [hbits, h, Bool.or_true]
      exact ih (mapPage_bits this)

/-! ## When a failing call leaves no trace -/

/-- What a call that returns 0 promises. -/
def LeavesNoTrace (s : MemState) (n : Nat) : Prop :=
  (s.vmmMallocPages n).1 = 0 → RolledBack s (s.vmmMallocPages n).2 (s.takenPages n)

/-- The call takes nothing: there is no run of free virtual pages, or no free physical page. -/
def TakesNothing (s : MemState) (n : Nat) : Prop :=
  (reqPages n = 0 ∨ ∀ p, ¬ s.vmm.FreeRun (reqPages n) p) ∨ ∀ p, ¬ s.pmm.Free p

/-- The call returns an address: the range from page `b` is supplied and does not start at 0. -/
def Succeeds (s : MemState) (req b : Nat) : Prop :=
  Supplied b req 0 (s.reserve req b) ∧ vmmPageAddr b ≠ 0

theorem takenPages_found {s : MemState} {n b : Nat}
    (h : s.vmm.findFreeRange (reqPages n) = (b, true)) :
    s.takenPages n = dataPages b (reqPages n) 0 (s.reserve (reqPages n) b) := by
  simp only [MemState.takenPages, h, Bool.true_eq_false, ↓reduceIte]

theorem vmmMallocPages_ne_zero {s : MemState} {n b : Nat}
    (h : s.vmm.findFreeRange (reqPages n) = (b, true)) :
    (s.vmmMallocPages n).1 ≠ 0 ↔ Succeeds s (reqPages n) b := by
  have hloop := mallocLoop_true_iff (b := b) (n := reqPages n) (i := 0)
    (s := s.reserve (reqPages n) b) (reqPages n) true
  simp only [vmmMallocPages_found h, Succeeds]
  split
  · rename_i ht
    simp only [(hloop.mp ht).2, true_and]
  · rename_i hf
    rw [hloop] at hf
    simp only [true_and] at hf
    simp [hf]

/-- Setting the bits of a free run and clearing them again gives the bitmap back. -/
theorem writeBits_undo {b : Bitmap} {range startBit : Nat} (hrun : b.FreeRun range startBit)
    (hb : b.count < 2 ^ 64) :
    (b.writeBitsInRangeFrom range startBit true).writeBitsInRangeFrom range startBit false = b := by
  have hle := hrun.1
  have hbits : ((b.writeBitsInRangeFrom range startBit true).writeBitsInRangeFrom range startBit
      false).bitmap = b.bitmap := by
    refine ext_bitRead fun q => ?_
    rw [Bitmap.bitRead_writeBitsInRangeFrom q (by omega),
      Bitmap.bitRead_writeBitsInRangeFrom q (by omega)]
    split
    · rename_i h
      exact (hrun.2 q h.1 h.2).symm
    · rfl
  exact congrArg (Bitmap.mk · b.count) hbits

/-- Without a first data page the loop clears the bits again. -/
theorem rolledBack_of_noPage {s : MemState} {n b : Nat}
    (hf : s.vmm.findFreeRange (reqPages n) = (b, true)) (hpage : pmmMallocPage s.pmm = none) :
    RolledBack s (s.vmmMallocPages n).2 (s.takenPages n) := by
  obtain ⟨hpos, hrun, -⟩ := Bitmap.findFreeRange_some hf
  obtain ⟨m, hm⟩ : ∃ m, reqPages n = m + 1 := ⟨reqPages n - 1, by omega⟩
  have hres : (s.reserve (reqPages n) b).pmm = s.pmm := rfl
  have hcall : s.vmmMallocPages n = (0, { s.reserve (reqPages n) b with
      vmm := (s.reserve (reqPages n) b).vmm.writeBitsInRangeFrom (reqPages n) b false }) := by
    rw [vmmMallocPages_found hf, hm]
    simp [MemState.vmmMallocLoop, hm ▸ hres, hpage]
  have hundo := writeBits_undo hrun (Nat.lt_of_le_of_lt s.vmm_le (by decide))
  rw [hcall]
  refine ⟨hundo, ?_, fun _ _ => rfl⟩
  rw [takenPages_found hf, hm]
  simp [dataPages, hm ▸ hres, hpage]

/-- The first data page is in use for good. -/
theorem taken_not_free {s : MemState} {n b : Nat} {q : Nat × Mem}
    (hf : s.vmm.findFreeRange (reqPages n) = (b, true)) (hpage : pmmMallocPage s.pmm = some q) :
    ∃ d ∈ s.takenPages n, ¬ (s.vmmMallocPages n).2.pmm.Free d := by
  obtain ⟨hpos, -, -⟩ := Bitmap.findFreeRange_some hf
  obtain ⟨m, hm⟩ : ∃ m, reqPages n = m + 1 := ⟨reqPages n - 1, by omega⟩
  obtain ⟨addr, bits⟩ := q
  obtain ⟨d, rfl, -, -, -, hbits⟩ := pmmMallocPage_page hpage
  refine ⟨d, ?_, fun hfree => ?_⟩
  · rw [takenPages_found hf, hm]
    simp only [dataPages, MemState.reserve, hpage, page_div]
    exact List.mem_cons_self
  · have hloop : bitRead ((s.reserve (reqPages n) b).vmmMallocLoop (reqPages n) b
        (reqPages n) 0 true).2.pmm.bitmap d = true := by
      have hbit : bitRead bits d = true := by rw [hbits]; simp
      simp only [hm, MemState.vmmMallocLoop, MemState.reserve, hpage]
      exact mallocLoop_bits (mapPage_bits hbit)
    have hused : bitRead (s.vmmMallocPages n).2.pmm.bitmap d = true := by
      simp only [vmmMallocPages_found hf]
      split <;> exact hloop
    rw [hfree.2] at hused
    cases hused

/-- A failing call leaves no trace exactly if it took nothing; otherwise it must not fail. -/
theorem leavesNoTrace_iff {s : MemState} {n : Nat} :
    LeavesNoTrace s n ↔ TakesNothing s n ∨
      ∃ b, s.vmm.findFreeRange (reqPages n) = (b, true) ∧ Succeeds s (reqPages n) b := by
  rw [TakesNothing, or_assoc, LeavesNoTrace]
  cases hf : s.vmm.findFreeRange (reqPages n) with
  | mk b found =>
    cases found with
    | false =>
      have hnone := Bitmap.findFreeRange_none (b := s.vmm) (by rw [hf])
      have hcall := vmmMallocPages_notFound (s := s) (n := n) (by rw [hf])
      refine iff_of_true (fun _ => ?_) (.inl hnone)
      rw [hcall]
      exact ⟨rfl, by simp [MemState.takenPages, hf], fun _ _ => rfl⟩
    | true =>
      obtain ⟨hpos, hrun, -⟩ := Bitmap.findFreeRange_some hf
      have hsome : ¬ (reqPages n = 0 ∨ ∀ p, ¬ s.vmm.FreeRun (reqPages n) p) := by
        rintro (h | h)
        · omega
        · exact h b hrun
      have hex : (∃ b', (b, true) = (b', true) ∧ Succeeds s (reqPages n) b') ↔
          Succeeds s (reqPages n) b :=
        ⟨fun ⟨b', he, h⟩ => by rwa [(Prod.mk.inj he).1], fun h => ⟨b, rfl, h⟩⟩
      rw [or_iff_right hsome, hex, ← vmmMallocPages_ne_zero hf]
      cases hpage : pmmMallocPage s.pmm with
      | none =>
        exact iff_of_true (fun _ => rolledBack_of_noPage hf hpage)
          (.inl fun p => pmmMallocPage_none hpage p)
      | some q =>
        obtain ⟨d, -, -, hfree, -, -⟩ := pmmMallocPage_page hpage
        rw [or_iff_right fun h => h d hfree]
        refine ⟨fun h h0 => ?_, fun h h0 => absurd h0 h⟩
        obtain ⟨d', hd, hused⟩ := taken_not_free hf hpage
        exact hused ((h h0).data d' hd)

/-! ## Counting the pages a range needs -/

/-- The paths of the tables below the root for `n` pages from page `k` on. -/
def rangeTables : Nat → Nat → Finset (List Index)
  | _, 0 => ∅
  | k, n + 1 => tablePaths (vmmPageAddr k) ∪ rangeTables (k + 1) n

theorem part_of_rangeTables {count k n : Nat} (h : k + n ≤ count) :
    ∀ π ∈ rangeTables k n, Part (vmmPaths count) π := by
  induction n generalizing k with
  | zero => simp [rangeTables]
  | succ n ih =>
    intro π hπ
    rcases Finset.mem_union.mp hπ with hπ | hπ
    · exact part_of_mem_pathsAlong (path_mem_vmmPaths (by omega)) (List.prefix_refl _) π hπ
    · exact ih (by omega) π hπ

/-- What one turn of the loop needs: a data page, and a page for each missing table. -/
theorem mapStep_supplies {V : Set (List Index)} {s : MemState} {v addr : Nat} {bits : Mem}
    (hV : ∀ q ∈ V, q.length = 4) (hS : Sound V s) (hv : path v ∈ V) (hc : NoLargePage s v)
    (hm : pmmMallocPage s.pmm = some (addr, bits)) :
    let r := (s.setPmm bits).mapPage v addr pageFlagWrite
    Sound V r.2 ∧ Grows s r.2 ∧ (∀ π, r.2.tableAt π = some 0 → s.tableAt π = some 0) ∧
      (r.1 = true ↔ missing s (tablePaths v) + 1 ≤ s.pmm.freePages.card ∧
        ∀ π ∈ tablePaths v, s.tableAt π ≠ some 0) ∧
      (r.1 = true → Supplies V s r.2 (tablePaths v) 1) := by
  intro r
  obtain ⟨d, rfl, -, hfree, hfirst, hbits⟩ := pmmMallocPage_page hm
  have hcard : (s.setPmm bits).pmm.freePages.card + 1 = s.pmm.freePages.card := freePages_mallocPage hm
  have hG₀ : Grows s (s.setPmm bits) :=
    ⟨rfl, rfl, rfl, fun h => by simp only [MemState.setPmm, hbits, h, Bool.or_true], id, .inl, id⟩
  have hS₀ : Sound V (s.setPmm bits) := ⟨hS.owned, hG₀.taken hS.taken⟩
  -- The data page is the first free one, so page 0 is in use from then on.
  have h0 : ¬ (s.setPmm bits).pmm.Free 0 := fun hf => by
    rcases Nat.eq_zero_or_pos d with rfl | hpos
    · have := hf.2
      simp only [MemState.setPmm, hbits] at this
      simp at this
    · exact hfirst 0 hpos (hG₀.free hf)
  obtain ⟨hS', hG, -, -⟩ := mapPage_spec (p := d * pageSize) hV hS₀ hv hc
  obtain ⟨hres, hwalk⟩ := mapPage_supplies (p := d * pageSize) hV hS₀ hv hc
  have hsup : r.1 = true → Supplies V s r.2 (tablePaths v) 1 := fun hr => by
    have hcost : r.2.pmm.freePages.card + missing s (tablePaths v) + 0 =
        (s.setPmm bits).pmm.freePages.card := (hwalk hr).1.cost
    exact ⟨by omega, (hwalk hr).1.tables⟩
  refine ⟨hS', hG₀.trans hG, fun π h => (hG.new h).resolve_right fun hf => h0 hf.1,
    ⟨fun hr => ⟨?_, (hwalk hr).2⟩, fun hroom => ?_⟩, hsup⟩
  · have := (hsup hr).cost
    omega
  · have hcost : missing (s.setPmm bits) (tablePaths v) ≤ (s.setPmm bits).pmm.freePages.card := by
      show missing s (tablePaths v) ≤ _
      have hneed := hroom.1
      omega
    exact hres.mpr (pageWalk_isSome hS₀ hv hc hcost hroom.2 h0)

/-- Over page tables that the region owns, a range is supplied exactly if the free pages are enough
for its pages and its missing tables, and none of its tables is page 0. -/
theorem supplied_iff {b n i : Nat} {s : MemState} (hS : Sound (vmmPaths s.vmm.count) s)
    (hc : ∀ k < s.vmm.count, NoLargePage s (vmmPageAddr k)) (hb : b + i + n ≤ s.vmm.count) :
    Supplied b n i s ↔ n + missing s (rangeTables (b + i) n) ≤ s.pmm.freePages.card ∧
      ∀ π ∈ rangeTables (b + i) n, s.tableAt π ≠ some 0 := by
  induction n generalizing s i with
  | zero => simp [Supplied, rangeTables, missing]
  | succ n ih =>
    have hk : b + i < s.vmm.count := by omega
    have hsub : missing s (tablePaths (vmmPageAddr (b + i))) ≤
        missing s (rangeTables (b + i) (n + 1)) :=
      Finset.card_le_card (Finset.filter_subset_filter _ Finset.subset_union_left)
    simp only [Supplied]
    cases hm : pmmMallocPage s.pmm with
    | none =>
      rw [freePages_eq_empty hm, Finset.card_empty]
      refine iff_of_false (by simp) fun h => ?_
      omega
    | some q =>
      obtain ⟨addr, bits⟩ := q
      obtain ⟨hS', hG, hold, hok, hsup⟩ :=
        mapStep_supplies vmmPaths_length hS (path_mem_vmmPaths hk) (hc _ hk) hm
      simp only [Option.some.injEq, Prod.mk.injEq, exists_and_left, exists_eq_left', and_assoc]
      generalize (s.setPmm bits).mapPage (vmmPageAddr (b + i)) addr pageFlagWrite = r at *
      obtain ⟨ok, s'⟩ := r
      simp only at hS' hG hold hok hsup ⊢
      have hvmm := hG.vmm
      have ih' := ih (s := s') (i := i + 1) (by rwa [hvmm])
        (fun k hk => hG.noLargePage (hc k (hvmm ▸ hk))) (by rw [hvmm]; omega)
      have hK : ∀ π ∈ rangeTables (b + i + 1) n, Part (vmmPaths s.vmm.count) π :=
        part_of_rangeTables (by omega)
      rw [show b + (i + 1) = b + i + 1 by omega] at ih'
      rw [ih', rangeTables]
      constructor
      · rintro ⟨rfl, hcost, hzero⟩
        have hsum := (hsup rfl).missing_union hK
        have hone := (hsup rfl).cost
        refine ⟨by omega, fun π hπ h => ?_⟩
        rcases Finset.mem_union.mp hπ with hπ | hπ
        · exact (hok.mp rfl).2 π hπ h
        · exact hzero π hπ (hG.old h)
      · rintro ⟨hcost, hzero⟩
        rw [rangeTables] at hsub
        obtain rfl : ok = true := hok.mpr ⟨by omega, fun π hπ =>
          hzero π (Finset.mem_union_left _ hπ)⟩
        have hsum := (hsup rfl).missing_union hK
        have hone := (hsup rfl).cost
        exact ⟨rfl, by omega, fun π hπ h => hzero π (Finset.mem_union_right _ hπ) (hold π h)⟩

/-- A supplied range has a free physical page for each of its pages. -/
theorem supplied_le {b n i : Nat} {s : MemState} (h : Supplied b n i s) :
    n ≤ s.pmm.freePages.card := by
  induction n generalizing s i with
  | zero => exact Nat.zero_le _
  | succ n ih =>
    obtain ⟨addr, bits, hm, -, hrest⟩ := h
    have hdata : (s.setPmm bits).pmm.freePages.card + 1 = s.pmm.freePages.card :=
      freePages_mallocPage hm
    have htables := Finset.card_le_card (mapPage_freePages_subset (s.setPmm bits)
      (vmmPageAddr (b + i)) addr pageFlagWrite)
    have := ih hrest
    omega

/-- The free physical pages are enough for the range of `n` pages that is found, and for its missing
tables; none of its tables is page 0, and it does not start at address 0. -/
structure Affords (s : MemState) (n b : Nat) : Prop where
  found : s.vmm.findFreeRange n = (b, true)
  pages : n + missing s (rangeTables b n) ≤ s.pmm.freePages.card
  tables : ∀ π ∈ rangeTables b n, s.tableAt π ≠ some 0
  address : vmmPageAddr b ≠ 0

/-- A failing call that takes nothing leaves no trace, in every state. One that can take a page
leaves a trace unless the range found has a page for each of its pages; over page tables that the
region owns, without large pages, exactly unless the free pages are enough for the missing tables
too. -/
theorem vmmMallocPages_rollback (s : MemState) (n : Nat) :
    (TakesNothing s n → LeavesNoTrace s n) ∧
    (LeavesNoTrace s n → TakesNothing s n ∨ ∃ b, s.vmm.findFreeRange (reqPages n) = (b, true) ∧
      reqPages n ≤ s.pmm.freePages.card ∧ vmmPageAddr b ≠ 0) ∧
    (Sound (vmmPaths s.vmm.count) s → (∀ k < s.vmm.count, NoLargePage s (vmmPageAddr k)) →
      (LeavesNoTrace s n ↔ TakesNothing s n ∨ ∃ b, Affords s (reqPages n) b)) := by
  refine ⟨fun h => leavesNoTrace_iff.mpr (.inl h), fun h => ?_, fun hS hc => ?_⟩
  · refine (leavesNoTrace_iff.mp h).imp_right ?_
    rintro ⟨b, hf, hsup, haddr⟩
    exact ⟨b, hf, supplied_le (s := s.reserve (reqPages n) b) hsup, haddr⟩
  · rw [leavesNoTrace_iff]
    refine or_congr_right (exists_congr fun b => ?_)
    have hsup (hf : s.vmm.findFreeRange (reqPages n) = (b, true)) :=
      supplied_iff (s := s.reserve (reqPages n) b) (i := 0) ⟨hS.owned, hS.taken⟩ hc
        (Bitmap.findFreeRange_some hf).2.1.1
    constructor
    · rintro ⟨hf, h, haddr⟩
      obtain ⟨hpages, htables⟩ := (hsup hf).mp h
      exact ⟨hf, hpages, htables, haddr⟩
    · intro h
      exact ⟨h.found, (hsup h.found).mpr ⟨h.pages, h.tables⟩, h.address⟩

/-! ## One free page, and six -/

/-- As `emptyTables`, but only page 2 is free. -/
def scarce : MemState :=
  { emptyTables with
    pmm := ⟨fun _ => 0b11111011, 8⟩
    pmm_le := oneByte_le }

/-- The data page is there and the tables are not: the bit and the page stay taken. -/
theorem scarce_not_rolledBack : ¬ LeavesNoTrace scarce pageSize := by
  intro h
  have hvmm := (h (by decide)).vmm
  have hbit := congrArg (fun b => bitRead b.bitmap 0) hvmm
  exact absurd hbit (by decide)

/-- Two pages and three tables. -/
theorem emptyTables_rolledBack : LeavesNoTrace emptyTables (2 * pageSize) := by
  refine ((vmmMallocPages_rollback emptyTables (2 * pageSize)).2.2 (emptyTables_sound _)
    (fun _ _ => emptyTables_noLargePage _)).mpr (.inr ⟨0, ?_⟩)
  exact ⟨by decide, by decide, by decide, by decide⟩

end EszOs
