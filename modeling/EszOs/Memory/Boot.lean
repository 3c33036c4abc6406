import EszOs.Memory.HeapRuns
import EszOs.Memory.Rollback
import EszOs.Memory.VmmRuns

/-!
# From boot on (`memory/init/memory_init.cpp`)

`memory_init` after the memory map was read: `init_vmm` and `init_heap_alloc`. The results about the
VMM and the heap are put together here for the states that the kernel itself reaches.

* `vmmInv_init`: after `init_vmm` the invariant of the VMM holds.
* `vmm_reachable`: what holds of the live page ranges in every state of every run.
* `memoryInit_heapInv`: the heap starts at `VIRTUAL_OFFSET_VMM` and is one free block.
* `heap_reachable_tiled`, `heap_reachable_payloads`: the same for the heap.
-/

namespace EszOs

open Bytes Blocks Radix

/-- `memory_init`, from the state the memory map left; `m` is the content of virtual memory. -/
def memoryInit (s : MemState) (m : Mem) : Option (MemState × Heap) :=
  match s.initVmm with
  | none => none
  | some s =>
    let r := s.vmmMallocPages initHeapSize
    (initHeapAlloc m r.1).map fun h => (r.2, h)

/-! ## The VMM -/

/-- What `init_vmm` changes. -/
theorem initVmm_some {s s₁ : MemState} (h : s.initVmm = some s₁) :
    s₁.tables = s.tables ∧ s₁.root = s.root ∧ s₁.pmm.count = s.pmm.count ∧
      s₁.vmm.count = s.pmm.count ∧ (∀ p < s₁.vmm.count, bitRead s₁.vmm.bitmap p = false) ∧
      (∀ p, bitRead s.pmm.bitmap p = true → bitRead s₁.pmm.bitmap p = true) ∧
      s₁.pmm.freePages.card + reqPages (divideRoundUp s.pmm.count 8) = s.pmm.freePages.card := by
  unfold MemState.initVmm at h
  split at h
  · cases h
  · cases hm : pmmMalloc s.pmm (divideRoundUp s.pmm.count 8) with
    | none => simp [hm] at h
    | some q =>
      obtain ⟨addr, bits⟩ := q
      simp only [hm] at h
      split at h
      · cases h
      · obtain rfl := Option.some.inj h
        obtain ⟨p, -, -, -, hbits⟩ := pmmMalloc_some rfl hm
        refine ⟨rfl, rfl, rfl, rfl, fun q hq => ?_, fun q hq => ?_, freePages_pmmMalloc rfl hm⟩
        · simp only [Bitmap.clear] at hq ⊢
          rw [bitRead_writeLoop, if_pos (by omega)]
        · simp only [MemState.setPmm, hbits, hq, Bool.or_true]

/-- After `init_vmm` nothing is live and the region is not mapped. -/
theorem vmmInv_init {s s₁ : MemState} (hb : BootTables s) (h : s.initVmm = some s₁) :
    VmmInv s₁ [] := by
  obtain ⟨htables, hroot, hpmm, hvmm, -, hbits, -⟩ := initVmm_some h
  have htree : s₁.tree = s.tree := by simp only [MemState.tree, htables, hroot]
  have hfree : ∀ {t}, s₁.pmm.Free t → s.pmm.Free t := fun {t} hf => by
    refine ⟨hpmm ▸ hf.1, ?_⟩
    cases hb : bitRead s.pmm.bitmap t
    · rfl
    · rw [← hbits t hb]; exact hf.2
  have hnone : ∀ {k}, k < s₁.vmm.count → s₁.backing k = none := fun hk => by
    rw [MemState.backing, MemState.translate, htree]
    exact congrArg (Option.map _) (hb.unmapped (hvmm ▸ hk))
  refine ⟨⟨⟨?_, fun ht hf => ?_⟩, fun hk π i hp hd t ht => ?_, fun hk h => ?_, fun hk h => ?_,
    fun hk _ h => ?_⟩, fun hq => absurd hq List.not_mem_nil, List.Pairwise.nil⟩
  · rw [htree, hvmm]
    exact hb.owned
  · rw [MemState.tableAt, htree] at ht
    exact hb.taken ht (hfree hf)
  · rw [MemState.tableAt, htree] at ht
    rw [htables]
    exact hb.clear (hvmm ▸ hk) π i hp hd t ht
  · rw [hnone hk] at h; cases h
  · rw [hnone hk] at h; cases h
  · rw [hnone hk] at h; cases h

/-- The address of page `j` of an allocation. -/
def pageOf (q : Nat × Nat) (j : Nat) : Nat := u64 (q.1 + j * pageSize)

/-- In every state that `vmm_malloc_pages` and `vmm_free_pages` reach from boot, live ranges share no
page, and their pages are backed by used physical pages, each by its own, and none by a table. -/
theorem vmm_reachable {s₀ s₁ s : MemState} {live : LivePages} (hb : BootTables s₀)
    (hi : s₀.initVmm = some s₁) (hr : VmmReach (s₁, []) (s, live)) :
    live.Pairwise (fun q q' => ∀ j < reqPages q.2, ∀ j' < reqPages q'.2,
        pageBits (pageOf q j) ≠ pageBits (pageOf q' j')) ∧
      (∀ q ∈ live, ∀ j < reqPages q.2, ∃ tr, s.translate (pageOf q j) = some tr ∧
        bitRead s.pmm.bitmap tr.page = true ∧ ∀ π, s.tableAt π ≠ some tr.page) ∧
      ∀ q ∈ live, ∀ j < reqPages q.2, ∀ q' ∈ live, ∀ j' < reqPages q'.2, ∀ tr tr',
        s.translate (pageOf q j) = some tr → s.translate (pageOf q' j') = some tr' →
        tr.page = tr'.page → pageOf q j = pageOf q' j' := by
  have hinv := (vmmInv_init hb hi).reach hr
  simp only at hinv
  have hlt : ∀ {k}, k < s.vmm.count → k < 2 ^ 36 := fun hk => Nat.lt_of_lt_of_le hk s.vmm_le
  -- Page `j` of a live range is a page of the region.
  have hpage : ∀ {q}, q ∈ live → ∀ {j}, j < reqPages q.2 →
      pageOf q j = vmmPageAddr (firstPage q.1 + j) ∧ firstPage q.1 + j < s.vmm.count := by
    intro q hq j hj
    have hrange := hinv.range hq
    have hle := hrange.le
    refine ⟨?_, by omega⟩
    rw [pageOf, ← vmmPageAddr_add, ← hrange.addr]
  have hback : ∀ {k tr}, s.translate (vmmPageAddr k) = some tr → s.backing k = some tr.page :=
    fun h => by rw [MemState.backing, h]; rfl
  refine ⟨?_, fun q hq j hj => ?_, fun q hq j hj q' hq' j' hj' tr tr' h h' he => ?_⟩
  · refine (List.pairwise_iff_forall_sublist.mpr fun {q q'} hsub j hj j' hj' he => ?_)
    have hmem : q ∈ live := hsub.subset (by simp)
    have hmem' : q' ∈ live := hsub.subset (by simp)
    obtain ⟨hp, hk⟩ := hpage hmem hj
    obtain ⟨hp', hk'⟩ := hpage hmem' hj'
    rw [hp, hp', ← path_eq_iff] at he
    have heq := path_vmmPageAddr_inj (hlt hk) (hlt hk') he
    have hapart := List.pairwise_iff_forall_sublist.mp hinv.apart hsub
    rw [RangesApart] at hapart
    omega
  · obtain ⟨hp, hk⟩ := hpage hq hj
    have hsome := (hinv.range hq).mapped (k := firstPage q.1 + j) (by omega) (by omega)
    rw [MemState.backing, Option.isSome_map] at hsome
    obtain ⟨tr, htr⟩ := Option.isSome_iff_exists.mp hsome
    rw [hp]
    exact ⟨tr, htr, hinv.core.used hk (hback htr), hinv.core.noTable hk (hback htr)⟩
  · obtain ⟨hp, hk⟩ := hpage hq hj
    obtain ⟨hp', hk'⟩ := hpage hq' hj'
    rw [hp] at h ⊢
    rw [hp'] at h' ⊢
    rw [hinv.core.inj hk hk' (hback h) (he ▸ hback h')]

/-! ## The heap -/

theorem reqPages_initHeapSize : reqPages initHeapSize = 4096 := by decide

/-- In a cleared bitmap the first run starts at 0. -/
theorem findFreeRange_cleared {b : Bitmap} {req p : Nat} (hz : ∀ q < b.count, bitRead b.bitmap q = false)
    (h : b.findFreeRange req = (p, true)) : p = 0 := by
  obtain ⟨-, hrun, hfirst⟩ := Bitmap.findFreeRange_some h
  have hle := hrun.1
  by_contra hne
  exact hfirst 0 (by omega) ⟨by omega, fun q _ hq => hz q (by omega)⟩

/-- The heap starts where the VMM region does, and it is one free block. -/
theorem memoryInit_heapInv {s s' : MemState} {m : Mem} {h : Heap}
    (hi : memoryInit s m = some (s', h)) :
    HeapInv virtualOffsetVmm initHeapSize h [] [⟨initHeapSize - headerSize, false⟩] := by
  unfold memoryInit at hi
  cases hv : s.initVmm with
  | none => simp [hv] at hi
  | some s₁ =>
    simp only [hv, Option.map_eq_some_iff, Prod.mk.injEq] at hi
    obtain ⟨h', hh, -, rfl⟩ := hi
    obtain ⟨-, -, -, -, hz, -, -⟩ := initVmm_some hv
    have hptr : (s₁.vmmMallocPages initHeapSize).1 = 0 ∨
        (s₁.vmmMallocPages initHeapSize).1 = vmmPageAddr 0 := by
      cases hf : s₁.vmm.findFreeRange (reqPages initHeapSize) with
      | mk p found =>
        cases found with
        | false => exact .inl (by rw [vmmMallocPages_notFound (by rw [hf])])
        | true =>
          obtain rfl := findFreeRange_cleared hz hf
          simp only [vmmMallocPages_found hf]
          split
          · exact .inr rfl
          · exact .inl rfl
    have hbase : vmmPageAddr 0 = virtualOffsetVmm := by decide
    rcases hptr with h0 | h0
    · rw [h0] at hh
      simp [initHeapAlloc] at hh
    · rw [h0, hbase] at hh
      exact heapInv_init hh (by decide)

/-- In every state that `malloc`, `free` and stores into live payloads reach from boot: the walk over
the headers tiles the heap, no two neighbours are both free, without live allocations the heap is one
free block, and both functions return. -/
theorem heap_reachable_tiled {s s' : MemState} {m : Mem} {h₀ h : Heap} {live : Live}
    (hi : memoryInit s m = some (s', h₀)) (hr : HeapReach (h₀, []) (h, live)) :
    h.heapEndPtr = h.heapStartPtr + initHeapSize ∧
      (∃ n, 0 < n ∧ h.blockAt n = h.heapEndPtr ∧
        (∀ i < n, h.blockAt i < h.heapEndPtr ∧
          h.blockAt (i + 1) = h.blockAt i + headerSize + (readHeader h.mem (h.blockAt i)).length) ∧
        (∀ i, i + 1 < n → (readHeader h.mem (h.blockAt i)).used = true ∨
          (readHeader h.mem (h.blockAt (i + 1))).used = true) ∧
        (live = [] → n = 1 ∧
          readHeader h.mem h.heapStartPtr = ⟨initHeapSize - headerSize, false⟩)) ∧
      (∀ size, (h.malloc size).isSome) ∧ ∀ q ∈ live, (h.free q.1).isSome := by
  obtain ⟨bs, hinv⟩ := (memoryInit_heapInv hi).reach hr
  obtain ⟨hpos, hend, hwalk, hfree⟩ := hinv.walk
  refine ⟨by rw [hinv.end_eq, hinv.start_eq], ⟨bs.length, hpos, hend, hwalk, hfree, ?_⟩, fun size => ?_,
    fun q hq => ?_⟩
  · rintro rfl
    have hbs := hinv.single
    subst hbs
    exact ⟨rfl, hinv.tiled.readHeader_blockAt (i := 0) (by simp)⟩
  · rcases hinv.malloc_cases size with ⟨-, hm⟩ | ⟨_, _, _, -, -, -, hm⟩ <;> rw [hm] <;> rfl
  · obtain ⟨h', -, hf, -⟩ := hinv.free hq
    rw [hf]
    rfl

/-- In every such state a live payload lies inside the heap, apart from the headers and from the
other live payloads, and no `malloc` or `free` of another pointer changes it. -/
theorem heap_reachable_payloads {s s' : MemState} {m : Mem} {h₀ h : Heap} {live : Live}
    (hi : memoryInit s m = some (s', h₀)) (hr : HeapReach (h₀, []) (h, live)) {p n : Nat}
    (hp : (p, n) ∈ live) :
    (h.heapStartPtr ≤ p ∧ p + n ≤ h.heapEndPtr) ∧
      (∀ a, h.IsHeader a → ∀ i < n, ∀ k < headerSize, p + i ≠ a + k) ∧
      (∀ q ∈ live.erase (p, n), p + n ≤ q.1 ∨ q.1 + q.2 ≤ p) ∧
      (∀ size r h', h.malloc size = some (r, h') → ∀ i < n, h'.mem (p + i) = h.mem (p + i)) ∧
      ∀ q ∈ live.erase (p, n), ∀ h', h.free q.1 = some h' →
        ∀ i < n, h'.mem (p + i) = h.mem (p + i) := by
  obtain ⟨bs, hinv⟩ := (memoryInit_heapInv hi).reach hr
  obtain ⟨hlow, hhigh, hheader⟩ := hinv.payload_bounds hp
  exact ⟨⟨hlow, hhigh⟩, hheader, fun q hq => hinv.payload_apart hp hq,
    fun size r h' hm i hlt => hinv.malloc_keeps hm hp hlt,
    fun q hq h' hf i hlt => hinv.free_keeps (List.mem_of_mem_erase hq) hf hp hlt⟩

/-! ## A machine that boots -/

theorem card_rangeTables_le (k n : Nat) : (rangeTables k n).card ≤ 3 * n := by
  induction n generalizing k with
  | zero => simp [rangeTables]
  | succ n ih =>
    have h1 := card_tablePaths_le (vmmPageAddr k)
    have h2 := Finset.card_union_le (tablePaths (vmmPageAddr k)) (rangeTables (k + 1) n)
    have h3 := ih (k + 1)
    rw [rangeTables]
    omega

/-- The first `n` pages of the region can be backed if four times as many pages are free. -/
theorem supplied_reserve {s : MemState} {n : Nat} (hinv : VmmInv s []) (hn : n ≤ s.vmm.count)
    (hfree : 4 * n ≤ s.pmm.freePages.card) (hzero : ∀ π t, s.tableAt π = some t → t ≠ 0) :
    Supplied 0 n 0 (s.reserve n 0) := by
  have hmiss : missing s (rangeTables 0 n) ≤ 3 * n :=
    (Finset.card_le_card (Finset.filter_subset _ _)).trans (card_rangeTables_le 0 n)
  have hsound : Sound (vmmPaths s.vmm.count) (s.reserve n 0) :=
    ⟨hinv.core.sound.owned, hinv.core.sound.taken⟩
  have hclear : ∀ k < s.vmm.count, NoLargePage (s.reserve n 0) (vmmPageAddr k) :=
    fun k hk => hinv.core.clear hk
  have hcost : n + missing s (rangeTables 0 n) ≤ s.pmm.freePages.card := by omega
  rw [supplied_iff (s := s.reserve n 0) hsound hclear (by rwa [Nat.zero_add])]
  exact ⟨hcost, fun π _ h => hzero π 0 h rfl⟩

/-- `memory_init` succeeds where the free pages are enough for the heap and all its tables. -/
theorem memoryInit_isSome {s s₁ : MemState} (m : Mem) (hb : BootTables s) (hi : s.initVmm = some s₁)
    (hcount : reqPages initHeapSize ≤ s.pmm.count)
    (hfree : 4 * reqPages initHeapSize ≤ s₁.pmm.freePages.card)
    (hzero : ∀ π t, s₁.tableAt π = some t → t ≠ 0) : (memoryInit s m).isSome := by
  have hinv := vmmInv_init hb hi
  obtain ⟨-, -, -, hvmm, hz, -, -⟩ := initVmm_some hi
  have hpos : 0 < reqPages initHeapSize := by rw [reqPages_initHeapSize]; decide
  have hf : s₁.vmm.findFreeRange (reqPages initHeapSize) = (0, true) := by
    rcases s₁.vmm.findFreeRange_cases hpos with ⟨p, hp, -⟩ | ⟨-, hno⟩
    · rw [hp, findFreeRange_cleared hz hp]
    · exact absurd ⟨by omega, fun q _ hq => hz q (by omega)⟩ (hno 0)
  have hsup := supplied_reserve hinv (hvmm ▸ hcount) hfree hzero
  have hne := (vmmMallocPages_ne_zero hf).mpr ⟨hsup, by decide⟩
  simp only [memoryInit, hi, Option.isSome_map, initHeapAlloc, if_neg hne]
  rfl

/-- Pages 0 and 1 are used, page 1 is an empty PML4, and the other `count` pages are free. -/
def bootState (count : Nat) (h : count ≤ 2 ^ 36) : MemState where
  pmm := ⟨fun a => if a = 0 then 0b00000011 else 0, count⟩
  vmm := ⟨fun _ => 0, 0⟩
  tables _ _ := .zero
  root := 1
  hhdmOffset := 0xffff800000000000
  pmm_le := h
  vmm_le := by decide

theorem bootState_tableAt {count : Nat} {h : count ≤ 2 ^ 36} {π : List Index} {t : Nat}
    (ht : (bootState count h).tableAt π = some t) : t = 1 := by
  cases π with
  | nil => cases ht; rfl
  | cons i π => cases ht

theorem bootState_bootTables {count : Nat} (h : count ≤ 2 ^ 36) : BootTables (bootState count h) :=
  bootTables_of_zero (fun ht hf => by
    rw [bootState_tableAt ht] at hf
    have hbyte : (bootState count h).pmm.bitmap (1 / 8) = 3 := rfl
    have hused := hf.2
    rw [bitRead_eq, hbyte] at hused
    exact absurd hused (by decide)) fun _ _ => rfl

theorem bootState_free {count p : Nat} (h : count ≤ 2 ^ 36) (hp : 8 ≤ p) :
    bitRead (bootState count h).pmm.bitmap p = false := by
  have hbyte : p / 8 ≠ 0 := by omega
  have hz : (bootState count h).pmm.bitmap (p / 8) = 0 := if_neg hbyte
  rw [bitRead_eq, hz]
  exact Nat.zero_testBit _

theorem bootState_freePages {count : Nat} (h : count ≤ 2 ^ 36) :
    count - 8 ≤ (bootState count h).pmm.freePages.card := by
  have hsub : Finset.Ico 8 count ⊆ (bootState count h).pmm.freePages := fun p hp => by
    have hp := Finset.mem_Ico.mp hp
    exact Bitmap.mem_freePages.mpr ⟨hp.2, bootState_free h hp.1⟩
  rw [← Nat.card_Ico 8 count]
  exact Finset.card_le_card hsub

theorem bootState_memoryInit (m : Mem) :
    (memoryInit (bootState (2 ^ 15) (by decide)) m).isSome := by
  have hsome : (bootState (2 ^ 15) (by decide)).initVmm.isSome := by decide +kernel
  obtain ⟨s₁, hi⟩ := Option.isSome_iff_exists.mp hsome
  obtain ⟨htables, hroot, -, -, -, -, hcard⟩ := initVmm_some hi
  have htree : s₁.tree = (bootState (2 ^ 15) (by decide)).tree := by
    simp only [MemState.tree, htables, hroot]
  have hfree := bootState_freePages (show 2 ^ 15 ≤ 2 ^ 36 by decide)
  have hreq : reqPages (divideRoundUp (bootState (2 ^ 15) (by decide)).pmm.count 8) = 1 := by
    decide +kernel
  rw [hreq] at hcard
  refine memoryInit_isSome m (bootState_bootTables _) hi (by decide) ?_ fun π t ht => ?_
  · rw [reqPages_initHeapSize]
    omega
  · rw [MemState.tableAt, htree] at ht
    rw [bootState_tableAt ht]
    decide

/-- Two allocations of the region: their pages are backed by different used pages. -/
theorem bootState_vmm_reachable : ∃ s₁ s₂ s a a', (bootState 16 (by decide)).initVmm = some s₁ ∧
    s₁.vmmMallocPages pageSize = (a, s₂) ∧ s₂.vmmMallocPages (2 * pageSize) = (a', s) ∧
    ∃ tr tr', s.translate (pageOf (a, pageSize) 0) = some tr ∧
      s.translate (pageOf (a', 2 * pageSize) 1) = some tr' ∧
      bitRead s.pmm.bitmap tr.page = true ∧ bitRead s.pmm.bitmap tr'.page = true ∧
      tr.page ≠ tr'.page := by
  have hany : (bootState 16 (by decide)).initVmm.any (fun s => (s.vmmMallocPages pageSize).1 != 0 &&
      ((s.vmmMallocPages pageSize).2.vmmMallocPages (2 * pageSize)).1 != 0 &&
      pageOf ((s.vmmMallocPages pageSize).1, pageSize) 0 !=
        pageOf (((s.vmmMallocPages pageSize).2.vmmMallocPages (2 * pageSize)).1, 2 * pageSize) 1) =
          true := by
    decide +kernel
  obtain ⟨s₁, hi, hne⟩ := (Option.any_eq_true ..).mp hany
  obtain ⟨a, s₂, hm⟩ : ∃ a s, s₁.vmmMallocPages pageSize = (a, s) := ⟨_, _, rfl⟩
  rw [hm] at hne
  obtain ⟨a', s, hm'⟩ : ∃ a s, s₂.vmmMallocPages (2 * pageSize) = (a, s) := ⟨_, _, rfl⟩
  simp only [hm', Bool.and_eq_true, bne_iff_ne] at hne
  obtain ⟨⟨ha, ha'⟩, hpages⟩ := hne
  have hone : VmmStep (s₁, []) (s₂, [(a, pageSize)]) := .malloc (by decide) hm ha
  have htwo : VmmStep (s₂, [(a, pageSize)]) (s, [(a', 2 * pageSize), (a, pageSize)]) :=
    .malloc (by decide) hm' ha'
  obtain ⟨-, hbacked, hinj⟩ := vmm_reachable (bootState_bootTables _) hi
    ((Relation.ReflTransGen.single hone).tail htwo)
  have hpos : 0 < reqPages pageSize := by decide
  have hlt : 1 < reqPages (2 * pageSize) := by decide
  have hmem : (a, pageSize) ∈ [(a', 2 * pageSize), (a, pageSize)] :=
    List.mem_cons_of_mem _ List.mem_cons_self
  obtain ⟨tr, htr, hused, -⟩ := hbacked _ hmem 0 hpos
  obtain ⟨tr', htr', hused', -⟩ := hbacked _ List.mem_cons_self 1 hlt
  refine ⟨s₁, s₂, s, a, a', hi, hm, hm', tr, tr', htr, htr', hused, hused', fun heq => hpages ?_⟩
  exact hinj _ hmem 0 hpos _ List.mem_cons_self 1 hlt tr tr' htr htr' heq

/-- Two blocks are allocated. -/
theorem bootState_twoBlocks : ∃ s' h₀ p h q h₁,
    memoryInit (bootState (2 ^ 15) (by decide)) (fun _ => 0) = some (s', h₀) ∧
      h₀.malloc 16 = some (some p, h) ∧ h.malloc 32 = some (some q, h₁) := by
  obtain ⟨⟨s', h₀⟩, hi⟩ := Option.isSome_iff_exists.mp (bootState_memoryInit fun _ => 0)
  have hinv := memoryInit_heapInv hi
  obtain ⟨pre, b, post, hbs, hb, hm⟩ := hinv.malloc_of_fits (n := 16) List.mem_cons_self
    (by unfold Tiled.Unfit; decide)
  obtain ⟨rfl, rfl, rfl⟩ : pre = [] ∧ b = ⟨initHeapSize - headerSize, false⟩ ∧ post = [] := by
    cases pre with
    | nil => simpa [eq_comm] using hbs
    | cons c cs => simp at hbs
  rw [hbs] at hinv
  have hrest : (⟨initHeapSize - headerSize - 16 - headerSize, false⟩ : Block) ∈
      [] ++ (carve headerSize ⟨initHeapSize - headerSize, false⟩ 16 ++ []) := by decide
  obtain ⟨_, _, _, -, -, hm'⟩ := (hinv.take hb).malloc_of_fits (n := 32) hrest
    (by unfold Tiled.Unfit; decide)
  exact ⟨s', h₀, _, _, _, _, hi, hm, hm'⟩

/-- Both blocks are freed, the first one first: the heap is one free block again. -/
theorem bootState_heap_tiled : ∃ s' h₀ p h₁ q h₂ h₃ h₄,
    memoryInit (bootState (2 ^ 15) (by decide)) (fun _ => 0) = some (s', h₀) ∧
      h₀.malloc 16 = some (some p, h₁) ∧ h₁.malloc 32 = some (some q, h₂) ∧
      h₂.free p = some h₃ ∧ h₃.free q = some h₄ ∧
      readHeader h₄.mem h₄.heapStartPtr = ⟨initHeapSize - headerSize, false⟩ := by
  obtain ⟨s', h₀, p, h₁, q, h₂, hi, hm, hm'⟩ := bootState_twoBlocks
  have hone : HeapStep (h₀, []) (h₁, [(p, 16)]) := .malloc (by decide) hm
  have htwo : HeapStep (h₁, [(p, 16)]) (h₂, [(q, 32), (p, 16)]) := .malloc (by decide) hm'
  have hr₂ := (Relation.ReflTransGen.single hone).tail htwo
  have hp : (p, 16) ∈ [(q, 32), (p, 16)] := List.mem_cons_of_mem _ List.mem_cons_self
  obtain ⟨h₃, hf⟩ := Option.isSome_iff_exists.mp ((heap_reachable_tiled hi hr₂).2.2.2 _ hp)
  have herase : [(q, 32), (p, 16)].erase (p, 16) = [(q, 32)] := by
    rw [List.erase_cons_tail (by simp), List.erase_cons_head]
  have hr₃ := hr₂.tail (.free hp hf)
  rw [herase] at hr₃
  obtain ⟨h₄, hf'⟩ := Option.isSome_iff_exists.mp
    ((heap_reachable_tiled hi hr₃).2.2.2 _ List.mem_cons_self)
  have hr₄ := hr₃.tail (.free List.mem_cons_self hf')
  rw [List.erase_cons_head] at hr₄
  obtain ⟨-, ⟨n, -, -, -, -, hempty⟩, -⟩ := heap_reachable_tiled hi hr₄
  exact ⟨s', h₀, p, h₁, q, h₂, h₃, h₄, hi, hm, hm', hf, hf', (hempty rfl).2⟩

/-- The payloads of two allocations are apart, and the second one keeps its bytes when the first is
freed. -/
theorem bootState_heap_payloads : ∃ s' h₀ p h₁ q h₂ h₃,
    memoryInit (bootState (2 ^ 15) (by decide)) (fun _ => 0) = some (s', h₀) ∧
      h₀.malloc 16 = some (some p, h₁) ∧ h₁.malloc 32 = some (some q, h₂) ∧
      (q + 32 ≤ p ∨ p + 16 ≤ q) ∧ h₂.free p = some h₃ ∧ ∀ i < 32, h₃.mem (q + i) = h₂.mem (q + i) := by
  obtain ⟨s', h₀, p, h₁, q, h₂, hi, hm, hm'⟩ := bootState_twoBlocks
  have hone : HeapStep (h₀, []) (h₁, [(p, 16)]) := .malloc (by decide) hm
  have htwo : HeapStep (h₁, [(p, 16)]) (h₂, [(q, 32), (p, 16)]) := .malloc (by decide) hm'
  have hr := (Relation.ReflTransGen.single hone).tail htwo
  have hp : (p, 16) ∈ [(q, 32), (p, 16)].erase (q, 32) := by
    rw [List.erase_cons_head]
    exact List.mem_cons_self
  obtain ⟨bs, hinv⟩ := (memoryInit_heapInv hi).reach hr
  obtain ⟨h₃, -, hf, -, -⟩ := hinv.free (List.mem_of_mem_erase hp)
  obtain ⟨-, -, hapart, -, hkept⟩ := heap_reachable_payloads hi hr List.mem_cons_self
  exact ⟨s', h₀, p, h₁, q, h₂, h₃, hi, hm, hm', hapart _ hp, hf, hkept _ hp h₃ hf⟩

end EszOs
