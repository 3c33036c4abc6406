import EszOs.Memory.Mapping

/-!
# The virtual memory manager (`memory/virtual/vmm/vmm.cpp`)

`vmm_bitmap` has one bit per page of the region from `VIRTUAL_OFFSET_VMM` on. The loops of
`vmm_malloc_pages` and `vmm_free_pages` are recursions on the number of pages left.

Page `k` of the region stands at `vmmPageAddr k`; distinct pages have distinct paths
(`path_vmmPageAddr_inj`), and the range of an allocation is a run of page numbers
(`vmmPageAddr_add`, `firstPage_vmmPageAddr`).
-/

namespace EszOs

open Bytes Radix

/-- The address of page `k` of the VMM region. -/
def vmmPageAddr (k : Nat) : Nat := u64 (k * pageSize + virtualOffsetVmm)

/-- `(virtAddr - VIRTUAL_OFFSET_VMM) / PAGE_SIZE` -/
def firstPage (virtAddr : Nat) : Nat := u64 (virtAddr + 2 ^ 64 - virtualOffsetVmm) / pageSize

/-- The number of pages of an allocation, `reqPages` in both functions. -/
def reqPages (byteAmount : Nat) : Nat := divideRoundUp byteAmount pageSize

namespace MemState

/-- The loop of `vmm_malloc_pages`, with `n` pages left from page `i` of the range on. The flag is
`success`; it is false as well when the loop is left early. -/
def vmmMallocLoop (req pageRangeBegin : Nat) : Nat → Nat → MemState → Bool → Bool × MemState
  | 0, _, s, success => (success, s)
  | n + 1, i, s, success =>
    match pmmMallocPage s.pmm with
    | none => (false, { s with vmm := s.vmm.writeBitsInRangeFrom req pageRangeBegin false })
    | some (currPhysAddr, bits) =>
      let r := (s.setPmm bits).mapPage (vmmPageAddr (pageRangeBegin + i)) currPhysAddr pageFlagWrite
      vmmMallocLoop req pageRangeBegin n (i + 1) r.2 (r.1 && success)

/-- The state in which `vmm_malloc_pages` enters its loop. -/
def reserve (s : MemState) (req pageRangeBegin : Nat) : MemState :=
  { s with vmm := s.vmm.writeBitsInRangeFrom req pageRangeBegin true }

def vmmMallocPages (s : MemState) (byteAmount : Nat) : Nat × MemState :=
  let req := reqPages byteAmount
  let r := s.vmm.findFreeRange req
  if r.2 = false then (0, s)
  else
    let q := vmmMallocLoop req r.1 req 0 (s.reserve req r.1) true
    if q.1 then (vmmPageAddr r.1, q.2) else (0, q.2)

/-- The loop of `vmm_free_pages`, with `n` pages left from page `i` of the range on. -/
def vmmFreeLoop (virtAddr : Nat) : Nat → Nat → Nat → MemState → Bool → Bool × MemState
  | 0, _, _, s, success => (success, s)
  | n + 1, i, currPage, s, success =>
    let currVirtAddr := u64 (virtAddr + i * pageSize)
    match s.pageWalk currVirtAddr with
    | (none, s) => vmmFreeLoop virtAddr n (i + 1) currPage s false
    | (some (table, idx), s) =>
      if (s.entry table idx).present = false then
        vmmFreeLoop virtAddr n (i + 1) currPage s false
      else
        let physAddr := (s.entry table idx).address.toNat <<< 12
        let r := (s.setVmm (bitWrite s.vmm.bitmap currPage false)).freePage currVirtAddr
        vmmFreeLoop virtAddr n (i + 1) (currPage + 1)
          (r.2.setPmm (pmmFree r.2.pmm physAddr pageSize)) (r.1 && success)

def vmmFreePages (s : MemState) (virtAddr byteAmount : Nat) : Bool × MemState :=
  vmmFreeLoop virtAddr (reqPages byteAmount) 0 (firstPage virtAddr) s true

/-- `init_vmm`; `none` when it returns false. The new bitmap's bytes are what its memory held, any
bytes: those of `s.vmm`. -/
def initVmm (s : MemState) : Option MemState :=
  if s.pmm.count = 0 then none
  else
    match pmmMalloc s.pmm (divideRoundUp s.pmm.count 8) with
    | none => none
    | some (addr, bits) =>
      if u64 (addr + s.hhdmOffset) = 0 then none
      else
        some { s.setPmm bits with
          vmm := Bitmap.clear ⟨s.vmm.bitmap, s.pmm.count⟩
          vmm_le := s.pmm_le }

end MemState

/-- The bits of a range that is marked. -/
theorem bitRead_reserve {s : MemState} {req b : Nat} (h : b + req ≤ s.vmm.count) (q : Nat) :
    bitRead (s.reserve req b).vmm.bitmap q =
      if b ≤ q ∧ q < b + req then true else bitRead s.vmm.bitmap q := by
  have hle := s.vmm_le
  exact Bitmap.bitRead_writeBitsInRangeFrom q (by omega)

theorem vmmMallocPages_notFound {s : MemState} {n : Nat}
    (h : (s.vmm.findFreeRange (reqPages n)).2 = false) : s.vmmMallocPages n = (0, s) := by
  simp only [MemState.vmmMallocPages, h, ↓reduceIte]

theorem vmmMallocPages_found {s : MemState} {n b : Nat}
    (h : s.vmm.findFreeRange (reqPages n) = (b, true)) :
    s.vmmMallocPages n =
      let q := (s.reserve (reqPages n) b).vmmMallocLoop (reqPages n) b (reqPages n) 0 true
      if q.1 then (vmmPageAddr b, q.2) else (0, q.2) := by
  simp only [MemState.vmmMallocPages, h, Bool.true_eq_false, ↓reduceIte]

/-- What a call that succeeds found, and what its loop did. -/
theorem vmmMallocPages_of_ne_zero {s s' : MemState} {n a : Nat} (hm : s.vmmMallocPages n = (a, s'))
    (ha : a ≠ 0) :
    ∃ b, 0 < reqPages n ∧ s.vmm.FreeRun (reqPages n) b ∧ a = vmmPageAddr b ∧
      (s.reserve (reqPages n) b).vmmMallocLoop (reqPages n) b (reqPages n) 0 true = (true, s') := by
  cases hfind : s.vmm.findFreeRange (reqPages n) with
  | mk b found =>
    cases found with
    | false =>
      rw [vmmMallocPages_notFound (by rw [hfind]), Prod.mk.injEq] at hm
      exact absurd hm.1.symm ha
    | true =>
      obtain ⟨hpos, hrun, -⟩ := Bitmap.findFreeRange_some hfind
      rw [vmmMallocPages_found hfind] at hm
      simp only at hm
      cases hloop : (s.reserve (reqPages n) b).vmmMallocLoop (reqPages n) b (reqPages n) 0 true with
      | mk ok s'' =>
        rw [hloop] at hm
        cases ok with
        | false => exact absurd (Prod.mk.inj hm).1.symm ha
        | true =>
          obtain ⟨rfl, rfl⟩ := Prod.mk.inj hm
          exact ⟨b, hpos, hrun, rfl, hloop⟩

/-! ## The pages of the region -/

/-- The paths of the first `count` pages of the region. -/
def vmmPaths (count : Nat) : Set (List Index) := {q | ∃ k < count, q = path (vmmPageAddr k)}

theorem vmmPaths_length {count : Nat} : ∀ q ∈ vmmPaths count, q.length = 4 := by
  rintro q ⟨k, -, rfl⟩
  rfl

theorem path_mem_vmmPaths {count k : Nat} (h : k < count) : path (vmmPageAddr k) ∈ vmmPaths count :=
  ⟨k, h, rfl⟩

/-- Distinct pages of the region have distinct paths. -/
theorem path_vmmPageAddr_inj {k k' : Nat} (h : k < 2 ^ 36) (h' : k' < 2 ^ 36)
    (he : path (vmmPageAddr k) = path (vmmPageAddr k')) : k = k' := by
  have he := path_eq_iff.mp he
  simp only [pageBits, vmmPageAddr, u64, pageSize, virtualOffsetVmm] at he
  omega

theorem firstPage_vmmPageAddr {k : Nat} (h : k < 2 ^ 36) : firstPage (vmmPageAddr k) = k := by
  simp only [firstPage, vmmPageAddr, u64, pageSize, virtualOffsetVmm]
  omega

/-- The pages of an allocation follow each other. -/
theorem vmmPageAddr_add (b i : Nat) : u64 (vmmPageAddr b + i * pageSize) = vmmPageAddr (b + i) := by
  simp only [vmmPageAddr, u64]
  rw [Nat.mod_add_mod, Nat.add_mul]
  congr 1
  omega

end EszOs
