import Mathlib.Logic.Relation
import Mathlib.Order.Interval.Set.Basic
import EszOs.Lib.Ledger
import EszOs.Memory.Pmm

/-!
# Runs of the physical memory manager

A run is any sequence of `pmm_malloc` and `pmm_malloc_page` calls and of `pmm_free` calls on ranges
that are live. `live` lists the live allocations: the returned address with the requested bytes.

The PMM is an allocator of sets of pages: `usedPages` of its bitmap is the `used` of a `Ledger`
whose live sets are the `pageRange`s of the live allocations (`PmmInv`). Since the used pages
determine the bitmap (`Bitmap.ext_usedPages`), `Ledger.drain` gives the starting bitmap back.
-/

namespace EszOs

open Bytes

/-! ## The calls on sets of pages -/

/-- The pages in use. -/
def Bitmap.usedPages (b : Bitmap) : Set Nat := {p | bitRead b.bitmap p = true}

/-- The pages of the `q.2` bytes from address `q.1`, as `pmm_free` counts them. -/
def pageRange (q : Nat × Nat) : Set Nat :=
  Set.Ico (q.1 / pageSize) (q.1 / pageSize + divideRoundUp q.2 pageSize)

theorem Bitmap.ext_usedPages {b b' : Bitmap} (hc : b.count = b'.count)
    (h : b.usedPages = b'.usedPages) : b = b' := by
  obtain ⟨bits, n⟩ := b
  obtain ⟨bits', n'⟩ := b'
  have hbits : bits = bits' := ext_bitRead fun p => Bool.eq_iff_iff.mpr (Set.ext_iff.mp h p)
  rw [hbits, show n = n' from hc]

/-- `pmm_malloc` takes pages that are free. The address of the last page fits in 64 bits. -/
theorem pmmMalloc_usedPages {b : Bitmap} {n addr : Nat} {bits : Mem} (hc : b.count ≤ 2 ^ 52)
    (h : pmmMalloc b n = some (addr, bits)) :
    Disjoint (pageRange (addr, n)) b.usedPages ∧
      ({ b with bitmap := bits } : Bitmap).usedPages = b.usedPages ∪ pageRange (addr, n) ∧
      ∀ p ∈ pageRange (addr, n), p < b.count := by
  obtain ⟨p, rfl, hrun, -, hbits⟩ := pmmMalloc_some rfl h
  have hpos : 0 < divideRoundUp n pageSize := by
    by_contra h0
    rw [Nat.eq_zero_of_not_pos h0] at hrun
    simp only [pmmMalloc, Nat.eq_zero_of_not_pos h0, Bitmap.findFreeRange, Bitmap.findLoop_zero] at h
    simp at h
  have hpage : u64 (p * pageSize) / pageSize = p := by
    have := hrun.1
    rw [u64_of_lt (by rw [pageSize]; omega), Nat.mul_div_cancel _ (by decide)]
  have hrange : pageRange (u64 (p * pageSize), n) = Set.Ico p (p + divideRoundUp n pageSize) := by
    rw [pageRange, hpage]
  rw [hrange]
  refine ⟨Set.disjoint_left.mpr fun q hq hu => ?_, ?_, fun q hq => ?_⟩
  · have hfree := hrun.2 q hq.1 hq.2
    rw [show bitRead b.bitmap q = true from hu] at hfree
    cases hfree
  · ext q
    simp only [Bitmap.usedPages, Set.mem_ofPred_eq, Set.mem_union, Set.mem_Ico, hbits,
      Bool.or_eq_true, decide_eq_true_eq]
    exact or_comm
  · have := hrun.1
    have := hq.2
    omega

/-- `pmm_free` gives the pages of the range back. -/
theorem pmmFree_usedPages (b : Bitmap) (q : Nat × Nat) :
    ({ b with bitmap := pmmFree b q.1 q.2 } : Bitmap).usedPages = b.usedPages \ pageRange q := by
  ext p
  simp only [Bitmap.usedPages, pageRange, pmmFree, Set.mem_ofPred_eq, Set.mem_sdiff, Set.mem_Ico,
    bitRead_writeLoop]
  by_cases hp : q.1 / pageSize ≤ p ∧ p < q.1 / pageSize + divideRoundUp q.2 pageSize <;> simp [hp]

/-- `pmm_free` of one range after the other. -/
def Bitmap.pmmFreeAll (b : Bitmap) (order : List (Nat × Nat)) : Bitmap :=
  order.foldl (fun b q => { b with bitmap := pmmFree b q.1 q.2 }) b

theorem Bitmap.pmmFreeAll_count (b : Bitmap) (order : List (Nat × Nat)) :
    (b.pmmFreeAll order).count = b.count := by
  induction order generalizing b with
  | nil => rfl
  | cons q order ih => exact ih { b with bitmap := pmmFree b q.1 q.2 }

theorem pmmFreeAll_usedPages (b : Bitmap) (order : List (Nat × Nat)) :
    (b.pmmFreeAll order).usedPages = (order.map pageRange).foldl (· \ ·) b.usedPages := by
  induction order generalizing b with
  | nil => rfl
  | cons q order ih =>
    rw [List.map_cons, List.foldl_cons, ← pmmFree_usedPages]
    exact ih { b with bitmap := pmmFree b q.1 q.2 }

/-! ## Runs -/

/-- The live allocations: address and requested bytes. -/
abbrev LiveFrames := List (Nat × Nat)

/-- One call. -/
inductive PmmStep : Bitmap × LiveFrames → Bitmap × LiveFrames → Prop
  | malloc {b : Bitmap} {live : LiveFrames} {n addr : Nat} {bits : Mem}
      (h : pmmMalloc b n = some (addr, bits)) :
      PmmStep (b, live) ({ b with bitmap := bits }, (addr, n) :: live)
  | mallocFailed {b : Bitmap} {live : LiveFrames} {n : Nat} (h : pmmMalloc b n = none) :
      PmmStep (b, live) (b, live)
  | mallocPage {b : Bitmap} {live : LiveFrames} {addr : Nat} {bits : Mem}
      (h : pmmMallocPage b = some (addr, bits)) :
      PmmStep (b, live) ({ b with bitmap := bits }, (addr, pageSize) :: live)
  | mallocPageFailed {b : Bitmap} {live : LiveFrames} (h : pmmMallocPage b = none) :
      PmmStep (b, live) (b, live)
  | free {b : Bitmap} {live : LiveFrames} {q : Nat × Nat} (h : q ∈ live) :
      PmmStep (b, live) ({ b with bitmap := pmmFree b q.1 q.2 }, live.erase q)

/-- The states that a run from `s₀` reaches. -/
abbrev PmmReach := Relation.ReflTransGen PmmStep

/-- The invariant of a run from `b₀`. -/
structure PmmInv (b₀ b : Bitmap) (live : LiveFrames) : Prop where
  count_eq : b.count = b₀.count
  ledger : Ledger b₀.usedPages b.usedPages (live.map pageRange)
  below : ∀ q ∈ live, ∀ p ∈ pageRange q, p < b₀.count

namespace PmmInv

variable {b₀ b b' : Bitmap} {live live' : LiveFrames}

theorem malloc {n addr : Nat} {bits : Mem} (hc : b₀.count ≤ 2 ^ 52) (hi : PmmInv b₀ b live)
    (h : pmmMalloc b n = some (addr, bits)) :
    PmmInv b₀ { b with bitmap := bits } ((addr, n) :: live) := by
  obtain ⟨hfree, hused, hbelow⟩ := pmmMalloc_usedPages (hi.count_eq ▸ hc) h
  refine ⟨hi.count_eq, ?_, List.forall_mem_cons.mpr ⟨fun p hp => ?_, hi.below⟩⟩
  · rw [hused]
    exact hi.ledger.take hfree
  · rw [← hi.count_eq]
    exact hbelow p hp

theorem free {q : Nat × Nat} (hi : PmmInv b₀ b live) (hq : q ∈ live) :
    PmmInv b₀ { b with bitmap := pmmFree b q.1 q.2 } (live.erase q) := by
  refine ⟨hi.count_eq, ?_, fun q' hq' => hi.below q' (List.mem_of_mem_erase hq')⟩
  rw [pmmFree_usedPages]
  have hperm : (live.map pageRange).Perm (pageRange q :: (live.erase q).map pageRange) :=
    (List.perm_cons_erase hq).map pageRange
  exact (hi.ledger.perm hperm).give

/-- Every call keeps the invariant. -/
theorem step (hc : b₀.count ≤ 2 ^ 52) (hi : PmmInv b₀ b live)
    (h : PmmStep (b, live) (b', live')) : PmmInv b₀ b' live' := by
  cases h with
  | malloc h => exact hi.malloc hc h
  | mallocFailed _ => exact hi
  | mallocPage h => exact hi.malloc hc h
  | mallocPageFailed _ => exact hi
  | free hq => exact hi.free hq

/-- Every run keeps the invariant. -/
theorem reach (hc : b₀.count ≤ 2 ^ 52) {s s' : Bitmap × LiveFrames} (hi : PmmInv b₀ s.1 s.2)
    (h : PmmReach s s') : PmmInv b₀ s'.1 s'.2 := by
  induction h with
  | refl => exact hi
  | tail _ hs ih => exact ih.step hc hs

/-- Freeing the live allocations gives the first bitmap back. -/
theorem pmmFreeAll (hi : PmmInv b₀ b live) : b.pmmFreeAll live = b₀ := by
  refine Bitmap.ext_usedPages ?_ ?_
  · rw [Bitmap.pmmFreeAll_count, hi.count_eq]
  · rw [pmmFreeAll_usedPages, hi.ledger.drain]

end PmmInv

/-- In every state of every run the live ranges share no page, lie below `count` and were free at
the start, and freeing them in any order gives the starting bitmap back. `count` is
`highestAddress / PAGE_SIZE`, so it is at most `2 ^ 52`. -/
theorem pmm_reachable {b₀ b : Bitmap} {live : LiveFrames} (hc : b₀.count ≤ 2 ^ 52)
    (hr : PmmReach (b₀, []) (b, live)) :
    live.Pairwise (fun q q' => Disjoint (pageRange q) (pageRange q')) ∧
      (∀ q ∈ live, ∀ p ∈ pageRange q, p < b.count ∧ bitRead b₀.bitmap p = false) ∧
      ∀ order : LiveFrames, order.Perm live → b.pmmFreeAll order = b₀ := by
  have hstart : PmmInv b₀ b₀ [] := ⟨rfl, .init _, by simp⟩
  have hi : PmmInv b₀ b live := hstart.reach hc hr
  refine ⟨List.pairwise_map.mp hi.ledger.apart, fun q hq p hp => ⟨?_, ?_⟩, fun order ho => ?_⟩
  · rw [hi.count_eq]
    exact hi.below q hq p hp
  · have hfresh := hi.ledger.fresh _ (List.mem_map_of_mem hq)
    exact Bool.eq_false_iff.mpr fun hu => Set.disjoint_left.mp hfresh hp hu
  · have hi' : PmmInv b₀ b order :=
      ⟨hi.count_eq, hi.ledger.perm (ho.symm.map pageRange), fun q hq => hi.below q (ho.subset hq)⟩
    exact hi'.pmmFreeAll

/-- Two pages of an empty bitmap are handed out for 5000 bytes, and freeing them empties it. -/
theorem pmm_reachable_two : ∃ bits, pmmMalloc ⟨fun _ => 0, 16⟩ 5000 = some (0, bits) ∧
    (⟨bits, 16⟩ : Bitmap).pmmFreeAll [(0, 5000)] = ⟨fun _ => 0, 16⟩ := by
  have hm : pmmMalloc ⟨fun _ => 0, 16⟩ 5000 =
      some (0, pmmMallocPageRange ⟨fun _ => 0, 16⟩ 0 2) := by rfl
  have hr : PmmReach (⟨fun _ => 0, 16⟩, []) (⟨_, 16⟩, [(0, 5000)]) := .single (.malloc hm)
  exact ⟨_, hm, (pmm_reachable (by decide) hr).2.2 _ (.refl _)⟩

end EszOs
