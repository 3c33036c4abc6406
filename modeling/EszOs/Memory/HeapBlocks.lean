import EszOs.Memory.Boot

/-!
# What `malloc` and `free` do to the block list (`memory/heap/heap.cpp`)

The block list of a heap is what a walk over its headers finds: address, length and used flag of
each block. `print_memory_info` prints it.

* `blockList_eq`: in a tiled heap these are the blocks that tile it.
* `heap_reachable_malloc`: `malloc` takes the first block that fits and splits off the rest.
* `heap_reachable_mallocFree`: `free` of what `malloc` just returned undoes it.
-/

namespace EszOs

open Blocks

namespace Heap

/-- The loop of `print_memory_fragmentation_graph` over all blocks. -/
def blocksLoop (h : Heap) : Nat → Nat → List (Nat × MemoryBlockHeader)
  | 0, _ => []
  | fuel + 1, currBlockPtr =>
    if currBlockPtr < h.heapEndPtr then
      (currBlockPtr, readHeader h.mem currBlockPtr) ::
        h.blocksLoop fuel (getNextHeapBlock h.mem currBlockPtr)
    else []

def blockList (h : Heap) : List (Nat × MemoryBlockHeader) := h.blocksLoop h.fuel h.heapStartPtr

end Heap

/-- The block can take `size` bytes. -/
def Fits (size : Nat) (b : MemoryBlockHeader) : Prop := b.used = false ∧ size ≤ b.length

instance (size : Nat) (b : MemoryBlockHeader) : Decidable (Fits size b) :=
  inferInstanceAs (Decidable (_ ∧ _))

theorem not_unfit_iff {size : Nat} {b : MemoryBlockHeader} : ¬ Tiled.Unfit size b ↔ Fits size b := by
  rw [Tiled.Unfit, Fits, not_or, Nat.not_lt, Bool.not_eq_true, and_comm]

/-! ## The walk -/

namespace Tiled

variable {h : Heap}

/-- The walk from behind the blocks `d`. -/
theorem blocksLoop_eq {d bs : List Block} (ht : Tiled h (d ++ bs)) {fuel : Nat}
    (hf : bs.length < fuel) :
    h.blocksLoop fuel (h.heapStartPtr + span headerSize d) =
      located headerSize (h.heapStartPtr + span headerSize d) bs := by
  induction bs generalizing d fuel with
  | nil =>
    obtain ⟨fuel, rfl⟩ := Nat.exists_eq_add_one_of_ne_zero (Nat.ne_zero_of_lt hf)
    have hend : h.heapStartPtr + span headerSize d = h.heapEndPtr := by
      rw [← ht.ends, List.append_nil]
    rw [Heap.blocksLoop, if_neg (by omega), located]
  | cons b bs ih =>
    obtain ⟨fuel, rfl⟩ := Nat.exists_eq_add_one_of_ne_zero (Nat.ne_zero_of_lt hf)
    have hbound := ht.bound
    have ht' : Tiled h ((d ++ [b]) ++ bs) := by simpa using ht
    have hrest := @ih (d ++ [b]) ht' fuel (by simpa using hf)
    have hlt : h.heapStartPtr + span headerSize d < h.heapEndPtr := by
      simp only [headerSize] at hbound ⊢
      omega
    rw [Heap.blocksLoop, if_pos hlt, ht.next, ht.header, hrest, located]
    simp only [span_append, span_cons, span_nil, Nat.add_zero, Nat.add_assoc]

/-- The walk finds the blocks that tile the heap. -/
theorem blockList_eq {bs : List Block} (ht : Tiled h bs) :
    h.blockList = located headerSize h.heapStartPtr bs := by
  have hwalk := @blocksLoop_eq h [] bs ht h.fuel ht.length_le_fuel
  rw [span_nil, Nat.add_zero] at hwalk
  exact hwalk

end Tiled

/-! ## `malloc` and `free` -/

/-- In every state that `malloc`, `free` and stores into live payloads reach from boot, `malloc` fails
exactly if no free block is long enough, and changes nothing then. Else it returns the payload of the
first such block, which is used with at most two headers more than asked for, and what is left of it
is one free block behind. -/
theorem heap_reachable_malloc {s s' : MemState} {m : Bytes.Mem} {h₀ h : Heap} {live : Live}
    (hi : memoryInit s m = some (s', h₀)) (hr : HeapReach (h₀, []) (h, live)) (size : Nat) :
    ∃ r h', h.malloc size = some (r, h') ∧
      (r = none ↔ ∀ q ∈ h.blockList, ¬ Fits size q.2) ∧ (r = none → h' = h) ∧
      ∀ p, r = some p → ∃ pre a b post, h.blockList = pre ++ (a, b) :: post ∧ p = a + headerSize ∧
        Fits size b ∧ (∀ q ∈ h.blockList, Fits size q.2 → a ≤ q.1) ∧
        ∃ n rest, h'.blockList = pre ++ (a, ⟨n, true⟩) :: (rest ++ post) ∧
          size ≤ n ∧ n ≤ size + 2 * headerSize ∧
          (n = b.length ∧ rest = [] ∨ ∃ len, n + headerSize + len = b.length ∧
            rest = [(a + headerSize + n, ⟨len, false⟩)]) := by
  obtain ⟨bs, hinv⟩ := (memoryInit_heapInv hi).reach hr
  have hlist := hinv.tiled.blockList_eq
  rw [hinv.start_eq] at hlist
  rcases hinv.malloc_cases size with ⟨hu, hm⟩ | ⟨pre, b, post, rfl, hpre, hb, hm⟩
  · refine ⟨none, h, hm, iff_of_true rfl fun q hq => ?_, fun _ => rfl,
      fun p hp => absurd hp.symm (Option.some_ne_none p)⟩
    rw [hlist] at hq
    exact not_unfit_iff.not_right.mp (hu _ (mem_of_mem_located headerSize hq))
  · obtain ⟨a, ha⟩ : ∃ a, a = virtualOffsetVmm + span headerSize pre := ⟨_, rfl⟩
    have hfit : Fits size b := not_unfit_iff.mp hb
    rw [located_append, located, ← ha] at hlist
    rw [← ha] at hm
    have hmem : (a, b) ∈ h.blockList := by
      rw [hlist]
      exact List.mem_append_right _ List.mem_cons_self
    have hinv' := hinv.take hb
    have hlist' := hinv'.tiled.blockList_eq
    rw [hinv'.start_eq, ← ha] at hlist'
    have hnone : some (a + headerSize) = none ↔ ∀ q ∈ h.blockList, ¬ Fits size q.2 :=
      iff_of_false (Option.some_ne_none _) fun hno => hno _ hmem hfit
    refine ⟨_, _, hm, hnone, fun hp => absurd hp (Option.some_ne_none _), ?_⟩
    rintro p ⟨⟩
    refine ⟨_, a, b, _, hlist, rfl, hfit, fun q hq hq' => ?_, ?_⟩
    · rw [hlist] at hq
      rcases List.mem_append.mp hq with hq | hq
      · -- The blocks before it do not fit.
        exact absurd hq' (not_unfit_iff.not_right.mp (hpre _ (mem_of_mem_located headerSize hq)))
      · rcases List.mem_cons.mp hq with rfl | hq
        · exact Nat.le_refl _
        · exact (Nat.le_add_right _ _).trans (le_of_mem_located headerSize hq)
    · rw [located_append, located_append, ← ha, span_carve] at hlist'
      rcases carve_cases headerSize (b := b) (n := size) with ⟨hc, hle⟩ | ⟨len, hlen, hc⟩
      · rw [hc] at hlist'
        exact ⟨b.length, [], hlist', hfit.2, hle, .inl ⟨rfl, rfl⟩⟩
      · rw [hc] at hlist'
        refine ⟨size, [(a + headerSize + size, ⟨len, false⟩)], ?_, Nat.le_refl _, by omega,
          .inr ⟨len, hlen, rfl⟩⟩
        rw [hlist']
        simp only [located, Nat.add_assoc, List.cons_append, List.nil_append]

/-- In every such state `free` of the pointer that `malloc` just returned gives the block list back
that was there before `malloc`. -/
theorem heap_reachable_mallocFree {s s' : MemState} {m : Bytes.Mem} {h₀ h h₁ : Heap} {live : Live}
    (hi : memoryInit s m = some (s', h₀)) (hr : HeapReach (h₀, []) (h, live)) {size p : Nat}
    (hm : h.malloc size = some (some p, h₁)) :
    ∃ h₂, h₁.free p = some h₂ ∧ h₂.blockList = h.blockList := by
  obtain ⟨bs, hinv⟩ := (memoryInit_heapInv hi).reach hr
  rcases hinv.malloc_cases size with ⟨-, hn⟩ | ⟨pre, b, post, rfl, -, hb, hn⟩
  · rw [hn] at hm
    cases hm
  · rw [hn] at hm
    cases hm
    have hfit : Fits size b := not_unfit_iff.mp hb
    obtain ⟨h₂, hfree, hinv₂⟩ := hinv.free_carve hfit.1 (hinv.take hb)
    refine ⟨h₂, hfree, ?_⟩
    rw [hinv₂.tiled.blockList_eq, hinv.tiled.blockList_eq, hinv₂.start_eq, hinv.start_eq]

/-- A first allocation of 16 bytes takes the start of the heap. -/
theorem bootState_heap_malloc : ∃ s' h₀ h,
    memoryInit (bootState (2 ^ 15) (by decide)) (fun _ => 0) = some (s', h₀) ∧
      h₀.malloc 16 = some (some (virtualOffsetVmm + headerSize), h) := by
  obtain ⟨⟨s', h₀⟩, hi⟩ := Option.isSome_iff_exists.mp (bootState_memoryInit fun _ => 0)
  have hlist := (memoryInit_heapInv hi).tiled.blockList_eq
  rw [(memoryInit_heapInv hi).start_eq] at hlist
  obtain ⟨r, h, hm, hnone, -, hsome⟩ := heap_reachable_malloc hi .refl 16
  have hfits : Fits 16 ⟨initHeapSize - headerSize, false⟩ := by decide
  cases r with
  | none => exact absurd hfits (hnone.mp rfl (_, _) (by rw [hlist]; exact List.mem_cons_self))
  | some p =>
    obtain ⟨pre, a, b, post, hsplit, rfl, -⟩ := hsome p rfl
    have ha : (a, b) ∈ h₀.blockList := by
      rw [hsplit]
      exact List.mem_append_right _ List.mem_cons_self
    rw [hlist] at ha
    obtain ⟨rfl, -⟩ := Prod.mk.inj (List.mem_singleton.mp ha)
    exact ⟨s', h₀, h, hi, hm⟩

/-- The allocation is undone. -/
theorem bootState_heap_mallocFree : ∃ s' h₀ p h₁ h₂,
    memoryInit (bootState (2 ^ 15) (by decide)) (fun _ => 0) = some (s', h₀) ∧
      h₀.malloc 16 = some (some p, h₁) ∧ h₁.free p = some h₂ ∧ h₂.blockList = h₀.blockList := by
  obtain ⟨⟨s', h₀⟩, hi⟩ := Option.isSome_iff_exists.mp (bootState_memoryInit fun _ => 0)
  rcases (memoryInit_heapInv hi).malloc_cases 16 with ⟨hu, -⟩ | ⟨pre, b, post, -, -, -, hm⟩
  · rcases hu _ List.mem_cons_self with hu | hu
    · exact absurd hu (by decide)
    · cases hu
  · obtain ⟨h₂, hfree, hlist⟩ := heap_reachable_mallocFree hi .refl hm
    exact ⟨s', h₀, _, _, h₂, hi, hm, hfree, hlist⟩

end EszOs
