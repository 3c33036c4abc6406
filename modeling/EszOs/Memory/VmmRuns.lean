import Mathlib.Logic.Relation
import EszOs.Memory.VmmCore

/-!
# Runs of the VMM

A run starts from the page tables the bootloader left (`BootTables`) and `init_vmm`, and is any
sequence of `vmm_malloc_pages` calls, failing ones included, and `vmm_free_pages` calls of live
allocations (`VmmStep`). `live` lists the live allocations: address and requested bytes.

`VmmInv` adds to `VmmCore` that the bits of live ranges are set, that their pages are mapped, and
that the ranges do not overlap. `VmmInv.step` keeps it, so it holds in every reachable state
(`VmmInv.reach`).
-/

namespace EszOs

open Bytes Radix

/-- The live allocations: address and requested bytes. -/
abbrev LivePages := List (Nat × Nat)

/-- One call. -/
inductive VmmStep : MemState × LivePages → MemState × LivePages → Prop
  | malloc {s s' : MemState} {live : LivePages} {n a : Nat} (hn : n < 2 ^ 64)
      (hm : s.vmmMallocPages n = (a, s')) (ha : a ≠ 0) : VmmStep (s, live) (s', (a, n) :: live)
  | mallocFail {s s' : MemState} {live : LivePages} {n : Nat} (hn : n < 2 ^ 64)
      (hm : s.vmmMallocPages n = (0, s')) : VmmStep (s, live) (s', live)
  | free {s s' : MemState} {live : LivePages} {a n : Nat} {ok : Bool} (hp : (a, n) ∈ live)
      (hf : s.vmmFreePages a n = (ok, s')) : VmmStep (s, live) (s', live.erase (a, n))

/-- The states that a run from `s₀` reaches. -/
abbrev VmmReach := Relation.ReflTransGen VmmStep

/-- What the bootloader leaves: no page table is a free page, the VMM region is not mapped, and if
some of its tables are there already, they serve this region alone and their unused entries are
clear of `PageSizeOrPAT`. -/
structure BootTables (s : MemState) : Prop where
  taken {π : List Index} {t : Nat} (h : s.tableAt π = some t) : ¬ s.pmm.Free t
  unmapped {k : Nat} (hk : k < s.pmm.count) : s.translate (vmmPageAddr k) = none
  owned : Owned (vmmPaths s.pmm.count) s.tree
  clear {k : Nat} (hk : k < s.pmm.count) : NoLargePage s (vmmPageAddr k)

/-- Nothing is mapped in the region where its PML4 entries are zero. -/
theorem bootTables_of_zero {s : MemState}
    (taken : ∀ {π t}, s.tableAt π = some t → ¬ s.pmm.Free t)
    (hz : ∀ k < s.pmm.count, s.tables s.root (getPML4Index (vmmPageAddr k)) = .zero) :
    BootTables s := by
  -- The root is the only table on the paths of the region.
  have hroot : ∀ {π t}, Part (vmmPaths s.pmm.count) π → s.tableAt π = some t → π = [] := by
    rintro π t ⟨q, ⟨k, hk, rfl⟩, hp⟩ ht
    cases π with
    | nil => rfl
    | cons i π =>
      obtain rfl := (List.cons_prefix_cons.mp hp).1
      simp only [MemState.tableAt, Tree.nodeAt, Tree.descend, MemState.tree, hz k hk,
        slotOf_zero] at ht
      cases ht
  exact {
    taken := taken
    unmapped := fun {k} hk => by
      simp only [MemState.translate, path, Tree.walk, Tree.walkFrom, MemState.tree, hz k hk,
        slotOf_zero, Option.map_none]
    owned := {
      unique := fun hπ hπ' h h' => by rw [hroot hπ h, hroot hπ' h']
      depth := fun hπ h _ => by rw [hroot hπ h]; exact Nat.zero_le _ }
    clear := fun {k} hk π i hp _ t ht => by
      have hnil := hroot ⟨_, path_mem_vmmPaths hk, (List.prefix_append π [i]).trans hp⟩ ht
      subst hnil
      obtain rfl := (List.cons_prefix_cons.mp hp).1
      cases ht
      rw [show s.tree.root = s.root from rfl, hz k hk]
      rfl }

/-- The live allocation `q` has its bits set and its pages mapped. -/
structure LiveRange (s : MemState) (q : Nat × Nat) : Prop where
  addr : q.1 = vmmPageAddr (firstPage q.1)
  pos : 0 < reqPages q.2
  le : firstPage q.1 + reqPages q.2 ≤ s.vmm.count
  bits {k : Nat} (h1 : firstPage q.1 ≤ k) (h2 : k < firstPage q.1 + reqPages q.2) :
    bitRead s.vmm.bitmap k = true
  mapped {k : Nat} (h1 : firstPage q.1 ≤ k) (h2 : k < firstPage q.1 + reqPages q.2) :
    (s.backing k).isSome

/-- The ranges of two allocations do not overlap. -/
def RangesApart (q q' : Nat × Nat) : Prop :=
  firstPage q.1 + reqPages q.2 ≤ firstPage q'.1 ∨ firstPage q'.1 + reqPages q'.2 ≤ firstPage q.1

/-- The invariant of the VMM. -/
structure VmmInv (s : MemState) (live : LivePages) : Prop where
  core : VmmCore s
  range {q : Nat × Nat} (hq : q ∈ live) : LiveRange s q
  apart : live.Pairwise RangesApart

namespace VmmInv

variable {s s' : MemState} {live : LivePages}

theorem rangesApart_symm {q q' : Nat × Nat} (h : RangesApart q q') : RangesApart q' q := Or.symm h

/-- A live range that a call leaves alone. -/
theorem liveRange_congr {q : Nat × Nat} {b n : Nat} (hq : LiveRange s q)
    (hcount : s'.vmm.count = s.vmm.count)
    (hout : firstPage q.1 + reqPages q.2 ≤ b ∨ b + n ≤ firstPage q.1)
    (hbits : ∀ p, p < b ∨ b + n ≤ p → bitRead s'.vmm.bitmap p = bitRead s.vmm.bitmap p)
    (hback : ∀ k < s.vmm.count, k < b ∨ b + n ≤ k → s'.backing k = s.backing k) :
    LiveRange s' q where
  addr := hq.addr
  pos := hq.pos
  le := hcount ▸ hq.le
  bits h1 h2 := by rw [hbits _ (by omega), hq.bits h1 h2]
  mapped {k} h1 h2 := by
    have := hq.le
    rw [hback k (by omega) (by omega)]
    exact hq.mapped h1 h2

/-- A free run lies apart from the live ranges. -/
theorem apart_of_freeRun {q : Nat × Nat} {b n : Nat} (hq : LiveRange s q) (hn : 0 < n)
    (hrun : s.vmm.FreeRun n b) : firstPage q.1 + reqPages q.2 ≤ b ∨ b + n ≤ firstPage q.1 := by
  by_contra hc
  have hpos := hq.pos
  -- The later of the two starts lies in both.
  obtain ⟨k, h1, h2, h3, h4⟩ : ∃ k, b ≤ k ∧ k < b + n ∧ firstPage q.1 ≤ k ∧
      k < firstPage q.1 + reqPages q.2 :=
    ⟨max b (firstPage q.1), by omega, by omega, by omega, by omega⟩
  have := hrun.2 k h1 h2
  rw [hq.bits h3 h4] at this
  cases this

/-- `vmm_malloc_pages` keeps the invariant; a range it returns is live from then on. -/
theorem malloc {n a : Nat} (hi : VmmInv s live) (hm : s.vmmMallocPages n = (a, s')) :
    VmmInv s' live ∧ (a ≠ 0 → VmmInv s' ((a, n) :: live)) := by
  cases hf : s.vmm.findFreeRange (reqPages n) with
  | mk b found =>
    cases found with
    | false =>
      rw [vmmMallocPages_notFound (by rw [hf])] at hm
      obtain ⟨rfl, rfl⟩ := Prod.mk.inj hm
      exact ⟨hi, fun h => absurd rfl h⟩
    | true =>
      obtain ⟨hpos, hrun, -⟩ := Bitmap.findFreeRange_some hf
      have hb := hrun.1
      have hle := s.vmm_le
      rw [vmmMallocPages_found hf] at hm
      obtain ⟨s₁, hs₁⟩ : ∃ s₁, s₁ = s.reserve (reqPages n) b := ⟨_, rfl⟩
      have hC₁ : VmmCore s₁ := hs₁ ▸ hi.core.reserve _ _
      have hcount₁ : s₁.vmm.count = s.vmm.count := by rw [hs₁]; rfl
      have hbits₁ : ∀ p, bitRead s₁.vmm.bitmap p =
          if b ≤ p ∧ p < b + reqPages n then true else bitRead s.vmm.bitmap p := fun p => by
        rw [hs₁]; exact bitRead_reserve hb p
      have hback₁ : ∀ k, s₁.backing k = s.backing k := fun k => by rw [hs₁]; rfl
      rw [← hs₁] at hm
      obtain ⟨hC', hcount, hbits, hback, hdone⟩ :=
        hC₁.mallocLoop (b := b) (n := reqPages n) (i := 0) true (Nat.zero_add _).le (by omega)
      simp only at hm
      generalize s₁.vmmMallocLoop (reqPages n) b (reqPages n) 0 true = r at *
      obtain ⟨ok, s₂⟩ := r
      rw [hcount₁] at hcount hback
      have hkeep : ∀ {q}, q ∈ live → LiveRange s₂ q := fun hq =>
        liveRange_congr (hi.range hq) hcount (apart_of_freeRun (hi.range hq) hpos hrun)
          (fun p hp => by rw [hbits p hp, hbits₁, if_neg (by omega)])
          (fun k hk hout => by rw [hback k hk (by omega), hback₁])
      have hsame : s₂ = s' ∧ (a ≠ 0 → ok = true ∧ a = vmmPageAddr b) := by
        cases ok
        · simp only [Bool.false_eq_true, ↓reduceIte, Prod.mk.injEq] at hm
          exact ⟨hm.2, fun h => absurd hm.1.symm h⟩
        · simp only [↓reduceIte, Prod.mk.injEq] at hm
          exact ⟨hm.2, fun _ => ⟨rfl, hm.1.symm⟩⟩
      obtain ⟨rfl, hres⟩ := hsame
      refine ⟨⟨hC', hkeep, hi.apart⟩, fun ha => ?_⟩
      obtain ⟨hok, hab⟩ := hres ha
      obtain ⟨hvmm, hall⟩ := hdone hok
      have hfirst : firstPage a = b := by rw [hab]; exact firstPage_vmmPageAddr (by omega)
      refine ⟨hC', fun hq => ?_, List.pairwise_cons.mpr ⟨fun q hq => ?_, hi.apart⟩⟩
      · rcases List.mem_cons.mp hq with rfl | hq
        · exact {
            addr := by simp only [hfirst]; exact hab
            pos := hpos
            le := by rw [hcount]; simp only [hfirst]; exact hb
            bits := fun {k} h1 h2 => by
              simp only [hfirst] at h1 h2
              rw [hvmm, hbits₁, if_pos ⟨h1, h2⟩]
            mapped := fun {k} h1 h2 => by
              simp only [hfirst] at h1 h2
              exact hall k (by omega) (by omega) }
        · exact hkeep hq
      · simp only [RangesApart, hfirst]
        exact (apart_of_freeRun (hi.range hq) hpos hrun).symm

/-- The loop of `vmm_free_pages` over the range of `m` pages from page `b` keeps the invariant for
the allocations apart from it. -/
theorem freeLoop {a n b m : Nat} {ok : Bool} (hi : VmmInv s live) (ha : a = vmmPageAddr b)
    (hle : b + m ≤ s.vmm.count)
    (hfar : ∀ q ∈ live.erase (a, n),
      firstPage q.1 + reqPages q.2 ≤ b ∨ b + m ≤ firstPage q.1)
    (hf : MemState.vmmFreeLoop a m 0 b s true = (ok, s')) : VmmInv s' (live.erase (a, n)) := by
  obtain ⟨hC', hcount, hbits, hback⟩ := hi.core.freeLoop (n := m) (i := 0) b true ha (by omega)
    ⟨by omega, by omega⟩
  rw [hf] at hC' hcount hbits hback
  refine ⟨hC', fun {q} hq => ?_, hi.apart.sublist List.erase_sublist⟩
  exact liveRange_congr (hi.range (List.mem_of_mem_erase hq)) hcount (hfar q hq)
    (fun p hp => hbits p (by omega)) fun k hk hout => hback k hk (by omega)

/-- `vmm_free_pages` of a live allocation keeps the invariant. -/
theorem free {a n : Nat} {ok : Bool} (hi : VmmInv s live) (hp : (a, n) ∈ live)
    (hf : s.vmmFreePages a n = (ok, s')) : VmmInv s' (live.erase (a, n)) := by
  have hr := hi.range hp
  have hpair := ((List.perm_cons_erase hp).pairwise_iff rangesApart_symm).mp hi.apart
  refine hi.freeLoop (b := firstPage a) (m := reqPages n) hr.addr hr.le (fun q hq => ?_) hf
  exact ((List.pairwise_cons.mp hpair).1 q hq).symm

/-- Every step keeps the invariant. -/
theorem step {t : MemState × LivePages} (hi : VmmInv s live) (hs : VmmStep (s, live) t) :
    VmmInv t.1 t.2 := by
  cases hs with
  | malloc _ hm ha => exact (hi.malloc hm).2 ha
  | mallocFail _ hm => exact (hi.malloc hm).1
  | free hp hf => exact hi.free hp hf

/-- Every reachable state satisfies the invariant. -/
theorem reach {t : MemState × LivePages} (hi : VmmInv s []) (hr : VmmReach (s, []) t) :
    VmmInv t.1 t.2 := by
  induction hr with
  | refl => exact hi
  | tail _ hs ih => exact ih.step hs

end VmmInv

end EszOs
