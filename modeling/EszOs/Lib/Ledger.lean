import Mathlib.Data.List.Perm.Basic
import Mathlib.Data.Set.Lattice
import Mathlib.Order.CompletePartialOrder

/-!
# Ledgers of disjoint sets

An allocator of sets: `used` is what is taken, `base` what was taken from the start, and `live`
lists the sets handed out since. `Ledger base used live` says that the books balance: `used` is
`base` with the live sets, which are apart from each other and from `base`.

* `Ledger.take`, `Ledger.give`: handing out a free set and getting a live set back.
* `Ledger.drain`: giving back every live set, in any order, leaves `base`.
-/

variable {α : Type*} {base used A : Set α} {live live' : List (Set α)}

/-- The books of an allocator balance. -/
structure Ledger (base used : Set α) (live : List (Set α)) : Prop where
  used_iff (x : α) : x ∈ used ↔ x ∈ base ∨ ∃ A ∈ live, x ∈ A
  apart : live.Pairwise Disjoint
  fresh : ∀ A ∈ live, Disjoint A base

namespace Ledger

theorem init (base : Set α) : Ledger base base [] :=
  ⟨fun x => by simp, .nil, by simp⟩

theorem live_subset (h : Ledger base used live) (hA : A ∈ live) : A ⊆ used :=
  fun x hx => (h.used_iff x).mpr (.inr ⟨A, hA, hx⟩)

theorem base_subset (h : Ledger base used live) : base ⊆ used :=
  fun x hx => (h.used_iff x).mpr (.inl hx)

/-- A set apart from what is used is handed out. -/
theorem take (h : Ledger base used live) (hA : Disjoint A used) :
    Ledger base (used ∪ A) (A :: live) := by
  refine ⟨fun x => ?_, List.pairwise_cons.mpr ⟨fun B hB => ?_, h.apart⟩, ?_⟩
  · simp only [Set.mem_union, h.used_iff x, List.mem_cons, exists_eq_or_imp]
    grind
  · exact hA.mono_right (h.live_subset hB)
  · rintro B (_ | ⟨_, hB⟩)
    · exact hA.mono_right h.base_subset
    · exact h.fresh B hB

/-- A live set is given back. -/
theorem give (h : Ledger base used (A :: live)) : Ledger base (used \ A) live := by
  obtain ⟨hA, hlive⟩ := List.pairwise_cons.mp h.apart
  refine ⟨fun x => ?_, hlive, fun B hB => h.fresh B (List.mem_cons_of_mem _ hB)⟩
  simp only [Set.mem_sdiff, h.used_iff x, List.mem_cons, exists_eq_or_imp]
  have hbase : x ∈ base → x ∉ A := fun hx hxA =>
    Set.disjoint_left.mp (h.fresh A List.mem_cons_self) hxA hx
  have hother : (∃ B ∈ live, x ∈ B) → x ∉ A := fun ⟨B, hB, hx⟩ hxA =>
    Set.disjoint_left.mp (hA B hB) hxA hx
  grind

/-- The order of the live sets does not matter. -/
theorem perm (h : Ledger base used live) (hp : live.Perm live') : Ledger base used live' := by
  refine ⟨fun x => ?_, ?_, fun A hA => h.fresh A (hp.mem_iff.mpr hA)⟩
  · simp only [h.used_iff x, hp.mem_iff]
  · exact (hp.pairwise_iff fun hAB => hAB.symm).mp h.apart

/-- Without live sets only `base` is used. -/
theorem used_eq_base (h : Ledger base used []) : used = base := by
  ext x
  simp [h.used_iff x]

/-- Giving back the live sets one after the other leaves `base`. -/
theorem drain (h : Ledger base used live) : live.foldl (· \ ·) used = base := by
  induction live generalizing used with
  | nil => exact h.used_eq_base
  | cons A live ih => exact ih h.give

end Ledger
