import Mathlib.Data.Set.Finite.Basic
import Mathlib.Logic.Function.Iterate

/-!
# Chains of links

A walk follows a link from each element with data to the next one and stops at an element without.

* `ends_iff`: if only finitely many elements have data, a walk stops exactly if it never comes back.
* `IsChain`, `exists_isChain`: a walk that stops has the list of what it passes.
-/

namespace Chains

universe u

variable {α : Type u}

section Definitions

variable (next : α → α) (data : α → Prop)

/-- The elements that a walk passes before it stops. -/
inductive IsChain : α → List α → Prop
  | stop {a : α} : ¬ data a → IsChain a []
  | step {a : α} {as : List α} : data a → IsChain (next a) as → IsChain a (a :: as)

/-- The walk is still going on after `n` links. -/
def Going (a : α) (n : Nat) : Prop := ∀ i < n, data (next^[i] a)

/-- The walk stops. -/
def Ends (a : α) : Prop := ∃ n, ¬ data (next^[n] a)

/-- The walk never comes back to an element that it has passed. -/
def NoReturn (a : α) : Prop :=
  ∀ i j, i < j → Going next data a (j + 1) → next^[i] a ≠ next^[j] a

end Definitions

variable {next : α → α} {data : α → Prop} {a : α} {as : List α} {n : Nat}

/-! ## Walks -/

@[simp] theorem going_zero : Going next data a 0 := fun _ h => absurd h (Nat.not_lt_zero _)

theorem going_succ : Going next data a (n + 1) ↔ data a ∧ Going next data (next a) n := by
  constructor
  · intro h
    exact ⟨h 0 (Nat.succ_pos n), fun i hi => h (i + 1) (Nat.succ_lt_succ hi)⟩
  · rintro ⟨hdata, h⟩ i hi
    cases i with
    | zero => exact hdata
    | succ i => exact h i (Nat.lt_of_succ_lt_succ hi)

theorem Going.mono {m : Nat} (h : Going next data a n) (hm : m ≤ n) : Going next data a m :=
  fun i hi => h i (Nat.lt_of_lt_of_le hi hm)

/-- A walk that comes back goes round for ever. -/
theorem iterate_of_return {i j : Nat} (hij : i < j) (h : next^[i] a = next^[j] a) (m : Nat) :
    ∃ k ≤ j, next^[m] a = next^[k] a := by
  induction m with
  | zero => exact ⟨0, Nat.zero_le _, rfl⟩
  | succ m ih =>
    obtain ⟨k, hk, heq⟩ := ih
    by_cases hlast : k = j
    · refine ⟨i + 1, hij, ?_⟩
      rw [Function.iterate_succ_apply', heq, hlast, ← h, Function.iterate_succ_apply']
    · refine ⟨k + 1, by omega, ?_⟩
      rw [Function.iterate_succ_apply', heq, Function.iterate_succ_apply']

/-- A walk among finitely many elements with data stops exactly if it never comes back. -/
theorem ends_iff (hfinite : {a | data a}.Finite) :
    Ends next data a ↔ NoReturn next data a := by
  constructor
  · rintro ⟨n, hn⟩ i j hij hgoing heq
    obtain ⟨k, hk, hnk⟩ := iterate_of_return hij heq n
    rw [hnk] at hn
    exact hn (hgoing k (Nat.lt_succ_of_le hk))
  · intro h
    by_contra hends
    have hdata : ∀ n, data (next^[n] a) := fun n => by
      by_contra hn
      exact hends ⟨n, hn⟩
    have hinj : Function.Injective fun n => next^[n] a := by
      intro i j heq
      rcases Nat.lt_trichotomy i j with hlt | rfl | hlt
      · exact absurd heq (h i j hlt fun k _ => hdata k)
      · rfl
      · exact absurd heq.symm (h j i hlt fun k _ => hdata k)
    exact Set.infinite_of_injective_forall_mem hinj hdata hfinite

/-! ## Chains -/

theorem IsChain.going (h : IsChain next data a as) : Going next data a as.length := by
  induction h with
  | stop _ => exact going_zero
  | step hdata _ ih => exact going_succ.mpr ⟨hdata, ih⟩

theorem IsChain.not_data (h : IsChain next data a as) : ¬ data (next^[as.length] a) := by
  induction h with
  | stop hstop => exact hstop
  | step _ _ ih => exact ih

/-- A walk that stops has a chain. -/
theorem exists_isChain (h : Ends next data a) : ∃ as, IsChain next data a as := by
  obtain ⟨n, hn⟩ := h
  induction n generalizing a with
  | zero => exact ⟨[], .stop hn⟩
  | succ n ih =>
    by_cases hdata : data a
    · obtain ⟨as, has⟩ := ih (a := next a) hn
      exact ⟨a :: as, .step hdata has⟩
    · exact ⟨[], .stop hdata⟩

theorem IsChain.data_of_mem (h : IsChain next data a as) {b : α} (hb : b ∈ as) : data b := by
  induction h with
  | stop _ => cases hb
  | step hdata _ ih =>
    rcases List.mem_cons.mp hb with rfl | hb
    · exact hdata
    · exact ih hb

/-- Only the links of elements with data matter. -/
theorem IsChain.congr {next' : α → α} (h : IsChain next data a as)
    (hnext : ∀ b, data b → next b = next' b) : IsChain next' data a as := by
  induction h with
  | stop hstop => exact .stop hstop
  | step hdata _ ih => exact .step hdata (hnext _ hdata ▸ ih)

/-- The walk is not longer than the chain. -/
theorem IsChain.going_iff (h : IsChain next data a as) : Going next data a n ↔ n ≤ as.length := by
  refine ⟨fun hn => ?_, fun hn => h.going.mono hn⟩
  by_contra hlt
  exact h.not_data (hn _ (Nat.lt_of_not_le hlt))

end Chains
