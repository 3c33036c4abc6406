import EszOs.Lib.Bytes
import Mathlib.Logic.Function.Basic

/-!
# A stack in memory

A machine with 64-bit registers `ρ`, a stack pointer and byte-addressed memory. The stack grows to
lower addresses; a push writes a word of eight bytes below the stack pointer.

* `pushAll_words`: the pushed words are at the new stack pointer, the last one first.
* `popAll_reg`: popping finds the registers that the words were taken from.
* `save_restore`: registers that are pushed, and popped in the opposite order, have their old values,
  whatever happens in between, if it keeps the stack.
-/

namespace Pushes

open Bytes

structure Machine (ρ : Type) where
  reg : ρ → UInt64
  sp : UInt64
  mem : Mem

/-- The word of eight bytes at `a`. -/
def word (m : Mem) (a : Nat) : UInt64 := UInt64.ofNat (readLE m a 8)

/-- The words `ws` are in memory one after the other, from `a` on. -/
def Words (m : Mem) (a : Nat) (ws : List UInt64) : Prop :=
  ∀ i (h : i < ws.length), word m (a + 8 * i) = ws[i]

variable {ρ : Type}

def push (s : Machine ρ) (w : UInt64) : Machine ρ :=
  { s with sp := s.sp - 8, mem := writeLE s.mem (s.sp - 8).toNat 8 w.toNat }

def pushAll (s : Machine ρ) (ws : List UInt64) : Machine ρ := ws.foldl push s

variable [DecidableEq ρ]

def pop (s : Machine ρ) (r : ρ) : Machine ρ :=
  { s with reg := Function.update s.reg r (word s.mem s.sp.toNat), sp := s.sp + 8 }

def popAll (s : Machine ρ) (rs : List ρ) : Machine ρ := rs.foldl pop s

/-! ## Words -/

section Words

variable {m m' : Mem} {a : Nat} {w : UInt64} {ws : List UInt64}

theorem word_writeLE (m : Mem) (a : Nat) (w : UInt64) : word (writeLE m a 8 w.toNat) a = w := by
  have hlt : w.toNat < 256 ^ 8 := w.toNat_lt
  rw [word, readLE_writeLE, Nat.mod_eq_of_lt hlt, UInt64.ofNat_toNat]

theorem word_congr (h : ∀ x, a ≤ x → x < a + 8 → m' x = m x) : word m' a = word m a := by
  rw [word, readLE_congr h, word]

theorem words_nil : Words m a [] := by
  intro i h
  simp at h

theorem words_cons : Words m a (w :: ws) ↔ word m a = w ∧ Words m (a + 8) ws := by
  constructor
  · intro h
    refine ⟨h 0 (Nat.succ_pos _), fun i hi => ?_⟩
    have hnext := h (i + 1) (Nat.succ_lt_succ hi)
    rwa [show a + 8 * (i + 1) = a + 8 + 8 * i by omega] at hnext
  · rintro ⟨hfirst, hrest⟩ i hi
    cases i with
    | zero => exact hfirst
    | succ i =>
      rw [show a + 8 * (i + 1) = a + 8 + 8 * i by omega]
      exact hrest i (Nat.lt_of_succ_lt_succ hi)

theorem words_append {vs : List UInt64} :
    Words m a (vs ++ ws) ↔ Words m a vs ∧ Words m (a + 8 * vs.length) ws := by
  induction vs generalizing a with
  | nil => simp [words_nil]
  | cons v vs ih =>
    rw [List.cons_append, words_cons, words_cons, ih, and_assoc, List.length_cons,
      show a + 8 * (vs.length + 1) = a + 8 + 8 * vs.length by omega]

theorem Words.congr (h : Words m a ws) (hm : ∀ x, a ≤ x → x < a + 8 * ws.length → m' x = m x) :
    Words m' a ws := by
  intro i hi
  rw [← h i hi]
  exact word_congr fun x hx hx' => hm x (by omega) (by omega)

end Words

/-! ## Pushing -/

section Push

omit [DecidableEq ρ]

variable {s : Machine ρ} {w : UInt64} {ws : List UInt64}

theorem toNat_sub_eight {a : UInt64} (h : 8 ≤ a.toNat) : (a - 8).toNat = a.toNat - 8 :=
  UInt64.toNat_sub_of_le a 8 (UInt64.le_iff_toNat_le.mpr h)

@[simp] theorem push_reg (s : Machine ρ) (w : UInt64) : (push s w).reg = s.reg := rfl

@[simp] theorem pushAll_reg (s : Machine ρ) (ws : List UInt64) : (pushAll s ws).reg = s.reg := by
  induction ws generalizing s with
  | nil => rfl
  | cons w ws ih => exact ih (push s w)

theorem pushAll_append (s : Machine ρ) (ws ws' : List UInt64) :
    pushAll s (ws ++ ws') = pushAll (pushAll s ws) ws' := List.foldl_append

theorem push_sp (h : 8 ≤ s.sp.toNat) : (push s w).sp.toNat = s.sp.toNat - 8 := toNat_sub_eight h

theorem push_mem_above {x : Nat} (h : 8 ≤ s.sp.toNat) (hx : s.sp.toNat ≤ x) :
    (push s w).mem x = s.mem x :=
  writeLE_outside (.inr (by rw [toNat_sub_eight h]; omega))

theorem pushAll_sp (h : 8 * ws.length ≤ s.sp.toNat) :
    (pushAll s ws).sp.toNat = s.sp.toNat - 8 * ws.length := by
  induction ws generalizing s with
  | nil => rfl
  | cons w ws ih =>
    rw [List.length_cons] at h ⊢
    have hsp : (push s w).sp.toNat = s.sp.toNat - 8 := push_sp (by omega)
    have hrest : (pushAll (push s w) ws).sp.toNat = _ := ih (by omega)
    rw [hsp] at hrest
    exact hrest.trans (by omega)

/-- What is on the stack stays there. -/
theorem pushAll_mem_above {x : Nat} (h : 8 * ws.length ≤ s.sp.toNat) (hx : s.sp.toNat ≤ x) :
    (pushAll s ws).mem x = s.mem x := by
  induction ws generalizing s with
  | nil => rfl
  | cons w ws ih =>
    rw [List.length_cons] at h
    have hsp : (push s w).sp.toNat = s.sp.toNat - 8 := push_sp (by omega)
    exact (ih (s := push s w) (by omega) (by omega)).trans (push_mem_above (by omega) hx)

theorem pushAll_words (h : 8 * ws.length ≤ s.sp.toNat) :
    Words (pushAll s ws).mem (pushAll s ws).sp.toNat ws.reverse := by
  induction ws generalizing s with
  | nil => exact words_nil
  | cons w ws ih =>
    rw [List.length_cons] at h
    have hsp : (push s w).sp.toNat = s.sp.toNat - 8 := push_sp (by omega)
    have hend : (pushAll (push s w) ws).sp.toNat = (push s w).sp.toNat - 8 * ws.length :=
      pushAll_sp (by omega)
    rw [List.reverse_cons]
    refine words_append.mpr ⟨ih (s := push s w) (by omega), words_cons.mpr ⟨?_, words_nil⟩⟩
    have haddr : (pushAll s (w :: ws)).sp.toNat + 8 * ws.reverse.length = (push s w).sp.toNat := by
      rw [List.length_reverse]
      exact (congrArg (· + 8 * ws.length) hend).trans (by omega)
    rw [haddr]
    have hkept : word (pushAll s (w :: ws)).mem (push s w).sp.toNat =
        word (push s w).mem (push s w).sp.toNat :=
      word_congr fun x hx _ => pushAll_mem_above (by omega) hx
    exact hkept.trans (word_writeLE _ _ _)

end Push

/-! ## Popping -/

variable {s : Machine ρ} {rs : List ρ}

@[simp] theorem popAll_mem (s : Machine ρ) (rs : List ρ) : (popAll s rs).mem = s.mem := by
  induction rs generalizing s with
  | nil => rfl
  | cons r rs ih => exact ih (pop s r)

theorem pop_sp {r : ρ} (h : s.sp.toNat + 8 < 2 ^ 64) : (pop s r).sp.toNat = s.sp.toNat + 8 := by
  rw [pop, UInt64.toNat_add]
  exact Nat.mod_eq_of_lt h

theorem popAll_sp (h : s.sp.toNat + 8 * rs.length < 2 ^ 64) :
    (popAll s rs).sp.toNat = s.sp.toNat + 8 * rs.length := by
  induction rs generalizing s with
  | nil => rfl
  | cons r rs ih =>
    rw [List.length_cons] at h ⊢
    have hsp : (pop s r).sp.toNat = s.sp.toNat + 8 := pop_sp (by omega)
    have hrest : (popAll (pop s r) rs).sp.toNat = _ := ih (by omega)
    rw [hsp] at hrest
    exact hrest.trans (by omega)

/-- The registers that are popped get the values whose words are on the stack. -/
theorem popAll_reg {f : ρ → UInt64} (h : Words s.mem s.sp.toNat (rs.map f))
    (hroom : s.sp.toNat + 8 * rs.length < 2 ^ 64) (r : ρ) :
    (popAll s rs).reg r = if r ∈ rs then f r else s.reg r := by
  induction rs generalizing s with
  | nil => simp [popAll]
  | cons q rs ih =>
    rw [List.length_cons] at hroom
    rw [List.map_cons, words_cons] at h
    have hsp : (pop s q).sp.toNat = s.sp.toNat + 8 := pop_sp (by omega)
    have hrest : (popAll (pop s q) rs).reg r = if r ∈ rs then f r else (pop s q).reg r :=
      ih (by rw [hsp]; exact h.2) (by omega)
    refine hrest.trans ?_
    by_cases hr : r ∈ rs
    · simp [hr]
    · by_cases hq : r = q
      · subst hq
        simp [hr, pop, h.1]
      · simp [hr, hq, pop]

/-! ## Saving registers -/

/-- Between the pushes and the pops a body may do what it likes, if it keeps the stack pointer and
what is on the stack. -/
theorem save_restore (s s' : Machine ρ) (rs : List ρ) (hroom : 8 * rs.length ≤ s.sp.toNat)
    (hsp : s'.sp = (pushAll s (rs.map s.reg)).sp)
    (hmem : ∀ x, s'.sp.toNat ≤ x → x < s.sp.toNat → s'.mem x = (pushAll s (rs.map s.reg)).mem x) :
    (popAll s' rs.reverse).sp = s.sp ∧
      ∀ r, (popAll s' rs.reverse).reg r = if r ∈ rs then s.reg r else s'.reg r := by
  have hlow : s'.sp.toNat = s.sp.toNat - 8 * rs.length := by
    rw [hsp, pushAll_sp (by rwa [List.length_map]), List.length_map]
  have hlen : rs.reverse.length = rs.length := List.length_reverse
  have hlt := s.sp.toNat_lt
  have hwords : Words s'.mem s'.sp.toNat (rs.reverse.map s.reg) := by
    rw [List.map_reverse]
    refine Words.congr (hsp ▸ pushAll_words (by rwa [List.length_map])) fun x hx hx' => hmem x hx ?_
    rw [List.length_reverse, List.length_map] at hx'
    omega
  constructor
  · refine UInt64.toNat_inj.mp ?_
    rw [popAll_sp (by omega)]
    omega
  · intro r
    rw [popAll_reg hwords (by omega)]
    simp

end Pushes
