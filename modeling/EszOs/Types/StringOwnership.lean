import EszOs.Types.StringObject

/-!
# Who frees the blocks of the strings

The functions of `string.cpp` return a block that the caller owns, and `to_string` of a negative
integer leaves one that nobody does: the digits it puts the sign before.

* `Operation.program_owns`: an operation faults nowhere, and leaves the blocks of the strings and a
  block for each negative integer that a `String` is constructed from.
* `strings_balanced_iff`: in every state of a run the allocated blocks are those of the live strings,
  exactly if no `String` is constructed from a negative integer.
-/

namespace EszOs

open BlockHeap

/-- The integer is below zero. -/
def Integer.Negative : Integer → Prop
  | int64 n => n < 0
  | int32 n => n < 0
  | int16 n => n < 0
  | int8 n => n < 0
  | _ => False

instance : DecidablePred Integer.Negative
  | .int64 n => inferInstanceAs (Decidable (n < 0))
  | .int32 n => inferInstanceAs (Decidable (n < 0))
  | .int16 n => inferInstanceAs (Decidable (n < 0))
  | .int8 n => inferInstanceAs (Decidable (n < 0))
  | .uint64 _ | .uint32 _ | .uint16 _ | .uint8 _ => .isFalse id

/-- What is not negative is not in the widest type. -/
theorem toInt64_nonneg {n : UInt64} (h : n.toNat < 2 ^ 63) : ¬ n.toInt64 < 0 := by
  have hint : n.toInt64.toInt = n.toNat := BitVec.toInt_eq_toNat_of_lt (x := n.toBitVec) (by
    show 2 * n.toNat < 2 ^ 64
    omega)
  rw [Int64.lt_iff_toInt_lt, hint]
  exact Int.not_lt.mpr (Int.natCast_nonneg _)

/-- The blocks that `to_cstr` of the part leaves behind. -/
def Part.leaks : Part → Nat
  | .integer n => if n.Negative then 1 else 0
  | _ => 0

/-- What a `const char*` points to is there. -/
def CharPtr.Readable (P : Multiset Nat) : CharPtr → Prop
  | text _ => True
  | block p => p ∈ P

def Part.Readable (P : Multiset Nat) : Part → Prop
  | .chars s => s.Readable P
  | .string data => data ∈ P
  | _ => True

theorem CharPtr.Readable.mono {P P' : Multiset Nat} (h : P ⊆ P') {s : CharPtr}
    (hs : s.Readable P) : s.Readable P' := by
  cases s with
  | text s => trivial
  | block p => exact h hs

theorem Part.Readable.mono {P P' : Multiset Nat} (h : P ⊆ P') {part : Part}
    (hpart : part.Readable P) : part.Readable P' := by
  cases part with
  | chars s => exact CharPtr.Readable.mono h hpart
  | string data => exact h hpart
  | char c => trivial
  | integer n => trivial

section

variable (A : Allocator Nat) {P : Multiset Nat}

/-! ## `string.cpp` -/

theorem mallocStr_owns (size : Nat) : Owns P (mallocStr A size) fun p M => M = p ::ₘ P :=
  Owns.malloc A size []

theorem mallocEmptyStr_owns : Owns P (mallocEmptyStr A) fun p M => M = p ::ₘ P := by
  refine (mallocStr_owns A 2).bindEq fun p => ?_
  refine (Owns.store (Multiset.mem_cons_self p P) _).bindEq fun _ => ?_
  exact Owns.pure rfl

theorem readStr_owns {s : CharPtr} (hs : s.Readable P) : Owns P (readStr s) fun _ M => M = P := by
  cases s with
  | text s => exact Owns.pure rfl
  | block p => exact Owns.load hs

theorem strCombine_owns {a b : CharPtr} (ha : a.Readable P) (hb : b.Readable P) :
    Owns P (strCombine A a b) fun p M => M = p ::ₘ P := by
  refine (readStr_owns ha).bindEq fun textA => ?_
  refine (readStr_owns hb).bindEq fun textB => ?_
  refine (mallocStr_owns A _).bindEq fun p => ?_
  refine (Owns.store (Multiset.mem_cons_self p P) _).bindEq fun _ => ?_
  exact Owns.pure rfl

theorem strCombineChar_owns {a : CharPtr} (ha : a.Readable P) (b : UInt8) :
    Owns P (strCombineChar A a b) fun p M => M = p ::ₘ P := by
  refine (readStr_owns ha).bindEq fun textA => ?_
  refine (mallocStr_owns A _).bindEq fun p => ?_
  refine (Owns.store (Multiset.mem_cons_self p P) _).bindEq fun _ => ?_
  exact Owns.pure rfl

theorem copyStr_owns {s : CharPtr} (hs : s.Readable P) :
    Owns P (copyStr A s) fun p M => M = p ::ₘ P := by
  refine (readStr_owns hs).bindEq fun text => ?_
  refine (mallocStr_owns A _).bindEq fun p => ?_
  refine (Owns.store (Multiset.mem_cons_self p P) _).bindEq fun _ => ?_
  exact Owns.pure rfl

theorem toStringU64_owns (inputValue : UInt64) (base : UInt8) :
    Owns P (toStringU64 A inputValue base) fun p M => M = p ::ₘ P := by
  unfold toStringU64
  split
  · exact mallocEmptyStr_owns A
  · refine (mallocStr_owns A _).bindEq fun composedString => ?_
    refine (mallocStr_owns A _).bindEq fun returnString => ?_
    have hmem : composedString ∈ returnString ::ₘ composedString ::ₘ P :=
      Multiset.mem_cons_of_mem (Multiset.mem_cons_self _ _)
    refine (Owns.store hmem _).bindEq fun _ => ?_
    refine (Owns.load hmem).bindEq fun composed => ?_
    refine (Owns.store (Multiset.mem_cons_self _ _) _).bindEq fun _ => ?_
    rw [Multiset.cons_swap]
    refine Owns.free.bindEq fun _ => ?_
    exact Owns.pure rfl

/-- The digits of a negative integer are left behind. -/
theorem toStringI64_owns (inputValue : Int64) (base : UInt8) :
    Owns P (toStringI64 A inputValue base) fun p M =>
      ∃ leaked : Multiset Nat, M = p ::ₘ (leaked + P) ∧
        leaked.card = if inputValue < 0 then 1 else 0 := by
  unfold toStringI64
  split
  · rename_i hpos
    refine (toStringU64_owns A _ base).imp fun p M hM => ⟨0, ?_, ?_⟩
    · rw [hM, Multiset.zero_add]
    · rw [Multiset.card_zero, if_neg (Int64.not_lt.mpr hpos)]
  · rename_i hneg
    refine (toStringU64_owns A _ base).bindEq fun digits => ?_
    have hdigits : CharPtr.Readable (digits ::ₘ P) (.block digits) := Multiset.mem_cons_self _ _
    have hsign : CharPtr.Readable (digits ::ₘ P) (.text (literal "-")) := trivial
    refine (strCombine_owns A hsign hdigits).imp ?_
    rintro p M rfl
    refine ⟨{digits}, ?_, ?_⟩
    · rw [Multiset.singleton_add]
    · rw [Multiset.card_singleton, if_pos (Int64.not_le.mp hneg)]

/-! ## `string.h` -/

theorem Integer.toCstr_owns (n : Integer) :
    Owns P (n.toCstr A) fun p M =>
      ∃ leaked : Multiset Nat, M = p ::ₘ (leaked + P) ∧
        leaked.card = if n.Negative then 1 else 0 := by
  have hunsigned : ∀ {m : StringProgram Nat}, Owns P m (fun p M => M = p ::ₘ P) →
      Owns P m fun p M => ∃ leaked : Multiset Nat, M = p ::ₘ (leaked + P) ∧
        leaked.card = if False then 1 else 0 := fun hm =>
    hm.imp fun p M hM => ⟨0, by rw [hM, Multiset.zero_add], by rw [if_neg id, Multiset.card_zero]⟩
  have hsigned : ∀ {i : Int64} {φ : Prop} [Decidable φ], (i < 0 ↔ φ) →
      Owns P (toStringI64 A i 10) fun p M => ∃ leaked : Multiset Nat, M = p ::ₘ (leaked + P) ∧
        leaked.card = if φ then 1 else 0 := fun {i φ _} hφ =>
    (toStringI64_owns A i 10).imp fun p M ⟨leaked, hM, hcard⟩ =>
      ⟨leaked, hM, by rw [hcard]; exact if_congr hφ rfl rfl⟩
  have hnonneg : ∀ {i : UInt64}, i.toNat < 2 ^ 32 → (i.toInt64 < 0 ↔ False) := fun hi =>
    iff_of_false (toInt64_nonneg (Nat.lt_trans hi (by decide))) id
  cases n with
  | uint64 n => exact hunsigned (toStringU64_owns A n 10)
  | int64 n => exact hsigned Iff.rfl
  | uint32 n => exact hunsigned (toStringU64_owns A _ 10)
  | int32 n =>
    refine hsigned ?_
    rw [Int64.lt_iff_toInt_lt, Int32.toInt_toInt64]
    exact (Int32.lt_iff_toInt_lt (x := n) (y := 0)).symm
  | uint16 n => exact hsigned (hnonneg (Nat.lt_trans n.toNat_lt (by decide)))
  | int16 n =>
    refine hsigned ?_
    rw [Int64.lt_iff_toInt_lt, Int16.toInt_toInt64]
    exact (Int16.lt_iff_toInt_lt (x := n) (y := 0)).symm
  | uint8 n => exact hsigned (hnonneg (Nat.lt_trans n.toNat_lt (by decide)))
  | int8 n =>
    refine hsigned ?_
    rw [Int64.lt_iff_toInt_lt, Int8.toInt_toInt64]
    exact (Int8.lt_iff_toInt_lt (x := n) (y := 0)).symm

theorem Part.toCstr_owns {part : Part} (hpart : part.Readable P) :
    Owns P (part.toCstr A) fun p M =>
      ∃ leaked : Multiset Nat, M = p ::ₘ (leaked + P) ∧ leaked.card = part.leaks := by
  have hcopy : ∀ {m : StringProgram Nat}, Owns P m (fun p M => M = p ::ₘ P) →
      Owns P m fun p M => ∃ leaked : Multiset Nat, M = p ::ₘ (leaked + P) ∧ leaked.card = 0 :=
    fun hm => hm.imp fun p M hM => ⟨0, by rw [hM, Multiset.zero_add], Multiset.card_zero⟩
  cases part with
  | chars s => exact hcopy (copyStr_owns A hpart)
  | string data => exact hcopy (copyStr_owns A hpart)
  | char c =>
    refine hcopy ((mallocStr_owns A 2).bindEq fun p => ?_)
    refine (Owns.store (Multiset.mem_cons_self p P) _).bindEq fun _ => ?_
    exact Owns.pure rfl
  | integer n => exact n.toCstr_owns A

/-- The copies belong to the call. -/
theorem passArgs_owns {args : List Part} (hargs : ∀ arg ∈ args, arg.Readable P) :
    Owns P (passArgs A args) fun copies M =>
      M = ↑(copies.flatMap Part.owned) + P ∧ (∀ copy ∈ copies, copy.Readable M) ∧
        copies.map Part.leaks = args.map Part.leaks := by
  induction args generalizing P with
  | nil => exact Owns.pure ⟨(Multiset.zero_add P).symm, fun _ h => absurd h List.not_mem_nil, rfl⟩
  | cons arg args ih =>
    obtain ⟨harg, hrest⟩ := List.forall_mem_cons.mp hargs
    have hone : Owns P (arg.byValue A) fun copy M =>
        M = ↑copy.owned + P ∧ copy.Readable M ∧ copy.leaks = arg.leaks := by
      cases arg with
      | string data =>
        refine (copyStr_owns A (s := .block data) harg).bindEq fun p => ?_
        exact Owns.pure ⟨rfl, Multiset.mem_cons_self p P, rfl⟩
      | chars s => exact Owns.pure ⟨(Multiset.zero_add P).symm, harg, rfl⟩
      | char c => exact Owns.pure ⟨(Multiset.zero_add P).symm, harg, rfl⟩
      | integer n => exact Owns.pure ⟨(Multiset.zero_add P).symm, harg, rfl⟩
    refine hone.bind fun copy M ⟨hM, hcopy, hleaks⟩ => ?_
    have hsub : P ⊆ M := by
      rw [hM]
      exact Multiset.subset_of_le (Multiset.le_add_left P _)
    refine (ih fun arg h => (hrest arg h).mono hsub).bind fun copies N ⟨hN, hcopies, hleaks'⟩ => ?_
    have hsub' : M ⊆ N := by
      rw [hN]
      exact Multiset.subset_of_le (Multiset.le_add_left M _)
    refine Owns.pure ⟨?_, List.forall_mem_cons.mpr ⟨hcopy.mono hsub', hcopies⟩, ?_⟩
    · rw [hN, hM, List.flatMap_cons, ← Multiset.coe_add, ← Multiset.add_assoc,
        Multiset.add_comm (copy.owned : Multiset Nat)]
    · rw [List.map_cons, List.map_cons, hleaks, hleaks']

theorem destroyArgs_owns (args : List Nat) :
    Owns ((args : Multiset Nat) + P) (destroyArgs args) fun _ M => M = P := by
  induction args with
  | nil => exact Owns.pure (Multiset.zero_add P)
  | cons data args ih =>
    have hhead : ((data :: args : List Nat) : Multiset Nat) + P = data ::ₘ (↑args + P) := by
      rw [← Multiset.cons_coe, Multiset.cons_add]
    rw [hhead]
    exact Owns.free.bindEq fun _ => ih

theorem toCstrs_owns {args : List Part} (hargs : ∀ arg ∈ args, arg.Readable P) :
    Owns P (toCstrs A args) fun parts M =>
      ∃ leaked : Multiset Nat, M = ↑parts + (leaked + P) ∧
        leaked.card = (args.map Part.leaks).sum := by
  induction args generalizing P with
  | nil => exact Owns.pure ⟨0, by rw [Multiset.coe_nil, Multiset.zero_add, Multiset.zero_add], rfl⟩
  | cons arg args ih =>
    obtain ⟨harg, hrest⟩ := List.forall_mem_cons.mp hargs
    refine (Part.toCstr_owns A harg).bind fun part M ⟨leaked, hM, hcard⟩ => ?_
    have hsub : P ⊆ M := by
      rw [hM]
      exact Multiset.subset_of_le ((Multiset.le_add_left P _).trans (Multiset.le_cons_self _ _))
    refine (ih fun arg h => (hrest arg h).mono hsub).bind fun parts N ⟨leaked', hN, hcard'⟩ => ?_
    refine Owns.pure ⟨leaked' + leaked, ?_, ?_⟩
    · rw [hN, hM, ← Multiset.cons_coe, Multiset.cons_add, Multiset.add_cons, Multiset.add_cons,
        Multiset.add_assoc]
    · rw [Multiset.card_add, hcard, hcard', List.map_cons, List.sum_cons, Nat.add_comm]

/-- The loop frees the parts. -/
theorem combineParts_owns (data : Nat) (parts : List Nat) :
    Owns (data ::ₘ (↑parts + P)) (combineParts A data parts) fun p M => M = p ::ₘ P := by
  induction parts generalizing data with
  | nil => exact Owns.pure (by rw [Multiset.coe_nil, Multiset.zero_add])
  | cons part parts ih =>
    have hparts : ((part :: parts : List Nat) : Multiset Nat) + P = part ::ₘ (↑parts + P) := by
      rw [← Multiset.cons_coe, Multiset.cons_add]
    rw [hparts]
    have hdata : CharPtr.Readable (data ::ₘ part ::ₘ (↑parts + P)) (.block data) :=
      Multiset.mem_cons_self _ _
    have hpart : CharPtr.Readable (data ::ₘ part ::ₘ (↑parts + P)) (.block part) :=
      Multiset.mem_cons_of_mem (Multiset.mem_cons_self _ _)
    refine (strCombine_owns A hdata hpart).bindEq fun combined => ?_
    rw [Multiset.cons_swap]
    refine Owns.free.bindEq fun _ => ?_
    rw [Multiset.cons_swap]
    refine Owns.free.bindEq fun _ => ?_
    exact ih combined

/-- The constructor returns its block, and leaves those of the negative integers. -/
theorem construct_owns {args : List Part} (hargs : ∀ arg ∈ args, arg.Readable P) :
    Owns P (construct A args) fun p M =>
      ∃ leaked : Multiset Nat, M = p ::ₘ (leaked + P) ∧
        leaked.card = (args.map Part.leaks).sum := by
  refine (passArgs_owns A hargs).bind fun copies M ⟨hM, hcopies, hleaks⟩ => ?_
  refine (toCstrs_owns A hcopies).bind fun parts N ⟨leaked, hN, hcard⟩ => ?_
  refine (mallocStr_owns A 1).bindEq fun data => ?_
  rw [hN]
  refine (combineParts_owns A data parts).bindEq fun combined => ?_
  have howned : combined ::ₘ (leaked + M) =
      ↑(copies.flatMap Part.owned) + (combined ::ₘ (leaked + P)) := by
    rw [hM, Multiset.add_cons, ← Multiset.add_assoc, ← Multiset.add_assoc,
      Multiset.add_comm leaked]
  rw [howned]
  refine (destroyArgs_owns _).bindEq fun _ => ?_
  exact Owns.pure ⟨leaked, rfl, by rw [hcard, hleaks]⟩

/-! ## Assignment -/

theorem assign_owns {data b : Nat} (hb : b ∈ data ::ₘ P) :
    Owns (data ::ₘ P) (assign A data b) fun p M => M = p ::ₘ P := by
  refine (copyStr_owns A (s := .block b) hb).bindEq fun copy => ?_
  rw [Multiset.cons_swap]
  refine Owns.free.bindEq fun _ => ?_
  exact Owns.pure rfl

theorem addAssign_owns {data : Nat} {b : CharPtr} (hb : b.Readable (data ::ₘ P)) :
    Owns (data ::ₘ P) (addAssign A data b) fun p M => M = p ::ₘ P := by
  have hdata : CharPtr.Readable (data ::ₘ P) (.block data) := Multiset.mem_cons_self _ _
  refine (strCombine_owns A hdata hb).bindEq fun combined => ?_
  rw [Multiset.cons_swap]
  refine Owns.free.bindEq fun _ => ?_
  exact Owns.pure rfl

theorem addAssignChar_owns (data : Nat) (b : UInt8) :
    Owns (data ::ₘ P) (addAssignChar A data b) fun p M => M = p ::ₘ P := by
  have hdata : CharPtr.Readable (data ::ₘ P) (.block data) := Multiset.mem_cons_self _ _
  refine (strCombineChar_owns A hdata b).bindEq fun combined => ?_
  rw [Multiset.cons_swap]
  refine Owns.free.bindEq fun _ => ?_
  exact Owns.pure rfl

/-! ## Operations -/

/-- The argument is an integer below zero. -/
def Argument.Negative : Argument → Prop
  | integer n => n.Negative
  | _ => False

/-- A `String` is constructed from a negative integer. -/
def Operation.Negative : Operation → Prop
  | construct args => ∃ arg ∈ args, arg.Negative
  | _ => False

theorem Operand.readable_of_resolve {strings : List Nat} {s : Operand} {p : CharPtr}
    (h : s.resolve strings = some p) : p.Readable strings := by
  cases s with
  | text s =>
    cases h
    trivial
  | dataOf i =>
    obtain ⟨data, hi, rfl⟩ := Option.map_eq_some_iff.mp h
    exact List.mem_of_getElem? hi

theorem Argument.readable_of_resolve {strings : List Nat} {arg : Argument} {part : Part}
    (h : arg.resolve strings = some part) : part.Readable strings := by
  cases arg with
  | chars s =>
    obtain ⟨p, hp, rfl⟩ := Option.map_eq_some_iff.mp h
    exact s.readable_of_resolve hp
  | string i =>
    obtain ⟨data, hi, rfl⟩ := Option.map_eq_some_iff.mp h
    exact List.mem_of_getElem? hi
  | char c =>
    cases h
    trivial
  | integer n =>
    cases h
    trivial

theorem Argument.leaks_of_resolve {strings : List Nat} {arg : Argument} {part : Part}
    (h : arg.resolve strings = some part) : part.leaks = 0 ↔ ¬ arg.Negative := by
  cases arg with
  | chars s =>
    obtain ⟨p, hp, rfl⟩ := Option.map_eq_some_iff.mp h
    exact iff_of_true rfl id
  | string i =>
    obtain ⟨data, hi, rfl⟩ := Option.map_eq_some_iff.mp h
    exact iff_of_true rfl id
  | char c =>
    cases h
    exact iff_of_true rfl id
  | integer n =>
    cases h
    show (if n.Negative then 1 else 0) = 0 ↔ ¬ n.Negative
    split <;> simp_all

/-- The arguments of a call, one by one. -/
theorem resolve_args {strings : List Nat} {args : List Argument} {parts : List Part}
    (h : args.mapM (Argument.resolve strings) = some parts) :
    (∀ part ∈ parts, part.Readable strings) ∧
      ((parts.map Part.leaks).sum = 0 ↔ ∀ arg ∈ args, ¬ arg.Negative) := by
  induction args generalizing parts with
  | nil =>
    cases h
    exact ⟨fun _ h => absurd h List.not_mem_nil, iff_of_true rfl fun _ h => absurd h List.not_mem_nil⟩
  | cons arg args ih =>
    rw [List.mapM_cons] at h
    obtain ⟨part, hpart, h⟩ := Option.bind_eq_some_iff.mp h
    obtain ⟨rest, hrest, h⟩ := Option.bind_eq_some_iff.mp h
    cases h
    obtain ⟨hreadable, hleaks⟩ := ih hrest
    refine ⟨List.forall_mem_cons.mpr ⟨arg.readable_of_resolve hpart, hreadable⟩, ?_⟩
    rw [List.map_cons, List.sum_cons, Nat.add_eq_zero_iff, arg.leaks_of_resolve hpart, hleaks,
      List.forall_mem_cons]

/-- A string among the others. -/
theorem coe_of_getElem? {strings : List Nat} {i data : Nat} (h : strings[i]? = some data) :
    (strings : Multiset Nat) = data ::ₘ ↑(strings.eraseIdx i) := by
  obtain ⟨hi, rfl⟩ := List.getElem?_eq_some_iff.mp h
  exact Multiset.coe_eq_coe.mpr (List.getElem_cons_eraseIdx_perm hi).symm

theorem coe_set {strings : List Nat} {i data : Nat} (h : strings[i]? = some data) (p : Nat) :
    (strings.set i p : Multiset Nat) = p ::ₘ ↑(strings.eraseIdx i) := by
  obtain ⟨hi, -⟩ := List.getElem?_eq_some_iff.mp h
  exact Multiset.coe_eq_coe.mpr (List.set_perm_cons_eraseIdx hi p)

/-- An operation leaves the blocks of the strings, and others only if it constructs a `String` from a
negative integer. -/
theorem Operation.program_owns {strings : List Nat} {op : Operation}
    {m : StringProgram (List Nat)} (h : op.program A strings = some m) :
    Owns ↑strings m fun strings' M =>
      ∃ leaked : Multiset Nat, M = ↑strings' + leaked ∧ (leaked = 0 ↔ ¬ op.Negative) := by
  have hnone : ∀ {strings' : List Nat} {M : Multiset Nat}, M = ↑strings' →
      ∃ leaked : Multiset Nat, M = ↑strings' + leaked ∧ (leaked = 0 ↔ ¬ False) := fun hM =>
    ⟨0, by rw [hM, Multiset.add_zero], iff_of_true rfl id⟩
  have happend : ∀ p : Nat, (↑(strings ++ [p]) : Multiset Nat) = p ::ₘ ↑strings := fun p =>
    Multiset.coe_eq_coe.mpr (List.perm_append_singleton p strings)
  cases op with
  | construct args =>
    obtain ⟨parts, hparts, h⟩ := Option.bind_eq_some_iff.mp h
    cases h
    obtain ⟨hreadable, hleaks⟩ := resolve_args hparts
    refine (construct_owns A hreadable).bind fun p M ⟨leaked, hM, hcard⟩ => ?_
    refine Owns.pure ⟨leaked, ?_, ?_⟩
    · rw [hM, happend, Multiset.cons_add, Multiset.add_comm]
    · rw [← Multiset.card_eq_zero, hcard, hleaks]
      exact ⟨fun h hneg => hneg.elim fun arg harg => h arg harg.1 harg.2,
        fun h arg harg hneg => h ⟨arg, harg, hneg⟩⟩
  | copy j =>
    obtain ⟨b, hb, h⟩ := Option.bind_eq_some_iff.mp h
    cases h
    have hreadable : CharPtr.Readable strings (.block b) := List.mem_of_getElem? hb
    refine (copyStr_owns A hreadable).bindEq fun p => ?_
    exact Owns.pure (hnone (happend p).symm)
  | assign i j =>
    obtain ⟨data, hdata, h⟩ := Option.bind_eq_some_iff.mp h
    obtain ⟨b, hb, h⟩ := Option.bind_eq_some_iff.mp h
    cases h
    have hreadable : b ∈ (strings : Multiset Nat) := List.mem_of_getElem? hb
    rw [coe_of_getElem? hdata] at hreadable ⊢
    refine (assign_owns A hreadable).bindEq fun p => ?_
    exact Owns.pure (hnone (coe_set hdata p).symm)
  | addString i j =>
    obtain ⟨data, hdata, h⟩ := Option.bind_eq_some_iff.mp h
    obtain ⟨b, hb, h⟩ := Option.bind_eq_some_iff.mp h
    cases h
    have hreadable : CharPtr.Readable strings (.block b) := List.mem_of_getElem? hb
    rw [coe_of_getElem? hdata] at hreadable ⊢
    refine (addAssign_owns A hreadable).bindEq fun p => ?_
    exact Owns.pure (hnone (coe_set hdata p).symm)
  | addChars i s =>
    obtain ⟨data, hdata, h⟩ := Option.bind_eq_some_iff.mp h
    obtain ⟨b, hb, h⟩ := Option.bind_eq_some_iff.mp h
    cases h
    have hreadable := s.readable_of_resolve hb
    rw [coe_of_getElem? hdata] at hreadable ⊢
    refine (addAssign_owns A hreadable).bindEq fun p => ?_
    exact Owns.pure (hnone (coe_set hdata p).symm)
  | addChar i c =>
    obtain ⟨data, hdata, h⟩ := Option.bind_eq_some_iff.mp h
    cases h
    rw [coe_of_getElem? hdata]
    refine (addAssignChar_owns A data c).bindEq fun p => ?_
    exact Owns.pure (hnone (coe_set hdata p).symm)
  | destroy i =>
    obtain ⟨data, hdata, h⟩ := Option.bind_eq_some_iff.mp h
    cases h
    rw [coe_of_getElem? hdata]
    refine Owns.free.bindEq fun _ => ?_
    exact Owns.pure (hnone rfl)

/-! ## Runs -/

namespace StringRun

variable {s s' : StringRun} {op : Operation}

/-- An operation keeps the balance exactly if it constructs no `String` from a negative integer. -/
theorem balanced_step_iff (hs : s.Balanced) (h : s.step A op = some s') :
    s'.Balanced ↔ ¬ op.Negative := by
  unfold step at h
  rw [hs.fault, Option.isSome_none, if_neg Bool.false_ne_true] at h
  obtain ⟨m, hm, rfl⟩ := Option.map_eq_some_iff.mp h
  obtain ⟨strings', heap', M, hexec, ⟨leaked, hM, hleaked⟩, hlive⟩ :=
    Operation.program_owns A hm s.heap 0 (by rw [hs.live, Multiset.add_zero])
  rw [hexec, ← hleaked]
  rw [hM, Multiset.add_zero] at hlive
  constructor
  · intro hbalanced
    have hcard := congrArg Multiset.card (hlive.symm.trans hbalanced.live)
    rw [Multiset.card_add, Nat.add_eq_left] at hcard
    exact Multiset.card_eq_zero.mp hcard
  · rintro rfl
    exact ⟨rfl, hlive.trans (Multiset.add_zero _)⟩

theorem start_balanced : start.Balanced := ⟨rfl, rfl⟩

/-- In every state of a run nothing was freed twice and the allocated blocks are those of the live
strings, exactly if no `String` is constructed from a negative integer. -/
theorem strings_balanced_iff (ops : List Operation) :
    (∀ s ∈ Runs.states (step A) start ops, s.Balanced) ↔
      ∀ c ∈ Runs.calls (step A) start ops, ¬ c.2.Negative :=
  Runs.forall_states_iff (fun _ _ _ _ hs h => balanced_step_iff A hs h) start_balanced

end StringRun

end

/-- Each block lies behind all others. -/
def behindAll : Allocator Nat where
  place _ live _ := live.sum + 1
  place_fresh _ _ _ h := Nat.not_succ_le_self _ (Multiset.le_sum_of_mem h)

/-- `String(-1)` leaves the block of the digits. -/
theorem StringRun.construct_negative :
    ¬ ∀ s ∈ Runs.states (step behindAll) start [.construct [.integer (.int32 (-1))]], s.Balanced := by
  intro h
  obtain ⟨s', hs'⟩ : ∃ s', start.step behindAll (.construct [.integer (.int32 (-1))]) = some s' :=
    ⟨_, rfl⟩
  rw [Runs.states_cons hs'] at h
  have hbalanced := h s' (List.mem_cons_of_mem _ (Runs.mem_states s' []))
  refine (balanced_step_iff behindAll start_balanced hs').mp hbalanced ⟨_, List.mem_cons_self, ?_⟩
  show (-1 : Int32) < 0
  decide

end EszOs
