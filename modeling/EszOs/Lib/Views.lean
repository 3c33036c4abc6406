import Mathlib.Data.List.InsertIdx

/-!
# Arrays inside a state

A `View` is an array that is part of a state: how an entry is read and how it is stored. The three
loops that edit an array in place are defined over a view, and `read` lists a range of its entries.

* `View.shiftUp_induct`, `View.shiftDown_induct`, `View.store_induct`: what every store of the loop
  keeps, the loop keeps.
* `View.read_insert`: shifting up and storing in the gap is `List.insertIdx`.
* `View.read_shiftDown`: shifting down is `List.eraseIdx`.
* `View.read_store`: a stored list is read back.
* `Loop.upTo_induct`: what the body of a counting loop keeps, the loop keeps.
-/

universe u v

/-! ## Counting loops -/

namespace Loop

variable {σ : Type u}

/-- `for (i = 0; i < n; i++) body` -/
def upTo (body : Nat → σ → σ) : Nat → σ → σ
  | 0, s => s
  | n + 1, s => body n (upTo body n s)

theorem upTo_induct {P : σ → Prop} {body : Nat → σ → σ} {n : Nat} {s : σ}
    (hbody : ∀ i s, i < n → P s → P (body i s)) (hs : P s) : P (upTo body n s) := by
  induction n with
  | zero => exact hs
  | succ n ih =>
    exact hbody n _ (Nat.lt_succ_self n) (ih fun i s hi => hbody i s (Nat.lt_succ_of_lt hi))

end Loop

/-- An array inside the states `σ`. -/
structure View (σ : Type u) (α : Type v) where
  get : σ → Int → α
  set : σ → Int → α → σ
  get_set : ∀ s i a j, get (set s i a) j = if j = i then a else get s j

namespace View

variable {σ : Type u} {α : Type v} (A : View σ α)

/-! ## The loops -/

/-- `for (i = lo + n; i > lo; i--) a[i] = a[i - 1];` -/
def shiftUp (lo : Int) : Nat → σ → σ
  | 0, s => s
  | n + 1, s => shiftUp lo n (A.set s (lo + n + 1) (A.get s (lo + n)))

/-- `for (i = lo; i < lo + n; i++) a[i] = a[i + 1];` -/
def shiftDown (lo : Int) : Nat → σ → σ
  | 0, s => s
  | n + 1, s => shiftDown (lo + 1) n (A.set s lo (A.get s (lo + 1)))

/-- `for (i = 0; i < l.length; i++) a[lo + i] = l[i];` -/
def store (lo : Int) : List α → σ → σ
  | [], s => s
  | a :: l, s => store (lo + 1) l (A.set s lo a)

/-- The `n` entries from `lo` on. -/
def read (s : σ) (lo : Int) (n : Nat) : List α := (List.range n).map fun i : Nat => A.get s (lo + i)

variable {A}

/-! ## What the stores keep, the loop keeps -/

theorem shiftUp_induct {P : σ → Prop} {lo : Int} {n : Nat} {s : σ}
    (hset : ∀ s i a, lo < i → i ≤ lo + n → P s → P (A.set s i a)) (hs : P s) :
    P (A.shiftUp lo n s) := by
  induction n generalizing s with
  | zero => exact hs
  | succ n ih =>
    refine ih (fun s i a hlo hhi => hset s i a hlo (by omega)) ?_
    exact hset _ _ _ (by omega) (by omega) hs

theorem shiftDown_induct {P : σ → Prop} {lo : Int} {n : Nat} {s : σ}
    (hset : ∀ s i a, lo ≤ i → i < lo + n → P s → P (A.set s i a)) (hs : P s) :
    P (A.shiftDown lo n s) := by
  induction n generalizing lo s with
  | zero => exact hs
  | succ n ih =>
    refine ih (fun s i a hlo hhi => hset s i a (by omega) (by omega)) ?_
    exact hset _ _ _ (by omega) (by omega) hs

theorem store_induct {P : σ → Prop} {lo : Int} {l : List α} {s : σ}
    (hset : ∀ s i a, lo ≤ i → i < lo + l.length → P s → P (A.set s i a)) (hs : P s) :
    P (A.store lo l s) := by
  induction l generalizing lo s with
  | nil => exact hs
  | cons a l ih =>
    have hlen : (a :: l).length = l.length + 1 := rfl
    refine ih (fun s i a hlo hhi => hset s i a (by omega) (by omega)) ?_
    exact hset _ _ _ (by omega) (by omega) hs

/-! ## Single entries -/

theorem get_set_self (s : σ) (i : Int) (a : α) : A.get (A.set s i a) i = a := by
  rw [A.get_set, if_pos rfl]

theorem get_set_of_ne {s : σ} {i j : Int} {a : α} (h : j ≠ i) :
    A.get (A.set s i a) j = A.get s j := by
  rw [A.get_set, if_neg h]

theorem get_shiftUp (lo : Int) (n : Nat) (s : σ) (i : Int) :
    A.get (A.shiftUp lo n s) i = if lo < i ∧ i ≤ lo + n then A.get s (i - 1) else A.get s i := by
  induction n generalizing s with
  | zero => rw [shiftUp, if_neg (by omega)]
  | succ n ih =>
    rw [shiftUp, ih]
    by_cases hin : lo < i ∧ i ≤ lo + n
    · rw [if_pos hin, if_pos (by omega), get_set_of_ne (by omega)]
    · rw [if_neg hin, A.get_set]
      by_cases hi : i = lo + n + 1
      · rw [if_pos hi, if_pos (by omega)]
        congr 1
        omega
      · rw [if_neg hi, if_neg (by omega)]

theorem get_shiftDown (lo : Int) (n : Nat) (s : σ) (i : Int) :
    A.get (A.shiftDown lo n s) i = if lo ≤ i ∧ i < lo + n then A.get s (i + 1) else A.get s i := by
  induction n generalizing lo s with
  | zero => rw [shiftDown, if_neg (by omega)]
  | succ n ih =>
    rw [shiftDown, ih]
    by_cases hin : lo + 1 ≤ i ∧ i < lo + 1 + n
    · rw [if_pos hin, if_pos (by omega), get_set_of_ne (by omega)]
    · rw [if_neg hin, A.get_set]
      by_cases hi : i = lo
      · rw [if_pos hi, if_pos (by omega), hi]
      · rw [if_neg hi, if_neg (by omega)]

theorem get_store_of_outside {lo : Int} {l : List α} {s : σ} {i : Int}
    (h : i < lo ∨ lo + l.length ≤ i) : A.get (A.store lo l s) i = A.get s i :=
  store_induct (P := fun s' => A.get s' i = A.get s i)
    (fun s' j a hlo hhi hP => by rw [get_set_of_ne (by omega), hP]) rfl

/-! ## Ranges of entries -/

@[simp] theorem length_read (s : σ) (lo : Int) (n : Nat) : (A.read s lo n).length = n := by
  simp [read]

theorem getElem?_read (s : σ) (lo : Int) (n i : Nat) :
    (A.read s lo n)[i]? = if i < n then some (A.get s (lo + i)) else none := by
  rw [read, List.getElem?_map]
  by_cases h : i < n
  · rw [List.getElem?_range h, if_pos h]
    rfl
  · rw [if_neg h, List.getElem?_eq_none (by rw [List.length_range]; omega)]
    rfl

theorem read_succ (s : σ) (lo : Int) (n : Nat) :
    A.read s lo (n + 1) = A.read s lo n ++ [A.get s (lo + n)] := by
  simp [read, List.range_succ]

/-- Entries that agree are listed alike. -/
theorem read_congr {s s' : σ} {lo : Int} {n : Nat}
    (h : ∀ i, lo ≤ i → i < lo + n → A.get s' i = A.get s i) : A.read s' lo n = A.read s lo n := by
  refine List.map_congr_left fun i hi => h _ (by omega) ?_
  rw [List.mem_range] at hi
  omega

theorem take_read {s : σ} {lo : Int} {n k : Nat} (h : k ≤ n) :
    (A.read s lo n).take k = A.read s lo k := by
  rw [read, ← List.map_take, List.take_range, Nat.min_eq_left h, read]

theorem drop_read (s : σ) (lo : Int) (n k : Nat) :
    (A.read s lo n).drop k = A.read s (lo + k) (n - k) := by
  apply List.ext_getElem?
  intro i
  rw [List.getElem?_drop, getElem?_read, getElem?_read]
  grind

theorem read_set_of_le {s : σ} {lo i : Int} {n : Nat} {a : α} (h : lo + n ≤ i) :
    A.read (A.set s i a) lo n = A.read s lo n :=
  read_congr fun j _ hj => get_set_of_ne (by omega)

theorem read_set (s : σ) (lo : Int) (n i : Nat) (a : α) :
    A.read (A.set s (lo + i) a) lo n = (A.read s lo n).set i a := by
  apply List.ext_getElem?
  intro j
  rw [List.getElem?_set, getElem?_read, getElem?_read, length_read, A.get_set]
  grind

/-- A store right behind the range. -/
theorem read_concat (s : σ) (lo : Int) (n : Nat) (a : α) :
    A.read (A.set s (lo + n) a) lo (n + 1) = A.read s lo n ++ [a] := by
  rw [read_succ, read_set_of_le (by omega), get_set_self]

theorem read_insert (s : σ) (lo : Int) {n c : Nat} (a : α) (hc : c ≤ n) :
    A.read (A.set (A.shiftUp (lo + c) (n - c) s) (lo + c) a) lo (n + 1) =
      (A.read s lo n).insertIdx c a := by
  refine List.ext_getElem? fun i => ?_
  rw [getElem?_read, List.getElem?_insertIdx, A.get_set, get_shiftUp, length_read, getElem?_read,
    getElem?_read]
  rcases Nat.lt_trichotomy i c with hlt | heq | hgt
  · rw [if_pos (by omega), if_neg (by omega), if_neg (by omega), if_pos hlt, if_pos (by omega)]
  · rw [if_pos (by omega), if_pos (by omega), if_neg (by omega), if_pos heq, if_pos (by omega)]
  · rw [if_neg (c := i < c) (by omega), if_neg (c := i = c) (by omega)]
    by_cases hi : i < n + 1
    · rw [if_pos hi, if_neg (by omega), if_pos (by omega), if_pos (by omega)]
      congr 2
      omega
    · rw [if_neg hi, if_neg (by omega)]

theorem read_shiftDown (s : σ) (lo : Int) {n c : Nat} (hc : c < n) :
    A.read (A.shiftDown (lo + c) (n - 1 - c) s) lo (n - 1) = (A.read s lo n).eraseIdx c := by
  refine List.ext_getElem? fun i => ?_
  rw [getElem?_read, List.getElem?_eraseIdx, get_shiftDown, getElem?_read, getElem?_read]
  by_cases hlt : i < c
  · rw [if_pos (by omega), if_neg (by omega), if_pos hlt, if_pos (by omega)]
  · rw [if_neg hlt]
    by_cases hi : i < n - 1
    · rw [if_pos hi, if_pos (by omega), if_pos (by omega)]
      congr 2
      omega
    · rw [if_neg hi, if_neg (by omega)]

theorem read_store (lo : Int) (l : List α) (s : σ) : A.read (A.store lo l s) lo l.length = l := by
  induction l generalizing lo s with
  | nil => rfl
  | cons a l ih =>
    refine List.ext_getElem? fun i => ?_
    have hi := congrArg (fun r : List α => r[i - 1]?) (ih (lo + 1) (A.set s lo a))
    simp only [getElem?_read] at hi
    rw [getElem?_read, store, List.length_cons]
    cases i with
    | zero =>
      rw [if_pos (by omega), List.getElem?_cons_zero, get_store_of_outside (by omega)]
      simp [get_set_self]
    | succ i =>
      rw [List.getElem?_cons_succ, ← show _ = l[i]? from hi]
      simp only [Nat.add_sub_cancel, Nat.add_lt_add_iff_right]
      congr 3
      omega

end View

/-- Inserting behind a first part. -/
theorem List.insertIdx_append_right {α : Type u} (p l : List α) (i : Nat) (a : α) :
    (p ++ l).insertIdx (p.length + i) a = p ++ l.insertIdx i a := by
  induction p with
  | nil => simp
  | cons b p ih =>
    rw [List.length_cons, Nat.add_right_comm, List.cons_append, List.insertIdx_succ_cons, ih]
    rfl
