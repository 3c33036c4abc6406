import Mathlib.Algebra.Group.Nat.Defs

/-!
# Byte-addressed memory

A memory is a function from addresses to bytes. `readLE`/`writeLE` access a little-endian word of
`n` bytes at any address, aligned or not: a read sees the last write of the same bytes
(`readLE_writeLE`), and bytes outside the written range are the old ones (`writeLE_outside`).
`BytesAt` says that a memory has given bytes at an address.
-/

namespace Bytes

/-- A byte-addressed memory. -/
abbrev Mem := Nat → UInt8

/-- Store one byte. -/
def store (m : Mem) (a : Nat) (b : UInt8) : Mem := fun x => if x = a then b else m x

@[simp] theorem store_self (m : Mem) (a : Nat) (b : UInt8) : store m a b a = b := by simp [store]

theorem store_of_ne {m : Mem} {a x : Nat} {b : UInt8} (h : x ≠ a) : store m a b x = m x := by
  simp [store, h]

/-- The little-endian word of the `n` bytes from `a`. -/
def readLE (m : Mem) (a : Nat) : Nat → Nat
  | 0 => 0
  | n + 1 => (m a).toNat + 256 * readLE m (a + 1) n

/-- Store the low `n` bytes of `w`, little-endian, from `a`. -/
def writeLE (m : Mem) (a n w : Nat) : Mem := fun x =>
  if a ≤ x ∧ x < a + n then UInt8.ofNat (w / 256 ^ (x - a)) else m x

theorem writeLE_outside {m : Mem} {a n w x : Nat} (h : x < a ∨ a + n ≤ x) :
    writeLE m a n w x = m x := by
  simp only [writeLE]
  rw [if_neg (by omega)]

/-- A read sees only the bytes of its range. -/
theorem readLE_congr {m m' : Mem} {a n : Nat} (h : ∀ x, a ≤ x → x < a + n → m' x = m x) :
    readLE m' a n = readLE m a n := by
  induction n generalizing a with
  | zero => rfl
  | succ n ih =>
    simp only [readLE]
    rw [h a (Nat.le_refl _) (by omega), ih fun x h1 h2 => h x (by omega) (by omega)]

theorem readLE_lt (m : Mem) (a n : Nat) : readLE m a n < 256 ^ n := by
  induction n generalizing a with
  | zero => simp [readLE]
  | succ n ih =>
    have h1 := ih (a + 1)
    have h2 := (m a).toNat_lt
    simp only [readLE, Nat.pow_succ]
    omega

/-- The bytes `k..k+n` of a stored word. -/
private theorem readLE_writeLE_from (m : Mem) (a w N n k : Nat) (h : k + n ≤ N) :
    readLE (writeLE m a N w) (a + k) n = w / 256 ^ k % 256 ^ n := by
  induction n generalizing k with
  | zero => simp [readLE, Nat.mod_one]
  | succ n ih =>
    have hb : (writeLE m a N w (a + k)).toNat = w / 256 ^ k % 256 := by
      simp only [writeLE]
      rw [if_pos (by omega), Nat.add_sub_cancel_left]
      simp
    have hk : a + k + 1 = a + (k + 1) := by omega
    rw [readLE, hb, hk, ih (k + 1) (by omega), Nat.pow_succ 256 k, ← Nat.div_div_eq_div_mul,
      Nat.pow_succ, Nat.mul_comm (256 ^ n), Nat.mod_mul]

/-- A read of the written range gives the stored word. -/
theorem readLE_writeLE (m : Mem) (a n w : Nat) :
    readLE (writeLE m a n w) a n = w % 256 ^ n := by
  have h := readLE_writeLE_from m a w n n 0 (by omega)
  rwa [Nat.add_zero, Nat.pow_zero, Nat.div_one] at h

/-- A word is made of its bytes, wherever they are. -/
theorem readLE_shift {m m' : Mem} {a b n : Nat} (h : ∀ k < n, m' (b + k) = m (a + k)) :
    readLE m' b n = readLE m a n := by
  induction n generalizing a b with
  | zero => rfl
  | succ n ih =>
    have hrest : ∀ k < n, m' (b + 1 + k) = m (a + 1 + k) := fun k hk => by
      have := h (k + 1) (by omega)
      rwa [Nat.add_comm k 1, ← Nat.add_assoc, ← Nat.add_assoc] at this
    have h0 : m' b = m a := h 0 (Nat.succ_pos n)
    rw [readLE, readLE, ih hrest, h0]

/-- Byte `k` of a word that is read. -/
theorem readLE_byte (m : Mem) {a n k : Nat} (h : k < n) :
    UInt8.ofNat (readLE m a n / 256 ^ k) = m (a + k) := by
  induction n generalizing a k with
  | zero => omega
  | succ n ih =>
    have hbyte := (m a).toNat_lt
    cases k with
    | zero =>
      show _ = m a
      refine UInt8.toNat_inj.mp ?_
      rw [readLE, Nat.pow_zero, Nat.div_one, UInt8.toNat_ofNat']
      omega
    | succ k =>
      have hdiv : readLE m a (n + 1) / 256 = readLE m (a + 1) n := by
        rw [readLE]
        omega
      have hk : a + 1 + k = a + (k + 1) := by omega
      rw [Nat.pow_succ', ← Nat.div_div_eq_div_mul, hdiv, ih (by omega), hk]

/-! ## Bytes at an address -/

/-- The memory has the bytes `bs` from `a`. -/
def BytesAt (m : Mem) (a : Nat) (bs : List UInt8) : Prop := ∀ i (h : i < bs.length), m (a + i) = bs[i]

@[simp] theorem bytesAt_nil (m : Mem) (a : Nat) : BytesAt m a [] := fun _ h => absurd h (Nat.not_lt_zero _)

theorem bytesAt_append {m : Mem} {a : Nat} {bs cs : List UInt8} :
    BytesAt m a (bs ++ cs) ↔ BytesAt m a bs ∧ BytesAt m (a + bs.length) cs := by
  constructor
  · intro h
    refine ⟨fun i hi => ?_, fun i hi => ?_⟩
    · rw [h i (by rw [List.length_append]; omega), List.getElem_append_left hi]
    · rw [Nat.add_assoc, h (bs.length + i) (by rw [List.length_append]; omega),
        List.getElem_append_right (Nat.le_add_right _ _)]
      simp
  · rintro ⟨hbs, hcs⟩ i hi
    rw [List.length_append] at hi
    by_cases hlt : i < bs.length
    · rw [hbs i hlt, List.getElem_append_left hlt]
    · have hc := hcs (i - bs.length) (by omega)
      rw [Nat.add_assoc, Nat.add_sub_cancel' (Nat.le_of_not_lt hlt)] at hc
      rw [hc, List.getElem_append_right (Nat.le_of_not_lt hlt)]

theorem bytesAt_map_range {m : Mem} {a n : Nat} {f : Nat → UInt8} :
    BytesAt m a ((List.range n).map f) ↔ ∀ i < n, m (a + i) = f i := by
  simp [BytesAt]

/-- Only the bytes of the range matter. -/
theorem BytesAt.congr {m m' : Mem} {a : Nat} {bs : List UInt8} (h : BytesAt m a bs)
    (hm : ∀ i < bs.length, m' (a + i) = m (a + i)) : BytesAt m' a bs :=
  fun i hi => (hm i hi).trans (h i hi)

theorem BytesAt.getElem? {m : Mem} {a i : Nat} {bs : List UInt8} (h : BytesAt m a bs)
    (hi : i < bs.length) : bs[i]? = some (m (a + i)) := by
  rw [List.getElem?_eq_getElem hi, h i hi]

end Bytes
