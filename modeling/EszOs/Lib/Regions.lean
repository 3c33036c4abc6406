import Mathlib.Data.List.TakeWhile

/-!
# Regions

A `Region` is a range of bytes that a program may use: a load or store outside it fails, and the
position of each store is recorded. A string in it ends at the first zero byte; without one, reading
it fails.

* `store_mid`: storing a list replaces what was there.
* `string_mid`: the string between what is in front of it and its terminator.
* `stored_store`: what a store adds to the record.
-/

/-- The bytes of a range, and the positions that were stored to, latest first. -/
structure Region where
  bytes : List UInt8
  stored : List Nat
deriving DecidableEq

namespace Region

/-! ## Operations -/

/-- `n` zero bytes. -/
def cleared (n : Nat) : Region := ⟨List.replicate n 0, []⟩

def get (m : Region) (i : Int) : Option UInt8 := if 0 ≤ i then m.bytes[i.toNat]? else none

def set (m : Region) (i : Int) (c : UInt8) : Option Region :=
  if 0 ≤ i ∧ i < m.bytes.length then some ⟨m.bytes.set i.toNat c, i.toNat :: m.stored⟩ else none

/-- `for (j = 0; j < cs.length; j++) m[i + j] = cs[j];` -/
def store (m : Region) (i : Int) : List UInt8 → Option Region
  | [] => some m
  | c :: cs => (m.set i c).bind fun m' => m'.store (i + 1) cs

/-- The string at `i`. -/
def string (m : Region) (i : Int) : Option (List UInt8) :=
  if 0 ≤ i ∧ 0 ∈ m.bytes.drop i.toNat then some ((m.bytes.drop i.toNat).takeWhile (· != 0)) else none

/-! ## Strings -/

/-- `s` is at position `as.length`, with its terminator. -/
theorem string_mid (as : List UInt8) {s : List UInt8} (hs : 0 ∉ s) (bs : List UInt8)
    (st : List Nat) : string ⟨as ++ s ++ 0 :: bs, st⟩ as.length = some s := by
  have hdrop : (as ++ s ++ 0 :: bs).drop as.length = s ++ 0 :: bs := by
    rw [List.append_assoc, List.drop_left]
  have hne : ∀ c ∈ s, (c != 0) = true := fun c hc => bne_iff_ne.mpr fun h => hs (h ▸ hc)
  unfold string
  rw [Int.toNat_natCast, hdrop, if_pos ⟨Int.natCast_nonneg _, by simp⟩,
    List.takeWhile_append_of_pos hne]
  simp

theorem string_zero {s : List UInt8} (hs : 0 ∉ s) (bs : List UInt8) (st : List Nat) :
    string ⟨s ++ 0 :: bs, st⟩ 0 = some s :=
  string_mid [] hs bs st

/-! ## Stores -/

theorem set_mid (as : List UInt8) (b : UInt8) (bs : List UInt8) (st : List Nat) (c : UInt8) :
    set ⟨as ++ b :: bs, st⟩ as.length c = some ⟨as ++ c :: bs, as.length :: st⟩ := by
  unfold set
  have hlt : as.length < (as ++ b :: bs).length := by
    rw [List.length_append, List.length_cons]
    omega
  rw [if_pos ⟨Int.natCast_nonneg _, Int.ofNat_lt.mpr hlt⟩, Int.toNat_natCast]
  simp

theorem store_mid (as : List UInt8) {bs cs : List UInt8} (h : bs.length = cs.length)
    (bs' : List UInt8) (st : List Nat) :
    ∃ st', store ⟨as ++ bs ++ bs', st⟩ as.length cs = some ⟨as ++ cs ++ bs', st' ++ st⟩ ∧
      ∀ i ∈ st', as.length ≤ i := by
  induction cs generalizing as bs st with
  | nil =>
    obtain rfl := List.length_eq_zero_iff.mp h
    exact ⟨[], rfl, fun i hi => absurd hi List.not_mem_nil⟩
  | cons c cs ih =>
    cases bs with
    | nil => cases h
    | cons b bs =>
      obtain ⟨st', hstore, hst'⟩ := ih (as ++ [c]) (Nat.succ.inj h) (as.length :: st)
      refine ⟨st' ++ [as.length], ?_, ?_⟩
      · have hset : set ⟨as ++ (b :: bs) ++ bs', st⟩ as.length c =
            some ⟨as ++ [c] ++ bs ++ bs', as.length :: st⟩ := by
          have := set_mid as b (bs ++ bs') st c
          simpa using this
        have hpos : (as.length : Int) + 1 = (as ++ [c]).length := by simp
        rw [store, hset, Option.bind_some, hpos, hstore]
        simp
      · intro i hi
        rcases List.mem_append.mp hi with hi | hi
        · have := hst' i hi
          simp at this
          omega
        · rw [List.mem_singleton.mp hi]

/-- A list and a zero byte behind it. -/
theorem put_mid (as : List UInt8) {ys cs : List UInt8} (h : cs.length < ys.length) (st : List Nat) :
    ∃ m st', store ⟨as ++ ys, st⟩ as.length cs = some m ∧
      m.set (as.length + cs.length) 0 =
        some ⟨as ++ cs ++ 0 :: ys.drop (cs.length + 1), st' ++ st⟩ ∧
      ∀ i ∈ st', as.length ≤ i := by
  obtain ⟨b, hb⟩ : ∃ b, ys.drop cs.length = b :: ys.drop (cs.length + 1) :=
    ⟨ys[cs.length], List.drop_eq_getElem_cons h⟩
  have hsplit : as ++ ys = as ++ ys.take cs.length ++ b :: ys.drop (cs.length + 1) := by
    rw [List.append_assoc, ← hb, List.take_append_drop]
  obtain ⟨st', hstore, hst'⟩ := store_mid as (List.length_take_of_le (Nat.le_of_lt h))
    (b :: ys.drop (cs.length + 1)) st
  have hset := set_mid (as ++ cs) b (ys.drop (cs.length + 1)) (st' ++ st) 0
  rw [List.length_append, Int.natCast_add] at hset
  refine ⟨_, (as.length + cs.length) :: st', by rw [hsplit, hstore], hset, ?_⟩
  intro i hi
  rcases List.mem_cons.mp hi with rfl | hi
  · exact Nat.le_add_right _ _
  · exact hst' i hi

/-- A list that is stored to a longer cleared region, with a zero byte behind it. -/
theorem store_cleared {cs : List UInt8} {n : Nat} (h : cs.length < n) :
    ∃ st, store (cleared n) 0 cs = some ⟨cs ++ 0 :: List.replicate (n - cs.length - 1) 0, st⟩ := by
  have hcleared : cleared n = ⟨[] ++ List.replicate cs.length 0 ++
      0 :: List.replicate (n - cs.length - 1) 0, []⟩ := by
    rw [List.nil_append, cleared, ← List.replicate_succ, List.replicate_append_replicate]
    congr 2
    omega
  obtain ⟨st, hstore, -⟩ := store_mid [] (List.length_replicate (n := cs.length) (a := (0 : UInt8)))
    (0 :: List.replicate (n - cs.length - 1) 0) []
  exact ⟨st ++ [], by rw [hcleared]; exact hstore⟩

theorem string_cleared {cs : List UInt8} (hcs : 0 ∉ cs) {n : Nat} (h : cs.length < n) :
    ∃ m, store (cleared n) 0 cs = some m ∧ m.string 0 = some cs := by
  obtain ⟨st, hstore⟩ := store_cleared h
  exact ⟨_, hstore, string_zero hcs _ st⟩

/-- The same with a terminator that is stored. -/
theorem put_cleared {cs : List UInt8} (hcs : 0 ∉ cs) {n : Nat} (h : cs.length < n) :
    ∃ m m', store (cleared n) 0 cs = some m ∧ m.set cs.length 0 = some m' ∧
      m'.string 0 = some cs := by
  obtain ⟨st, hstore⟩ := store_cleared h
  exact ⟨_, _, hstore, set_mid cs 0 _ st 0, string_zero hcs _ _⟩

/-- One list behind the other. -/
theorem store_append (m : Region) (i : Int) (cs cs' : List UInt8) :
    m.store i (cs ++ cs') = (m.store i cs).bind fun m' => m'.store (i + cs.length) cs' := by
  induction cs generalizing m i with
  | nil => simp [store]
  | cons c cs ih =>
    simp only [List.cons_append, store, Option.bind_assoc, ih, List.length_cons]
    congr 1
    funext m'
    congr 1
    funext m''
    congr 1
    omega

/-- A zero byte inside of a string cuts it off. -/
theorem set_zero {s : List UInt8} (hs : 0 ∉ s) {q : Nat} (hq : q ≤ s.length) (bs : List UInt8)
    (st : List Nat) :
    ∃ m, set ⟨s ++ 0 :: bs, st⟩ q 0 = some m ∧ m.string 0 = some (s.take q) := by
  have hq' : (s.take q).length = q := List.length_take_of_le hq
  have hne : (s ++ 0 :: bs).drop q ≠ [] := by
    intro h
    have := List.drop_eq_nil_iff.mp h
    simp at this
    omega
  obtain ⟨b, rest, hrest⟩ := List.exists_cons_of_ne_nil hne
  have hsplit : s ++ 0 :: bs = s.take q ++ b :: rest := by
    rw [← hrest, ← List.take_append_of_le_length hq, List.take_append_drop]
  have hset := set_mid (s.take q) b rest st 0
  rw [hq'] at hset
  refine ⟨⟨s.take q ++ 0 :: rest, q :: st⟩, by rw [hsplit, hset], ?_⟩
  exact string_zero (fun h => hs (List.mem_of_mem_take h)) _ _

/-! ## The record -/

theorem stored_set {m m' : Region} {i : Int} {c : UInt8} (h : m.set i c = some m') :
    0 ≤ i ∧ m'.stored = i.toNat :: m.stored := by
  unfold set at h
  split at h
  · rename_i hi
    cases h
    exact ⟨hi.1, rfl⟩
  · cases h

/-- Nothing is stored behind the end. -/
theorem length_set {m m' : Region} {i : Int} {c : UInt8} (h : m.set i c = some m') :
    m'.bytes.length = m.bytes.length ∧ i < m.bytes.length := by
  unfold set at h
  split at h
  · rename_i hi
    cases h
    exact ⟨List.length_set, hi.2⟩
  · cases h

theorem stored_store {m m' : Region} {i : Int} {cs : List UInt8} (h : m.store i cs = some m') :
    m.stored <:+ m'.stored := by
  induction cs generalizing m i with
  | nil =>
    cases h
    exact List.suffix_refl _
  | cons c cs ih =>
    obtain ⟨m₁, hset, hstore⟩ := Option.bind_eq_some_iff.mp h
    refine List.IsSuffix.trans ?_ (ih hstore)
    rw [(stored_set hset).2]
    exact List.suffix_cons _ _

theorem length_store {m m' : Region} {i : Int} {cs : List UInt8} (h : m.store i cs = some m') :
    m'.bytes.length = m.bytes.length := by
  induction cs generalizing m i with
  | nil =>
    cases h
    rfl
  | cons c cs ih =>
    obtain ⟨m₁, hset, hstore⟩ := Option.bind_eq_some_iff.mp h
    exact (ih hstore).trans (length_set hset).1

/-- A store of anything starts with the first position. -/
theorem mem_stored_store {m m' : Region} {i : Int} {cs : List UInt8} (h : m.store i cs = some m')
    (hcs : cs ≠ []) : 0 ≤ i ∧ i.toNat ∈ m'.stored := by
  cases cs with
  | nil => exact absurd rfl hcs
  | cons c cs =>
    obtain ⟨m₁, hset, hstore⟩ := Option.bind_eq_some_iff.mp h
    obtain ⟨hi, hstored⟩ := stored_set hset
    refine ⟨hi, (stored_store hstore).subset ?_⟩
    rw [hstored]
    exact List.mem_cons_self

end Region
