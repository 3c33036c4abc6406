import EszOs.Memory.Heap

/-!
# The heap's headers as a block list

`Tiled h bs`: the headers reached from `heapStartPtr` are those of the blocks `bs`, one after the
other, and the last block ends at `heapEndPtr`. On such a heap the code's walks are the list
operations of `Lib/Blocks.lean`: `malloc` carves the first block that fits (`malloc_of_fit`,
`malloc_of_unfit`), `free` is `coalesce` (`free_tiled`). Both end, and both leave the bytes of the
used payloads alone (`take_outside`, `free_outside`).
-/

namespace EszOs

open Bytes Blocks

/-- The headers of the blocks `bs` stand one after the other from `a`. -/
def Tiles (m : Mem) : Nat → List Block → Prop
  | _, [] => True
  | a, b :: bs => readHeader m a = b ∧ Tiles m (a + (headerSize + b.length)) bs

theorem tiles_append {m : Mem} {a : Nat} {as bs : List Block} :
    Tiles m a (as ++ bs) ↔ Tiles m a as ∧ Tiles m (a + span headerSize as) bs := by
  induction as generalizing a with
  | nil => simp [Tiles]
  | cons b as ih => simp [Tiles, ih, and_assoc, Nat.add_assoc]

/-- Tiling reads only the header bytes. -/
theorem Tiles.congr {m m' : Mem} {a : Nat} {bs : List Block} (ht : Tiles m a bs)
    (h : ∀ x, HeaderByte headerSize a bs x → m' x = m x) : Tiles m' a bs := by
  induction bs generalizing a with
  | nil => trivial
  | cons b bs ih =>
    refine ⟨?_, ih ht.2 fun x hx => ?_⟩
    · rw [readHeader_congr fun x h1 h2 => h x ⟨[], b, bs, rfl, by simpa using h1, by simpa using h2⟩]
      exact ht.1
    · obtain ⟨pre, c, post, rfl, h1, h2⟩ := hx
      refine h x ⟨b :: pre, c, post, rfl, ?_, ?_⟩ <;> simp only [span_cons] <;> omega

/-- A change outside the blocks. -/
theorem Tiles.congr_span {m m' : Mem} {a : Nat} {bs : List Block} (ht : Tiles m a bs)
    (h : ∀ x, a ≤ x → x < a + span headerSize bs → m' x = m x) : Tiles m' a bs := by
  refine ht.congr fun x hx => ?_
  obtain ⟨pre, b, post, rfl, h1, h2⟩ := hx
  refine h x (by omega) ?_
  simp only [span_append, span_cons]
  omega

/-- The headers from `heapStartPtr` tile the heap region. -/
structure Tiled (h : Heap) (bs : List Block) : Prop where
  tiles : Tiles h.mem h.heapStartPtr bs
  ends : h.heapStartPtr + span headerSize bs = h.heapEndPtr
  noWrap : h.heapEndPtr < 2 ^ 64
  small : h.heapEndPtr < h.heapStartPtr + 2 ^ 63
  nonempty : bs ≠ []

namespace Tiled

variable {h : Heap} {pre post : List Block} {b : Block}

/-- The block after `pre`: its header, and where it stands. -/
theorem header (ht : Tiled h (pre ++ b :: post)) :
    readHeader h.mem (h.heapStartPtr + span headerSize pre) = b :=
  (tiles_append.mp ht.tiles).2.1

theorem bound (ht : Tiled h (pre ++ b :: post)) :
    h.heapStartPtr + span headerSize pre + headerSize + b.length + span headerSize post =
      h.heapEndPtr := by
  have := ht.ends
  simp only [span_append, span_cons] at this
  omega

theorem length_lt (ht : Tiled h (pre ++ b :: post)) : b.length < 2 ^ 63 := by
  rw [← ht.header]; exact readHeader_length_lt _ _

/-- A change of bytes that are in no header. -/
theorem congr {bs : List Block} {m' : Mem} (ht : Tiled h bs)
    (hk : ∀ x, HeaderByte headerSize h.heapStartPtr bs x → m' x = h.mem x) :
    Tiled { h with mem := m' } bs :=
  ⟨ht.tiles.congr hk, ht.ends, ht.noWrap, ht.small, ht.nonempty⟩

/-- `get_next_heap_block` goes to the end of the block. -/
theorem next (ht : Tiled h (pre ++ b :: post)) :
    getNextHeapBlock h.mem (h.heapStartPtr + span headerSize pre) =
      h.heapStartPtr + span headerSize (pre ++ [b]) := by
  have h1 := ht.bound
  have h2 := ht.noWrap
  simp only [span_append, span_cons, span_nil]
  rw [getNextHeapBlock, ht.header, u64_of_lt (by omega)]
  omega

/-- The walks have fuel for every block. -/
theorem length_le_fuel {bs : List Block} (ht : Tiled h bs) : bs.length < h.fuel := by
  have h1 := length_mul_le_span headerSize bs
  have h2 := ht.ends
  have h3 : bs.length ≠ 0 := fun h0 => ht.nonempty (List.eq_nil_of_length_eq_zero h0)
  simp only [Heap.fuel, headerSize] at *
  omega

/-! ## The walk over the headers -/

theorem blockAt_eq {bs : List Block} (ht : Tiled h bs) {i : Nat} (hi : i ≤ bs.length) :
    h.blockAt i = h.heapStartPtr + span headerSize (bs.take i) := by
  induction i with
  | zero => simp [Heap.blockAt]
  | succ i ih =>
    have hbs : bs = bs.take i ++ bs[i] :: bs.drop (i + 1) := by simp
    have htake : bs.take (i + 1) = bs.take i ++ [bs[i]] := by simp
    have hn := next (hbs ▸ ht)
    rw [← ih (by omega), ← htake] at hn
    rw [← hn, Heap.blockAt, Heap.blockAt, Function.iterate_succ_apply']

/-- The header that the walk meets at the `i`-th step. -/
theorem readHeader_blockAt {bs : List Block} (ht : Tiled h bs) {i : Nat} (hi : i < bs.length) :
    readHeader h.mem (h.blockAt i) = bs[i] := by
  have hbs : bs = bs.take i ++ bs[i] :: bs.drop (i + 1) := by simp
  rw [ht.blockAt_eq (Nat.le_of_lt hi)]
  exact header (hbs ▸ ht)

theorem blockAt_succ {bs : List Block} (ht : Tiled h bs) {i : Nat} (hi : i < bs.length) :
    h.blockAt (i + 1) = h.blockAt i + headerSize + bs[i].length := by
  have htake : bs.take (i + 1) = bs.take i ++ [bs[i]] := by simp
  rw [ht.blockAt_eq hi, ht.blockAt_eq (Nat.le_of_lt hi), htake]
  simp only [span_append, span_cons, span_nil]
  omega

/-- The walk passes every block once and lands on `heapEndPtr`. -/
theorem blockAt_length {bs : List Block} (ht : Tiled h bs) : h.blockAt bs.length = h.heapEndPtr := by
  rw [ht.blockAt_eq (Nat.le_refl _), List.take_length, ht.ends]

theorem blockAt_lt {bs : List Block} (ht : Tiled h bs) {i : Nat} (hi : i < bs.length) :
    h.blockAt i < h.heapEndPtr := by
  have hbs : bs = bs.take i ++ bs[i] :: bs.drop (i + 1) := by simp
  have hb := bound (hbs ▸ ht)
  rw [ht.blockAt_eq (Nat.le_of_lt hi)]
  simp only [headerSize] at hb ⊢
  omega

/-- The headers of the walk are those of the blocks. -/
theorem headerByte_of_isHeader {bs : List Block} (ht : Tiled h bs) {a x : Nat}
    (ha : h.IsHeader a) (h1 : a ≤ x) (h2 : x < a + headerSize) :
    HeaderByte headerSize h.heapStartPtr bs x := by
  obtain ⟨i, rfl, hi⟩ := ha
  have hlen : i < bs.length := by
    by_contra hc
    have := hi bs.length (by omega)
    rw [ht.blockAt_length] at this
    omega
  rw [ht.blockAt_eq (Nat.le_of_lt hlen)] at h1 h2
  exact ⟨bs.take i, bs[i], bs.drop (i + 1), by simp, h1, h2⟩

/-! ## `malloc` -/

/-- The test of `malloc`'s loop: the block cannot take `size` bytes. -/
def Unfit (size : Nat) (b : Block) : Prop := b.length < size ∨ b.used = true

theorem searchLoop_fit {size fuel : Nat} {d : List Block}
    (ht : Tiled h (d ++ (pre ++ b :: post))) (hpre : ∀ c ∈ pre, Unfit size c)
    (hb : ¬ Unfit size b) (hf : pre.length < fuel) :
    h.searchLoop size fuel (h.heapStartPtr + span headerSize d) =
      some (some (h.heapStartPtr + span headerSize (d ++ pre))) := by
  induction pre generalizing d fuel with
  | nil =>
    obtain ⟨fuel, rfl⟩ : ∃ k, fuel = k + 1 := ⟨fuel - 1, by simp at hf; omega⟩
    simp only [Heap.searchLoop, List.append_nil]
    rw [if_neg (by rw [ht.header]; exact hb)]
  | cons c pre ih =>
    obtain ⟨fuel, rfl⟩ : ∃ k, fuel = k + 1 := ⟨fuel - 1, by simp at hf; omega⟩
    have ht' : Tiled h ((d ++ [c]) ++ (pre ++ b :: post)) := by simpa using ht
    have hend : ¬ h.heapEndPtr ≤ h.heapStartPtr + span headerSize (d ++ [c]) := by
      have := ht'.ends
      simp only [span_append, span_cons, headerSize] at this ⊢
      omega
    simp only [Heap.searchLoop]
    rw [if_pos (by rw [ht.header]; exact hpre c (by simp)), ht.next, if_neg hend,
      ih ht' (fun d hd => hpre d (by simp [hd])) (by simp at hf; omega)]
    simp

theorem searchLoop_unfit {size fuel : Nat} {d : List Block} (ht : Tiled h (d ++ b :: post))
    (hu : ∀ c ∈ b :: post, Unfit size c) (hf : post.length < fuel) :
    h.searchLoop size fuel (h.heapStartPtr + span headerSize d) = some none := by
  induction post generalizing d fuel b with
  | nil =>
    obtain ⟨fuel, rfl⟩ : ∃ k, fuel = k + 1 := ⟨fuel - 1, by simp at hf; omega⟩
    simp only [Heap.searchLoop]
    rw [if_pos (by rw [ht.header]; exact hu b (by simp)), ht.next, if_pos (Nat.le_of_eq ht.ends.symm)]
  | cons c post ih =>
    obtain ⟨fuel, rfl⟩ : ∃ k, fuel = k + 1 := ⟨fuel - 1, by simp at hf; omega⟩
    have ht' : Tiled h ((d ++ [b]) ++ c :: post) := by simpa using ht
    have hend : ¬ h.heapEndPtr ≤ h.heapStartPtr + span headerSize (d ++ [b]) := by
      have := ht'.ends
      simp only [span_append, span_cons, headerSize] at this ⊢
      omega
    simp only [Heap.searchLoop]
    rw [if_pos (by rw [ht.header]; exact hu b (by simp)), ht.next, if_neg hend]
    exact ih ht' (fun d hd => hu d (by simp [hd])) (by simp at hf; omega)

/-- Every block list has a first block that fits, or none. -/
theorem firstFit (size : Nat) (bs : List Block) :
    (∀ c ∈ bs, Unfit size c) ∨
      ∃ pre b post, bs = pre ++ b :: post ∧ (∀ c ∈ pre, Unfit size c) ∧ ¬ Unfit size b := by
  classical
  cases hf : bs.find? (fun b => decide (¬ Unfit size b)) with
  | none =>
    rw [List.find?_eq_none] at hf
    exact .inl fun c hc => by simpa using hf c hc
  | some b =>
    obtain ⟨hb, pre, post, rfl, hpre⟩ := List.find?_eq_some_iff_append.mp hf
    exact .inr ⟨pre, b, post, rfl, fun c hc => by simpa using hpre c hc, by simpa using hb⟩

/-- Rewriting the headers of some consecutive blocks, within their own bytes. -/
theorem replace (mid mid' : List Block) {m' : Mem} (ht : Tiled h (pre ++ (mid ++ post)))
    (hm : Tiles m' (h.heapStartPtr + span headerSize pre) mid')
    (hs : span headerSize mid' = span headerSize mid) (hne : mid' ≠ [])
    (ho : ∀ x, x < h.heapStartPtr + span headerSize pre ∨
      h.heapStartPtr + span headerSize pre + span headerSize mid ≤ x → m' x = h.mem x) :
    Tiled { h with mem := m' } (pre ++ (mid' ++ post)) := by
  obtain ⟨hpre, hrest⟩ := tiles_append.mp ht.tiles
  obtain ⟨-, hpost⟩ := tiles_append.mp hrest
  refine ⟨?_, ?_, ht.noWrap, ht.small, by simp [hne]⟩
  · refine tiles_append.mpr ⟨hpre.congr_span fun x h1 h2 => ho x (.inl h2),
      tiles_append.mpr ⟨hm, ?_⟩⟩
    rw [hs]
    exact hpost.congr_span fun x h1 h2 => ho x (.inr h1)
  · have := ht.ends
    simp only [span_append, hs] at this ⊢
    exact this

/-- The three stores of `malloc` give the header of a used block. -/
private theorem take_header (m : Mem) (a size : Nat) (hs : size < 2 ^ 63) :
    readHeader (setUsed (setLength m a size) a true) a = ⟨size, true⟩ := by
  rw [readHeader_setUsed, readHeader_setLength, Nat.mod_eq_of_lt hs]

/-- They write nothing outside of the block. -/
private theorem take_header_outside (m : Mem) {a size n x : Nat}
    (hx : x < a ∨ a + headerSize + n ≤ x) : setUsed (setLength m a size) a true x = m x := by
  rw [setUsed_outside (by simp only [headerSize] at hx; omega),
    setLength_outside (by simp only [headerSize] at hx; omega)]

/-- The whole block is kept: its old length is written back. -/
private theorem take_whole_tiled {size a : Nat} (ht : Tiled h (pre ++ b :: post))
    (ha : a = h.heapStartPtr + span headerSize pre) (hsize : size < 2 ^ 63) :
    Tiled { h with mem := setLength (setUsed (setLength h.mem a size) a true) a b.length }
        (pre ++ ([⟨b.length, true⟩] ++ post)) ∧
      ∀ x, x < a ∨ a + headerSize + b.length ≤ x →
        setLength (setUsed (setLength h.mem a size) a true) a b.length x = h.mem x := by
  have hout : ∀ x, x < a ∨ a + headerSize + b.length ≤ x →
      setLength (setUsed (setLength h.mem a size) a true) a b.length x = h.mem x := fun x hx => by
    rw [setLength_outside (by simp only [headerSize] at hx; omega), take_header_outside h.mem hx]
  refine ⟨replace [b] _ ht ?_ rfl (by simp) fun x hx => hout x ?_, hout⟩
  · rw [← ha]
    exact ⟨by rw [readHeader_setLength, take_header h.mem a size hsize, Nat.mod_eq_of_lt ht.length_lt],
      trivial⟩
  · simpa [ha, Nat.add_assoc] using hx

/-- The block is split: a second header stands behind the payload. -/
private theorem take_split_tiled {size a rest : Nat} {mem : Mem} (ht : Tiled h (pre ++ b :: post))
    (ha : a = h.heapStartPtr + span headerSize pre) (hbig : size + headerSize < b.length)
    (hmore : headerSize < b.length - size - headerSize) (hrest : rest = a + (headerSize + size))
    (hmem : mem = setUsed (setLength (setUsed (setLength h.mem a size) a true) rest
      (b.length - size - headerSize)) rest false) :
    Tiled { h with mem := mem } (pre ++ (carve headerSize b size ++ post)) ∧
      ∀ x, x < a ∨ a + headerSize + b.length ≤ x → mem x = h.mem x := by
  have hlen := ht.length_lt
  have hout : ∀ x, x < a ∨ a + headerSize + b.length ≤ x → mem x = h.mem x := fun x hx => by
    rw [hmem, setUsed_outside (by simp only [headerSize] at *; omega),
      setLength_outside (by simp only [headerSize] at *; omega), take_header_outside h.mem hx]
  have hc : carve headerSize b size = [⟨size, true⟩, ⟨b.length - size - headerSize, false⟩] := by
    rw [carve, if_pos ⟨hbig, hmore⟩]
  have hspan := span_carve headerSize b size
  refine ⟨replace [b] _ ht ?_ (by simpa using hspan) (by simp [hc])
    fun x hx => hout x (by simpa [ha, Nat.add_assoc] using hx), hout⟩
  rw [← ha, hc]
  refine ⟨?_, ?_, trivial⟩
  · rw [readHeader_congr (m := setUsed (setLength h.mem a size) a true),
      take_header h.mem a size (by omega)]
    intro x h1 h2
    rw [hmem, setUsed_outside (by simp only [headerSize] at hrest; omega),
      setLength_outside (by simp only [headerSize] at hrest; omega)]
  · simp only
    rw [← hrest, hmem, readHeader_setUsed, readHeader_setLength, Nat.mod_eq_of_lt (by omega)]

/-- `malloc` after its loop carves the block, and writes only inside it. -/
theorem take_tiled {size : Nat} (ht : Tiled h (pre ++ b :: post)) (hb : ¬ Unfit size b) :
    Tiled (h.take (h.heapStartPtr + span headerSize pre) size)
        (pre ++ (carve headerSize b size ++ post)) ∧
      ∀ x, x < h.heapStartPtr + span headerSize pre ∨
        h.heapStartPtr + span headerSize pre + headerSize + b.length ≤ x →
        (h.take (h.heapStartPtr + span headerSize pre) size).mem x = h.mem x := by
  have hfit : size ≤ b.length := Nat.le_of_not_lt fun hlt => hb (.inl hlt)
  have hlen := ht.length_lt
  have hbound := ht.bound
  have hwrap := ht.noWrap
  have hheader := ht.header
  have hsize : size < 2 ^ 63 := Nat.lt_of_le_of_lt hfit hlen
  obtain ⟨a, ha⟩ : ∃ a, a = h.heapStartPtr + span headerSize pre := ⟨_, rfl⟩
  rw [← ha] at hbound hheader ⊢
  have hsum : u64 (size + headerSize) = size + headerSize :=
    u64_of_lt (by simp only [headerSize]; omega)
  by_cases hbig : size + headerSize < b.length
  · by_cases hrest : headerSize < b.length - size - headerSize
    · have hnext : getNextHeapBlock (setUsed (setLength h.mem a size) a true) a =
          a + (headerSize + size) := by
        rw [getNextHeapBlock, take_header h.mem a size hsize,
          u64_of_lt (by simp only [headerSize] at *; omega)]
        simp only [headerSize]; omega
      have hk : h.take a size = { h with
          mem := setUsed (setLength (setUsed (setLength h.mem a size) a true)
            (a + (headerSize + size)) (b.length - size - headerSize))
            (a + (headerSize + size)) false } := by
        unfold Heap.take
        simp only [hheader]
        rw [if_pos (by rw [hsum]; exact hbig), if_neg (by omega), hnext]
      rw [hk]
      exact take_split_tiled ht ha hbig hrest rfl rfl
    · have hk : h.take a size =
          { h with mem := setLength (setUsed (setLength h.mem a size) a true) a b.length } := by
        unfold Heap.take
        simp only [hheader]
        rw [if_pos (by rw [hsum]; exact hbig), if_pos (by omega)]
      rw [hk, carve, if_neg (by omega)]
      exact take_whole_tiled ht ha hsize
  · have hk : h.take a size =
        { h with mem := setLength (setUsed (setLength h.mem a size) a true) a b.length } := by
      unfold Heap.take
      simp only [hheader]
      rw [if_neg (by rw [hsum]; exact hbig)]
    rw [hk, carve, if_neg (by omega)]
    exact take_whole_tiled ht ha hsize

/-- `malloc` with a block that fits: it carves the first one. -/
theorem malloc_of_fit {size : Nat} (ht : Tiled h (pre ++ b :: post))
    (hpre : ∀ c ∈ pre, Unfit size c) (hb : ¬ Unfit size b) :
    h.malloc size = some (some (h.heapStartPtr + span headerSize pre + headerSize),
      h.take (h.heapStartPtr + span headerSize pre) size) := by
  have hl := ht.length_le_fuel
  have hs := searchLoop_fit (d := []) ht hpre hb (by simp at hl; omega : pre.length < h.fuel)
  simp only [span_nil, Nat.add_zero, List.nil_append] at hs
  simp only [Heap.malloc, hs]

/-- `malloc` without one: it fails and changes nothing. -/
theorem malloc_of_unfit {size : Nat} {bs : List Block} (ht : Tiled h bs)
    (hu : ∀ c ∈ bs, Unfit size c) : h.malloc size = some (none, h) := by
  have hl := ht.length_le_fuel
  cases bs with
  | nil => exact absurd rfl ht.nonempty
  | cons b post =>
    have hs := searchLoop_unfit (d := []) ht hu (by simp at hl; omega : post.length < h.fuel)
    simp only [span_nil, Nat.add_zero] at hs
    simp only [Heap.malloc, hs]

/-! ## `free` -/

/-- `header->Used = false` frees the block in the list. -/
theorem free_header {len : Nat} (ht : Tiled h (pre ++ ⟨len, true⟩ :: post)) :
    Tiled { h with mem := setUsed h.mem (h.heapStartPtr + span headerSize pre) false }
      (pre ++ ⟨len, false⟩ :: post) := by
  refine replace [⟨len, true⟩] [⟨len, false⟩] ht ⟨?_, trivial⟩ rfl (by simp)
    fun x hx => setUsed_outside ?_
  · rw [readHeader_setUsed, ht.header]
  · simp only [span_cons, span_nil, headerSize] at hx ⊢; omega

theorem mergeRight_heapStartPtr (h : Heap) (a : Nat) :
    (h.mergeRight a).heapStartPtr = h.heapStartPtr := by
  unfold Heap.mergeRight
  dsimp only
  split <;> rfl

theorem mergeRight_tiled (ht : Tiled h (pre ++ b :: post)) :
    let r := joinRight headerSize b post
    Tiled (h.mergeRight (h.heapStartPtr + span headerSize pre)) (pre ++ r.1 :: r.2) ∧
      ∀ x, x < h.heapStartPtr + span headerSize pre ∨
        h.heapStartPtr + span headerSize pre + headerSize ≤ x →
        (h.mergeRight (h.heapStartPtr + span headerSize pre)).mem x = h.mem x := by
  have hheader := ht.header
  have hnext := ht.next
  cases post with
  | nil =>
    have hk : h.mergeRight (h.heapStartPtr + span headerSize pre) = h := by
      unfold Heap.mergeRight
      simp only [hnext, ht.ends]
      rw [if_neg (by simp)]
    simp only [hk, joinRight]
    exact ⟨ht, fun _ _ => trivial⟩
  | cons r post =>
    have ht' : Tiled h ((pre ++ [b]) ++ r :: post) := by simpa using ht
    have hr := ht'.header
    have hlt : h.heapStartPtr + span headerSize (pre ++ [b]) < h.heapEndPtr := by
      have := ht'.bound
      simp only [headerSize] at this ⊢
      omega
    by_cases hu : r.used = true
    · have hk : h.mergeRight (h.heapStartPtr + span headerSize pre) = h := by
        unfold Heap.mergeRight
        simp only [hnext, hr, hu]
        rw [if_neg (by simp)]
      simp only [hk, joinRight, hu, ↓reduceIte]
      exact ⟨ht, fun _ _ => trivial⟩
    · have hu' : r.used = false := by simpa using hu
      have hk : h.mergeRight (h.heapStartPtr + span headerSize pre) = { h with
          mem := setLength h.mem (h.heapStartPtr + span headerSize pre)
            (b.length + (r.length + headerSize)) } := by
        unfold Heap.mergeRight
        simp only [hnext, hr, hheader, hu']
        rw [if_pos ⟨hlt, trivial⟩]
      have hout : ∀ x, x < h.heapStartPtr + span headerSize pre ∨
          h.heapStartPtr + span headerSize pre + headerSize ≤ x →
          setLength h.mem (h.heapStartPtr + span headerSize pre)
            (b.length + (r.length + headerSize)) x = h.mem x := fun x hx => setLength_outside hx
      simp only [hk, joinRight, hu', Bool.false_eq_true, ↓reduceIte]
      refine ⟨replace [b, r] [⟨b.length + (r.length + headerSize), b.used⟩] ht
        ⟨?_, trivial⟩ ?_ (by simp) fun x hx => hout x ?_, hout⟩
      · have hb := ht'.bound
        have hs := ht.small
        simp only [span_append, span_cons, span_nil, headerSize] at hb
        rw [readHeader_setLength, hheader, Nat.mod_eq_of_lt (by simp only [headerSize]; omega)]
      · simp only [span_cons, span_nil]; omega
      · simp only [span_cons, span_nil, headerSize] at hx ⊢; omega

/-- The walk of `get_prev_heap_block` finds the block before the given one. -/
theorem prevLoop_tiled {fuel : Nat} {d m : List Block} {l : Block}
    (ht : Tiled h (d ++ (m ++ l :: b :: post))) (hf : m.length < fuel) :
    h.prevLoop (h.heapStartPtr + span headerSize (d ++ (m ++ [l]))) fuel
        (h.heapStartPtr + span headerSize d) =
      some (some (h.heapStartPtr + span headerSize (d ++ m))) := by
  induction m generalizing d fuel with
  | nil =>
    obtain ⟨fuel, rfl⟩ : ∃ k, fuel = k + 1 := ⟨fuel - 1, by simp at hf; omega⟩
    simp only [Heap.prevLoop, List.nil_append, List.append_nil]
    rw [if_pos ⟨by omega, by simp only [span_append, span_cons, headerSize]; omega⟩, ht.next,
      if_pos rfl]
  | cons c m ih =>
    obtain ⟨fuel, rfl⟩ : ∃ k, fuel = k + 1 := ⟨fuel - 1, by simp at hf; omega⟩
    have ht' : Tiled h ((d ++ [c]) ++ (m ++ l :: b :: post)) := by simpa using ht
    have := ih ht' (by simp at hf; omega : m.length < fuel)
    simp only [Heap.prevLoop]
    rw [if_pos ⟨by omega, by simp only [span_append, span_cons, headerSize]; omega⟩, ht.next,
      if_neg (by simp only [span_append, span_cons, span_nil, headerSize]; omega)]
    simpa using this

theorem getPrevHeapBlock_tiled (ht : Tiled h (pre ++ b :: post)) :
    h.getPrevHeapBlock (h.heapStartPtr + span headerSize pre) =
      some (pre.getLast?.map fun _ => h.heapStartPtr + span headerSize pre.dropLast) := by
  have hl := ht.length_le_fuel
  cases hp : pre.getLast? with
  | none =>
    rw [List.getLast?_eq_none_iff] at hp
    subst hp
    obtain ⟨fuel, hfuel⟩ : ∃ k, h.fuel = k + 1 := ⟨h.fuel - 1, by simp at hl; omega⟩
    simp only [Heap.getPrevHeapBlock, hfuel, Heap.prevLoop]
    rw [if_neg (by simp)]
    rfl
  | some l =>
    have he := eq_dropLast_append hp
    have hlen : pre.dropLast.length < h.fuel := by
      simp only [List.length_append, List.length_cons] at hl
      rw [List.length_dropLast]
      omega
    rw [he] at ht
    have := prevLoop_tiled (d := []) (m := pre.dropLast) (l := l) (b := b)
      (by simpa using ht) hlen
    rw [List.nil_append, List.nil_append, ← he, span_nil, Nat.add_zero] at this
    exact this

theorem mergeLeft_tiled (ht : Tiled h (pre ++ b :: post)) :
    let l := joinLeft headerSize pre b
    ∃ h', h.mergeLeft (h.heapStartPtr + span headerSize pre) = some h' ∧
      h'.heapStartPtr = h.heapStartPtr ∧ Tiled h' (l.1 ++ l.2 :: post) ∧
      ∀ x, ¬ HeaderByte headerSize h.heapStartPtr pre x → h'.mem x = h.mem x := by
  have hprev := ht.getPrevHeapBlock_tiled
  cases hp : pre.getLast? with
  | none =>
    rw [hp] at hprev
    refine ⟨h, by simp only [Heap.mergeLeft, hprev, Option.map_none], rfl, ?_, fun _ _ => rfl⟩
    simpa only [joinLeft, hp] using ht
  | some l =>
    rw [hp] at hprev
    have he := eq_dropLast_append hp
    have ht' : Tiled h (pre.dropLast ++ l :: b :: post) := by
      rw [he] at ht
      simpa using ht
    have hl := ht'.header
    by_cases hu : l.used = true
    · refine ⟨h, ?_, rfl, ?_, fun _ _ => rfl⟩
      · simp only [Heap.mergeLeft, hprev, Option.map_some, hl, hu]
        rw [if_neg (by simp)]
      · simpa only [joinLeft, hp, hu, ↓reduceIte] using ht
    · have hu' : l.used = false := by simpa using hu
      refine ⟨{ h with
          mem := setLength h.mem (h.heapStartPtr + span headerSize pre.dropLast)
            (l.length + (b.length + headerSize)) },
        ?_, rfl, ?_, fun x hx => setLength_outside ?_⟩
      · simp only [Heap.mergeLeft, hprev, Option.map_some, hl, hu', ht.header]
        rw [if_pos ⟨by omega, trivial⟩]
      · simp only [joinLeft, hp, hu', Bool.false_eq_true, ↓reduceIte]
        refine replace [l, b] [⟨l.length + (b.length + headerSize), false⟩] ht'
          ⟨?_, trivial⟩ ?_ (by simp) fun x hx => setLength_outside ?_
        · have hb := ht'.bound
          have hs := ht.small
          simp only [span_cons, headerSize] at hb
          rw [readHeader_setLength, hl, hu', Nat.mod_eq_of_lt (by simp only [headerSize]; omega)]
        · simp only [span_cons, span_nil]; omega
        · simp only [span_cons, span_nil, headerSize] at hx ⊢; omega
      · by_contra hc
        have h8 : headerSize = 8 := rfl
        exact hx ⟨pre.dropLast, l, [], he, by omega, by omega⟩

/-- `free` of a used block coalesces it, and writes only headers. -/
theorem free_tiled {len : Nat} (ht : Tiled h (pre ++ ⟨len, true⟩ :: post)) :
    ∃ h', h.free (h.heapStartPtr + span headerSize pre + headerSize) = some h' ∧
      h'.heapStartPtr = h.heapStartPtr ∧ Tiled h' (coalesce headerSize pre len post) ∧
      ∀ x, ¬ HeaderByte headerSize h.heapStartPtr (pre ++ ⟨len, true⟩ :: post) x →
        h'.mem x = h.mem x := by
  have hbound := ht.bound
  have hwrap := ht.noWrap
  obtain ⟨a, ha⟩ : ∃ a, a = h.heapStartPtr + span headerSize pre := ⟨_, rfl⟩
  have hptr : u64 (a + headerSize + 2 ^ 64 - headerSize) = a := by
    rw [← ha] at hbound
    simp only [u64, headerSize] at hbound ⊢
    omega
  have h1 := ht.free_header
  rw [← ha] at h1
  obtain ⟨h2, ho2⟩ := h1.mergeRight_tiled
  obtain ⟨h', hk, hstart, h3, ho3⟩ := h2.mergeLeft_tiled
  simp only [mergeRight_heapStartPtr, ← ha] at hk hstart h2 h3 ho2 ho3
  refine ⟨h', ?_, hstart, h3, fun x hx => ?_⟩
  · rw [← ha, Heap.free]
    simp only [hptr]
    exact hk
  · have hpre : ¬ HeaderByte headerSize h.heapStartPtr pre x := by
      rintro ⟨p, c, q, he, h1, h2⟩
      exact hx ⟨p, c, q ++ ⟨len, true⟩ :: post, by rw [he]; simp, h1, h2⟩
    have hself : x < a ∨ a + headerSize ≤ x := by
      by_contra hc
      exact hx ⟨pre, ⟨len, true⟩, post, rfl, by omega, by omega⟩
    rw [ho3 x hpre, ho2 x hself]
    exact setUsed_outside hself

end Tiled

end EszOs
