import Mathlib.Data.List.Chain
import Mathlib.Tactic.Tauto

/-!
# Implicit block lists

An allocator that keeps a region as a sequence of blocks, each a header of `hdr` bytes followed by
its payload, has no pointers to its blocks: a block starts where the previous one ends. Here the
region is the list of its blocks (`Block`), and a block's address is what the blocks before it take
(`span`).

* `carve`: use a free block for `n` bytes and split off the rest when it is worth it.
* `joinRight`/`joinLeft`/`coalesce`: give a block back and merge it with its free neighbours.
* `NoFreeNeighbours`: the invariant the merging is for. Both operations keep it, and keep `span`.
* `exists_mem_carve`, `exists_mem_coalesce`: how much room both leave.
* `payloads`: the used payloads with their addresses. `carve` adds one (`payloads_carve`) and
  `coalesce` removes one (`payloads_coalesce`); distinct ones do not overlap (`split_order`).
* `eq_of_payloads`: without free neighbours, the used payloads determine the blocks.

The header size is a parameter: nothing depends on how a header is stored.
-/

namespace Blocks

/-- A block: the length of its payload, and whether it is in use. -/
structure Block where
  length : Nat
  used : Bool
deriving DecidableEq, Repr

variable (hdr : Nat)

/-- The bytes that the blocks take, headers included. -/
def span : List Block → Nat
  | [] => 0
  | b :: bs => hdr + b.length + span bs

@[simp] theorem span_nil : span hdr [] = 0 := rfl

@[simp] theorem span_cons (b : Block) (bs : List Block) :
    span hdr (b :: bs) = hdr + b.length + span hdr bs := rfl

@[simp] theorem span_append (as bs : List Block) :
    span hdr (as ++ bs) = span hdr as + span hdr bs := by
  induction as with
  | nil => simp
  | cons a as ih => simp [ih, Nat.add_assoc]

/-- The number of blocks is bounded by the bytes they take. -/
theorem length_mul_le_span (bs : List Block) : bs.length * hdr ≤ span hdr bs := by
  induction bs with
  | nil => simp
  | cons b bs ih => simp only [List.length_cons, span_cons, Nat.succ_mul]; omega

/-! ## Two blocks of one list -/

/-- Two blocks of one list are the same block, or one ends before the other starts. -/
theorem split_order {pre post pre' post' : List Block} {b b' : Block}
    (h : pre ++ b :: post = pre' ++ b' :: post') :
    (pre = pre' ∧ b = b' ∧ post = post') ∨
      span hdr pre + hdr + b.length ≤ span hdr pre' ∨
      span hdr pre' + hdr + b'.length ≤ span hdr pre := by
  induction pre generalizing pre' with
  | nil =>
    cases pre' with
    | nil => simp only [List.nil_append, List.cons.injEq] at h; exact .inl ⟨rfl, h⟩
    | cons a as =>
      simp only [List.nil_append, List.cons_append, List.cons.injEq] at h
      obtain ⟨rfl, -⟩ := h
      refine .inr (.inl ?_)
      simp only [span_nil, span_cons]
      omega
  | cons a as ih =>
    cases pre' with
    | nil =>
      simp only [List.nil_append, List.cons_append, List.cons.injEq] at h
      obtain ⟨rfl, -⟩ := h
      refine .inr (.inr ?_)
      simp only [span_nil, span_cons]
      omega
    | cons a' as' =>
      simp only [List.cons_append, List.cons.injEq] at h
      obtain ⟨rfl, h⟩ := h
      rcases ih h with ⟨rfl, rfl, rfl⟩ | h | h
      · exact .inl ⟨rfl, rfl, rfl⟩
      · refine .inr (.inl ?_); simp only [span_cons]; omega
      · refine .inr (.inr ?_); simp only [span_cons]; omega

/-- Byte `x` is in a header of the blocks from address `a`. -/
def HeaderByte (a : Nat) (bs : List Block) (x : Nat) : Prop :=
  ∃ pre b post, bs = pre ++ b :: post ∧ a + span hdr pre ≤ x ∧ x < a + span hdr pre + hdr

/-! ## Free neighbours -/

/-- Of two neighbours at least one is in use. -/
def Apart (a b : Block) : Prop := a.used = true ∨ b.used = true

instance (a b : Block) : Decidable (Apart a b) := inferInstanceAs (Decidable (_ ∨ _))

/-- No two neighbours are both free. -/
abbrev NoFreeNeighbours (bs : List Block) : Prop := bs.IsChain Apart

/-- Apart blocks that are all free: at most one. -/
theorem NoFreeNeighbours.length_le_one {bs : List Block} (ha : NoFreeNeighbours bs)
    (hf : ∀ b ∈ bs, b.used = false) : bs.length ≤ 1 := by
  match bs, ha, hf with
  | [], _, _ => simp
  | [_], _, _ => simp
  | b :: c :: bs, ha, hf =>
    have h := (List.isChain_cons_cons.mp ha).1
    simp [Apart, hf b (by simp), hf c (by simp)] at h

/-- The condition at one block: both sides satisfy it, and the block is apart from its neighbours. -/
theorem noFreeNeighbours_zip {pre post : List Block} {b : Block} :
    NoFreeNeighbours (pre ++ b :: post) ↔ NoFreeNeighbours pre ∧ NoFreeNeighbours post ∧
      (∀ l ∈ pre.getLast?, Apart l b) ∧ ∀ r ∈ post.head?, Apart b r := by
  rw [NoFreeNeighbours, List.isChain_append, List.isChain_cons]
  simp only [List.head?_cons, Option.mem_some_iff, forall_eq']
  tauto

/-! ## Carving a block -/

/-- Use block `b` for `n` bytes. The rest becomes a free block if more than a header is left of
it after its own header; else the whole block is used. -/
def carve (b : Block) (n : Nat) : List Block :=
  if n + hdr < b.length ∧ hdr < b.length - n - hdr then
    [⟨n, true⟩, ⟨b.length - n - hdr, false⟩]
  else [⟨b.length, true⟩]

/-- The payload length `carve` uses. -/
def carved (b : Block) (n : Nat) : Nat :=
  if n + hdr < b.length ∧ hdr < b.length - n - hdr then n else b.length

theorem span_carve (b : Block) (n : Nat) : span hdr (carve hdr b n) = hdr + b.length := by
  unfold carve
  split
  · simp only [span_cons, span_nil]; omega
  · rfl

theorem le_carved {b : Block} {n : Nat} (h : n ≤ b.length) : n ≤ carved hdr b n := by
  unfold carved; split <;> omega

/-- Carving a free block makes no free neighbours: the new free block takes the place of the old
one on the right, and a used block stands on its left. -/
theorem NoFreeNeighbours.carve {pre post : List Block} {b : Block} {n : Nat} (hb : b.used = false)
    (h : NoFreeNeighbours (pre ++ b :: post)) : NoFreeNeighbours (pre ++ (carve hdr b n ++ post)) := by
  obtain ⟨hpre, hpost, -, hr⟩ := noFreeNeighbours_zip.mp h
  unfold Blocks.carve
  split
  · refine noFreeNeighbours_zip.mpr ⟨hpre, ?_, fun _ _ => .inr rfl, fun _ _ => .inl rfl⟩
    exact List.isChain_cons.mpr ⟨fun r hr' => .inr ((hr r hr').resolve_left (by simp [hb])), hpost⟩
  · exact noFreeNeighbours_zip.mpr ⟨hpre, hpost, fun _ _ => .inr rfl, fun _ _ => .inl rfl⟩

/-! ## Giving a block back -/

/-- Merge the block with the free block after it. -/
def joinRight (b : Block) : List Block → Block × List Block
  | r :: post => if r.used then (b, r :: post) else (⟨b.length + (r.length + hdr), b.used⟩, post)
  | [] => (b, [])

/-- Merge the block into the free block before it. -/
def joinLeft (pre : List Block) (b : Block) : List Block × Block :=
  match pre.getLast? with
  | some l => if l.used then (pre, b) else (pre.dropLast, ⟨l.length + (b.length + hdr), l.used⟩)
  | none => (pre, b)

/-- Free the block of `len` bytes between `pre` and `post`, and merge it with its free neighbours. -/
def coalesce (pre : List Block) (len : Nat) (post : List Block) : List Block :=
  let r := joinRight hdr ⟨len, false⟩ post
  let l := joinLeft hdr pre r.1
  l.1 ++ l.2 :: r.2

theorem eq_dropLast_append {l : Block} {pre : List Block} (h : l ∈ pre.getLast?) :
    pre = pre.dropLast ++ [l] := by
  obtain ⟨hne, hl⟩ := List.mem_getLast?_eq_getLast h
  rw [hl, List.dropLast_append_getLast hne]

/-- What the two merges do to the address, the bytes and the neighbours of a free block. -/
theorem joinRight_spec (b : Block) (post : List Block) (hb : b.used = false) :
    let r := joinRight hdr b post
    r.1.used = false ∧ hdr + r.1.length + span hdr r.2 = hdr + b.length + span hdr post ∧
      (NoFreeNeighbours post → NoFreeNeighbours r.2 ∧ ∀ x ∈ r.2.head?, x.used = true) := by
  unfold joinRight
  cases post with
  | nil => exact ⟨hb, rfl, fun h => ⟨h, by simp⟩⟩
  | cons x post =>
    by_cases hx : x.used = true
    · simp only [hx, ↓reduceIte]
      exact ⟨hb, trivial, fun h => ⟨h, by simp [hx]⟩⟩
    · have hx' : x.used = false := by simpa using hx
      simp only [hx', Bool.false_eq_true, ↓reduceIte, span_cons]
      refine ⟨hb, by omega, fun h => ?_⟩
      obtain ⟨h1, h2⟩ := List.isChain_cons.mp h
      exact ⟨h2, fun y hy => (h1 y hy).resolve_left hx⟩

theorem joinLeft_spec (pre : List Block) (b : Block) (hb : b.used = false) :
    let l := joinLeft hdr pre b
    l.2.used = false ∧ span hdr l.1 + hdr + l.2.length = span hdr pre + hdr + b.length ∧
      (NoFreeNeighbours pre → NoFreeNeighbours l.1 ∧ ∀ x ∈ l.1.getLast?, x.used = true) := by
  unfold joinLeft
  cases hl : pre.getLast? with
  | none => exact ⟨hb, rfl, fun h => ⟨h, by simp [hl]⟩⟩
  | some x =>
    have hpre := eq_dropLast_append hl
    by_cases hx : x.used = true
    · simp only [hx, ↓reduceIte]
      exact ⟨hb, trivial, fun h => ⟨h, by simp [hl, hx]⟩⟩
    · simp only [hx, Bool.false_eq_true, ↓reduceIte]
      refine ⟨by simp, ?_, fun h => ?_⟩
      · conv => rhs; rw [hpre]
        simp only [span_append, span_cons, span_nil]
        omega
      · rw [hpre] at h
        obtain ⟨h1, -, h2, -⟩ := noFreeNeighbours_zip.mp h
        exact ⟨h1, fun y hy => (h2 y hy).resolve_right hx⟩

theorem span_coalesce (pre : List Block) (len : Nat) (post : List Block) :
    span hdr (coalesce hdr pre len post) = span hdr pre + hdr + len + span hdr post := by
  have hr := (joinRight_spec hdr ⟨len, false⟩ post rfl).2.1
  have hu := (joinRight_spec hdr ⟨len, false⟩ post rfl).1
  have hl := (joinLeft_spec hdr pre (joinRight hdr ⟨len, false⟩ post).1 hu).2.1
  simp only [coalesce, span_append, span_cons] at *
  omega

/-- Freeing a block and merging it leaves no free neighbours. -/
theorem noFreeNeighbours_coalesce {pre post : List Block} {b : Block}
    (h : NoFreeNeighbours (pre ++ b :: post)) :
    NoFreeNeighbours (coalesce hdr pre b.length post) := by
  obtain ⟨hpre, hpost, -, -⟩ := noFreeNeighbours_zip.mp h
  obtain ⟨hu, -, hr⟩ := joinRight_spec hdr ⟨b.length, false⟩ post rfl
  obtain ⟨-, -, hl⟩ := joinLeft_spec hdr pre (joinRight hdr ⟨b.length, false⟩ post).1 hu
  exact noFreeNeighbours_zip.mpr ⟨(hl hpre).1, (hr hpost).1, fun x hx => .inl ((hl hpre).2 x hx),
    fun x hx => .inr ((hr hpost).2 x hx)⟩

/-! ## Carving and giving back -/

/-- The used block, and the free one behind it if there is one. -/
theorem carve_eq_cons (b : Block) (n : Nat) :
    carve hdr b n = ⟨carved hdr b n, true⟩ :: (carve hdr b n).tail := by
  unfold carve carved
  split <;> rfl

/-- The whole block is used if two headers more than asked for are enough for it; else the rest is
free. -/
theorem carve_cases {b : Block} {n : Nat} :
    (carve hdr b n = [⟨b.length, true⟩] ∧ b.length ≤ n + 2 * hdr) ∨
      ∃ len, n + hdr + len = b.length ∧ carve hdr b n = [⟨n, true⟩, ⟨len, false⟩] := by
  by_cases h : n + hdr < b.length ∧ hdr < b.length - n - hdr
  · exact .inr ⟨b.length - n - hdr, by omega, by rw [carve, if_pos h]⟩
  · exact .inl ⟨by rw [carve, if_neg h], by omega⟩

/-- Between used neighbours, giving back what was carved undoes the carving. -/
theorem coalesce_carve {pre post : List Block} {b : Block} (n : Nat) (hb : b.used = false)
    (h : NoFreeNeighbours (pre ++ b :: post)) :
    coalesce hdr pre (carved hdr b n) ((carve hdr b n).tail ++ post) = pre ++ b :: post := by
  obtain ⟨-, -, hl, hr⟩ := noFreeNeighbours_zip.mp h
  have hself : (⟨b.length, false⟩ : Block) = b := by rw [← hb]
  have hright : joinRight hdr ⟨carved hdr b n, false⟩ ((carve hdr b n).tail ++ post) = (b, post) := by
    unfold carve carved
    split
    · -- The rest is merged again.
      have hlength : n + (b.length - n - hdr + hdr) = b.length := by omega
      simp only [List.tail_cons, List.singleton_append, joinRight, Bool.false_eq_true, ↓reduceIte,
        hlength, hself]
    · rw [List.tail_cons, List.nil_append, hself]
      cases post with
      | nil => rfl
      | cons r post =>
        have hused : r.used = true := (hr r rfl).resolve_left (by simp [hb])
        rw [joinRight, if_pos hused]
  have hleft : joinLeft hdr pre b = (pre, b) := by
    unfold joinLeft
    cases hlast : pre.getLast? with
    | none => rfl
    | some l =>
      have hused : l.used = true := (hl l hlast).resolve_right (by simp [hb])
      exact if_pos hused
  simp only [coalesce, hright, hleft]

/-! ## Free blocks that stay -/

theorem mem_joinRight {b c : Block} {post : List Block} (hc : c ∈ post) :
    c ∈ (joinRight hdr b post).2 ∨ c.length ≤ (joinRight hdr b post).1.length := by
  unfold joinRight
  cases post with
  | nil => cases hc
  | cons r post =>
    by_cases hr : r.used = true
    · exact .inl (by simpa only [hr, ↓reduceIte] using hc)
    · simp only [hr, Bool.false_eq_true, ↓reduceIte]
      rcases List.mem_cons.mp hc with rfl | hc
      · exact .inr (by omega)
      · exact .inl hc

theorem mem_joinLeft {b c : Block} {pre : List Block} (hc : c ∈ pre) :
    c ∈ (joinLeft hdr pre b).1 ∨ c.length ≤ (joinLeft hdr pre b).2.length := by
  unfold joinLeft
  cases hlast : pre.getLast? with
  | none => exact .inl hc
  | some l =>
    by_cases hl : l.used = true
    · exact .inl (by simpa only [hl, ↓reduceIte] using hc)
    · simp only [hl, Bool.false_eq_true, ↓reduceIte]
      rw [eq_dropLast_append hlast] at hc
      rcases List.mem_append.mp hc with hc | hc
      · exact .inl hc
      · rw [List.mem_singleton.mp hc]
        exact .inr (Nat.le_add_right _ _)

theorem length_le_joinLeft (pre : List Block) (b : Block) :
    b.length ≤ (joinLeft hdr pre b).2.length := by
  unfold joinLeft
  cases pre.getLast? with
  | none => exact Nat.le_refl _
  | some l =>
    by_cases hl : l.used = true
    · simp only [hl, ↓reduceIte, Nat.le_refl]
    · simp only [hl, Bool.false_eq_true, ↓reduceIte]
      omega

/-- What is free stays free, by itself or as part of a longer block. -/
theorem exists_mem_coalesce {pre post : List Block} {len : Nat} {c : Block}
    (hc : c ∈ pre ++ ⟨len, true⟩ :: post) (hfree : c.used = false) :
    ∃ c' ∈ coalesce hdr pre len post, c'.used = false ∧ c.length ≤ c'.length := by
  obtain ⟨hright, -, -⟩ := joinRight_spec hdr ⟨len, false⟩ post rfl
  obtain ⟨hleft, -, -⟩ := joinLeft_spec hdr pre (joinRight hdr ⟨len, false⟩ post).1 hright
  have hmerged : (joinLeft hdr pre (joinRight hdr ⟨len, false⟩ post).1).2 ∈
      coalesce hdr pre len post := List.mem_append_right _ List.mem_cons_self
  rcases List.mem_append.mp hc with hc | hc
  · rcases mem_joinLeft hdr (b := (joinRight hdr ⟨len, false⟩ post).1) hc with hmem | hle
    · exact ⟨c, List.mem_append_left _ hmem, hfree, Nat.le_refl _⟩
    · exact ⟨_, hmerged, hleft, hle⟩
  · rcases List.mem_cons.mp hc with rfl | hc
    · cases hfree
    · rcases mem_joinRight hdr (b := ⟨len, false⟩) hc with hmem | hle
      · exact ⟨c, List.mem_append_right _ (List.mem_cons_of_mem _ hmem), hfree, Nat.le_refl _⟩
      · exact ⟨_, hmerged, hleft, hle.trans (length_le_joinLeft hdr _ _)⟩

/-- A free block of `k` bytes is left when `n` are carved, if there was one of two headers more than
both. -/
theorem exists_mem_carve {pre post : List Block} {b c : Block} {n k : Nat} (hb : b.used = false)
    (hc : c ∈ pre ++ b :: post) (hfree : c.used = false) (hk : n + 2 * hdr + 1 + k ≤ c.length) :
    ∃ c' ∈ pre ++ (carve hdr b n ++ post), c'.used = false ∧ k ≤ c'.length := by
  rcases List.mem_append.mp hc with hc | hc
  · exact ⟨c, List.mem_append_left _ hc, hfree, by omega⟩
  · rcases List.mem_cons.mp hc with rfl | hc
    · refine ⟨⟨c.length - n - hdr, false⟩, ?_, rfl, by simp only; omega⟩
      rw [carve, if_pos (by omega)]
      simp
    · exact ⟨c, List.mem_append_right _ (List.mem_append_right _ hc), hfree, by omega⟩

/-! ## The blocks with their addresses -/

/-- The blocks from address `a`, each with its address. -/
def located (a : Nat) : List Block → List (Nat × Block)
  | [] => []
  | b :: bs => (a, b) :: located (a + (hdr + b.length)) bs

@[simp] theorem located_append (a : Nat) (as bs : List Block) :
    located hdr a (as ++ bs) = located hdr a as ++ located hdr (a + span hdr as) bs := by
  induction as generalizing a with
  | nil => rfl
  | cons b as ih => simp [located, ih, Nat.add_assoc]

theorem located_map_snd (a : Nat) (bs : List Block) : (located hdr a bs).map Prod.snd = bs := by
  induction bs generalizing a with
  | nil => rfl
  | cons b bs ih => rw [located, List.map_cons, ih]

theorem le_of_mem_located {a : Nat} {bs : List Block} {q : Nat × Block}
    (hq : q ∈ located hdr a bs) : a ≤ q.1 := by
  induction bs generalizing a with
  | nil => cases hq
  | cons b bs ih =>
    rcases List.mem_cons.mp hq with rfl | hq
    · exact Nat.le_refl _
    · exact (Nat.le_add_right _ _).trans (ih hq)

theorem mem_of_mem_located {a : Nat} {bs : List Block} {q : Nat × Block}
    (hq : q ∈ located hdr a bs) : q.2 ∈ bs := by
  induction bs generalizing a with
  | nil => cases hq
  | cons b bs ih =>
    rcases List.mem_cons.mp hq with rfl | hq
    · exact List.mem_cons_self
    · exact List.mem_cons_of_mem _ (ih hq)

/-! ## The used payloads -/

/-- The used payloads of the blocks from address `a`: address and length. -/
def payloads (a : Nat) : List Block → List (Nat × Nat)
  | [] => []
  | b :: bs => (if b.used then [(a + hdr, b.length)] else []) ++ payloads (a + (hdr + b.length)) bs

@[simp] theorem payloads_append (a : Nat) (as bs : List Block) :
    payloads hdr a (as ++ bs) = payloads hdr a as ++ payloads hdr (a + span hdr as) bs := by
  induction as generalizing a with
  | nil => simp [payloads]
  | cons b as ih => simp [payloads, ih, Nat.add_assoc]

/-- A used payload is that of a block of the list. -/
theorem mem_payloads {a p len : Nat} {bs : List Block} :
    (p, len) ∈ payloads hdr a bs ↔
      ∃ pre post, bs = pre ++ ⟨len, true⟩ :: post ∧ p = a + span hdr pre + hdr := by
  induction bs generalizing a with
  | nil => simp [payloads]
  | cons b bs ih =>
    simp only [payloads, List.mem_append, ih]
    constructor
    · rintro (h | ⟨pre, post, rfl, rfl⟩)
      · split at h
        · rename_i hb
          simp only [List.mem_singleton, Prod.mk.injEq] at h
          refine ⟨[], bs, ?_, by simpa using h.1⟩
          cases b; simp_all
        · simp at h
      · exact ⟨b :: pre, post, rfl, by simp only [span_cons]; omega⟩
    · rintro ⟨pre, post, h, rfl⟩
      cases pre with
      | nil =>
        simp only [List.nil_append, List.cons.injEq] at h
        obtain ⟨rfl, rfl⟩ := h
        exact .inl (by simp)
      | cons c pre =>
        simp only [List.cons_append, List.cons.injEq] at h
        obtain ⟨rfl, rfl⟩ := h
        exact .inr ⟨pre, post, rfl, by simp only [span_cons]; omega⟩

/-- No byte of a used payload is in a header. -/
theorem not_headerByte_of_payload {a p len x : Nat} {bs : List Block}
    (hp : (p, len) ∈ payloads hdr a bs) (h1 : p ≤ x) (h2 : x < p + len) :
    ¬ HeaderByte hdr a bs x := by
  obtain ⟨pre, post, rfl, rfl⟩ := (mem_payloads hdr).mp hp
  rintro ⟨pre', b', post', h, h3, h4⟩
  rcases split_order hdr h with ⟨rfl, -⟩ | h | h
  · omega
  · simp only at h; omega
  · omega

/-- Two used payloads are the same one, or do not overlap. -/
theorem payloads_disjoint {a p len p' len' : Nat} {bs : List Block}
    (hp : (p, len) ∈ payloads hdr a bs) (hp' : (p', len') ∈ payloads hdr a bs) :
    (p = p' ∧ len = len') ∨ p + len + hdr ≤ p' ∨ p' + len' + hdr ≤ p := by
  obtain ⟨pre, post, rfl, rfl⟩ := (mem_payloads hdr).mp hp
  obtain ⟨pre', post', h, rfl⟩ := (mem_payloads hdr).mp hp'
  rcases split_order hdr h with ⟨rfl, h, -⟩ | h | h
  · simp only [Block.mk.injEq, and_true] at h; exact .inl ⟨rfl, h⟩
  · simp only at h; omega
  · simp only at h; omega

/-- A used payload lies outside a free block. -/
theorem payload_outside_free {a p len : Nat} {pre post : List Block} {b : Block}
    (hb : b.used = false) (hp : (p, len) ∈ payloads hdr a (pre ++ b :: post)) :
    p + len ≤ a + span hdr pre ∨ a + span hdr pre + hdr + b.length ≤ p := by
  obtain ⟨pre', post', h, rfl⟩ := (mem_payloads hdr).mp hp
  rcases split_order hdr h with ⟨-, rfl, -⟩ | h | h
  · cases hb
  · omega
  · simp only at h; omega

/-- A used payload ends within the blocks. -/
theorem payload_bounds {a p len : Nat} {bs : List Block} (hp : (p, len) ∈ payloads hdr a bs) :
    a + hdr ≤ p ∧ p + len ≤ a + span hdr bs := by
  obtain ⟨pre, post, rfl, rfl⟩ := (mem_payloads hdr).mp hp
  simp only [span_append, span_cons]
  omega

/-- Without used payloads no block is in use. -/
theorem used_of_payloads_nil {a : Nat} {bs : List Block} (hp : payloads hdr a bs = []) :
    ∀ b ∈ bs, b.used = false := by
  induction bs generalizing a with
  | nil => simp
  | cons b bs ih =>
    obtain ⟨h1, h2⟩ := List.append_eq_nil_iff.mp hp
    have hb : b.used = false := by
      cases hu : b.used
      · rfl
      · simp [hu] at h1
    simpa [hb] using ih h2

/-- The addresses of the used payloads increase. -/
theorem payloads_sorted (a : Nat) (bs : List Block) (hh : 0 < hdr) :
    (payloads hdr a bs).Pairwise (·.1 < ·.1) ∧ ∀ q ∈ payloads hdr a bs, a < q.1 := by
  induction bs generalizing a with
  | nil => simp [payloads]
  | cons b bs ih =>
    obtain ⟨h1, h2⟩ := ih (a + (hdr + b.length))
    have h3 : ∀ q ∈ payloads hdr (a + (hdr + b.length)) bs, a + hdr < q.1 := fun q hq => by
      have := h2 q hq; omega
    cases hb : b.used
    · simp only [payloads, hb, Bool.false_eq_true, ↓reduceIte, List.nil_append]
      exact ⟨h1, fun q hq => Nat.lt_of_le_of_lt (Nat.le_add_right a hdr) (h3 q hq)⟩
    · refine ⟨?_, fun q hq => ?_⟩
      · simpa [payloads, hb] using ⟨fun p n hq => h3 (p, n) hq, h1⟩
      · simp only [payloads, hb, ↓reduceIte, List.cons_append, List.nil_append, List.mem_cons] at hq
        rcases hq with rfl | hq
        · show a < a + hdr; omega
        · have := h3 q hq; omega

/-- Carving a free block adds its payload. -/
theorem payloads_carve (a : Nat) (pre : List Block) {b : Block} (n : Nat) (post : List Block)
    (hb : b.used = false) :
    (payloads hdr a (pre ++ (carve hdr b n ++ post))).Perm
      ((a + span hdr pre + hdr, carved hdr b n) :: payloads hdr a (pre ++ b :: post)) := by
  have hpost : payloads hdr (a + span hdr pre) (carve hdr b n ++ post) =
      (a + span hdr pre + hdr, carved hdr b n) ::
        payloads hdr (a + span hdr pre + (hdr + b.length)) post := by
    rw [payloads_append, span_carve]
    unfold carve carved
    split <;> simp [payloads]
  rw [payloads_append, hpost, payloads_append]
  simp [payloads, hb, List.perm_middle]

/-- Giving a block back removes its payload: a merge changes only free blocks. -/
theorem payloads_coalesce (a : Nat) (pre : List Block) (len : Nat) (post : List Block) :
    (payloads hdr a (pre ++ ⟨len, true⟩ :: post)).Perm
      ((a + span hdr pre + hdr, len) :: payloads hdr a (coalesce hdr pre len post)) := by
  have hr : ∀ (b : Block) (c : Nat), b.used = false →
      payloads hdr (c + (hdr + (joinRight hdr b post).1.length)) (joinRight hdr b post).2 =
        payloads hdr (c + (hdr + b.length)) post := by
    intro b c hb
    unfold joinRight
    cases post with
    | nil => rfl
    | cons x post =>
      by_cases hx : x.used = true
      · simp [hx]
      · simp only [hx, Bool.false_eq_true, ↓reduceIte, payloads, List.nil_append]
        congr 1
        omega
  have hl : ∀ b : Block, payloads hdr a (joinLeft hdr pre b).1 = payloads hdr a pre := by
    intro b
    unfold joinLeft
    cases hl : pre.getLast? with
    | none => rfl
    | some x =>
      by_cases hx : x.used = true
      · simp [hx]
      · simp only [hx, Bool.false_eq_true, ↓reduceIte]
        conv => rhs; rw [eq_dropLast_append hl]
        simp [payloads, hx]
  obtain ⟨hu, -, -⟩ := joinRight_spec hdr ⟨len, false⟩ post rfl
  obtain ⟨hlu, hls, -⟩ := joinLeft_spec hdr pre (joinRight hdr ⟨len, false⟩ post).1 hu
  have hc : payloads hdr a (coalesce hdr pre len post) =
      payloads hdr a pre ++ payloads hdr (a + span hdr pre + (hdr + len)) post := by
    simp only [coalesce, payloads_append, payloads, hlu, hl, Bool.false_eq_true, ↓reduceIte,
      List.nil_append]
    rw [← hr ⟨len, false⟩ _ rfl]
    congr 2
    omega
  rw [hc, payloads_append]
  simp [payloads, List.perm_middle]

/-! ## The blocks from their payloads -/

/-- Of two lists with the same payloads, if one starts with a used block the other does. -/
theorem used_of_payloads {a : Nat} {b b' : Block} {bs bs' : List Block} (hh : 0 < hdr)
    (hp : payloads hdr a (b :: bs) = payloads hdr a (b' :: bs')) (hb : b.used = true) : b = b' := by
  have hmem : (a + hdr, b.length) ∈ payloads hdr a (b' :: bs') := by
    rw [← hp, payloads, if_pos hb]
    exact List.mem_cons_self
  cases hb' : b'.used with
  | false =>
    rw [payloads, if_neg (by simp [hb']), List.nil_append] at hmem
    have hbounds := (payload_bounds hdr hmem).1
    omega
  | true =>
    rw [payloads, payloads, if_pos hb, if_pos hb'] at hp
    have hlength := (Prod.mk.inj (List.cons.inj hp).1).2
    cases b
    cases b'
    simp_all

/-- A free block reaches up to the next used one, or to the end. -/
theorem length_le_of_payloads {a : Nat} {b b' : Block} {bs bs' : List Block}
    (h : NoFreeNeighbours (b :: bs)) (hspan : span hdr (b :: bs) = span hdr (b' :: bs'))
    (hp : payloads hdr a (b :: bs) = payloads hdr a (b' :: bs')) (hb : b.used = false)
    (hb' : b'.used = false) : b'.length ≤ b.length := by
  by_contra hlt
  cases bs with
  | nil =>
    simp only [span_cons, span_nil] at hspan
    omega
  | cons c cs =>
    have hc : c.used = true := (List.isChain_cons_cons.mp h).1.resolve_left (by simp [hb])
    have hmem : (a + (hdr + b.length) + hdr, c.length) ∈ payloads hdr a (b' :: bs') := by
      rw [← hp, payloads, payloads, if_neg (by simp [hb]), if_pos hc]
      exact List.mem_cons_self
    rw [payloads, if_neg (by simp [hb']), List.nil_append] at hmem
    have hbounds := (payload_bounds hdr hmem).1
    omega

/-- The used payloads and the bytes of the region determine the blocks. -/
theorem eq_of_payloads {a : Nat} {bs bs' : List Block} (hh : 0 < hdr) (h : NoFreeNeighbours bs)
    (h' : NoFreeNeighbours bs') (hspan : span hdr bs = span hdr bs')
    (hp : payloads hdr a bs = payloads hdr a bs') : bs = bs' := by
  induction bs generalizing a bs' with
  | nil =>
    cases bs' with
    | nil => rfl
    | cons b' bs' =>
      simp only [span_nil, span_cons] at hspan
      omega
  | cons b bs ih =>
    cases bs' with
    | nil =>
      simp only [span_nil, span_cons] at hspan
      omega
    | cons b' bs' =>
      obtain rfl : b = b' := by
        cases hb : b.used with
        | true => exact used_of_payloads hdr hh hp hb
        | false =>
          cases hb' : b'.used with
          | true => exact (used_of_payloads hdr hh hp.symm hb').symm
          | false =>
            have h1 := length_le_of_payloads hdr h hspan hp hb hb'
            have h2 := length_le_of_payloads hdr h' hspan.symm hp.symm hb' hb
            cases b
            cases b'
            simp only [Block.mk.injEq]
            exact ⟨Nat.le_antisymm h2 h1, hb.trans hb'.symm⟩
      rw [ih (List.isChain_cons.mp h).2 (List.isChain_cons.mp h').2 (Nat.add_left_cancel hspan)
        (List.append_cancel_left hp)]

end Blocks
