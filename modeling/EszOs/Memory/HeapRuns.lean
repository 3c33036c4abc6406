import Mathlib.Data.List.Perm.Subperm
import Mathlib.Logic.Relation
import EszOs.Memory.HeapTiling

/-!
# Runs of the heap

A run is any sequence of `malloc` calls of any size, `free` calls of live pointers, and stores of
the clients into their own payloads (`HeapStep`). `live` lists the live allocations: the returned
pointer with the requested size.

`HeapInv` is the invariant: the headers tile the region, no two neighbours are both free, and the
used blocks are exactly the live allocations. `HeapInv.step` keeps it, so it holds in every
reachable state (`HeapInv.reach`). What a client relies on follows from it: the walk lands on
`heapEndPtr` (`HeapInv.walk`), the payloads are apart from each other and from the headers
(`HeapInv.payload_apart`), and no call writes into a payload that stays live
(`HeapInv.malloc_keeps`, `HeapInv.free_keeps`). A client leaves the blocks of the others where they
are (`HeapInv.frame`), and once it has freed all it allocated the block list is what it was
(`HeapInv.returned`).
-/

namespace EszOs

open Bytes Blocks

/-- The live allocations: pointer and requested size. -/
abbrev Live := List (Nat × Nat)

/-- One call, or one store of a client into its payload. -/
inductive HeapStep : Heap × Live → Heap × Live → Prop
  | malloc {h h' : Heap} {live : Live} {size p : Nat} (hs : size < 2 ^ 64)
      (hm : h.malloc size = some (some p, h')) : HeapStep (h, live) (h', (p, size) :: live)
  | mallocNull {h h' : Heap} {live : Live} {size : Nat} (hs : size < 2 ^ 64)
      (hm : h.malloc size = some (none, h')) : HeapStep (h, live) (h', live)
  | free {h h' : Heap} {live : Live} {p n : Nat} (hp : (p, n) ∈ live)
      (hf : h.free p = some h') : HeapStep (h, live) (h', live.erase (p, n))
  | write {h : Heap} {live : Live} {p n i : Nat} (hp : (p, n) ∈ live) (hi : i < n) (v : UInt8) :
      HeapStep (h, live) ({ h with mem := store h.mem (p + i) v }, live)

/-- The states that a run from `s₀` reaches. -/
abbrev HeapReach := Relation.ReflTransGen HeapStep

/-- The used blocks `bs` from `a` are the live allocations. -/
structure Matches (a : Nat) (bs : List Block) (live : Live) : Prop where
  ptrs : (live.map Prod.fst).Perm ((payloads headerSize a bs).map Prod.fst)
  fits : ∀ q ∈ live, ∃ len, (q.1, len) ∈ payloads headerSize a bs ∧ q.2 ≤ len

/-- The invariant of the heap over the region of `size` bytes from `start`. -/
structure HeapInv (start size : Nat) (h : Heap) (live : Live) (bs : List Block) : Prop where
  tiled : Tiled h bs
  start_eq : h.heapStartPtr = start
  end_eq : h.heapEndPtr = start + size
  apart : NoFreeNeighbours bs
  live_eq : Matches start bs live

namespace Matches

variable {a : Nat} {bs : List Block} {live : Live}

theorem nodup (hm : Matches a bs live) : (live.map Prod.fst).Nodup := by
  rw [hm.ptrs.nodup_iff]
  have hs := (payloads_sorted headerSize a bs (by decide)).1
  exact List.pairwise_map.mpr (hs.imp fun h => Nat.ne_of_lt h)

/-- A live allocation is the payload of a used block. -/
theorem split (hm : Matches a bs live) {p n : Nat} (hp : (p, n) ∈ live) :
    ∃ pre len post, bs = pre ++ ⟨len, true⟩ :: post ∧ p = a + span headerSize pre + headerSize ∧
      n ≤ len := by
  obtain ⟨len, hmem, hn⟩ := hm.fits (p, n) hp
  obtain ⟨pre, post, hbs, hp⟩ := (mem_payloads headerSize).mp hmem
  exact ⟨pre, len, post, hbs, hp, hn⟩

/-- A `malloc` that carves a free block. -/
theorem carve {pre post : List Block} {b : Block} {size : Nat} (hb : b.used = false)
    (hfit : size ≤ b.length) (hm : Matches a (pre ++ b :: post) live) :
    Matches a (pre ++ (carve headerSize b size ++ post))
      ((a + span headerSize pre + headerSize, size) :: live) := by
  have hperm := payloads_carve headerSize a pre size post hb
  refine ⟨?_, fun q hq => ?_⟩
  · exact (hm.ptrs.cons _).trans (hperm.map Prod.fst).symm
  · rcases List.mem_cons.mp hq with rfl | hq
    · exact ⟨_, hperm.mem_iff.mpr List.mem_cons_self, le_carved headerSize hfit⟩
    · obtain ⟨len, hmem, hn⟩ := hm.fits q hq
      exact ⟨len, hperm.mem_iff.mpr (List.mem_cons_of_mem _ hmem), hn⟩

/-- A `free` that gives a used block back. -/
theorem coalesce {pre post : List Block} {len n : Nat}
    (hm : Matches a (pre ++ ⟨len, true⟩ :: post) live)
    (hp : (a + span headerSize pre + headerSize, n) ∈ live) :
    Matches a (coalesce headerSize pre len post)
      (live.erase (a + span headerSize pre + headerSize, n)) := by
  have hperm := payloads_coalesce headerSize a pre len post
  have hlive := (List.perm_cons_erase hp).map Prod.fst
  have hnodup := hlive.nodup_iff.mp hm.nodup
  refine ⟨?_, fun q hq => ?_⟩
  · exact ((hlive.symm.trans hm.ptrs).trans (hperm.map Prod.fst)).cons_inv
  · obtain ⟨len', hmem, hn⟩ := hm.fits q (List.mem_of_mem_erase hq)
    refine ⟨len', ?_, hn⟩
    rcases List.mem_cons.mp (hperm.mem_iff.mp hmem) with h | h
    · -- The freed pointer is live only once.
      have hne := (List.nodup_cons.mp hnodup).1
      exact absurd (List.mem_map_of_mem (f := Prod.fst) hq) (by
        rw [(Prod.mk.inj h).1]; exact hne)
    · exact h

end Matches

namespace HeapInv

variable {start size : Nat} {h : Heap} {live : Live} {bs : List Block}

/-- `malloc` returns: it carves the first block that fits, or no block does. -/
theorem malloc_cases (hi : HeapInv start size h live bs) (n : Nat) :
    ((∀ c ∈ bs, Tiled.Unfit n c) ∧ h.malloc n = some (none, h)) ∨
      ∃ pre b post, bs = pre ++ b :: post ∧ (∀ c ∈ pre, Tiled.Unfit n c) ∧ ¬ Tiled.Unfit n b ∧
        h.malloc n = some (some (start + span headerSize pre + headerSize),
          h.take (start + span headerSize pre) n) := by
  rcases Tiled.firstFit n bs with hu | ⟨pre, b, post, rfl, hpre, hb⟩
  · exact .inl ⟨hu, hi.tiled.malloc_of_unfit hu⟩
  · refine .inr ⟨pre, b, post, rfl, hpre, hb, ?_⟩
    rw [← hi.start_eq]
    exact hi.tiled.malloc_of_fit hpre hb

/-- There is a block that fits. -/
theorem malloc_of_fits (hi : HeapInv start size h live bs) {n : Nat} {c : Block} (hc : c ∈ bs)
    (hfit : ¬ Tiled.Unfit n c) :
    ∃ pre b post, bs = pre ++ b :: post ∧ ¬ Tiled.Unfit n b ∧
      h.malloc n = some (some (start + span headerSize pre + headerSize),
        h.take (start + span headerSize pre) n) := by
  rcases hi.malloc_cases n with ⟨hu, -⟩ | ⟨pre, b, post, hbs, -, hb, hm⟩
  · exact absurd (hu c hc) hfit
  · exact ⟨pre, b, post, hbs, hb, hm⟩

/-- Carving a block that fits keeps the invariant. -/
theorem take {pre post : List Block} {b : Block} {n : Nat}
    (hi : HeapInv start size h live (pre ++ b :: post)) (hb : ¬ Tiled.Unfit n b) :
    HeapInv start size (h.take (start + span headerSize pre) n)
      ((start + span headerSize pre + headerSize, n) :: live)
      (pre ++ (carve headerSize b n ++ post)) := by
  obtain ⟨ht, hs, he, ha, hm⟩ := hi
  subst hs
  have hbfree : b.used = false := by
    cases hu : b.used
    · rfl
    · exact absurd (.inr hu) hb
  have hfit : n ≤ b.length := Nat.le_of_not_lt fun hlt => hb (.inl hlt)
  have hk : ∀ a : Nat, (h.take a n).heapStartPtr = h.heapStartPtr ∧
      (h.take a n).heapEndPtr = h.heapEndPtr := by
    intro a
    unfold Heap.take
    dsimp only
    split
    · split <;> exact ⟨rfl, rfl⟩
    · exact ⟨rfl, rfl⟩
  exact ⟨(ht.take_tiled hb).1, (hk _).1, (hk _).2.trans he, ha.carve headerSize hbfree,
    hm.carve hbfree hfit⟩

/-- `free` of the payload of a used block gives the block back. -/
theorem free_at {pre post : List Block} {len n : Nat}
    (hi : HeapInv start size h live (pre ++ ⟨len, true⟩ :: post))
    (hp : (start + span headerSize pre + headerSize, n) ∈ live) :
    ∃ h', h.free (start + span headerSize pre + headerSize) = some h' ∧
      HeapInv start size h' (live.erase (start + span headerSize pre + headerSize, n))
        (Blocks.coalesce headerSize pre len post) ∧
      ∀ x, ¬ HeaderByte headerSize start (pre ++ ⟨len, true⟩ :: post) x → h'.mem x = h.mem x := by
  obtain ⟨ht, hs, he, ha, hm⟩ := hi
  subst hs
  obtain ⟨h', hf, hstart, ht', hout⟩ := ht.free_tiled
  have hapart := noFreeNeighbours_coalesce headerSize ha
  have hend : h'.heapEndPtr = h.heapStartPtr + size := by
    have h1 := ht.ends
    have h2 := ht'.ends
    rw [span_coalesce, hstart] at h2
    simp only [span_append, span_cons] at h1
    omega
  exact ⟨h', hf, ⟨ht', hstart, hend, hapart, hm.coalesce hp⟩, hout⟩

/-- `free` of a live pointer returns and keeps the invariant. -/
theorem free {p n : Nat} (hi : HeapInv start size h live bs) (hp : (p, n) ∈ live) :
    ∃ h' bs', h.free p = some h' ∧ HeapInv start size h' (live.erase (p, n)) bs' ∧
      ∀ x, ¬ HeaderByte headerSize start bs x → h'.mem x = h.mem x := by
  obtain ⟨pre, len, post, rfl, rfl, -⟩ := hi.live_eq.split hp
  obtain ⟨h', hf, hi', hout⟩ := hi.free_at hp
  exact ⟨h', _, hf, hi', hout⟩

/-- What a block was carved from is there again when the block is freed, whatever was stored in
between. -/
theorem free_carve {pre post : List Block} {b : Block} {n : Nat}
    (hi : HeapInv start size h live (pre ++ b :: post)) (hb : b.used = false) {h₁ : Heap}
    (hi₁ : HeapInv start size h₁ ((start + span headerSize pre + headerSize, n) :: live)
      (pre ++ (Blocks.carve headerSize b n ++ post))) :
    ∃ h₂, h₁.free (start + span headerSize pre + headerSize) = some h₂ ∧
      HeapInv start size h₂ live (pre ++ b :: post) := by
  rw [carve_eq_cons, List.cons_append] at hi₁
  obtain ⟨h₂, hfree, hi₂, -⟩ := hi₁.free_at List.mem_cons_self
  rw [List.erase_cons_head, coalesce_carve headerSize n hb hi.apart] at hi₂
  exact ⟨h₂, hfree, hi₂⟩

/-- Stores into a live payload touch no header. -/
theorem writes {p n : Nat} {m : Mem} (hi : HeapInv start size h live bs) (hp : (p, n) ∈ live)
    (hm : ∀ x, x < p ∨ p + n ≤ x → m x = h.mem x) :
    HeapInv start size { h with mem := m } live bs := by
  obtain ⟨len, hmem, hle⟩ := hi.live_eq.fits (p, n) hp
  simp only at hmem hle
  have hkeep : ∀ x, HeaderByte headerSize h.heapStartPtr bs x → m x = h.mem x := by
    intro x hx
    rw [hi.start_eq] at hx
    refine hm x ?_
    by_contra hin
    exact not_headerByte_of_payload headerSize hmem (by omega) (by omega) hx
  exact {
    tiled := hi.tiled.congr hkeep
    start_eq := hi.start_eq
    end_eq := hi.end_eq
    apart := hi.apart
    live_eq := hi.live_eq }

theorem write {p n i : Nat} (hi : HeapInv start size h live bs) (hp : (p, n) ∈ live) (hn : i < n)
    (v : UInt8) : HeapInv start size { h with mem := store h.mem (p + i) v } live bs :=
  hi.writes hp fun _ hx => store_of_ne (by omega)

/-- Every step keeps the invariant. -/
theorem step {s' : Heap × Live} (hi : HeapInv start size h live bs)
    (hs : HeapStep (h, live) s') : ∃ bs', HeapInv start size s'.1 s'.2 bs' := by
  cases hs with
  | @malloc _ h' _ n p hs hm =>
    rcases hi.malloc_cases n with ⟨-, hn⟩ | ⟨pre, b, post, rfl, -, hb, hn⟩
    · rw [hn] at hm; simp at hm
    · rw [hn] at hm
      simp only [Option.some.injEq, Prod.mk.injEq] at hm
      obtain ⟨rfl, rfl⟩ := hm
      exact ⟨_, by simpa only using hi.take (n := n) hb⟩
  | @mallocNull _ h' _ n hs hm =>
    rcases hi.malloc_cases n with ⟨-, hn⟩ | ⟨pre, b, post, rfl, -, hb, hn⟩
    · rw [hn] at hm
      simp only [Option.some.injEq, Prod.mk.injEq, true_and] at hm
      obtain rfl := hm
      exact ⟨bs, hi⟩
    · rw [hn] at hm; simp at hm
  | @free _ h' _ p n hp hf =>
    obtain ⟨h₂, bs', hf', hi', -⟩ := hi.free hp
    rw [hf] at hf'
    obtain rfl := Option.some.inj hf'
    exact ⟨bs', hi'⟩
  | write hp hn v => exact ⟨bs, hi.write hp hn v⟩

/-- Every reachable state satisfies the invariant. -/
theorem reach {h₀ : Heap} {bs₀ : List Block} {s : Heap × Live}
    (hi : HeapInv start size h₀ [] bs₀) (hr : HeapReach (h₀, []) s) :
    ∃ bs, HeapInv start size s.1 s.2 bs := by
  induction hr with
  | refl => exact ⟨bs₀, hi⟩
  | tail _ hs ih =>
    obtain ⟨bs, hi⟩ := ih
    exact hi.step hs

/-! ## What a client relies on -/

/-- The walk over the headers covers the region exactly, and no two neighbours are both free. -/
theorem walk (hi : HeapInv start size h live bs) :
    0 < bs.length ∧ h.blockAt bs.length = h.heapEndPtr ∧
      (∀ i < bs.length, h.blockAt i < h.heapEndPtr ∧
        h.blockAt (i + 1) = h.blockAt i + headerSize + (readHeader h.mem (h.blockAt i)).length) ∧
      ∀ i, i + 1 < bs.length → (readHeader h.mem (h.blockAt i)).used = true ∨
        (readHeader h.mem (h.blockAt (i + 1))).used = true := by
  have ht := hi.tiled
  refine ⟨List.length_pos_iff.mpr ht.nonempty, ht.blockAt_length, fun i hlt => ⟨ht.blockAt_lt hlt, ?_⟩,
    fun i hlt => ?_⟩
  · rw [ht.readHeader_blockAt hlt, ht.blockAt_succ hlt]
  · rw [ht.readHeader_blockAt (by omega), ht.readHeader_blockAt hlt]
    exact List.isChain_iff_getElem.mp hi.apart i hlt

/-- Without live allocations the heap is one free block again. -/
theorem single (hi : HeapInv start size h [] bs) : bs = [⟨size - headerSize, false⟩] := by
  have hp : payloads headerSize start bs = [] := by simpa using hi.live_eq.ptrs.symm
  have hfree := used_of_payloads_nil headerSize hp
  have hlen := hi.apart.length_le_one hfree
  have hends := hi.tiled.ends
  have hpos := List.length_pos_iff.mpr hi.tiled.nonempty
  obtain ⟨⟨len, used⟩, rfl⟩ := List.length_eq_one_iff.mp (by omega : bs.length = 1)
  rw [hi.start_eq, hi.end_eq] at hends
  have hused := hfree _ List.mem_cons_self
  simp only [span_cons, span_nil] at hused hends
  rw [hused, show len = size - headerSize by omega]

/-- A live payload is inside the region, and no byte of it is a header's. -/
theorem payload_bounds (hi : HeapInv start size h live bs) {p n : Nat} (hp : (p, n) ∈ live) :
    h.heapStartPtr ≤ p ∧ p + n ≤ h.heapEndPtr ∧
      ∀ a, h.IsHeader a → ∀ i < n, ∀ k < headerSize, p + i ≠ a + k := by
  obtain ⟨len, hmem, hn⟩ := hi.live_eq.fits (p, n) hp
  simp only at hmem hn
  have hb := Blocks.payload_bounds headerSize hmem
  have hends := hi.tiled.ends
  rw [hi.start_eq] at hends
  refine ⟨by rw [hi.start_eq]; omega, by omega, fun a ha i hlt k hk he => ?_⟩
  refine not_headerByte_of_payload headerSize hmem (x := p + i) (by omega) (by omega) ?_
  rw [← hi.start_eq]
  exact hi.tiled.headerByte_of_isHeader ha (by omega) (by omega)

/-- Two live payloads do not overlap. -/
theorem payload_apart (hi : HeapInv start size h live bs) {p n : Nat} (hp : (p, n) ∈ live)
    {q : Nat × Nat} (hq : q ∈ live.erase (p, n)) : p + n ≤ q.1 ∨ q.1 + q.2 ≤ p := by
  obtain ⟨len, hmem, hn⟩ := hi.live_eq.fits (p, n) hp
  obtain ⟨len', hmem', hn'⟩ := hi.live_eq.fits q (List.mem_of_mem_erase hq)
  have hnodup := ((List.perm_cons_erase hp).map Prod.fst).nodup_iff.mp hi.live_eq.nodup
  have hne : q.1 ≠ p := by
    have hq' := List.mem_map_of_mem (f := Prod.fst) hq
    intro he
    rw [he] at hq'
    exact (List.nodup_cons.mp hnodup).1 hq'
  rcases payloads_disjoint headerSize hmem hmem' with ⟨he, -⟩ | h | h
  · exact absurd he.symm hne
  · simp only at hn h; omega
  · simp only at hn h; omega

/-- `malloc` changes no byte of a live payload. -/
theorem malloc_keeps (hi : HeapInv start size h live bs) {n : Nat} {r : Option Nat} {h' : Heap}
    (hm : h.malloc n = some (r, h')) {q : Nat × Nat} (hq : q ∈ live) {i : Nat} (hlt : i < q.2) :
    h'.mem (q.1 + i) = h.mem (q.1 + i) := by
  rcases hi.malloc_cases n with ⟨-, hn⟩ | ⟨pre, b, post, rfl, -, hb, hn⟩
  · rw [hn] at hm
    cases hm
    rfl
  · rw [hn] at hm
    cases hm
    obtain ⟨len, hmem, hle⟩ := hi.live_eq.fits q hq
    have hfree : b.used = false := by
      cases hu : b.used
      · rfl
      · exact absurd (.inr hu) hb
    have hout := payload_outside_free headerSize hfree hmem
    have ht := (hi.tiled.take_tiled hb).2
    rw [hi.start_eq] at ht
    exact ht _ (by omega)

/-- `free` changes no byte of a payload that stays live. -/
theorem free_keeps (hi : HeapInv start size h live bs) {p n : Nat} (hp : (p, n) ∈ live) {h' : Heap}
    (hf : h.free p = some h') {q : Nat × Nat} (hq : q ∈ live) {i : Nat} (hlt : i < q.2) :
    h'.mem (q.1 + i) = h.mem (q.1 + i) := by
  obtain ⟨h₂, -, hf', -, hout⟩ := hi.free hp
  rw [hf] at hf'
  cases hf'
  obtain ⟨len, hmem, hle⟩ := hi.live_eq.fits q hq
  exact hout _ (not_headerByte_of_payload headerSize hmem (by omega) (by omega))

end HeapInv

/-! ## What other clients see -/

/-- What a client leaves alone of the allocations `live` of the others: the place and the length of
their blocks, and the bytes in them. -/
structure Untouched (start : Nat) (live : Live) (h h' : Heap) (bs bs' : List Block) : Prop where
  blocks : ∀ p len, p ∈ live.map Prod.fst → (p, len) ∈ payloads headerSize start bs →
    (p, len) ∈ payloads headerSize start bs'
  bytes : ∀ q ∈ live, ∀ i < q.2, h'.mem (q.1 + i) = h.mem (q.1 + i)

namespace HeapInv

variable {start size : Nat} {h h' : Heap} {own live : Live} {bs : List Block}

/-- A step of a client that owns `own`. -/
theorem step_frame {own' : Live} (hi : HeapInv start size h (own ++ live) bs)
    (hs : HeapStep (h, own) (h', own')) :
    ∃ bs', HeapInv start size h' (own' ++ live) bs' ∧ Untouched start live h h' bs bs' := by
  cases hs with
  | @malloc _ _ _ n p hs hm =>
    have hbytes : ∀ q ∈ live, ∀ i < q.2, h'.mem (q.1 + i) = h.mem (q.1 + i) := fun q hq i hlt =>
      hi.malloc_keeps hm (List.mem_append_right _ hq) hlt
    rcases hi.malloc_cases n with ⟨-, hn⟩ | ⟨pre, b, post, rfl, -, hb, hn⟩
    · rw [hn] at hm
      cases hm
    · rw [hn] at hm
      simp only [Option.some.injEq, Prod.mk.injEq] at hm
      obtain ⟨rfl, rfl⟩ := hm
      have hfree : b.used = false := Bool.not_eq_true _ |>.mp (not_or.mp hb).2
      have hperm := payloads_carve headerSize start pre n post hfree
      refine ⟨_, hi.take hb, ?_, hbytes⟩
      intro p len _ hmem
      exact hperm.mem_iff.mpr (List.mem_cons_of_mem _ hmem)
  | @mallocNull _ _ _ n hs hm =>
    rcases hi.malloc_cases n with ⟨-, hn⟩ | ⟨pre, b, post, rfl, -, hb, hn⟩
    · rw [hn] at hm
      cases hm
      exact ⟨bs, hi, fun _ _ _ hmem => hmem, fun _ _ _ _ => rfl⟩
    · rw [hn] at hm
      cases hm
  | @free _ _ _ p n hp hf =>
    have hp' : (p, n) ∈ own ++ live := List.mem_append_left _ hp
    have hbytes : ∀ q ∈ live, ∀ i < q.2, h'.mem (q.1 + i) = h.mem (q.1 + i) := fun q hq i hlt =>
      hi.free_keeps hp' hf (List.mem_append_right _ hq) hlt
    obtain ⟨pre, len, post, rfl, rfl, -⟩ := hi.live_eq.split hp'
    obtain ⟨h₂, hf', hi', -⟩ := hi.free_at hp'
    rw [hf] at hf'
    cases hf'
    rw [List.erase_append_left live hp] at hi'
    refine ⟨_, hi', fun p' len' hp₂ hmem => ?_, hbytes⟩
    have hperm := payloads_coalesce headerSize start pre len post
    rcases List.mem_cons.mp (hperm.mem_iff.mp hmem) with he | hmem'
    · -- The freed pointer is not live for another client.
      have hnodup := hi.live_eq.nodup
      rw [List.map_append] at hnodup
      rw [(Prod.mk.inj he).1] at hp₂
      exact absurd rfl ((List.nodup_append.mp hnodup).2.2 _ (List.mem_map_of_mem hp) _ hp₂)
    · exact hmem'
  | @write _ _ p n i hp hlt v =>
    refine ⟨bs, hi.write (List.mem_append_left _ hp) hlt v, fun _ _ _ hmem => hmem, ?_⟩
    intro q hq j hj
    have hq' : q ∈ (own ++ live).erase (p, n) := by
      rw [List.erase_append_left live hp]
      exact List.mem_append_right _ hq
    have hapart := hi.payload_apart (List.mem_append_left _ hp) hq'
    exact store_of_ne (by omega)

/-- A run of such a client. -/
theorem frame {s : Heap × Live} (hi : HeapInv start size h (own ++ live) bs)
    (hr : HeapReach (h, own) s) :
    ∃ bs', HeapInv start size s.1 (s.2 ++ live) bs' ∧ Untouched start live h s.1 bs bs' := by
  induction hr with
  | refl => exact ⟨bs, hi, ⟨fun _ _ _ hmem => hmem, fun _ _ _ _ => rfl⟩⟩
  | tail _ hs ih =>
    obtain ⟨bs₁, hi₁, hu₁⟩ := ih
    obtain ⟨bs₂, hi₂, hu₂⟩ := hi₁.step_frame hs
    exact ⟨bs₂, hi₂, fun p len hp hmem => hu₂.blocks p len hp (hu₁.blocks p len hp hmem),
      fun q hq i hlt => (hu₂.bytes q hq i hlt).trans (hu₁.bytes q hq i hlt)⟩

/-- A client that has given back all it allocated leaves the blocks as they were. -/
theorem returned (hi : HeapInv start size h live bs) (hr : HeapReach (h, []) (h', [])) :
    HeapInv start size h' live bs ∧ ∀ q ∈ live, ∀ i < q.2, h'.mem (q.1 + i) = h.mem (q.1 + i) := by
  have hi₀ : HeapInv start size h ([] ++ live) bs := hi
  obtain ⟨bs', hi', hu⟩ := hi₀.frame hr
  have hi₁ : HeapInv start size h' live bs' := hi'
  have hsorted := fun cs => (payloads_sorted headerSize start cs (by decide)).1
  have hsub : payloads headerSize start bs ⊆ payloads headerSize start bs' := fun q hq =>
    hu.blocks q.1 q.2 (hi.live_eq.ptrs.mem_iff.mpr (List.mem_map_of_mem hq)) hq
  have hlength : (payloads headerSize start bs').length ≤ (payloads headerSize start bs).length := by
    have h1 := (hi.live_eq.ptrs.symm.trans hi₁.live_eq.ptrs).length_eq
    simp only [List.length_map] at h1
    exact h1.ge
  have hnodup : (payloads headerSize start bs).Nodup := (hsorted bs).imp fun hlt he => by
    rw [he] at hlt
    exact Nat.lt_irrefl _ hlt
  have hperm := (List.subperm_of_subset hnodup hsub).perm_of_length_le hlength
  have hpayloads : payloads headerSize start bs = payloads headerSize start bs' :=
    hperm.eq_of_pairwise (fun _ _ _ _ h1 h2 => absurd h2 (Nat.lt_asymm h1)) (hsorted bs) (hsorted bs')
  have hspan : span headerSize bs = span headerSize bs' := by
    have h1 := hi.tiled.ends
    have h2 := hi₁.tiled.ends
    rw [hi.start_eq, hi.end_eq] at h1
    rw [hi₁.start_eq, hi₁.end_eq] at h2
    exact Nat.add_left_cancel (h1.trans h2.symm)
  obtain rfl := eq_of_payloads headerSize (by decide) hi.apart hi₁.apart hspan hpayloads
  exact ⟨hi₁, hu.bytes⟩

end HeapInv

/-- The heap that `init_heap_alloc` sets up is one free block. -/
theorem heapInv_init {m : Mem} {p : Nat} {h : Heap} (hi : initHeapAlloc m p = some h)
    (hw : p + initHeapSize < 2 ^ 64) :
    HeapInv p initHeapSize h [] [⟨initHeapSize - headerSize, false⟩] := by
  unfold initHeapAlloc at hi
  split at hi
  · cases hi
  · cases hi
    refine ⟨⟨⟨?_, trivial⟩, ?_, ?_, ?_, by simp⟩, rfl, u64_of_lt hw, by simp, ⟨by simp [payloads], by simp⟩⟩
    · rw [readHeader_setUsed, readHeader_setLength]
      rfl
    · simp only [u64_of_lt hw]; rfl
    · simp only [u64_of_lt hw]; exact hw
    · simp only [u64_of_lt hw]
      exact Nat.add_lt_add_left (by decide) _

end EszOs
