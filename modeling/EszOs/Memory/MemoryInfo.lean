import Mathlib.Data.Nat.Digits.Lemmas
import EszOs.Memory.HeapBlocks
import EszOs.Rendering.Print
import EszOs.Types.StringNulls

/-!
# The graph of the heap's blocks (`memory/infos/memory_info.cpp`)

`print_memory_fragmentation_graph` walks over the headers of the heap and prints a `String` for each
block. The `String` is allocated on the heap that is walked over, and so are the texts that it is put
together from.

* `heap_reachable_returned`: a client that gives back all it allocated leaves the block list as it
  was, in whatever order it allocated and freed.
* `Takes P k m Q`: what the program `m` on the kernel heap allocates and frees, for which a free block
  of `k` bytes is enough; `construct_takes` is that of the `String` for a block.
* `printMemoryFragmentationGraph_shows`: the graph is that of the block list before the call, which is
  also the one after it.
-/

namespace EszOs

open Blocks

/-! ## Temporary allocations -/

/-- A client that gives everything back leaves the block list as it was. -/
theorem HeapInv.returned_blockList {start size : Nat} {h h' : Heap} {live : Live} {bs : List Block}
    (hinv : HeapInv start size h live bs) (hclient : HeapReach (h, []) (h', [])) :
    h'.blockList = h.blockList ∧ ∀ q ∈ live, ∀ i < q.2, h'.mem (q.1 + i) = h.mem (q.1 + i) := by
  obtain ⟨hinv', hbytes⟩ := hinv.returned hclient
  refine ⟨?_, hbytes⟩
  rw [hinv'.tiled.blockList_eq, hinv.tiled.blockList_eq, hinv'.start_eq, hinv.start_eq]

/-- In every state that is reached from boot: a client that allocates, stores into its payloads and
frees, until nothing of it is left, leaves the block list as it was, and the payloads of the others. -/
theorem heap_reachable_returned {s s' : MemState} {m : Bytes.Mem} {h₀ h h' : Heap} {live : Live}
    (hi : memoryInit s m = some (s', h₀)) (hr : HeapReach (h₀, []) (h, live))
    (hclient : HeapReach (h, []) (h', [])) :
    h'.blockList = h.blockList ∧ ∀ q ∈ live, ∀ i < q.2, h'.mem (q.1 + i) = h.mem (q.1 + i) := by
  obtain ⟨bs, hinv⟩ := (memoryInit_heapInv hi).reach hr
  exact hinv.returned_blockList hclient

/-- An allocation of 32 bytes that is given back, behind one of 16 bytes that is kept. -/
theorem bootState_heap_returned : ∃ s' h₀ p h q h₁ h₂,
    memoryInit (bootState (2 ^ 15) (by decide)) (fun _ => 0) = some (s', h₀) ∧
      h₀.malloc 16 = some (some p, h) ∧ h.malloc 32 = some (some q, h₁) ∧ h₁.free q = some h₂ ∧
      h₂.blockList = h.blockList ∧ ∀ r ∈ [(p, 16)], ∀ i < r.2, h₂.mem (r.1 + i) = h.mem (r.1 + i) := by
  obtain ⟨s', h₀, p, h, q, h₁, hi, hm, hm'⟩ := bootState_twoBlocks
  have hone : HeapStep (h₀, []) (h, [(p, 16)]) := .malloc (by decide) hm
  have htwo : HeapStep (h, [(p, 16)]) (h₁, [(q, 32), (p, 16)]) := .malloc (by decide) hm'
  obtain ⟨bs, hinv⟩ := (memoryInit_heapInv hi).reach ((Relation.ReflTransGen.single hone).tail htwo)
  obtain ⟨h₂, -, hf, -, -⟩ := hinv.free List.mem_cons_self
  have hmalloc : HeapStep (h, []) (h₁, [(q, 32)]) := .malloc (by decide) hm'
  have hclient := (Relation.ReflTransGen.single hmalloc).tail (.free List.mem_cons_self hf)
  rw [List.erase_cons_head] at hclient
  exact ⟨s', h₀, p, h, q, h₁, h₂, hi, hm, hm', hf,
    heap_reachable_returned hi (.single hone) hclient⟩

/-! ## What a program takes from the heap -/

/-- There is a free block of `k` bytes. -/
def Heap.HasRoom (k : Nat) (h : Heap) : Prop := ∃ q ∈ h.blockList, Fits k q.2

theorem Heap.HasRoom.mono {h : Heap} {k l : Nat} (hl : h.HasRoom l) (hle : k ≤ l) : h.HasRoom k := by
  obtain ⟨q, hq, hused, hlength⟩ := hl
  exact ⟨q, hq, hused, hle.trans hlength⟩

namespace HeapInv

variable {start size : Nat} {h : Heap} {live : Live} {bs : List Block}

theorem blockList_map_snd (hi : HeapInv start size h live bs) : h.blockList.map Prod.snd = bs := by
  rw [hi.tiled.blockList_eq, located_map_snd]

/-- The blocks end where the heap ends. -/
theorem span_eq (hi : HeapInv start size h live bs) : start + span headerSize bs = h.heapEndPtr := by
  rw [← hi.start_eq]
  exact hi.tiled.ends

/-- A block behind `d` starts before that. -/
theorem span_lt {d : List Block} {b : Block} (hi : HeapInv start size h live (d ++ b :: bs)) :
    start + span headerSize d < h.heapEndPtr := by
  have hspan := hi.span_eq
  simp only [span_append, span_cons, headerSize] at hspan ⊢
  omega

theorem hasRoom_iff (hi : HeapInv start size h live bs) {k : Nat} :
    h.HasRoom k ↔ ∃ c ∈ bs, Fits k c := by
  conv => rhs; rw [← hi.blockList_map_snd]
  simp only [Heap.HasRoom, List.mem_map, exists_exists_and_eq_and]

/-- `malloc` with what it leaves for further requests. -/
theorem malloc_room (hi : HeapInv start size h live bs) (n : Nat) :
    (¬ h.HasRoom n ∧ h.malloc n = some (none, h)) ∨
      ∃ p h', h.malloc n = some (some p, h') ∧
        ∀ k, h.HasRoom (n + 2 * headerSize + 1 + k) → h'.HasRoom k := by
  rcases hi.malloc_cases n with ⟨hu, hm⟩ | ⟨pre, b, post, rfl, -, hb, hm⟩
  · refine .inl ⟨fun hroom => ?_, hm⟩
    obtain ⟨c, hc, hfit⟩ := hi.hasRoom_iff.mp hroom
    exact not_unfit_iff.mpr hfit (hu c hc)
  · refine .inr ⟨_, _, hm, fun k hroom => (hi.take hb).hasRoom_iff.mpr ?_⟩
    obtain ⟨c, hc, hused, hlength⟩ := hi.hasRoom_iff.mp hroom
    exact exists_mem_carve headerSize (not_unfit_iff.mp hb).1 hc hused hlength

/-- `free` with what it leaves. -/
theorem free_room (hi : HeapInv start size h live bs) {p n : Nat} (hp : (p, n) ∈ live) :
    ∃ h', h.free p = some h' ∧ ∀ k, h.HasRoom k → h'.HasRoom k := by
  obtain ⟨pre, len, post, rfl, rfl, -⟩ := hi.live_eq.split hp
  obtain ⟨h', hf, hi', -⟩ := hi.free_at hp
  refine ⟨h', hf, fun k hroom => hi'.hasRoom_iff.mpr ?_⟩
  obtain ⟨c, hc, hused, hlength⟩ := hi.hasRoom_iff.mp hroom
  obtain ⟨c', hc', hused', hle⟩ := exists_mem_coalesce headerSize hc hused
  exact ⟨c', hc', hused', hlength.trans hle⟩

end HeapInv

namespace NullChecks

variable {α β : Type} {h : Heap} {own : Live} {P R : Multiset (Nat × Nat)} {k l : Nat}
  {m : HeapProgram α} {f : α → HeapProgram β} {Q : α → Multiset (Nat × Nat) → Prop}
  {S : β → Multiset (Nat × Nat) → Prop}

/-- From `h`, for a client that owns `own`: `m` returns, the client has what `Q` says then, and the
room has shrunk by `k` at most; or there is no room for `k` bytes, and the null pointer that `malloc`
returned is stored through. -/
def TakesFrom (h : Heap) (own : Live) (k : Nat) (m : HeapProgram α)
    (Q : α → Multiset (Nat × Nat) → Prop) : Prop :=
  (∃ a h' own', Program.exec m ⟨h, false⟩ = (.ok a, ⟨h', false⟩) ∧
    HeapReach (h, own) (h', own') ∧ (∀ j, h.HasRoom (k + j) → h'.HasRoom j) ∧ Q a own') ∨
  ¬ h.HasRoom k ∧ ∃ s, Program.exec m ⟨h, false⟩ = (.error .nullStore, s) ∧ s.refused = true

/-- From every heap on which a client owns `P`, whatever the others own. -/
def Takes (P : Multiset (Nat × Nat)) (k : Nat) (m : HeapProgram α)
    (Q : α → Multiset (Nat × Nat) → Prop) : Prop :=
  ∀ ⦃start size : Nat⦄ ⦃h : Heap⦄ ⦃own live : Live⦄ ⦃bs : List Block⦄, (own : Multiset _) = P →
    HeapInv start size h (own ++ live) bs → TakesFrom h own k m Q

/-- A pointer to a new block. -/
def Gets (P : Multiset (Nat × Nat)) (ptr : Option Nat) (M : Multiset (Nat × Nat)) : Prop :=
  ∃ p n, ptr = some p ∧ M = (p, n) ::ₘ P

/-- What a request takes: the bytes, a header in front of them, and what is too short for a block. -/
def taken (n : Nat) : Nat := n + 2 * headerSize + 1

theorem TakesFrom.pure {a : α} (ha : Q a own) : TakesFrom h own 0 (pure a : HeapProgram α) Q :=
  .inl ⟨a, h, own, rfl, .refl, fun _ hroom => hroom.mono (Nat.le_add_left _ _), ha⟩

theorem TakesFrom.bind (hm : TakesFrom h own k m Q)
    (hf : ∀ a h' own', HeapReach (h, own) (h', own') → Q a own' → TakesFrom h' own' l (f a) S) :
    TakesFrom h own (k + l) (m >>= f) S := by
  rcases hm with ⟨a, h', own', hexec, hreach, hroom, hQ⟩ | ⟨hfull, s, hexec, hs⟩
  · have hbind := Program.exec_bind_ok (f := f) hexec
    rcases hf a h' own' hreach hQ with
      ⟨b, h'', own'', hexec', hreach', hroom', hS⟩ | ⟨hfull, s, hexec', hs⟩
    · refine .inl ⟨b, h'', own'', hbind.trans hexec', hreach.trans hreach', fun j hj => ?_, hS⟩
      rw [Nat.add_assoc] at hj
      exact hroom' j (hroom _ hj)
    · exact .inr ⟨fun hj => hfull (hroom l hj), s, hbind.trans hexec', hs⟩
  · refine .inr ⟨fun hj => hfull (hj.mono (Nat.le_add_right _ _)), s, ?_, hs⟩
    exact Program.exec_bind_error hexec

/-- A look at the heap. -/
theorem TakesFrom.get {g : NullState Heap → HeapProgram α}
    (hg : TakesFrom h own k (g ⟨h, false⟩) Q) : TakesFrom h own k (get >>= g) Q := by
  have hexec := Program.exec_bind_ok (f := g) (Program.exec_get (⟨h, false⟩ : NullState Heap))
  unfold TakesFrom at hg ⊢
  rw [hexec]
  exact hg

/-- More than is taken. -/
theorem TakesFrom.mono (hm : TakesFrom h own k m Q) (hle : k ≤ l) : TakesFrom h own l m Q := by
  rcases hm with ⟨a, h', own', hexec, hreach, hroom, hQ⟩ | ⟨hfull, hnull⟩
  · refine .inl ⟨a, h', own', hexec, hreach, fun j hj => hroom j (hj.mono ?_), hQ⟩
    omega
  · exact .inr ⟨fun hj => hfull (hj.mono hle), hnull⟩

theorem Takes.mono (hm : Takes P k m Q) (hle : k ≤ l) : Takes P l m Q := by
  intro start size h own live bs hown hi
  exact (hm hown hi).mono hle

theorem Takes.pure {a : α} (ha : Q a P) : Takes P 0 (pure a : HeapProgram α) Q := by
  intro start size h own live bs hown _
  exact TakesFrom.pure (hown ▸ ha)

theorem Takes.bind (hm : Takes P k m Q) (hf : ∀ a M, Q a M → Takes M l (f a) S) :
    Takes P (k + l) (m >>= f) S := by
  intro start size h own live bs hown hi
  refine (hm hown hi).bind fun a h' own' hreach hQ => ?_
  obtain ⟨bs', hi', -⟩ := hi.frame hreach
  exact hf a own' hQ rfl hi'

/-- The same where the result is a new block. -/
theorem Takes.bindBlock {m : HeapProgram (Option Nat)} {f : Option Nat → HeapProgram β}
    (hm : Takes P k m (Gets P)) (hf : ∀ p n, Takes ((p, n) ::ₘ P) l (f (some p)) S) :
    Takes P (k + l) (m >>= f) S := by
  refine hm.bind ?_
  rintro _ _ ⟨p, n, rfl, rfl⟩
  exact hf p n

theorem exec_store (p n : Nat) (s : NullState Heap) :
    Program.exec (NullProgram.store (some p) n : HeapProgram Unit) s = (.ok (), s) := by
  unfold NullProgram.store NullProgram.storeWith
  by_cases hn : n = 0
  · rw [if_pos hn]
    rfl
  · rw [if_neg hn]
    rfl

theorem Takes.storeBind {p n : Nat} {f : Unit → HeapProgram β} (hf : Takes P k (f ()) S) :
    Takes P k (NullProgram.store (some p) n >>= f) S := by
  intro start size h own live bs hown hi
  have hexec := Program.exec_bind_ok (f := f) (exec_store p n ⟨h, false⟩)
  have hrest := hf hown hi
  unfold TakesFrom at hrest ⊢
  rw [hexec]
  exact hrest

/-- The block is cleared, so a request that is refused is noticed at once. -/
theorem mallocStr_takes {n : Nat} (hpos : 0 < n) (hn : n < 2 ^ 64) :
    Takes P (taken n) (mallocStr n) (Gets P) := by
  intro start size h own live bs hown hi
  have hexec := NullProgram.exec_malloc (ε := CallFault) (H := kernelHeap) (n := n) ⟨h, false⟩
  unfold mallocStr malloc
  rcases hi.malloc_room n with ⟨hfull, hm⟩ | ⟨p, h', hm, hroom⟩
  · simp only [kernelHeap, hm] at hexec
    refine .inr ⟨fun hj => hfull (hj.mono ?_), ⟨h, true⟩, ?_, rfl⟩
    · unfold taken
      omega
    · refine (Program.exec_bind_ok hexec).trans (Program.exec_bind_error ?_)
      rw [memoryClear, NullProgram.store, NullProgram.storeWith, if_neg (Nat.ne_of_gt hpos)]
      rfl
  · simp only [kernelHeap, hm] at hexec
    have hclear := Program.exec_bind_ok
      (f := fun _ => (Pure.pure (some p) : HeapProgram (Option Nat))) (exec_store p n ⟨h', false⟩)
    refine .inl ⟨some p, h', (p, n) :: own, (Program.exec_bind_ok hexec).trans hclear,
      .single (.malloc hn hm), hroom, p, n, rfl, ?_⟩
    rw [← hown]
    rfl

/-- A block of the client is freed. -/
theorem Takes.freeBind {p n : Nat} {f : Unit → HeapProgram β} (hP : P = (p, n) ::ₘ R)
    (hf : Takes R k (f ()) S) : Takes P k (free (some p) >>= f) S := by
  intro start size h own live bs hown hi
  have hp : (p, n) ∈ own := by
    rw [← Multiset.mem_coe, hown, hP]
    exact Multiset.mem_cons_self _ _
  have hrest : (own.erase (p, n) : Multiset (Nat × Nat)) = R := by
    have hperm : (own : Multiset (Nat × Nat)) = (p, n) ::ₘ (own.erase (p, n) : Multiset _) :=
      Multiset.coe_eq_coe.mpr (List.perm_cons_erase hp)
    exact (Multiset.cons_inj_right (p, n)).mp (hperm.symm.trans (hown.trans hP))
  obtain ⟨h', hfree, hroom⟩ := hi.free_room (List.mem_append_left live hp)
  have hstep : TakesFrom h own 0 (free (some p)) fun _ M => M = R := by
    refine .inl ⟨(), h', own.erase (p, n), NullProgram.exec_free_eq_ok.mpr ⟨hfree, rfl⟩,
      .single (.free hp hfree), fun j hj => hroom j (hj.mono (Nat.le_add_left _ _)), hrest⟩
  have hbind := hstep.bind (l := k) (f := f) (S := S) fun _ h'' own'' hreach hown'' => by
    obtain ⟨bs', hi', -⟩ := hi.frame hreach
    exact hf hown'' hi'
  rwa [Nat.zero_add] at hbind

theorem filledStr_takes {size n : Nat} (hpos : 0 < size) (hsize : size < 2 ^ 64) :
    Takes P (taken size) (filledStr size n) (Gets P) := by
  unfold filledStr
  refine Takes.bindBlock (l := 0) (mallocStr_takes hpos hsize) fun p k => Takes.storeBind ?_
  exact Takes.pure ⟨p, k, rfl, rfl⟩

/-- The digits of a `uint64_t`. -/
theorem length_digits_le (n : UInt64) : (Nat.digits (10 : UInt8).toNat n.toNat).length ≤ 20 :=
  (Nat.digits_length_le_iff (by decide) _).mpr (n.toNat_lt.trans (by decide))

theorem length_u64Text_le (n : UInt64) : (u64Text n 10).length ≤ 20 := by
  unfold u64Text
  split
  · decide
  · rw [List.length_reverse, List.length_map]
    exact length_digits_le n

theorem toStringU64_takes (n : UInt64) : Takes P (2 * taken 21) (toStringU64 n 10) (Gets P) := by
  have hlength := length_digits_le n
  have hmalloc : ∀ R, Takes R (taken 21)
      (mallocStr ((Nat.digits (10 : UInt8).toNat n.toNat).length + 1)) (Gets R) := fun R =>
    (mallocStr_takes (Nat.succ_pos _) (by omega)).mono (by unfold taken; omega)
  unfold toStringU64
  split
  · exact Takes.mono (filledStr_takes (by decide) (by decide)) (by decide)
  · rw [Nat.two_mul]
    refine (hmalloc P).bindBlock fun composedString k => ?_
    refine Takes.bindBlock (l := 0) (hmalloc _) fun returnString l => ?_
    refine Takes.storeBind (Takes.storeBind ?_)
    refine Takes.freeBind (Multiset.cons_swap _ _ _) (Takes.storeBind ?_)
    exact Takes.pure ⟨returnString, l, rfl, rfl⟩

/-- The `String` of a text and an integer: only its block is left. -/
theorem construct_takes {text : CString} (htext : text.length < 2 ^ 32) (n : UInt64) :
    Takes P (3 * text.length + 168) (construct [.chars text, .integer (.uint64 n)]) (Gets P) := by
  have hdigits := length_u64Text_le n
  have hsum : taken (text.length + 1) + (2 * taken 21 + (taken 1 + (taken (text.length + 1) +
      taken (text.length + (u64Text n 10).length + 1)))) ≤ 3 * text.length + 168 := by
    simp only [taken, headerSize]
    omega
  refine Takes.mono ?_ hsum
  simp only [construct, passArgs, toCstrs, combineParts, freeAll, Argument.toCstr, Argument.text,
    integerToCstr, integerText, bind_assoc, pure_bind, copyStr, strCombine, List.nil_append,
    List.length_nil, Nat.zero_add]
  refine (filledStr_takes (Nat.succ_pos _) (by omega)).bindBlock fun part₀ k₀ => ?_
  refine (toStringU64_takes n).bindBlock fun part₁ k₁ => ?_
  refine (mallocStr_takes (by decide) (by decide)).bindBlock fun data k₂ => ?_
  refine (filledStr_takes (Nat.succ_pos _) (by omega)).bindBlock fun combined k₃ => ?_
  refine Takes.freeBind (Multiset.cons_swap _ _ _) ?_
  have hpart₀ : (combined, k₃) ::ₘ (part₁, k₁) ::ₘ (part₀, k₀) ::ₘ P =
      (part₀, k₀) ::ₘ (combined, k₃) ::ₘ (part₁, k₁) ::ₘ P := by
    rw [Multiset.cons_swap (part₁, k₁), Multiset.cons_swap (combined, k₃)]
  refine Takes.freeBind hpart₀ ?_
  refine Takes.bindBlock (l := 0) (filledStr_takes (Nat.succ_pos _) (by omega)) fun combined' k₄ => ?_
  refine Takes.freeBind (Multiset.cons_swap _ _ _) ?_
  refine Takes.freeBind (Multiset.cons_swap _ _ _) ?_
  exact Takes.pure ⟨combined', k₄, rfl, rfl⟩

/-- Where everything is given back there is as much room as before. -/
theorem TakesFrom.bindReturned {start size : Nat} {live : Live} {bs : List Block}
    (hi : HeapInv start size h live bs) (hm : TakesFrom h [] k m Q) (hQ : ∀ a M, Q a M → M = 0)
    (hf : ∀ a h', Q a 0 → HeapInv start size h' live bs → TakesFrom h' [] k (f a) S) :
    TakesFrom h [] k (m >>= f) S := by
  rcases hm with ⟨a, h', own', hexec, hreach, -, ha⟩ | ⟨hfull, s, hexec, hs⟩
  · obtain rfl : own' = [] := (Multiset.coe_eq_zero own').mp (hQ a own' ha)
    obtain ⟨hi', -⟩ := hi.returned hreach
    have hsame : ∀ j, h.HasRoom j → h'.HasRoom j := fun j hj =>
      hi'.hasRoom_iff.mpr (hi.hasRoom_iff.mp hj)
    have hbind := Program.exec_bind_ok (f := f) hexec
    rcases hf a h' ha hi' with ⟨b, h'', own'', hexec', hreach', hroom', hS⟩ | ⟨hfull, s, hexec', hs⟩
    · exact .inl ⟨b, h'', own'', hbind.trans hexec', hreach.trans hreach',
        fun j hj => hroom' j (hsame _ hj), hS⟩
    · exact .inr ⟨fun hj => hfull (hsame _ hj), s, hbind.trans hexec', hs⟩
  · exact .inr ⟨hfull, s, Program.exec_bind_error hexec, hs⟩

end NullChecks

/-! ## The graph -/

open NullChecks (Takes TakesFrom)

/-- The text for a block in front of its length. -/
def blockTag (b : MemoryBlockHeader) : CString := if b.used then literal "U-" else literal "F-"

def blockColor (b : MemoryBlockHeader) : Color := if b.used then .deepOrange else .green

/-- The text and the color of a block in the graph. -/
def blockLabel (b : MemoryBlockHeader) : PrintCall :=
  .chars (blockTag b ++ NullChecks.u64Text (.ofNat b.length) 10) (blockColor b)

/-- `print_inline` of the `String` for a block, which is freed behind the call. -/
def printBlock (b : MemoryBlockHeader) : HeapProgram PrintCall := do
  let data ← NullChecks.construct [.chars (blockTag b), .integer (.uint64 (.ofNat b.length))]
  NullChecks.free data
  return blockLabel b

/-- The loop of `print_memory_fragmentation_graph`. -/
def graphLoop (maxBlocks : Nat) : Nat → Nat → Nat → HeapProgram (List PrintCall)
  | 0, _, _ => throw .outOfFuel
  | fuel + 1, blockCounter, currBlockPtr => do
    let s ← get
    if currBlockPtr < s.heap.heapEndPtr then
      let label ← printBlock (readHeader s.heap.mem currBlockPtr)
      if maxBlocks ≤ blockCounter + 1 then return [label, .chars (literal "...") .white]
      else
        let s ← get
        let nextBlockPtr := getNextHeapBlock s.heap.mem currBlockPtr
        let rest ← graphLoop maxBlocks fuel (blockCounter + 1) nextBlockPtr
        if nextBlockPtr < s.heap.heapEndPtr then return label :: .chars (literal ", ") .white :: rest
        else return label :: rest
    else return []

/-- What the colors mean. -/
def graphLegend : List PrintCall :=
  [.chars (literal "[") .white, .chars (literal "U") .deepOrange,
    .chars (literal "] = Used | [") .white, .chars (literal "F") .green,
    .chars (literal "] = Free") .white, .newline]

def printMemoryFragmentationGraph (maxBlocks : Nat) : HeapProgram (List PrintCall) :=
  if maxBlocks = 0 then return []
  else do
    let s ← get
    let entries ← graphLoop maxBlocks s.heap.fuel 0 s.heap.heapStartPtr
    return .chars (literal "[") .white ::
      (entries ++ .chars (literal "]") .white :: .newline :: graphLegend)

/-! ## What it shows -/

/-- The first `maxBlocks` of the blocks, and the mark that there may be more. -/
def graphEntries (maxBlocks : Nat) (bs : List MemoryBlockHeader) : List PrintCall :=
  ((bs.take maxBlocks).map blockLabel).intersperse (.chars (literal ", ") .white) ++
    if maxBlocks ≤ bs.length then [.chars (literal "...") .white] else []

/-- The graph of a list of blocks. -/
def fragmentationGraph (maxBlocks : Nat) (bs : List MemoryBlockHeader) : List PrintCall :=
  if maxBlocks = 0 then []
  else .chars (literal "[") .white ::
    (graphEntries maxBlocks bs ++ .chars (literal "]") .white :: .newline :: graphLegend)

theorem graphEntries_one (b : MemoryBlockHeader) (bs : List MemoryBlockHeader) :
    graphEntries 1 (b :: bs) = [blockLabel b, .chars (literal "...") .white] := by
  simp [graphEntries]

theorem graphEntries_last {n : Nat} (b : MemoryBlockHeader) :
    graphEntries (n + 2) [b] = blockLabel b :: graphEntries (n + 1) [] := by
  simp [graphEntries]

theorem graphEntries_cons {n : Nat} (b c : MemoryBlockHeader) (bs : List MemoryBlockHeader) :
    graphEntries (n + 2) (b :: c :: bs) =
      blockLabel b :: .chars (literal ", ") .white :: graphEntries (n + 1) (c :: bs) := by
  simp [graphEntries]

/-- A free block of so many bytes is enough for a `String` of the graph. -/
def labelRoom : Nat := 174

/-- The `String` is given back. -/
theorem printBlock_takes {P : Multiset (Nat × Nat)} (b : MemoryBlockHeader) :
    Takes P labelRoom (printBlock b) fun call M => call = blockLabel b ∧ M = P := by
  have htag : (blockTag b).length = 2 := by
    unfold blockTag
    split <;> rfl
  have hconstruct := NullChecks.construct_takes (P := P) (htag.trans_lt (by decide)) (.ofNat b.length)
  rw [htag] at hconstruct
  refine Takes.bindBlock (k := labelRoom) (l := 0) hconstruct fun data n => ?_
  refine Takes.freeBind rfl ?_
  exact Takes.pure ⟨rfl, rfl⟩

/-- The loop from the block behind `d`. Each `String` is given back before the next header is read, so
the blocks are the same all the time. -/
theorem graphLoop_shows {start size : Nat} {h : Heap} {live : Live} {d bs : List Block}
    (hi : HeapInv start size h live (d ++ bs)) {maxBlocks fuel blockCounter : Nat}
    (hfuel : bs.length < fuel) (hcount : blockCounter < maxBlocks) :
    TakesFrom h [] labelRoom (graphLoop maxBlocks fuel blockCounter (start + span headerSize d))
      fun calls M => calls = graphEntries (maxBlocks - blockCounter) bs ∧ M = 0 := by
  obtain ⟨fuel, rfl⟩ := Nat.exists_eq_add_one_of_ne_zero (Nat.ne_zero_of_lt hfuel)
  induction bs generalizing h d fuel blockCounter with
  | nil =>
    have hend : ¬ start + span headerSize d < h.heapEndPtr := by
      have hspan := hi.span_eq
      rw [List.append_nil] at hspan
      omega
    rw [graphLoop]
    refine TakesFrom.get ?_
    rw [if_neg hend]
    refine TakesFrom.mono (TakesFrom.pure ⟨?_, rfl⟩) (Nat.zero_le _)
    simp only [graphEntries, List.take_nil, List.map_nil, List.intersperse_nil, List.nil_append,
      List.length_nil]
    rw [if_neg (by omega)]
  | cons b bs ih =>
    have hheader := hi.tiled.header
    rw [hi.start_eq] at hheader
    have hi₀ : HeapInv start size h ([] ++ live) (d ++ b :: bs) := hi
    rw [graphLoop]
    refine TakesFrom.get ?_
    rw [if_pos hi.span_lt, hheader]
    refine (printBlock_takes b rfl hi₀).bindReturned hi (fun _ _ hcall => hcall.2) ?_
    rintro call h' ⟨rfl, -⟩ hi'
    by_cases hlast : maxBlocks ≤ blockCounter + 1
    · rw [if_pos hlast, show maxBlocks - blockCounter = 1 by omega, graphEntries_one]
      exact TakesFrom.mono (TakesFrom.pure ⟨rfl, rfl⟩) (Nat.zero_le _)
    · have hnext := hi'.tiled.next
      rw [hi'.start_eq] at hnext
      rw [if_neg hlast]
      refine TakesFrom.get ?_
      dsimp only
      rw [hnext]
      have hi₂ : HeapInv start size h' live ((d ++ [b]) ++ bs) := by simpa using hi'
      rw [List.length_cons] at hfuel
      obtain ⟨fuel, rfl⟩ := Nat.exists_eq_add_one_of_ne_zero (by omega : fuel ≠ 0)
      have hloop := ih hi₂ (Nat.lt_of_not_le hlast) fuel (by omega)
      refine TakesFrom.bind (l := 0) hloop fun rest h₂ own₂ _ hrest => ?_
      obtain ⟨rfl, hown₂⟩ := hrest
      obtain ⟨k, hk⟩ := Nat.exists_eq_add_of_le' (by omega : 2 ≤ maxBlocks - blockCounter)
      have hk' : maxBlocks - (blockCounter + 1) = k + 1 := by omega
      rw [hk, hk']
      cases bs with
      | nil =>
        have hspan := hi'.span_eq
        rw [if_neg (by omega), graphEntries_last]
        exact TakesFrom.pure ⟨rfl, hown₂⟩
      | cons c cs =>
        rw [if_pos hi₂.span_lt, graphEntries_cons]
        exact TakesFrom.pure ⟨rfl, hown₂⟩

/-- In every state that is reached from boot: the graph is that of the blocks of the heap, which are
the same after the call, and the payloads are left alone; or there is no room for a `String`, and it
is stored through the null pointer. -/
theorem printMemoryFragmentationGraph_shows {s s' : MemState} {m : Bytes.Mem} {h₀ h : Heap}
    {live : Live} (hi : memoryInit s m = some (s', h₀)) (hr : HeapReach (h₀, []) (h, live))
    (maxBlocks : Nat) :
    (∃ h', (printMemoryFragmentationGraph maxBlocks).run h =
        (.ok (fragmentationGraph maxBlocks (h.blockList.map Prod.snd)), ⟨h', false⟩) ∧
      h'.blockList = h.blockList ∧ ∀ q ∈ live, ∀ i < q.2, h'.mem (q.1 + i) = h.mem (q.1 + i)) ∨
    ¬ h.HasRoom labelRoom ∧ ∃ t,
      (printMemoryFragmentationGraph maxBlocks).run h = (.error .nullStore, t) ∧ t.refused = true := by
  obtain ⟨bs, hinv⟩ := (memoryInit_heapInv hi).reach hr
  have hgraph : TakesFrom h [] labelRoom (printMemoryFragmentationGraph maxBlocks)
      fun calls M => calls = fragmentationGraph maxBlocks bs ∧ M = 0 := by
    unfold printMemoryFragmentationGraph fragmentationGraph
    by_cases hzero : maxBlocks = 0
    · rw [if_pos hzero, if_pos hzero]
      exact TakesFrom.mono (TakesFrom.pure ⟨rfl, rfl⟩) (Nat.zero_le _)
    · rw [if_neg hzero, if_neg hzero]
      refine TakesFrom.get ?_
      have hloop := graphLoop_shows (d := []) hinv hinv.tiled.length_le_fuel (Nat.pos_of_ne_zero hzero)
      rw [span_nil, Nat.add_zero, ← hinv.start_eq, Nat.sub_zero] at hloop
      refine TakesFrom.bind (l := 0) hloop fun entries h' own' _ hentries => ?_
      obtain ⟨rfl, hown⟩ := hentries
      exact TakesFrom.pure ⟨rfl, hown⟩
  rcases hgraph with ⟨calls, h', own', hexec, hreach, -, rfl, hown⟩ | hnull
  · obtain rfl : own' = [] := (Multiset.coe_eq_zero own').mp hown
    rw [hinv.blockList_map_snd]
    exact .inl ⟨h', hexec, hinv.returned_blockList hreach⟩
  · exact .inr hnull

/-- The graph behind boot: one free block, with room for the `String`. -/
theorem bootState_fragmentationGraph : ∃ s' h₀ h',
    memoryInit (bootState (2 ^ 15) (by decide)) (fun _ => 0) = some (s', h₀) ∧
      (printMemoryFragmentationGraph 100).run h₀ =
        (.ok (fragmentationGraph 100 [⟨initHeapSize - headerSize, false⟩]), ⟨h', false⟩) ∧
      h'.blockList = h₀.blockList := by
  obtain ⟨⟨s', h₀⟩, hi⟩ := Option.isSome_iff_exists.mp (bootState_memoryInit fun _ => 0)
  have hinv := memoryInit_heapInv hi
  rcases printMemoryFragmentationGraph_shows hi .refl 100 with ⟨h', hrun, hlist, -⟩ | ⟨hfull, -⟩
  · rw [hinv.blockList_map_snd] at hrun
    exact ⟨s', h₀, h', hi, hrun, hlist⟩
  · refine absurd (hinv.hasRoom_iff.mpr ⟨_, List.mem_cons_self, ?_⟩) hfull
    decide

end EszOs
