import EszOs.Lib.Faults
import Mathlib.Data.Multiset.AddSub
import Mathlib.Data.Multiset.UnionInter
import Mathlib.Data.Multiset.ZeroCons

/-!
# Ownership of blocks

`BlockHeap` is a heap as its clients see it: the blocks that are allocated and what is in each. It
faults when a block is used or freed that is not allocated. Where a block goes is up to the
`Allocator`, which knows what is allocated and how often it was asked.

`Owns P m Q` is total correctness with the frame in it: if the blocks `P` are among the allocated
ones, `m` does not fault, and where it returns `a`, blocks `M` with `Q a M` have taken the place of
`P`. What else was allocated still is.

* `Owns.malloc`, `Owns.free`, `Owns.load`, `Owns.store`: the rule of each operation.
* `Owns.bind`: the rule of composition.
-/

/-- What can go wrong with a block. -/
inductive HeapFault
  | useAfterFree
  | doubleFree
deriving DecidableEq, Repr

/-- The allocated blocks, the content of each, and the number of allocations so far. -/
structure BlockHeap (α β : Type) where
  live : Multiset α
  nodup : live.Nodup
  content : α → β
  mallocs : Nat

/-- Where the blocks go. -/
structure Allocator (α : Type) where
  /-- The place of a block of that size; the first argument counts the allocations. -/
  place : Nat → Multiset α → Nat → α
  place_fresh : ∀ n live size, place n live size ∉ live

namespace BlockHeap

variable {α β γ : Type}

/-- The heap with nothing allocated. -/
def empty (b : β) : BlockHeap α β := ⟨0, Multiset.nodup_zero, fun _ => b, 0⟩

section Operations

variable [DecidableEq α]

/-- The heap after an allocation. -/
def allocate (A : Allocator α) (size : Nat) (b : β) (h : BlockHeap α β) : BlockHeap α β where
  live := A.place h.mallocs h.live size ::ₘ h.live
  nodup := Multiset.nodup_cons.mpr ⟨A.place_fresh _ _ _, h.nodup⟩
  content p := if p = A.place h.mallocs h.live size then b else h.content p
  mallocs := h.mallocs + 1

def malloc (A : Allocator α) (size : Nat) (b : β) : Program HeapFault (BlockHeap α β) α := do
  let h ← get
  set (h.allocate A size b)
  return A.place h.mallocs h.live size

def free (p : α) : Program HeapFault (BlockHeap α β) Unit := do
  let h ← get
  if p ∈ h.live then set { h with live := h.live.erase p, nodup := h.nodup.erase p }
  else throw .doubleFree

def load (p : α) : Program HeapFault (BlockHeap α β) β := do
  let h ← get
  if p ∈ h.live then return h.content p else throw .useAfterFree

def store (p : α) (b : β) : Program HeapFault (BlockHeap α β) Unit := do
  let h ← get
  if p ∈ h.live then set { h with content := fun q => if q = p then b else h.content q }
  else throw .useAfterFree

end Operations

/-- From a heap in which `P` is allocated, `m` returns, and `M` with `Q a M` is allocated in place of
`P` then. -/
def Owns (P : Multiset α) (m : Program HeapFault (BlockHeap α β) γ) (Q : γ → Multiset α → Prop) :
    Prop :=
  ∀ h rest, h.live = P + rest →
    ∃ a h' M, Program.exec m h = (.ok a, h') ∧ Q a M ∧ h'.live = M + rest

namespace Owns

variable {δ : Type} {P F : Multiset α} {m : Program HeapFault (BlockHeap α β) γ}
  {f : γ → Program HeapFault (BlockHeap α β) δ} {Q Q' : γ → Multiset α → Prop}
  {R : δ → Multiset α → Prop}

/-! ## Composition -/

theorem pure {a : γ} (h : Q a P) : Owns P (pure a : Program HeapFault (BlockHeap α β) γ) Q :=
  fun heap _ hlive => ⟨a, heap, P, rfl, h, hlive⟩

theorem bind (hm : Owns P m Q) (hf : ∀ a M, Q a M → Owns M (f a) R) : Owns P (m >>= f) R := by
  intro h rest hlive
  obtain ⟨a, h', M, hrun, hQ, hlive'⟩ := hm h rest hlive
  rw [Program.exec_bind_ok hrun]
  exact hf a M hQ h' rest hlive'

/-- The same where the blocks that are left depend on the result only. -/
theorem bindEq {M : γ → Multiset α} (hm : Owns P m fun a N => N = M a)
    (hf : ∀ a, Owns (M a) (f a) R) : Owns P (m >>= f) R :=
  hm.bind fun a _ hN => hN ▸ hf a

theorem imp (hm : Owns P m Q) (h : ∀ a M, Q a M → Q' a M) : Owns P m Q' := by
  intro heap rest hlive
  obtain ⟨a, h', M, hrun, hQ, hlive'⟩ := hm heap rest hlive
  exact ⟨a, h', M, hrun, h a M hQ, hlive'⟩

/-! ## Operations -/

variable [DecidableEq α]

theorem malloc (A : Allocator α) (size : Nat) (b : β) :
    Owns P (malloc A size b) fun p M => M = p ::ₘ P := by
  intro h rest hlive
  refine ⟨A.place h.mallocs h.live size, h.allocate A size b, _, rfl, rfl, ?_⟩
  show A.place h.mallocs h.live size ::ₘ h.live = _
  rw [hlive, Multiset.cons_add]

theorem free {p : α} : Owns (p ::ₘ P) (free p : Program HeapFault (BlockHeap α β) Unit)
    fun _ M => M = P := by
  intro h rest hlive
  have hmem : p ∈ h.live := by
    rw [hlive, Multiset.cons_add]
    exact Multiset.mem_cons_self p _
  refine ⟨(), { h with live := h.live.erase p, nodup := h.nodup.erase p }, P, ?_, rfl, ?_⟩
  · unfold BlockHeap.free
    rw [Program.exec_bind_ok (Program.exec_get h), if_pos hmem]
    rfl
  · show h.live.erase p = P + rest
    rw [hlive, Multiset.cons_add, Multiset.erase_cons_head]

theorem load {p : α} (hp : p ∈ P) :
    Owns P (load p : Program HeapFault (BlockHeap α β) β) fun _ M => M = P := by
  intro h rest hlive
  have hmem : p ∈ h.live := by
    rw [hlive]
    exact Multiset.mem_add.mpr (.inl hp)
  refine ⟨h.content p, h, P, ?_, rfl, hlive⟩
  unfold BlockHeap.load
  rw [Program.exec_bind_ok (Program.exec_get h), if_pos hmem]
  rfl

theorem store {p : α} (hp : p ∈ P) (b : β) :
    Owns P (store p b : Program HeapFault (BlockHeap α β) Unit) fun _ M => M = P := by
  intro h rest hlive
  have hmem : p ∈ h.live := by
    rw [hlive]
    exact Multiset.mem_add.mpr (.inl hp)
  refine ⟨(), { h with content := fun q => if q = p then b else h.content q }, P, ?_, rfl, hlive⟩
  unfold BlockHeap.store
  rw [Program.exec_bind_ok (Program.exec_get h), if_pos hmem]
  rfl

end Owns

end BlockHeap
