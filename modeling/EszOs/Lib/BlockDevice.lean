import Mathlib.Logic.Basic

/-!
# Block devices

A device and the memory beside it hold a value at each position, and an operation transfers values
between them.

* `Agrees.runAll`: operations depend on no other part of the memory than the one they are given.
* `read_back`: what was written is read back, as long as no other write touches it.
-/

namespace BlockDevice

universe u

variable {β : Type u}

/-- The `n` values of `f` from `src` on, copied over those of `m` from `dest` on. -/
def transfer (m : Nat → β) (dest : Nat) (f : Nat → β) (src n : Nat) : Nat → β := fun x =>
  if dest ≤ x ∧ x < dest + n then f (src + (x - dest)) else m x

theorem transfer_add (m : Nat → β) (dest : Nat) (f : Nat → β) (src : Nat) {n i : Nat} (h : i < n) :
    transfer m dest f src n (dest + i) = f (src + i) := by
  rw [transfer, if_pos (by omega), Nat.add_sub_cancel_left]

theorem transfer_outside {m f : Nat → β} {dest src n x : Nat} (h : ¬ (dest ≤ x ∧ x < dest + n)) :
    transfer m dest f src n x = m x := if_neg h

/-- What the device and the memory hold. -/
structure State (β : Type u) where
  disk : Nat → β
  mem : Nat → β

/-- `n` values from `pos` on the device, from or to the memory at `ptr`. -/
inductive Operation
  | read (pos n ptr : Nat)
  | write (pos n ptr : Nat)
  | flush

namespace Operation

def run (s : State β) : Operation → State β
  | read pos n ptr => { s with mem := transfer s.mem ptr s.disk pos n }
  | write pos n ptr => { s with disk := transfer s.disk pos s.mem ptr n }
  | flush => s

/-- The memory that the operation reads and writes lies in `S`. -/
def Within (S : Nat → Prop) : Operation → Prop
  | read _ n ptr | write _ n ptr => ∀ i < n, S (ptr + i)
  | flush => True

theorem Within.mono {S S' : Nat → Prop} {op : Operation} (h : op.Within S) (hsub : ∀ x, S x → S' x) :
    op.Within S' := by
  cases op with
  | read | write => exact fun i hi => hsub _ (h i hi)
  | flush => trivial

/-- The operation writes none of the `n` values from `pos` on. -/
def Leaves (pos n : Nat) : Operation → Prop
  | write pos' n' _ => pos' + n' ≤ pos ∨ pos + n ≤ pos'
  | _ => True

theorem Leaves.disk {pos n : Nat} {op : Operation} (h : op.Leaves pos n) (s : State β) {i : Nat}
    (hi : i < n) : (op.run s).disk (pos + i) = s.disk (pos + i) := by
  cases op with
  | read => rfl
  | write => exact transfer_outside (by dsimp only [Leaves] at h; omega)
  | flush => rfl

end Operation

def runAll (s : State β) (ops : List Operation) : State β := ops.foldl Operation.run s

theorem runAll_append (s : State β) (ops ops' : List Operation) :
    runAll s (ops ++ ops') = runAll (runAll s ops) ops' := List.foldl_append

theorem runAll_leaves {pos n : Nat} {ops : List Operation} (h : ∀ op ∈ ops, op.Leaves pos n)
    (s : State β) {i : Nat} (hi : i < n) : (runAll s ops).disk (pos + i) = s.disk (pos + i) := by
  induction ops generalizing s with
  | nil => rfl
  | cons op ops ih =>
    obtain ⟨hop, hops⟩ := List.forall_mem_cons.mp h
    exact (ih hops (op.run s)).trans (hop.disk s hi)

/-- After a write, operations that leave its values alone, and a read, the memory that was read into
holds what was written. -/
theorem read_back {pos n : Nat} {ops : List Operation} (h : ∀ op ∈ ops, op.Leaves pos n)
    (s : State β) (ptr ptr' : Nat) {i : Nat} (hi : i < n) :
    (runAll s (.write pos n ptr :: ops ++ [.read pos n ptr'])).mem (ptr' + i) = s.mem (ptr + i) := by
  obtain ⟨written, hwritten⟩ : ∃ written, written = (Operation.write pos n ptr).run s := ⟨_, rfl⟩
  have hdisk : (runAll written ops).disk (pos + i) = s.mem (ptr + i) := by
    rw [runAll_leaves h written hi, hwritten]
    exact transfer_add s.disk pos s.mem ptr hi
  rw [runAll_append, ← hdisk]
  show transfer _ ptr' (runAll ((Operation.write pos n ptr).run s) ops).disk pos n (ptr' + i) = _
  rw [transfer_add _ _ _ _ hi, hwritten]

/-! ## Parts of the memory -/

/-- The devices are equal, and so are the parts `S` of the memories. -/
structure Agrees (S : Nat → Prop) (s s' : State β) : Prop where
  disk : s.disk = s'.disk
  mem : ∀ x, S x → s.mem x = s'.mem x

namespace Agrees

variable {S : Nat → Prop} {s s' s'' : State β}

theorem refl (S : Nat → Prop) (s : State β) : Agrees S s s := ⟨rfl, fun _ _ => rfl⟩

theorem trans (h : Agrees S s s') (h' : Agrees S s' s'') : Agrees S s s'' :=
  ⟨h.disk.trans h'.disk, fun x hx => (h.mem x hx).trans (h'.mem x hx)⟩

theorem mono {S' : Nat → Prop} (h : Agrees S s s') (hsub : ∀ x, S' x → S x) : Agrees S' s s' :=
  ⟨h.disk, fun x hx => h.mem x (hsub x hx)⟩

theorem run (h : Agrees S s s') {op : Operation} (hop : op.Within S) :
    Agrees S (op.run s) (op.run s') := by
  cases op with
  | read pos n ptr =>
    refine ⟨h.disk, fun x hx => ?_⟩
    show transfer s.mem ptr s.disk pos n x = transfer s'.mem ptr s'.disk pos n x
    unfold transfer
    split
    · rw [h.disk]
    · exact h.mem x hx
  | write pos n ptr =>
    refine ⟨funext fun x => ?_, h.mem⟩
    show transfer s.disk pos s.mem ptr n x = transfer s'.disk pos s'.mem ptr n x
    unfold transfer
    split
    · exact h.mem _ (hop _ (by omega))
    · rw [h.disk]
  | flush => exact h

theorem runAll (h : Agrees S s s') {ops : List Operation} (hops : ∀ op ∈ ops, op.Within S) :
    Agrees S (runAll s ops) (runAll s' ops) := by
  induction ops generalizing s s' with
  | nil => exact h
  | cons op ops ih =>
    obtain ⟨hop, hrest⟩ := List.forall_mem_cons.mp hops
    exact ih (h.run hop) hrest

end Agrees

end BlockDevice
