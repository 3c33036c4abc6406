import EszOs.Lib.Faults

/-!
# Heaps that refuse requests

`malloc` returns the null pointer when it has no room. A program that does not look at the pointer
stores through it sooner or later: here that is a fault, and the state remembers that a request was
refused.

* `Strict m Q`: `m` stores through the null pointer exactly if a request of it is refused. Where it
  returns, none was, and `Q` holds of the result.
* `Strict.bind`, `Strict.malloc`, `Strict.store`, `Strict.free`: the rules.
* `StrictAt.checksNull_iff`: what `m` does with the null pointer is harmless only if there is none.
* `checksNull_malloc_iff`: the same for a program that gets past the first null pointer.
-/

/-- What stops a program. -/
inductive NullFault (ε : Type)
  /-- A store through the null pointer. -/
  | nullStore
  /-- A loop of the heap is still running. -/
  | outOfFuel
  /-- A fault of the program itself. -/
  | client (e : ε)

/-- A heap as its clients see it; `none` for a loop that is still running. -/
structure NullableHeap (σ : Type) where
  /-- The inner `none` is the null pointer. -/
  malloc : σ → Nat → Option (Option Nat × σ)
  free : σ → Nat → Option σ
  /-- A heap that refuses a request is not changed by it. It refuses longer ones too, and answers
  the shorter ones. -/
  refuses : ∀ {h n h'}, malloc h n = some (none, h') →
    h' = h ∧ ∀ m, malloc h m ≠ none ∧ (n ≤ m → malloc h m = some (none, h))

/-- The state of a program: `refused` once `malloc` has returned the null pointer. -/
structure NullState (σ : Type) where
  heap : σ
  refused : Bool

abbrev NullProgram (ε σ α : Type) := Program (NullFault ε) (NullState σ) α

namespace NullProgram

variable {ε σ α β : Type}

/-! ## Operations -/

def malloc (H : NullableHeap σ) (n : Nat) : NullProgram ε σ (Option Nat) := do
  let s ← get
  match H.malloc s.heap n with
  | none => throw .outOfFuel
  | some (none, h) =>
    set (NullState.mk h true)
    return none
  | some (some p, h) =>
    set { s with heap := h }
    return some p

/-- A store of `n` bytes behind `p`; `f` is what it does to the heap. -/
def storeWith (p : Option Nat) (n : Nat) (f : Nat → σ → σ) : NullProgram ε σ Unit :=
  if n = 0 then return ()
  else
    match p with
    | none => throw .nullStore
    | some p => modify fun s => { s with heap := f p s.heap }

/-- A store of `n` bytes in the block at `p`. -/
def store (p : Option Nat) (n : Nat) : NullProgram ε σ Unit := storeWith p n fun _ h => h

/-- The header is in front of the block, so `free` of the null pointer is a store as well. -/
def free (H : NullableHeap σ) : Option Nat → NullProgram ε σ Unit
  | none => throw .nullStore
  | some p => do
    let s ← get
    match H.free s.heap p with
    | none => throw .outOfFuel
    | some h => set { s with heap := h }

/-- A fault of the program. -/
def fault (e : ε) : NullProgram ε σ α := throw (.client e)

/-! ## Stores through the null pointer -/

/-- A run from `h`. -/
def run (m : NullProgram ε σ α) (h : σ) : Except (NullFault ε) α × NullState σ :=
  Program.exec m ⟨h, false⟩

/-- A request is refused in the run. -/
def Refused (m : NullProgram ε σ α) (h : σ) : Prop := (m.run h).2.refused = true

/-- If a request is refused nothing is stored through the null pointer. -/
def ChecksNull (m : NullProgram ε σ α) (h : σ) : Prop :=
  m.Refused h → (m.run h).1 ≠ .error .nullStore

/-- From `h`: a request is refused, and the null pointer is stored through, or none is, and a result
is in `Q`. -/
def StrictAt (h : σ) (m : NullProgram ε σ α) (Q : α → Prop) : Prop :=
  match m.run h with
  | (.ok a, s) => s.refused = false ∧ Q a
  | (.error e, s) => e = .nullStore ↔ s.refused = true

def Strict (m : NullProgram ε σ α) (Q : α → Prop) : Prop := ∀ h, StrictAt h m Q

/-- After a refused request, from `h`: the null pointer is stored through. -/
def Doomed (h : σ) (m : NullProgram ε σ α) : Prop :=
  ∃ s, Program.exec m ⟨h, true⟩ = (.error .nullStore, s) ∧ s.refused = true

/-- Nothing is stored through the null pointer, whatever is refused. -/
def Tolerant (m : NullProgram ε σ α) : Prop := ∀ s, (Program.exec m s).1 ≠ .error .nullStore

variable {H : NullableHeap σ} {m : NullProgram ε σ α} {f : α → NullProgram ε σ β} {h : σ}
  {Q Q' : α → Prop} {R : β → Prop} {n : Nat}

/-- Such a program is careful only where it does not have to be. -/
theorem StrictAt.checksNull_iff (hm : StrictAt h m Q) : m.ChecksNull h ↔ ¬ m.Refused h := by
  unfold StrictAt at hm
  unfold ChecksNull Refused
  generalize m.run h = r at hm ⊢
  obtain ⟨e | a, s⟩ := r
  · constructor
    · intro hchecks hs
      exact hchecks hs (congrArg Except.error (hm.mpr hs))
    · intro hs hrefused
      exact absurd hrefused hs
  · obtain ⟨hs, -⟩ := hm
    simp [hs]

theorem Tolerant.checksNull (hm : Tolerant m) (h : σ) : m.ChecksNull h := fun _ => hm _

/-! ## Composition -/

theorem Strict.pure {a : α} (ha : Q a) : Strict (pure a : NullProgram ε σ α) Q :=
  fun _ => ⟨rfl, ha⟩

theorem Strict.fault (e : ε) : Strict (fault e : NullProgram ε σ α) Q :=
  fun _ => iff_of_false nofun Bool.false_ne_true

theorem StrictAt.imp (hm : StrictAt h m Q) (hQ : ∀ a, Q a → Q' a) : StrictAt h m Q' := by
  unfold StrictAt at hm ⊢
  generalize m.run h = r at hm ⊢
  obtain ⟨e | a, s⟩ := r
  · exact hm
  · exact ⟨hm.1, hQ a hm.2⟩

theorem Strict.imp (hm : Strict m Q) (hQ : ∀ a, Q a → Q' a) : Strict m Q' :=
  fun h => (hm h).imp hQ

theorem StrictAt.bind (hm : StrictAt h m Q) (hf : ∀ a, Q a → Strict (f a) R) :
    StrictAt h (m >>= f) R := by
  unfold StrictAt at hm
  cases hrun : m.run h with
  | mk r s =>
    rw [hrun] at hm
    cases r with
    | error e =>
      rw [StrictAt, run, Program.exec_bind_error hrun]
      exact hm
    | ok a =>
      obtain ⟨hs, ha⟩ := hm
      obtain ⟨heap, refused⟩ := s
      cases hs
      rw [StrictAt, run, Program.exec_bind_ok hrun]
      exact hf a ha heap

theorem Strict.bind (hm : Strict m Q) (hf : ∀ a, Q a → Strict (f a) R) : Strict (m >>= f) R :=
  fun h => (hm h).bind hf

/-- The same where the result is a block. -/
theorem StrictAt.bindBlock {m : NullProgram ε σ (Option Nat)} {f : Option Nat → NullProgram ε σ β}
    (hm : StrictAt h m fun p => p.isSome = true) (hf : ∀ p, Strict (f (some p)) R) :
    StrictAt h (m >>= f) R := by
  refine hm.bind fun p hp => ?_
  obtain ⟨p, rfl⟩ := Option.isSome_iff_exists.mp hp
  exact hf p

theorem Strict.bindBlock {m : NullProgram ε σ (Option Nat)} {f : Option Nat → NullProgram ε σ β}
    (hm : Strict m fun p => p.isSome = true) (hf : ∀ p, Strict (f (some p)) R) :
    Strict (m >>= f) R :=
  fun h => (hm h).bindBlock hf

/-! ## Requests -/

theorem Doomed.bind (hm : Doomed h m) : Doomed h (m >>= f) := by
  obtain ⟨s, hexec, hs⟩ := hm
  exact ⟨s, Program.exec_bind_error hexec, hs⟩

theorem Doomed.store (hn : 0 < n) (g : Nat → σ → σ) :
    Doomed h (storeWith none n g : NullProgram ε σ Unit) := by
  rw [storeWith, if_neg (Nat.ne_of_gt hn)]
  exact ⟨_, rfl, rfl⟩

theorem Doomed.free : Doomed h (free H none : NullProgram ε σ Unit) := ⟨_, rfl, rfl⟩

/-- A step that gets past the null pointer. -/
theorem Doomed.after {a : α} {h' : σ} (hm : Program.exec m ⟨h, true⟩ = (.ok a, ⟨h', true⟩))
    (hf : Doomed h' (f a)) : Doomed h (m >>= f) := by
  obtain ⟨s, hexec, hs⟩ := hf
  exact ⟨s, by rw [Program.exec_bind_ok hm, hexec], hs⟩

/-- A store through a pointer that is not the null pointer. -/
theorem Doomed.afterStore {p : Nat} {g : Nat → σ → σ} {f : Unit → NullProgram ε σ β}
    (hf : ∀ h, Doomed h (f ())) : Doomed h (storeWith (some p) n g >>= f) := by
  unfold storeWith
  by_cases hn : n = 0
  · rw [if_pos hn]
    exact Doomed.after rfl (hf h)
  · rw [if_neg hn]
    exact Doomed.after rfl (hf (g p h))

theorem exec_malloc (s : NullState σ) :
    Program.exec (malloc H n : NullProgram ε σ (Option Nat)) s =
      match H.malloc s.heap n with
      | none => (.error .outOfFuel, s)
      | some (none, h) => (.ok none, ⟨h, true⟩)
      | some (some p, h) => (.ok (some p), ⟨h, s.refused⟩) := by
  unfold malloc
  rw [Program.exec_bind_ok (Program.exec_get s)]
  rcases H.malloc s.heap n with _ | ⟨_ | p, h⟩ <;> rfl

theorem exec_free (p : Nat) (s : NullState σ) :
    Program.exec (free H (some p) : NullProgram ε σ Unit) s =
      match H.free s.heap p with
      | none => (.error .outOfFuel, s)
      | some h => (.ok (), { s with heap := h }) := by
  unfold free
  rw [Program.exec_bind_ok (Program.exec_get s)]
  cases H.free s.heap p <;> rfl

/-- A store of no bytes changes nothing. -/
theorem exec_storeWith {p : Nat} {g : Nat → σ → σ} {s : NullState σ} (hg : n = 0 → g p s.heap = s.heap) :
    Program.exec (storeWith (some p) n g : NullProgram ε σ Unit) s =
      (.ok (), { s with heap := g p s.heap }) := by
  unfold storeWith
  split
  · rename_i hn
    rw [hg hn]
    rfl
  · rfl

/-- A `free` that ends. -/
theorem exec_free_eq_ok {p : Nat} {s s' : NullState σ} :
    Program.exec (free H (some p) : NullProgram ε σ Unit) s = (.ok (), s') ↔
      H.free s.heap p = some s'.heap ∧ s'.refused = s.refused := by
  rw [exec_free]
  cases H.free s.heap p with
  | none => exact iff_of_false nofun nofun
  | some h =>
    obtain ⟨heap, refused⟩ := s'
    simp [eq_comm]

/-- `malloc`, where the program is doomed with the null pointer. -/
theorem StrictAt.malloc {g : Option Nat → NullProgram ε σ β} (hsome : ∀ p, Strict (g (some p)) R)
    (hnone : H.malloc h n = some (none, h) → Doomed h (g none)) :
    StrictAt h (malloc H n >>= g) R := by
  unfold StrictAt run
  rw [Program.exec_bind, exec_malloc]
  cases hmalloc : H.malloc h n with
  | none => exact iff_of_false nofun Bool.false_ne_true
  | some r =>
    obtain ⟨p, h'⟩ := r
    cases p with
    | some p => exact hsome p h'
    | none =>
      obtain ⟨rfl, -⟩ := H.refuses hmalloc
      obtain ⟨s, hexec, hs⟩ := hnone hmalloc
      simp [hexec, hs]

theorem Strict.malloc {g : Option Nat → NullProgram ε σ β} (hsome : ∀ p, Strict (g (some p)) R)
    (hnone : ∀ h, H.malloc h n = some (none, h) → Doomed h (g none)) :
    Strict (malloc H n >>= g) R :=
  fun h => StrictAt.malloc hsome (hnone h)

/-- After a refused request a longer one is refused. -/
theorem exec_malloc_refused {k : Nat} (hrefused : H.malloc h n = some (none, h)) (hk : n ≤ k) :
    Program.exec (malloc H k : NullProgram ε σ (Option Nat)) ⟨h, true⟩ = (.ok none, ⟨h, true⟩) := by
  rw [exec_malloc, ((H.refuses hrefused).2 k).2 hk]

/-- A shorter one is answered. -/
theorem Doomed.malloc {k : Nat} {g : Option Nat → NullProgram ε σ β}
    (hrefused : H.malloc h n = some (none, h)) (hg : ∀ p h', Doomed h' (g p)) :
    Doomed h (malloc H k >>= g) := by
  have hanswer := ((H.refuses hrefused).2 k).1
  cases hmalloc : H.malloc h k with
  | none => exact absurd hmalloc hanswer
  | some r =>
    obtain ⟨p, h'⟩ := r
    have hexec : Program.exec (NullProgram.malloc H k : NullProgram ε σ (Option Nat)) ⟨h, true⟩ =
        (.ok p, ⟨h', true⟩) := by
      rw [exec_malloc, hmalloc]
      cases p <;> rfl
    exact Doomed.after hexec (hg p h')

theorem Strict.store (p : Nat) (g : Nat → σ → σ) :
    Strict (storeWith (some p) n g : NullProgram ε σ Unit) fun _ => True := by
  intro h
  unfold storeWith
  by_cases hn : n = 0
  · rw [if_pos hn]
    exact ⟨rfl, trivial⟩
  · rw [if_neg hn]
    exact ⟨rfl, trivial⟩

theorem Strict.free (p : Nat) : Strict (free H (some p) : NullProgram ε σ Unit) fun _ => True := by
  intro h
  unfold StrictAt run NullProgram.free
  rw [Program.exec_bind_ok (Program.exec_get _)]
  cases hfree : H.free h p with
  | none => exact iff_of_false nofun Bool.false_ne_true
  | some h' => exact ⟨rfl, trivial⟩

theorem Tolerant.pure (a : α) : Tolerant (pure a : NullProgram ε σ α) := fun _ => nofun

theorem Tolerant.bind (hm : Tolerant m) (hf : ∀ a, Tolerant (f a)) : Tolerant (m >>= f) := by
  intro s
  rw [Program.exec_bind]
  have hstep := hm s
  generalize Program.exec m s = r at hstep ⊢
  obtain ⟨e | a, s'⟩ := r
  · exact fun he => hstep (congrArg Except.error (Except.error.inj he))
  · exact hf a s'

theorem Tolerant.malloc : Tolerant (malloc H n : NullProgram ε σ (Option Nat)) := by
  intro s
  rw [exec_malloc]
  rcases H.malloc s.heap n with _ | ⟨_ | p, h⟩ <;> nofun

/-- A store of nothing. -/
theorem Tolerant.store (p : Option Nat) (g : Nat → σ → σ) :
    Tolerant (storeWith p 0 g : NullProgram ε σ Unit) := fun _ => nofun

/-! ## Requests that were refused before -/

/-- What was refused before makes no difference to what the program does. -/
def Oblivious (m : NullProgram ε σ α) : Prop :=
  ∀ h, Program.exec m ⟨h, true⟩ = ((m.run h).1, ⟨(m.run h).2.heap, true⟩)

theorem Oblivious.pure (a : α) : Oblivious (pure a : NullProgram ε σ α) := fun _ => rfl

theorem Oblivious.bind (hm : Oblivious m) (hf : ∀ a, Oblivious (f a)) : Oblivious (m >>= f) := by
  intro h
  rw [run, Program.exec_bind, Program.exec_bind, hm h, run]
  generalize Program.exec m ⟨h, false⟩ = r
  obtain ⟨e | a, h', refused⟩ := r
  · rfl
  · cases refused with
    | false => exact hf a h'
    | true => simp only [hf a h']

theorem Oblivious.malloc : Oblivious (malloc H n : NullProgram ε σ (Option Nat)) := by
  intro h
  rw [run, exec_malloc, exec_malloc]
  rcases H.malloc h n with _ | ⟨_ | p, h'⟩ <;> rfl

theorem Oblivious.store (p : Option Nat) (g : Nat → σ → σ) :
    Oblivious (storeWith p n g : NullProgram ε σ Unit) := by
  unfold storeWith
  split
  · exact Oblivious.pure ()
  · cases p <;> exact fun _ => rfl

theorem Oblivious.free (p : Option Nat) : Oblivious (free H p : NullProgram ε σ Unit) := by
  intro h
  cases p with
  | none => rfl
  | some p =>
    rw [run, exec_free, exec_free]
    cases H.free h p <;> rfl

/-- A program that gets past the first null pointer, and is strict from there. -/
theorem checksNull_malloc_iff {g : Option Nat → NullProgram ε σ β} (hg : ∀ p, Strict (g p) R)
    (hnone : Oblivious (g none)) :
    (malloc H n >>= g).ChecksNull h ↔ ¬ (malloc H n >>= g).Refused h ∨
      H.malloc h n = some (none, h) ∧ ¬ (g none).Refused h := by
  cases hmalloc : H.malloc h n with
  | none =>
    have hrun : (NullProgram.malloc H n >>= g).run h = (.error .outOfFuel, ⟨h, false⟩) := by
      rw [run, Program.exec_bind, exec_malloc]
      simp only [hmalloc]
    simp [ChecksNull, Refused, hrun]
  | some r =>
    obtain ⟨p, h'⟩ := r
    cases p with
    | some p =>
      have hrun : (NullProgram.malloc H n >>= g).run h = (g (some p)).run h' := by
        rw [run, Program.exec_bind, exec_malloc]
        simp only [hmalloc]
        rfl
      have hiff := (hg (some p) h').checksNull_iff
      rw [ChecksNull, Refused] at hiff
      simp only [ChecksNull, Refused, hrun, hiff]
      simp
    | none =>
      obtain ⟨rfl, -⟩ := H.refuses hmalloc
      have hrun : (NullProgram.malloc H n >>= g).run h' =
          (((g none).run h').1, ⟨((g none).run h').2.heap, true⟩) := by
        rw [run, Program.exec_bind, exec_malloc]
        simp only [hmalloc]
        exact hnone h'
      have hstrict := hg none h'
      rw [StrictAt] at hstrict
      simp only [ChecksNull, Refused, hrun]
      generalize (g none).run h' = r at hstrict ⊢
      obtain ⟨e | a, s⟩ := r
      · simp [← hstrict]
      · simp [hstrict.1]

end NullProgram
