/-!
# Programs that can fault

`Program ε σ α` is a program over the states `σ` that returns an `α` or stops with a fault, and
leaves a state in both cases.

* `run_bind_ok`, `run_bind_error`: one step of a run.
* `Keeps.bind`: what every step does to the state, the whole program does.
* `Agree.bind`: two programs that agree step by step agree.
-/

universe u

/-- A program over the states `σ`, with faults `ε`. -/
abbrev Program (ε σ α : Type u) := ExceptT ε (StateM σ) α

namespace Program

variable {ε σ α β : Type u}

/-- The run from `s`: the result or the fault, and the state then. -/
def exec (m : Program ε σ α) (s : σ) : Except ε α × σ := m.run.run s

/-! ## Runs -/

@[simp] theorem exec_pure (a : α) (s : σ) : exec (pure a : Program ε σ α) s = (.ok a, s) := rfl

@[simp] theorem exec_throw (e : ε) (s : σ) :
    exec (throw e : Program ε σ α) s = (.error e, s) := rfl

@[simp] theorem exec_get (s : σ) : exec (get : Program ε σ σ) s = (.ok s, s) := rfl

@[simp] theorem exec_modify (f : σ → σ) (s : σ) :
    exec (modify f : Program ε σ PUnit) s = (.ok ⟨⟩, f s) := rfl

theorem exec_bind (m : Program ε σ α) (f : α → Program ε σ β) (s : σ) :
    exec (m >>= f) s =
      match exec m s with
      | (.ok a, s') => exec (f a) s'
      | (.error e, s') => (.error e, s') := by
  show (match exec m s with
    | (r, s') => exec (ExceptT.mk (ExceptT.bindCont f r)) s') = _
  obtain ⟨r, s'⟩ := exec m s
  cases r with
  | ok a => rfl
  | error e => rfl

/-- A step that returns. -/
theorem exec_bind_ok {m : Program ε σ α} {f : α → Program ε σ β} {s s' : σ} {a : α}
    (h : exec m s = (.ok a, s')) : exec (m >>= f) s = exec (f a) s' := by
  rw [exec_bind, h]

/-- A step that faults. -/
theorem exec_bind_error {m : Program ε σ α} {f : α → Program ε σ β} {s s' : σ} {e : ε}
    (h : exec m s = (.error e, s')) : exec (m >>= f) s = (.error e, s') := by
  rw [exec_bind, h]

/-- A result is a result of every step. -/
theorem exec_bind_eq_ok {m : Program ε σ α} {f : α → Program ε σ β} {s s'' : σ} {b : β} :
    exec (m >>= f) s = (.ok b, s'') ↔
      ∃ a s', exec m s = (.ok a, s') ∧ exec (f a) s' = (.ok b, s'') := by
  constructor
  · intro h
    cases hm : exec m s with
    | mk r s' =>
      cases r with
      | error e =>
        rw [exec_bind_error hm] at h
        cases h
      | ok a =>
        rw [exec_bind_ok hm] at h
        exact ⟨a, s', rfl, h⟩
  · rintro ⟨a, s', hm, hf⟩
    rw [exec_bind_ok hm, hf]

/-! ## What a program keeps -/

/-- The state before and the state after are in `R`, whether the program returns or faults. -/
def Keeps (R : σ → σ → Prop) (m : Program ε σ α) : Prop := ∀ s, R s (exec m s).2

namespace Keeps

variable {R : σ → σ → Prop} {m : Program ε σ α} {f : α → Program ε σ β}

theorem pure (hrefl : ∀ s, R s s) (a : α) : Keeps R (pure a : Program ε σ α) := fun s => hrefl s

theorem throw (hrefl : ∀ s, R s s) (e : ε) : Keeps R (throw e : Program ε σ α) := fun s => hrefl s

theorem modify {g : σ → σ} (h : ∀ s, R s (g s)) : Keeps R (modify g : Program ε σ PUnit) := h

theorem bind (htrans : ∀ {s s' s''}, R s s' → R s' s'' → R s s'') (hm : Keeps R m)
    (hf : ∀ a, Keeps R (f a)) : Keeps R (m >>= f) := by
  intro s
  have hstep := hm s
  rw [exec_bind]
  generalize exec m s = q at hstep ⊢
  obtain ⟨a | a, s'⟩ := q
  · exact hstep
  · exact htrans hstep (hf a s')

end Keeps

/-! ## Two programs -/

/-- From every state the two runs are the same, or both get into `P`, and no step leaves it. -/
structure Agree (P : σ → Prop) (m m' : Program ε σ α) : Prop where
  same : ∀ s, exec m s = exec m' s ∨ P (exec m s).2 ∧ P (exec m' s).2
  left : Keeps (fun s s' => P s → P s') m
  right : Keeps (fun s s' => P s → P s') m'

namespace Agree

variable {P : σ → Prop} {m m' : Program ε σ α} {f f' : α → Program ε σ β}

theorem pure (a : α) : Agree P (pure a : Program ε σ α) (pure a) :=
  ⟨fun _ => .inl rfl, fun _ => id, fun _ => id⟩

theorem throw (e : ε) : Agree P (throw e : Program ε σ α) (throw e) :=
  ⟨fun _ => .inl rfl, fun _ => id, fun _ => id⟩

theorem bind (hm : Agree P m m') (hf : ∀ a, Agree P (f a) (f' a)) :
    Agree P (m >>= f) (m' >>= f') := by
  have hend : ∀ {n : Program ε σ α} {g : α → Program ε σ β} {s : σ},
      (∀ a, Keeps (fun s s' => P s → P s') (g a)) → P (exec n s).2 → P (exec (n >>= g) s).2 := by
    intro n g s hg hn
    rw [exec_bind]
    generalize exec n s = r at hn
    obtain ⟨e | a, s'⟩ := r
    · exact hn
    · exact hg a s' hn
  refine ⟨fun s => ?_, fun s hs => ?_, fun s hs => ?_⟩
  · rcases hm.same s with hsame | ⟨h, h'⟩
    · rw [exec_bind, exec_bind, hsame]
      generalize exec m' s = r
      obtain ⟨e | a, s'⟩ := r
      · exact .inl rfl
      · exact (hf a).same s'
    · exact .inr ⟨hend (fun a => (hf a).left) h, hend (fun a => (hf a).right) h'⟩
  · exact hend (fun a => (hf a).left) (hm.left s hs)
  · exact hend (fun a => (hf a).right) (hm.right s hs)

end Agree

end Program
