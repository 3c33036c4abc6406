import Mathlib.Data.List.Induction

/-!
# Runs of a partial step function

`step s a` is the next state, or `none` if the step has none. `Runs.states` lists the states of a
run over some inputs up to the first step without a next state, and `Runs.calls` its steps: each
input that led on, with the state before it.

* `Runs.forall_states`: an invariant holds in every state if the steps that are taken keep it.
* `Runs.forall_states_iff`: a property holds in every state exactly if each step that is taken meets
  the condition under which it keeps the property.
* `Runs.forall_prefix_iff`: the same for a property of what was read so far.
-/

universe u v

namespace Runs

variable {σ : Type u} {α : Type v} (step : σ → α → Option σ)

/-- The states of the run, the first one included. -/
def states (s : σ) : List α → List σ
  | [] => [s]
  | a :: as => s :: ((step s a).map fun s' => states s' as).getD []

/-- The steps of the run: the state before and the input. -/
def calls (s : σ) : List α → List (σ × α)
  | [] => []
  | a :: as => ((step s a).map fun s' => (s, a) :: calls s' as).getD []

variable {step}

theorem states_cons {s s' : σ} {a : α} {as : List α} (h : step s a = some s') :
    states step s (a :: as) = s :: states step s' as := by
  simp [states, h]

theorem calls_cons {s s' : σ} {a : α} {as : List α} (h : step s a = some s') :
    calls step s (a :: as) = (s, a) :: calls step s' as := by
  simp [calls, h]

theorem states_stop {s : σ} {a : α} {as : List α} (h : step s a = none) :
    states step s (a :: as) = [s] := by
  simp [states, h]

theorem calls_stop {s : σ} {a : α} {as : List α} (h : step s a = none) :
    calls step s (a :: as) = [] := by
  simp [calls, h]

theorem mem_states (s : σ) (as : List α) : s ∈ states step s as := by
  cases as <;> simp [states]

/-- The inputs of the steps are inputs of the run. -/
theorem mem_of_mem_calls {s : σ} {as : List α} {c : σ × α} (hc : c ∈ calls step s as) :
    c.2 ∈ as := by
  induction as generalizing s with
  | nil => cases hc
  | cons a as ih =>
    cases h : step s a with
    | none => rw [calls_stop h] at hc; cases hc
    | some s' =>
      rw [calls_cons h] at hc
      cases hc with
      | head => exact List.mem_cons_self
      | tail _ hc => exact List.mem_cons_of_mem _ (ih hc)

/-- What every step that meets `C` keeps holds in every state of a run whose steps meet `C`. -/
theorem forall_states {I : σ → Prop} {C : σ → α → Prop} {s : σ} {as : List α}
    (hstep : ∀ s a s', I s → C s a → step s a = some s' → I s') (hs : I s)
    (hC : ∀ c ∈ calls step s as, C c.1 c.2) : ∀ q ∈ states step s as, I q := by
  induction as generalizing s with
  | nil => simpa [states] using hs
  | cons a as ih =>
    cases h : step s a with
    | none => rw [states_stop h]; simpa using hs
    | some s' =>
      rw [calls_cons h] at hC
      rw [states_cons h]
      obtain ⟨ha, has⟩ := List.forall_mem_cons.mp hC
      exact List.forall_mem_cons.mpr ⟨hs, ih (hstep s a s' hs ha h) has⟩

/-- If a step keeps `P` exactly when it meets `C`, then `P` holds in every state of a run exactly
when each step meets `C`. -/
theorem forall_states_iff {P : σ → Prop} {C : σ → α → Prop} {s : σ} {as : List α}
    (hstep : ∀ s, ∀ a ∈ as, ∀ s', P s → step s a = some s' → (P s' ↔ C s a)) (hs : P s) :
    (∀ q ∈ states step s as, P q) ↔ ∀ c ∈ calls step s as, C c.1 c.2 := by
  induction as generalizing s with
  | nil => simpa [states, calls] using hs
  | cons a as ih =>
    cases h : step s a with
    | none => rw [states_stop h, calls_stop h]; simpa using hs
    | some s' =>
      have hiff := hstep s a List.mem_cons_self s' hs h
      have hrest : ∀ s, ∀ b ∈ as, ∀ s', P s → step s b = some s' → (P s' ↔ C s b) :=
        fun s b hb => hstep s b (List.mem_cons_of_mem _ hb)
      rw [states_cons h, calls_cons h, List.forall_mem_cons, List.forall_mem_cons]
      constructor
      · rintro ⟨-, hP⟩
        have hs' := hP s' (mem_states s' as)
        exact ⟨hiff.mp hs', (ih hrest hs').mp hP⟩
      · rintro ⟨ha, has⟩
        exact ⟨hs, (ih hrest (hiff.mpr ha)).mpr has⟩

/-- If the steps that meet `C` keep an invariant with `P`, and only these lead to `P`, then `P` holds
in every state of a run exactly when each step meets `C`. -/
theorem forall_states_iff_of_inv {I P : σ → Prop} {C : σ → α → Prop} {s : σ} {as : List α}
    (hP : ∀ s, I s → P s) (hkeep : ∀ s a s', I s → C s a → step s a = some s' → I s')
    (honly : ∀ s a s', I s → step s a = some s' → P s' → C s a) (hs : I s) :
    (∀ q ∈ states step s as, P q) ↔ ∀ c ∈ calls step s as, C c.1 c.2 := by
  constructor
  · induction as generalizing s with
    | nil => exact fun _ _ hc => by cases hc
    | cons a as ih =>
      cases h : step s a with
      | none => rw [calls_stop h]; exact fun _ _ hc => by cases hc
      | some s' =>
        rw [states_cons h, calls_cons h, List.forall_mem_cons, List.forall_mem_cons]
        rintro ⟨-, hstates⟩
        have ha := honly s a s' hs h (hstates s' (mem_states s' as))
        exact ⟨ha, ih (hkeep s a s' hs ha h) hstates⟩
  · exact fun hC q hq => hP q (forall_states hkeep hs hC q hq)

/-- If an input keeps `P` exactly when it meets `C`, then `P` holds of every beginning of the inputs
exactly when each input meets `C`. -/
theorem forall_prefix_iff {P : List α → Prop} {C : List α → α → Prop} {as : List α} (hnil : P [])
    (hstep : ∀ pre a, P pre → (P (pre ++ [a]) ↔ C pre a)) :
    (∀ pre, pre <+: as → P pre) ↔ ∀ pre a, pre ++ [a] <+: as → C pre a := by
  constructor
  · intro h pre a hpre
    exact (hstep pre a (h pre (List.IsPrefix.trans ⟨[a], rfl⟩ hpre))).mp (h _ hpre)
  · intro h pre
    induction pre using List.reverseRecOn with
    | nil => exact fun _ => hnil
    | append_singleton pre a ih =>
      intro hpre
      exact (hstep pre a (ih (List.IsPrefix.trans ⟨[a], rfl⟩ hpre))).mpr (h pre a hpre)

/-- The inputs of the steps of a total step function. -/
theorem map_snd_calls {f : σ → α → σ} (s : σ) (as : List α) :
    (calls (fun s a => some (f s a)) s as).map Prod.snd = as := by
  induction as generalizing s with
  | nil => rfl
  | cons a as ih => exact congrArg (a :: ·) (ih (f s a))

/-- A run of a total step function reaches the state after all inputs. -/
theorem foldl_mem_states {f : σ → α → σ} (s : σ) (as : List α) :
    as.foldl f s ∈ states (fun s a => some (f s a)) s as := by
  induction as generalizing s with
  | nil => exact List.mem_singleton_self s
  | cons a as ih => exact List.mem_cons_of_mem _ (ih (f s a))

end Runs
