import Mathlib.Data.List.Nodup

/-!
# Lookup along a path

Directories list entries with keys, and some entries are directories again. A lookup goes down
through the directories that the first components name and then takes any entry with the last one.

* `resolve_concat`: if no two entries of a directory have one key, looking up one component more is
  to look up the path, which has to be a directory, and to look among its entries.
* `descend_eq_iff`: to go down is to follow the steps of a relation (`Leads`), one for each component.
-/

namespace PathLookup

universe u

variable {ε δ α κ : Type u} [DecidableEq κ]

section Definitions

variable (list : δ → Except ε (List α)) (key : α → κ) (isDir : α → Bool) (target : α → δ)

/-- The directory that the components lead to. -/
def descend : List κ → δ → Except ε (Option δ)
  | [], d => .ok (some d)
  | k :: ks, d =>
    (list d).bind fun entries =>
      match entries.find? fun a => isDir a && decide (key a = k) with
      | none => .ok none
      | some a => descend ks (target a)

/-- The first entry with the key `last` in the directory that `ks` leads to. -/
def resolve (ks : List κ) (last : κ) (d : δ) : Except ε (Option α) :=
  (descend list key isDir target ks d).bind fun
    | none => .ok none
    | some d => (list d).bind fun entries => .ok (entries.find? fun a => decide (key a = last))

/-- The directories of the tree below `root`. -/
inductive Below (root : δ) : δ → Prop
  | root : Below root root
  | child {d : δ} {entries : List α} {a : α} : Below root d → list d = .ok entries → a ∈ entries →
      isDir a = true → Below root (target a)

/-- No two entries of a directory have one key. -/
def UniqueKeys (root : δ) : Prop :=
  ∀ d entries, Below list isDir target root d → list d = .ok entries → (entries.map key).Nodup

end Definitions

/-! ## Looking for a key -/

omit [DecidableEq κ] in
theorem bind_eq_ok {β γ : Type u} {m : Except ε β} {f : β → Except ε γ} {c : γ} :
    m.bind f = .ok c ↔ ∃ b, m = .ok b ∧ f b = .ok c := by
  cases m with
  | error e => simp [Except.bind]
  | ok b => simp [Except.bind]

variable {key : α → κ}

/-- With unique keys, the first entry of a key that passes a test is the only one. -/
theorem find?_key {entries : List α} (h : (entries.map key).Nodup) (p : α → Bool) (k : κ) (a : α) :
    (entries.find? fun b => p b && decide (key b = k)) = some a ↔
      a ∈ entries ∧ p a = true ∧ key a = k := by
  constructor
  · intro hfind
    have hprop := List.find?_some hfind
    simp only [Bool.and_eq_true, decide_eq_true_eq] at hprop
    exact ⟨List.mem_of_find?_eq_some hfind, hprop⟩
  · rintro ⟨hmem, hp, hkey⟩
    cases hfind : entries.find? fun b => p b && decide (key b = k) with
    | none =>
      have := List.find?_eq_none.mp hfind a hmem
      simp [hp, hkey] at this
    | some b =>
      have hprop := List.find?_some hfind
      simp only [Bool.and_eq_true, decide_eq_true_eq] at hprop
      have heq := List.inj_on_of_nodup_map h (List.mem_of_find?_eq_some hfind) hmem
        (hprop.2.trans hkey.symm)
      rw [heq]

/-- The same without a test. -/
theorem find?_key_eq {entries : List α} (h : (entries.map key).Nodup) (k : κ) (a : α) :
    (entries.find? fun b => decide (key b = k)) = some a ↔ a ∈ entries ∧ key a = k := by
  have := find?_key h (fun _ => true) k a
  simpa using this

/-! ## Paths -/

variable {list : δ → Except ε (List α)} {isDir : α → Bool} {target : α → δ}

theorem descend_append (ks ks' : List κ) (d : δ) :
    descend list key isDir target (ks ++ ks') d =
      (descend list key isDir target ks d).bind fun
        | none => .ok none
        | some d => descend list key isDir target ks' d := by
  induction ks generalizing d with
  | nil => rfl
  | cons k ks ih =>
    rw [List.cons_append, descend, descend]
    cases list d with
    | error e => rfl
    | ok entries =>
      simp only [Except.bind]
      cases entries.find? fun a => isDir a && decide (key a = k) with
      | none => rfl
      | some a => exact ih (target a)

/-- What a lookup leads to is a directory of the tree. -/
theorem Below.descend {root d d' : δ} {ks : List κ} (h : Below list isDir target root d)
    (hd : PathLookup.descend list key isDir target ks d = .ok (some d')) :
    Below list isDir target root d' := by
  induction ks generalizing d with
  | nil =>
    cases hd
    exact h
  | cons k ks ih =>
    obtain ⟨entries, hlist, hd⟩ := bind_eq_ok.mp hd
    cases hfind : entries.find? fun a => isDir a && decide (key a = k) with
    | none =>
      rw [hfind] at hd
      cases hd
    | some a =>
      rw [hfind] at hd
      have hprop := List.find?_some hfind
      simp only [Bool.and_eq_true] at hprop
      exact ih (h.child hlist (List.mem_of_find?_eq_some hfind) hprop.1) hd

theorem resolve_eq_some {ks : List κ} {last : κ} {root : δ} {a : α}
    (h : UniqueKeys list key isDir target root) :
    resolve list key isDir target ks last root = .ok (some a) ↔
      ∃ d, descend list key isDir target ks root = .ok (some d) ∧
        ∃ entries, list d = .ok entries ∧ a ∈ entries ∧ key a = last := by
  rw [resolve, bind_eq_ok]
  constructor
  · rintro ⟨d, hd, hlist⟩
    cases d with
    | none => cases hlist
    | some d =>
      obtain ⟨entries, hlist, hfind⟩ := bind_eq_ok.mp hlist
      exact ⟨d, hd, entries, hlist,
        (find?_key_eq (h d entries (Below.root.descend hd) hlist) last a).mp (Except.ok.inj hfind)⟩
  · rintro ⟨d, hd, entries, hlist, ha⟩
    refine ⟨some d, hd, bind_eq_ok.mpr ⟨entries, hlist, congrArg Except.ok ?_⟩⟩
    exact (find?_key_eq (h d entries (Below.root.descend hd) hlist) last a).mpr ha

/-- One component more leads from a directory to one of its entries. -/
theorem descend_concat {ks : List κ} {k : κ} {root d' : δ}
    (h : UniqueKeys list key isDir target root) :
    descend list key isDir target (ks ++ [k]) root = .ok (some d') ↔
      ∃ a, resolve list key isDir target ks k root = .ok (some a) ∧ isDir a = true ∧
        target a = d' := by
  rw [descend_append, bind_eq_ok]
  constructor
  · rintro ⟨d, hd, hstep⟩
    cases d with
    | none => cases hstep
    | some d =>
      obtain ⟨entries, hlist, hfind⟩ := bind_eq_ok.mp hstep
      have hunique := h d entries (Below.root.descend hd) hlist
      cases ha : entries.find? fun a => isDir a && decide (key a = k) with
      | none =>
        rw [ha] at hfind
        cases hfind
      | some a =>
        rw [ha] at hfind
        cases hfind
        obtain ⟨hmem, hdir, hkey⟩ := (find?_key hunique isDir k a).mp ha
        exact ⟨a, (resolve_eq_some h).mpr ⟨d, hd, entries, hlist, hmem, hkey⟩, hdir, rfl⟩
  · rintro ⟨a, ha, hdir, rfl⟩
    obtain ⟨d, hd, entries, hlist, hmem, hkey⟩ := (resolve_eq_some h).mp ha
    have hunique := h d entries (Below.root.descend hd) hlist
    refine ⟨some d, hd, bind_eq_ok.mpr ⟨entries, hlist, ?_⟩⟩
    rw [(find?_key hunique isDir k a).mpr ⟨hmem, hdir, hkey⟩]
    rfl

/-- Looking up one component more. -/
theorem resolve_concat {ks : List κ} {k last : κ} {root : δ} {a : α}
    (h : UniqueKeys list key isDir target root) :
    resolve list key isDir target (ks ++ [k]) last root = .ok (some a) ↔
      ∃ b, resolve list key isDir target ks k root = .ok (some b) ∧ isDir b = true ∧
        ∃ entries, list (target b) = .ok entries ∧ a ∈ entries ∧ key a = last := by
  rw [resolve_eq_some h]
  constructor
  · rintro ⟨d, hd, hlist⟩
    obtain ⟨b, hb, hdir, rfl⟩ := (descend_concat h).mp hd
    exact ⟨b, hb, hdir, hlist⟩
  · rintro ⟨b, hb, hdir, hlist⟩
    exact ⟨target b, (descend_concat h).mpr ⟨b, hb, hdir, rfl⟩, hlist⟩

/-- A single component is looked up in the root. -/
theorem resolve_nil {last : κ} {root : δ} {a : α} (h : UniqueKeys list key isDir target root) :
    resolve list key isDir target [] last root = .ok (some a) ↔
      ∃ entries, list root = .ok entries ∧ a ∈ entries ∧ key a = last := by
  rw [resolve_eq_some h]
  constructor
  · rintro ⟨d, hd, hlist⟩
    cases hd
    exact hlist
  · intro hlist
    exact ⟨root, rfl, hlist⟩

/-! ## Without unique keys -/

/-- The first entry of a key is the first one that passes a test, if it passes the test. -/
theorem find?_and {entries : List α} {p q : α → Bool} {a : α} (h : entries.find? q = some a)
    (hp : p a = true) : (entries.find? fun b => p b && q b) = some a := by
  induction entries with
  | nil => cases h
  | cons b entries ih =>
    cases hq : q b with
    | true =>
      rw [List.find?_cons_of_pos hq] at h
      cases h
      exact List.find?_cons_of_pos (by simp [hp, hq])
    | false =>
      rw [List.find?_cons_of_neg (by simp [hq])] at h
      rw [List.find?_cons_of_neg (by simp [hq])]
      exact ih h

/-- In a directory that was looked up, the next component is looked up. -/
theorem resolve_of_isDir {ks : List κ} {k last : κ} {root : δ} {b : α}
    (hb : resolve list key isDir target ks k root = .ok (some b)) (hdir : isDir b = true) :
    resolve list key isDir target (ks ++ [k]) last root =
      (list (target b)).bind fun entries =>
        .ok (entries.find? fun a => decide (key a = last)) := by
  obtain ⟨d, hd, hlist⟩ := bind_eq_ok.mp hb
  cases d with
  | none => cases hlist
  | some d =>
    obtain ⟨entries, hlist, hfind⟩ := bind_eq_ok.mp hlist
    have hstep : descend list key isDir target (ks ++ [k]) root = .ok (some (target b)) := by
      rw [descend_append, bind_eq_ok]
      refine ⟨some d, hd, bind_eq_ok.mpr ⟨entries, hlist, ?_⟩⟩
      rw [find?_and (Except.ok.inj hfind) hdir]
      rfl
    rw [resolve, hstep]
    rfl

/-! ## Steps -/

/-- The components lead from `d` to `d'`, one step for each. -/
def Leads (step : δ → κ → δ → Prop) : List κ → δ → δ → Prop
  | [], d, d' => d = d'
  | k :: ks, d, d' => ∃ d₁, step d k d₁ ∧ Leads step ks d₁ d'

section Leads

variable {step step' : δ → κ → δ → Prop} {ks ks' : List κ} {k : κ} {d d' d'' : δ}

omit [DecidableEq κ] in
theorem leads_concat : Leads step (ks ++ [k]) d d' ↔ ∃ d₁, Leads step ks d d₁ ∧ step d₁ k d' := by
  induction ks generalizing d with
  | nil => simp [Leads]
  | cons k' ks ih =>
    rw [List.cons_append, Leads]
    constructor
    · rintro ⟨d₁, hstep, h⟩
      obtain ⟨d₂, hd₂, hlast⟩ := ih.mp h
      exact ⟨d₂, ⟨d₁, hstep, hd₂⟩, hlast⟩
    · rintro ⟨d₂, ⟨d₁, hstep, hd₂⟩, hlast⟩
      exact ⟨d₁, hstep, ih.mpr ⟨d₂, hd₂, hlast⟩⟩

omit [DecidableEq κ] in
/-- Two kinds of steps lead to the same, if they agree wherever the first ones lead. -/
theorem Leads.eq (h : Leads step ks d d') (h' : Leads step' ks d d'')
    (hagree : ∀ ks d₁ k d₂ d₃, Leads step ks d d₁ → step d₁ k d₂ → step' d₁ k d₃ → d₃ = d₂) :
    d'' = d' := by
  induction ks generalizing d with
  | nil => exact h'.symm.trans h
  | cons k ks ih =>
    obtain ⟨d₁, hstep, hrest⟩ := h
    obtain ⟨d₂, hstep', hrest'⟩ := h'
    obtain rfl := hagree [] d k d₁ d₂ rfl hstep hstep'
    exact ih hrest hrest' fun ks d₃ k d₄ d₅ hks => hagree (_ :: ks) d₃ k d₄ d₅ ⟨_, hstep, hks⟩

/-- The step to the first directory with a key. -/
def FirstDir (list : δ → Except ε (List α)) (key : α → κ) (isDir : α → Bool) (target : α → δ) (d : δ)
    (k : κ) (d' : δ) : Prop :=
  ∃ entries a, list d = .ok entries ∧
    (entries.find? fun b => isDir b && decide (key b = k)) = some a ∧ target a = d'

theorem descend_eq_iff : descend list key isDir target ks d = .ok (some d') ↔
    Leads (FirstDir list key isDir target) ks d d' := by
  induction ks generalizing d with
  | nil => simp [descend, Leads]
  | cons k ks ih =>
    rw [descend, Leads, bind_eq_ok]
    constructor
    · rintro ⟨entries, hlist, hfind⟩
      cases ha : entries.find? fun b => isDir b && decide (key b = k) with
      | none =>
        rw [ha] at hfind
        cases hfind
      | some a =>
        rw [ha] at hfind
        exact ⟨target a, ⟨entries, a, hlist, ha, rfl⟩, ih.mp hfind⟩
    · rintro ⟨_, ⟨entries, a, hlist, ha, rfl⟩, hrest⟩
      refine ⟨entries, hlist, ?_⟩
      rw [ha]
      exact ih.mpr hrest

/-- The first entry with a key is a directory: it is the first directory with the key, and no other
entry with the key is in front of it. -/
theorem find?_isDir {entries : List α} {a : α} :
    (entries.find? fun b => decide (key b = k)) = some a ∧ isDir a = true ↔
      (entries.find? fun b => isDir b && decide (key b = k)) = some a ∧
        ∀ b, (entries.find? fun b => decide (key b = k)) = some b → isDir b = true := by
  induction entries with
  | nil => simp
  | cons b entries ih =>
    by_cases hkey : key b = k
    · cases hdir : isDir b with
      | true =>
        simp only [List.find?_cons, hkey, hdir, decide_true, Bool.and_self, Option.some.injEq]
        exact ⟨fun h => ⟨h.1, fun x hx => hx ▸ hdir⟩, fun h => ⟨h.1, h.1 ▸ hdir⟩⟩
      | false =>
        simp only [List.find?_cons, hkey, hdir, decide_true, Option.some.injEq]
        refine iff_of_false (fun h => ?_) fun h => ?_
        · rw [← h.1, hdir] at h
          exact Bool.false_ne_true h.2
        · exact Bool.false_ne_true (hdir.symm.trans (h.2 b rfl))
    · simpa [List.find?_cons, hkey] using ih

end Leads

end PathLookup
