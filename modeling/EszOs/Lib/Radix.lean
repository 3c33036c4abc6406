import Mathlib.Data.Set.Basic
import Mathlib.Data.List.Induction

/-!
# Radix trees in memory

A node is a table of cells, and a path of indices leads from the root through the cells. What a
cell means depends on its depth, and nothing prevents two cells from naming the same node: a tree
is only a graph until `Owned` says otherwise.

* `nodeAt`, `walk`: the node a path leads to, and the translation it ends at.
* `Owned V`: a node on a path of `V` is on no other path of `V`, and no shorter path leads to it.
* `Install`: an empty cell receives a fresh, empty node. All paths of `V` keep their translation
  (`Install.walk_eq`), and `V` keeps owning its nodes (`Install.owned`).
* `SetLeaf`: a cell of the last depth is written. Only its own path is affected
  (`SetLeaf.walk_eq`).
-/

namespace Radix

/-- What a cell holds: nothing, a translation, or the next node. -/
inductive Slot (ν ρ : Type*)
  | empty
  | leaf (r : ρ)
  | node (t : ν)

/-- The root, and what the cells of the nodes hold at each depth. -/
structure Tree (ν ι ρ : Type*) where
  root : ν
  slot : ℕ → ν → ι → Slot ν ρ

variable {ν ι ρ : Type*}

namespace Tree

variable (T : Tree ν ι ρ)

/-- The node that a path leads to from node `t` at depth `d`. -/
def descend : ℕ → ν → List ι → Option ν
  | _, t, [] => some t
  | d, t, i :: path =>
    match T.slot d t i with
    | .node t' => descend (d + 1) t' path
    | _ => none

/-- The node that a path leads to from the root. -/
def nodeAt (path : List ι) : Option ν := T.descend 0 T.root path

/-- The translation at the end of a path, with the indices it leaves unused. -/
def walkFrom : ℕ → ν → List ι → Option (ρ × List ι)
  | _, _, [] => none
  | d, t, i :: path =>
    match T.slot d t i with
    | .empty => none
    | .leaf r => some (r, path)
    | .node t' => walkFrom (d + 1) t' path

def walk (path : List ι) : Option (ρ × List ι) := T.walkFrom 0 T.root path

variable {T}

/-! ## Paths in parts -/

theorem descend_append {d : ℕ} {t : ν} {π path : List ι} :
    T.descend d t (π ++ path) = (T.descend d t π).bind fun t' => T.descend (d + π.length) t' path := by
  induction π generalizing d t with
  | nil => rfl
  | cons i π ih =>
    cases hs : T.slot d t i with
    | empty => simp [descend, hs]
    | leaf r => simp [descend, hs]
    | node t' =>
      have hdepth : d + 1 + π.length = d + (i :: π).length := by
        rw [List.length_cons]
        omega
      simp only [List.cons_append, descend, hs, ih, hdepth]

@[simp] theorem nodeAt_nil : T.nodeAt [] = some T.root := rfl

/-- One more index. -/
theorem nodeAt_concat {π : List ι} {i : ι} {t : ν} :
    T.nodeAt (π ++ [i]) = some t ↔
      ∃ t', T.nodeAt π = some t' ∧ T.slot π.length t' i = .node t := by
  rw [nodeAt, descend_append, Option.bind_eq_some_iff]
  refine exists_congr fun t' => and_congr Iff.rfl ?_
  rw [Nat.zero_add, descend]
  cases T.slot π.length t' i <;> simp [descend]

theorem walkFrom_append {d : ℕ} {t t' : ν} {π path : List ι} (h : T.descend d t π = some t') :
    T.walkFrom d t (π ++ path) = T.walkFrom (d + π.length) t' path := by
  induction π generalizing d t with
  | nil => cases h; rfl
  | cons i π ih =>
    simp only [descend] at h
    cases hs : T.slot d t i with
    | empty => simp [hs] at h
    | leaf r => simp [hs] at h
    | node t₁ =>
      simp only [hs] at h
      simp only [List.cons_append, walkFrom, hs, ih h, List.length_cons]
      congr 1
      omega

theorem walk_append {t : ν} {π path : List ι} (h : T.nodeAt π = some t) :
    T.walk (π ++ path) = T.walkFrom π.length t path := by
  rw [walk, walkFrom_append h, Nat.zero_add]

/-- A walk uses an index at least. -/
theorem walkFrom_length_lt {d : ℕ} {t : ν} {path rest : List ι} {r : ρ}
    (h : T.walkFrom d t path = some (r, rest)) : rest.length < path.length := by
  induction path generalizing d t with
  | nil => cases h
  | cons i path ih =>
    simp only [walkFrom] at h
    cases hs : T.slot d t i with
    | empty => simp [hs] at h
    | leaf r' =>
      simp only [hs, Option.some.injEq, Prod.mk.injEq] at h
      rw [← h.2]
      exact Nat.lt_succ_self _
    | node t' =>
      simp only [hs] at h
      exact (ih h).trans (Nat.lt_succ_self _)

/-- A walk reads the cells of the nodes on its path only. -/
theorem walkFrom_congr {T' : Tree ν ι ρ} {d : ℕ} {t : ν} {path : List ι}
    (h : ∀ π i rest, path = π ++ i :: rest → ∀ t', T.descend d t π = some t' →
      T'.slot (d + π.length) t' i = T.slot (d + π.length) t' i) :
    T'.walkFrom d t path = T.walkFrom d t path := by
  induction path generalizing d t with
  | nil => rfl
  | cons i path ih =>
    have hi : T'.slot d t i = T.slot d t i := h [] i path rfl t rfl
    simp only [walkFrom, hi]
    cases hs : T.slot d t i with
    | empty => rfl
    | leaf r => rfl
    | node t₁ =>
      refine ih fun π j rest hp t' ht' => ?_
      have := h (i :: π) j rest (by rw [hp]; rfl) t' (by simpa only [descend, hs] using ht')
      rwa [List.length_cons, show d + (π.length + 1) = d + 1 + π.length by omega] at this

theorem walk_congr {T' : Tree ν ι ρ} {path : List ι} (hr : T'.root = T.root)
    (h : ∀ π i rest, path = π ++ i :: rest → ∀ t, T.nodeAt π = some t →
      T'.slot π.length t i = T.slot π.length t i) :
    T'.walk path = T.walk path := by
  rw [walk, walk, hr]
  refine walkFrom_congr fun π i rest hp t ht => ?_
  rw [Nat.zero_add]
  exact h π i rest hp t ht

end Tree

open Radix.Tree

/-! ## Ownership -/

/-- `π` is part of a path of `V`. -/
def Part (V : Set (List ι)) (π : List ι) : Prop := ∃ path ∈ V, π <+: path

theorem Part.of_concat {V : Set (List ι)} {π : List ι} {i : ι} (h : Part V (π ++ [i])) :
    Part V π := by
  obtain ⟨path, hv, hp⟩ := h
  exact ⟨path, hv, (List.prefix_append π [i]).trans hp⟩

/-- A node on a path of `V` is on no other path of `V`, and no shorter path leads to it. -/
structure Owned (V : Set (List ι)) (T : Tree ν ι ρ) : Prop where
  unique {π π' : List ι} {t : ν} (hπ : Part V π) (hπ' : Part V π') (h : T.nodeAt π = some t)
    (h' : T.nodeAt π' = some t) : π' = π
  depth {π π' : List ι} {t : ν} (hπ : Part V π) (h : T.nodeAt π = some t)
    (h' : T.nodeAt π' = some t) : π.length ≤ π'.length

/-! ## Installing a node -/

/-- The empty cell `i` of node `t`, which `π` leads to, receives the fresh node `f`. -/
structure Install (T T' : Tree ν ι ρ) (π : List ι) (t : ν) (i : ι) (f : ν) : Prop where
  root : T'.root = T.root
  parent : T.nodeAt π = some t
  empty (d : ℕ) : T.slot d t i = .empty
  new : T'.slot π.length t i = .node f
  only (d : ℕ) {t' : ν} (h : T'.slot d t i = .node t') : t' = f
  fresh (π' : List ι) : T.nodeAt π' ≠ some f
  clear (d : ℕ) (j : ι) : T'.slot d f j = .empty
  rest (d : ℕ) {t' : ν} {j : ι} (hf : t' ≠ f) (hc : ¬ (t' = t ∧ j = i)) :
    T'.slot d t' j = T.slot d t' j

namespace Install

variable {T T' : Tree ν ι ρ} {π : List ι} {t f : ν} {i : ι} {V : Set (List ι)}

/-- The old nodes stay where they are. -/
theorem nodeAt_of_old (hI : Install T T' π t i f) {π' : List ι} {x : ν}
    (h : T.nodeAt π' = some x) : T'.nodeAt π' = some x := by
  induction π' using List.reverseRecOn generalizing x with
  | nil => rw [nodeAt_nil, hI.root]; exact h
  | append_singleton π' j ih =>
    obtain ⟨y, hy, hs⟩ := nodeAt_concat.mp h
    refine nodeAt_concat.mpr ⟨y, ih hy, ?_⟩
    rw [hI.rest _ (fun he => hI.fresh π' (he ▸ hy)) ?_]
    · exact hs
    · rintro ⟨rfl, rfl⟩
      rw [hI.empty] at hs
      cases hs

theorem nodeAt_new (hI : Install T T' π t i f) : T'.nodeAt (π ++ [i]) = some f :=
  nodeAt_concat.mpr ⟨t, hI.nodeAt_of_old hI.parent, hI.new⟩

/-- A node is an old one, or the new one behind its cell. -/
theorem nodeAt_cases (hI : Install T T' π t i f) {π' : List ι} {x : ν}
    (h : T'.nodeAt π' = some x) :
    T.nodeAt π' = some x ∨ (x = f ∧ ∃ π₁, π' = π₁ ++ [i] ∧ T.nodeAt π₁ = some t) := by
  induction π' using List.reverseRecOn generalizing x with
  | nil => rw [nodeAt_nil, hI.root] at h; exact .inl h
  | append_singleton π' j ih =>
    obtain ⟨y, hy, hs⟩ := nodeAt_concat.mp h
    rcases ih hy with hold | ⟨rfl, -⟩
    · by_cases hc : y = t ∧ j = i
      · obtain ⟨rfl, rfl⟩ := hc
        exact .inr ⟨hI.only _ hs, π', rfl, hold⟩
      · rw [hI.rest _ (fun he => hI.fresh π' (he ▸ hold)) hc] at hs
        exact .inl (nodeAt_concat.mpr ⟨y, hold, hs⟩)
    · rw [hI.clear] at hs
      cases hs

/-- No path of `V` changes its translation. -/
theorem walk_eq (hI : Install T T' π t i f) (hO : Owned V T) (hπ : Part V π) {path : List ι}
    (hp : path ∈ V) : T'.walk path = T.walk path := by
  by_cases hc : π ++ [i] <+: path
  · -- The path runs through the cell: it ended there, now it ends in the empty node.
    obtain ⟨rest, rfl⟩ := hc
    rw [List.append_assoc, List.singleton_append, walk_append hI.parent,
      walk_append (hI.nodeAt_of_old hI.parent)]
    simp only [walkFrom, hI.empty, hI.new]
    cases rest with
    | nil => rfl
    | cons j rest => simp only [walkFrom, hI.clear]
  · refine walk_congr hI.root fun π' j rest he t' ht' => ?_
    refine hI.rest _ (fun hf => hI.fresh π' (hf ▸ ht')) ?_
    rintro ⟨rfl, rfl⟩
    have hπ' : Part V π' := ⟨path, hp, by rw [he]; exact List.prefix_append _ _⟩
    obtain rfl := hO.unique hπ hπ' hI.parent ht'
    exact hc ⟨rest, by rw [he]; simp⟩

/-- `V` owns its nodes, the new one included. -/
theorem owned (hI : Install T T' π t i f) (hO : Owned V T) : Owned V T' where
  unique {π₁ π₂ x} h₁ h₂ hx₁ hx₂ := by
    rcases hI.nodeAt_cases hx₁ with ho₁ | ⟨rfl, π₁, rfl, ht₁⟩ <;>
      rcases hI.nodeAt_cases hx₂ with ho₂ | ⟨he, π₂, rfl, ht₂⟩
    · exact hO.unique h₁ h₂ ho₁ ho₂
    · exact absurd (he ▸ ho₁) (hI.fresh _)
    · exact absurd ho₂ (hI.fresh _)
    · rw [hO.unique h₁.of_concat h₂.of_concat ht₁ ht₂]
  depth {π₁ π₂ x} h₁ hx₁ hx₂ := by
    rcases hI.nodeAt_cases hx₁ with ho₁ | ⟨rfl, π₁, rfl, ht₁⟩ <;>
      rcases hI.nodeAt_cases hx₂ with ho₂ | ⟨he, π₂, rfl, ht₂⟩
    · exact hO.depth h₁ ho₁ ho₂
    · exact absurd (he ▸ ho₁) (hI.fresh _)
    · exact absurd ho₂ (hI.fresh _)
    · have := hO.depth h₁.of_concat ht₁ ht₂
      simpa using this

end Install

/-! ## Writing a leaf -/

/-- The cell `i` of node `t`, which `π` leads to, is written; it names no node. -/
structure SetLeaf (T T' : Tree ν ι ρ) (π : List ι) (t : ν) (i : ι) : Prop where
  root : T'.root = T.root
  parent : T.nodeAt π = some t
  old (d : ℕ) (hd : π.length ≤ d) (t' : ν) : T.slot d t i ≠ .node t'
  new (d : ℕ) (hd : π.length ≤ d) (t' : ν) : T'.slot d t i ≠ .node t'
  rest (d : ℕ) {t' : ν} {j : ι} (hc : ¬ (t' = t ∧ j = i)) : T'.slot d t' j = T.slot d t' j

namespace SetLeaf

variable {T T' : Tree ν ι ρ} {π : List ι} {t : ν} {i : ι} {V : Set (List ι)}

/-- The nodes stay where they are, and there are no new ones. -/
theorem nodeAt_eq (hL : SetLeaf T T' π t i) (hO : Owned V T) (hπ : Part V π) (π' : List ι) :
    T'.nodeAt π' = T.nodeAt π' := by
  induction π' using List.reverseRecOn with
  | nil => rw [nodeAt_nil, nodeAt_nil, hL.root]
  | append_singleton π' j ih =>
    ext x
    simp only [nodeAt_concat, ih]
    refine exists_congr fun y => and_congr_right fun hy => ?_
    by_cases hc : y = t ∧ j = i
    · obtain ⟨rfl, rfl⟩ := hc
      have hd := hO.depth hπ hL.parent hy
      exact iff_of_false (hL.new _ hd _) (hL.old _ hd _)
    · rw [hL.rest _ hc]

theorem owned (hL : SetLeaf T T' π t i) (hO : Owned V T) (hπ : Part V π) : Owned V T' where
  unique h₁ h₂ hx₁ hx₂ := by
    rw [hL.nodeAt_eq hO hπ] at hx₁ hx₂
    exact hO.unique h₁ h₂ hx₁ hx₂
  depth h₁ hx₁ hx₂ := by
    rw [hL.nodeAt_eq hO hπ] at hx₁ hx₂
    exact hO.depth h₁ hx₁ hx₂

/-- Only the paths through the cell change their translation. -/
theorem walk_eq (hL : SetLeaf T T' π t i) (hO : Owned V T) (hπ : Part V π) {path : List ι}
    (hp : path ∈ V) (hc : ¬ π ++ [i] <+: path) : T'.walk path = T.walk path := by
  refine walk_congr hL.root fun π' j rest he t' ht' => hL.rest _ ?_
  rintro ⟨rfl, rfl⟩
  have hπ' : Part V π' := ⟨path, hp, by rw [he]; exact List.prefix_append _ _⟩
  obtain rfl := hO.unique hπ hπ' hL.parent ht'
  exact hc ⟨rest, by rw [he]; simp⟩

theorem walk_self (hL : SetLeaf T T' π t i) (hO : Owned V T) (hπ : Part V π) (rest : List ι) :
    T'.walk (π ++ i :: rest) = T'.walkFrom π.length t (i :: rest) :=
  walk_append (by rw [hL.nodeAt_eq hO hπ]; exact hL.parent)

end SetLeaf

end Radix
