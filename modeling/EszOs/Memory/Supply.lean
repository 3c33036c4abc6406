import EszOs.Memory.Mapping

/-!
# The pages a page walk takes

A walk takes one free page for each table that is missing on the path, and nothing else
(`pageWalk_supplies`). It succeeds if the PMM has that many, unless a table on the path is page 0
(`pageWalk_isSome`): the address of page 0 is what `page_walk` takes for a failure.
-/

namespace EszOs

open Bytes Radix

/-- The paths that lead along `is` from `π` on, `π` excluded. -/
def pathsAlong (π : List Index) : List Index → Finset (List Index)
  | [] => ∅
  | i :: is => {π ++ [i]} ∪ pathsAlong (π ++ [i]) is

/-- The paths of the three tables below the root on the path of an address. -/
def tablePaths (v : Nat) : Finset (List Index) := pathsAlong [] (lastTable v)

theorem card_pathsAlong_le (π is : List Index) : (pathsAlong π is).card ≤ is.length := by
  induction is generalizing π with
  | nil => rfl
  | cons i is ih =>
    have h1 := Finset.card_union_le {π ++ [i]} (pathsAlong (π ++ [i]) is)
    have h2 := ih (π ++ [i])
    rw [Finset.card_singleton] at h1
    rw [pathsAlong, List.length_cons]
    omega

theorem card_tablePaths_le (v : Nat) : (tablePaths v).card ≤ 3 :=
  card_pathsAlong_le [] (lastTable v)

theorem mem_pathsAlong {π π' is : List Index} :
    π' ∈ pathsAlong π is ↔ ∃ is', is' ≠ [] ∧ is' <+: is ∧ π' = π ++ is' := by
  induction is generalizing π with
  | nil => simp [pathsAlong]
  | cons i is ih =>
    simp only [pathsAlong, Finset.mem_union, Finset.mem_singleton, ih]
    constructor
    · rintro (rfl | ⟨is', hne, hp, rfl⟩)
      · exact ⟨[i], by simp, ⟨is, rfl⟩, rfl⟩
      · exact ⟨i :: is', by simp, List.cons_prefix_cons.mpr ⟨rfl, hp⟩, by simp⟩
    · rintro ⟨is', hne, hp, rfl⟩
      cases is' with
      | nil => exact absurd rfl hne
      | cons j is' =>
        obtain ⟨rfl, hp'⟩ := List.cons_prefix_cons.mp hp
        by_cases he : is' = []
        · exact .inl (by rw [he])
        · exact .inr ⟨is', he, hp', by simp⟩

theorem part_of_mem_pathsAlong {V : Set (List Index)} {v : Nat} {π is : List Index}
    (hv : path v ∈ V) (hp : π ++ is <+: lastTable v) : ∀ π' ∈ pathsAlong π is, Part V π' := by
  intro π' h
  obtain ⟨is', -, his, rfl⟩ := mem_pathsAlong.mp h
  have h1 : π ++ is' <+: π ++ is := (List.prefix_append_right_inj _).mpr his
  exact ⟨_, hv, (h1.trans hp).trans ⟨[getPTIndex v], rfl⟩⟩

/-- The number of tables in `K` that are not there. -/
def missing (s : MemState) (K : Finset (List Index)) : Nat :=
  {π ∈ K | s.tableAt π = none}.card

/-- From `s` to `s'` the missing tables of `K` were added, and `d` more pages taken. -/
structure Supplies (V : Set (List Index)) (s s' : MemState) (K : Finset (List Index)) (d : Nat) :
    Prop where
  cost : s'.pmm.freePages.card + missing s K + d = s.pmm.freePages.card
  tables {π : List Index} (hπ : Part V π) : s'.tableAt π = none ↔ s.tableAt π = none ∧ π ∉ K

namespace Supplies

variable {V : Set (List Index)} {s s₁ s₂ : MemState} {K K₁ K₂ : Finset (List Index)} {d d₁ d₂ : Nat}

theorem refl (V : Set (List Index)) (s : MemState) : Supplies V s s ∅ 0 :=
  ⟨by simp [missing], by simp⟩

/-- The tables still missing after `K₁` was added. -/
theorem missing_union (h : Supplies V s s₁ K₁ d) (hK : ∀ π ∈ K₂, Part V π) :
    missing s (K₁ ∪ K₂) = missing s K₁ + missing s₁ K₂ := by
  have hdisj : Disjoint {π ∈ K₁ | s.tableAt π = none} {π ∈ K₂ | s₁.tableAt π = none} := by
    rw [Finset.disjoint_left]
    intro π h₁ h₂
    rw [Finset.mem_filter] at h₁ h₂
    exact ((h.tables (hK π h₂.1)).mp h₂.2).2 h₁.1
  rw [missing, missing, missing, ← Finset.card_union_of_disjoint hdisj]
  congr 1
  ext π
  simp only [Finset.mem_filter, Finset.mem_union]
  constructor
  · rintro ⟨hm | hm, hn⟩
    · exact .inl ⟨hm, hn⟩
    · by_cases hm₁ : π ∈ K₁
      · exact .inl ⟨hm₁, hn⟩
      · exact .inr ⟨hm, (h.tables (hK π hm)).mpr ⟨hn, hm₁⟩⟩
  · rintro (⟨hm, hn⟩ | ⟨hm, hn⟩)
    · exact ⟨.inl hm, hn⟩
    · exact ⟨.inr hm, ((h.tables (hK π hm)).mp hn).1⟩

theorem trans (h₁ : Supplies V s s₁ K₁ d₁) (h₂ : Supplies V s₁ s₂ K₂ d₂)
    (hK : ∀ π ∈ K₂, Part V π) : Supplies V s s₂ (K₁ ∪ K₂) (d₁ + d₂) where
  cost := by
    have := h₁.cost
    have := h₂.cost
    rw [h₁.missing_union hK]
    omega
  tables hπ := by
    rw [h₂.tables hπ, h₁.tables hπ, Finset.mem_union]
    tauto

end Supplies

section Walk

variable {V : Set (List Index)} {s : MemState} {π : List Index} {t : Nat} {i : Index}

/-- Adding one table costs one page and adds one path. -/
theorem Supplies.of_install {s' : MemState} {p : Nat} {bits : Mem} (hS : Sound V s)
    (hπ : Part V π) (hnone : s.tableAt (π ++ [i]) = none)
    (hm : pmmMallocPage s.pmm = some (p * pageSize, bits)) (hpmm : s'.pmm = (s.setPmm bits).pmm)
    (hI : Install s.tree s'.tree π t i p) : Supplies V s s' {π ++ [i]} 0 where
  cost := by
    have hcard := freePages_mallocPage hm
    rw [hpmm]
    simp only [missing, Finset.filter_singleton, hnone, ↓reduceIte, Finset.card_singleton]
    exact hcard
  tables {π'} hπ' := by
    rw [Finset.mem_singleton]
    constructor
    · intro h
      constructor
      · rw [Option.eq_none_iff_forall_ne_some]
        intro x hx
        rw [MemState.tableAt, hI.nodeAt_of_old hx] at h
        cases h
      · rintro rfl
        rw [MemState.tableAt, hI.nodeAt_new] at h
        cases h
    · rintro ⟨h, hne⟩
      rw [Option.eq_none_iff_forall_ne_some]
      intro x hx
      rcases hI.nodeAt_cases hx with hx | ⟨-, π₁, rfl, ht₁⟩
      · rw [MemState.tableAt, hx] at h
        cases h
      · rw [hS.owned.unique hπ hπ'.of_concat hI.parent ht₁] at hne
        exact hne rfl

/-- A table that is there costs nothing. -/
theorem Supplies.of_present {t' : Nat} (ht' : s.tableAt (π ++ [i]) = some t') :
    Supplies V s s {π ++ [i]} 0 where
  cost := by simp [missing, ht']
  tables {π'} _ := by
    rw [Finset.mem_singleton]
    refine ⟨fun h => ⟨h, fun he => ?_⟩, fun h => h.1⟩
    rw [he, ht'] at h
    cases h

/-- A walk that ends costs the missing tables. -/
theorem nextTables_supplies {v a : Nat} {is : List Index} (hS : Sound V s) (hv : path v ∈ V)
    (hc : NoLargePage s v) (ht : s.tableAt π = some t) (hp : π ++ is <+: lastTable v)
    (hr : (nextTables s (t * pageSize) is).1 = some a) :
    Supplies V s (nextTables s (t * pageSize) is).2 (pathsAlong π is) 0 := by
  induction is generalizing s π t with
  | nil => exact Supplies.refl V s
  | cons i is ih =>
    obtain ⟨hp', hpi, hlen⟩ := along_cons hp
    have hπ : Part V π := Part.of_concat ⟨_, hv, hpi⟩
    have hK := part_of_mem_pathsAlong hv hp'
    simp only [nextTables] at hr ⊢
    rcases getOrCreateNextTable_cases hS ht hπ hlen (hc π i hpi hlen t ht) with
      ⟨t', ht', he⟩ | ⟨-, -, he⟩ | ⟨hnone, p, bits, hm, he, hpmm, hS', hE, hI⟩
    · simp only [he] at hr ⊢
      by_cases h0 : t' * pageSize = 0
      · rw [if_pos h0] at hr
        cases hr
      · rw [if_neg h0] at hr ⊢
        exact (Supplies.of_present ht').trans (ih hS hc ht' hp' hr) hK
    · simp only [he, ↓reduceIte] at hr
      cases hr
    · have hsup := Supplies.of_install hS hπ hnone hm hpmm hI
      generalize s.getOrCreateNextTable (t * pageSize) i = r at *
      obtain ⟨a', s'⟩ := r
      simp only at he hpmm hS' hE hI hsup hr ⊢
      subst he
      by_cases h0 : p * pageSize = 0
      · rw [if_pos h0] at hr
        cases hr
      · rw [if_neg h0] at hr ⊢
        exact hsup.trans (ih hS' (hE.noLargePage hc) hI.nodeAt_new hp' hr) hK

/-- A walk ends if the PMM has a page for each missing table and none of the tables is page 0. -/
theorem nextTables_isSome {v : Nat} {is : List Index} (hS : Sound V s) (hv : path v ∈ V)
    (hc : NoLargePage s v) (ht : s.tableAt π = some t) (hp : π ++ is <+: lastTable v)
    (hcost : missing s (pathsAlong π is) ≤ s.pmm.freePages.card)
    (hzero : ∀ π' ∈ pathsAlong π is, s.tableAt π' ≠ some 0) (h0 : ¬ s.pmm.Free 0) :
    (nextTables s (t * pageSize) is).1.isSome := by
  induction is generalizing s π t with
  | nil => rfl
  | cons i is ih =>
    obtain ⟨hp', hpi, hlen⟩ := along_cons hp
    have hπ : Part V π := Part.of_concat ⟨_, hv, hpi⟩
    have hK := part_of_mem_pathsAlong hv hp'
    have hmem : π ++ [i] ∈ pathsAlong π (i :: is) := Finset.mem_union_left _ (Finset.mem_singleton_self _)
    have hpos : ∀ {n : Nat}, n ≠ 0 → n * pageSize ≠ 0 := fun h => Nat.mul_ne_zero h (by decide)
    simp only [nextTables]
    rcases getOrCreateNextTable_cases hS ht hπ hlen (hc π i hpi hlen t ht) with
      ⟨t', ht', he⟩ | ⟨hnone, hm, -⟩ | ⟨hnone, p, bits, hm, he, hpmm, hS', hE, hI⟩
    · have hne : t' ≠ 0 := fun h => hzero _ hmem (h ▸ ht')
      simp only [he, if_neg (hpos hne)]
      refine ih hS hc ht' hp' ?_ (fun π' h => hzero π' (Finset.mem_union_right _ h)) h0
      have := (Supplies.of_present (V := V) ht').missing_union hK
      rw [pathsAlong] at hcost
      omega
    · -- The table is missing, so a page is free.
      have hpos : 0 < missing s (pathsAlong π (i :: is)) :=
        Finset.card_pos.mpr ⟨π ++ [i], Finset.mem_filter.mpr ⟨hmem, hnone⟩⟩
      rw [freePages_eq_empty hm, Finset.card_empty] at hcost
      omega
    · obtain ⟨p', hpp, -, hfree, -⟩ := pmmMallocPage_page hm
      obtain rfl : p = p' := Nat.eq_of_mul_eq_mul_right (by decide) hpp
      have hne : p ≠ 0 := by rintro rfl; exact h0 hfree
      have hsup := Supplies.of_install hS hπ hnone hm hpmm hI
      have hsum := hsup.missing_union hK
      have hcost' := hsup.cost
      rw [pathsAlong] at hcost
      generalize s.getOrCreateNextTable (t * pageSize) i = r at *
      obtain ⟨a', s'⟩ := r
      simp only at he hpmm hS' hE hI hsup hsum hcost' ⊢
      rw [he, if_neg (hpos hne)]
      refine ih hS' (hE.noLargePage hc) hI.nodeAt_new hp' (by omega) (fun π' h h' => ?_)
        fun hf => h0 (hE.free hf)
      rcases hI.nodeAt_cases h' with h' | ⟨h', -⟩
      · exact hzero π' (Finset.mem_union_right _ h) h'
      · exact hne h'.symm

/-- `page_walk` takes a page for each missing table. -/
theorem pageWalk_supplies {v : Nat} (hS : Sound V s) (hv : path v ∈ V) (hc : NoLargePage s v)
    (hr : (s.pageWalk v).1.isSome) : Supplies V s (s.pageWalk v).2 (tablePaths v) 0 := by
  rw [pageWalk_eq] at hr ⊢
  obtain ⟨a, ha⟩ := Option.isSome_iff_exists.mp hr
  obtain ⟨b, hb, -⟩ := Option.map_eq_some_iff.mp ha
  exact nextTables_supplies (π := []) (t := s.root) hS hv hc rfl (List.prefix_refl _) hb

/-- `page_walk` succeeds if the PMM has a page for each missing table and no table is page 0. -/
theorem pageWalk_isSome {v : Nat} (hS : Sound V s) (hv : path v ∈ V) (hc : NoLargePage s v)
    (hcost : missing s (tablePaths v) ≤ s.pmm.freePages.card)
    (hzero : ∀ π ∈ tablePaths v, s.tableAt π ≠ some 0) (h0 : ¬ s.pmm.Free 0) :
    (s.pageWalk v).1.isSome := by
  have h := nextTables_isSome (π := []) (t := s.root) hS hv hc rfl (List.prefix_refl _) hcost hzero h0
  rw [pageWalk_eq, Option.isSome_map]
  exact h

/-- `map_page` succeeds exactly if its walk does, and then it takes the pages of the tables. -/
theorem mapPage_supplies {v p : Nat} {flags : PagingFlags} (hV : ∀ q ∈ V, q.length = 4)
    (hS : Sound V s) (hv : path v ∈ V) (hc : NoLargePage s v) :
    let r := s.mapPage v p flags
    (r.1 = true ↔ (s.pageWalk v).1.isSome) ∧
      (r.1 = true → Supplies V s r.2 (tablePaths v) 0 ∧
        ∀ π ∈ tablePaths v, s.tableAt π ≠ some 0) := by
  intro r
  obtain ⟨hS₁, hE, -⟩ := pageWalk_spec hS hv hc
  rcases mapPage_cases p flags hS hv hc with ⟨hnone, hr⟩ | ⟨t, hsome, ht, hr⟩
  · simp only [r, hr, hnone]
    exact ⟨iff_of_false Bool.false_ne_true Bool.false_ne_true, fun h => absurd h Bool.false_ne_true⟩
  · obtain ⟨-, -, htable, -, -⟩ := setEntry_spec (e := leafEntry _ p flags) hV hS₁ hv ht.last id
    have hwalk := pageWalk_supplies hS hv hc hsome
    simp only [r, hr]
    refine ⟨iff_of_true trivial hsome, fun _ => ⟨⟨hwalk.cost, fun {π} hπ => ?_⟩, fun π hπ hzero => ?_⟩⟩
    · rw [htable]
      exact hwalk.tables hπ
    · obtain ⟨is', hne, hprefix, he⟩ := mem_pathsAlong.mp hπ
      obtain ⟨t', hne', ht'⟩ := ht.tables is' hne hprefix
      rw [← he, hE.old hzero] at ht'
      exact hne' (Option.some.inj ht').symm

end Walk

end EszOs
