import EszOs.Memory.Paging

/-!
# Page walks over owned tables

`Sound V s`: the paths of `V` own their tables, and no table is a free page. Over such a state a
page walk only adds tables, taken from the free pages, and no path of `V` changes its translation
(`Extends`). The entry it returns is the one the hardware reads last (`pageWalk_spec`), and a write
to it affects the paths of that address only (`setEntry_spec`).

The hardware reads `PageSizeOrPAT` of the router entries and the walk of the source does not, also
not where it makes a present entry of one that is not: `NoLargePage` asks for a clear bit in both
cases.
-/

namespace EszOs

open Bytes Radix

/-- The paths of `V` own their tables, and no table is a free page. -/
structure Sound (V : Set (List Index)) (s : MemState) : Prop where
  owned : Owned V s.tree
  taken {π : List Index} {t : Nat} (h : s.tableAt π = some t) : ¬ s.pmm.Free t

/-- From `s` to `s'` tables were added, at most. Pages are taken from the PMM and none is freed. -/
structure Grows (s s' : MemState) : Prop where
  vmm : s'.vmm = s.vmm
  root : s'.root = s.root
  count : s'.pmm.count = s.pmm.count
  bits {p : Nat} (h : bitRead s.pmm.bitmap p = true) : bitRead s'.pmm.bitmap p = true
  old {π : List Index} {t : Nat} (h : s.tableAt π = some t) : s'.tableAt π = some t
  new {π : List Index} {t : Nat} (h : s'.tableAt π = some t) :
    s.tableAt π = some t ∨ (s.pmm.Free t ∧ bitRead s'.pmm.bitmap t = true ∧
      ∀ j, (s'.tables t j).pageSizeOrPAT = false)
  large {t : Nat} {j : Index} (h : (s.tables t j).pageSizeOrPAT = false) :
    (s'.tables t j).pageSizeOrPAT = false

/-- Also, no path of `V` changed its translation. -/
structure Extends (V : Set (List Index)) (s s' : MemState) : Prop extends Grows s s' where
  walk {path : List Index} (h : path ∈ V) : s'.tree.walk path = s.tree.walk path

/-- No router entry on the path of an address has `PageSizeOrPAT` set, present or not. -/
def NoLargePage (s : MemState) (v : Nat) : Prop :=
  ∀ π i, π ++ [i] <+: path v → π.length < 3 → ∀ t, s.tableAt π = some t →
    (s.tables t i).pageSizeOrPAT = false

/-- The path to the last table of an address. -/
def lastTable (v : Nat) : List Index := [getPML4Index v, getPDPTIndex v, getPDIndex v]

theorem path_eq (v : Nat) : path v = lastTable v ++ [getPTIndex v] := rfl

namespace Grows

variable {s s₁ s₂ : MemState}

theorem refl (s : MemState) : Grows s s := ⟨rfl, rfl, rfl, id, id, .inl, id⟩

theorem free (hG : Grows s s₁) {p : Nat} (h : s₁.pmm.Free p) : s.pmm.Free p := by
  refine ⟨hG.count ▸ h.1, ?_⟩
  cases hb : bitRead s.pmm.bitmap p
  · rfl
  · rw [← hG.bits hb]; exact h.2

theorem trans (h₁ : Grows s s₁) (h₂ : Grows s₁ s₂) : Grows s s₂ where
  vmm := h₂.vmm.trans h₁.vmm
  root := h₂.root.trans h₁.root
  count := h₂.count.trans h₁.count
  bits h := h₂.bits (h₁.bits h)
  old h := h₂.old (h₁.old h)
  new h := by
    rcases h₂.new h with h | ⟨hf, hu, hl⟩
    · rcases h₁.new h with h | ⟨hf, hu, hl⟩
      · exact .inl h
      · exact .inr ⟨hf, h₂.bits hu, fun j => h₂.large (hl j)⟩
    · exact .inr ⟨h₁.free hf, hu, hl⟩
  large h := h₂.large (h₁.large h)

theorem noLargePage (hG : Grows s s₁) {v : Nat} (hc : NoLargePage s v) : NoLargePage s₁ v := by
  intro π i hp hd t ht
  rcases hG.new ht with ht | ⟨-, -, hl⟩
  · exact hG.large (hc π i hp hd t ht)
  · exact hl i

/-- New tables are no free pages any more. -/
theorem taken (hG : Grows s s₁) (hS : ∀ {π t}, s.tableAt π = some t → ¬ s.pmm.Free t)
    {π : List Index} {t : Nat} (h : s₁.tableAt π = some t) : ¬ s₁.pmm.Free t := by
  intro hf
  rcases hG.new h with h | ⟨-, hu, -⟩
  · exact hS h (hG.free hf)
  · rw [hf.2] at hu
    cases hu

end Grows

namespace Extends

variable {V : Set (List Index)} {s s₁ s₂ : MemState}

theorem refl (V : Set (List Index)) (s : MemState) : Extends V s s :=
  { Grows.refl s with walk := fun _ => rfl }

theorem trans (h₁ : Extends V s s₁) (h₂ : Extends V s₁ s₂) : Extends V s s₂ :=
  { h₁.toGrows.trans h₂.toGrows with walk := fun h => (h₂.walk h).trans (h₁.walk h) }

end Extends

/-! ## Slots -/

theorem slotOf_zero (d : Nat) : slotOf d .zero = .empty := rfl

theorem slotOf_absent {e : PageTableEntry} (h : e.present = false) (d : Nat) :
    slotOf d e = .empty := by
  rw [slotOf, if_pos h]

/-- A present router entry. -/
theorem slotOf_router {e : PageTableEntry} {d : Nat} (hp : e.present = true)
    (hl : e.pageSizeOrPAT = false) (hd : d < 3) : slotOf d e = .node e.address.toNat := by
  rw [slotOf, if_neg (by simp [hp]), if_neg (by omega), if_pos hl]

/-- An entry of a last table. -/
theorem slotOf_last {e : PageTableEntry} {d : Nat} (hd : 3 ≤ d) :
    slotOf d e = if e.present then .leaf e else .empty := by
  unfold slotOf
  cases e.present <;> simp [hd]

/-- A router entry names its table only. -/
theorem eq_address_of_slotOf {e : PageTableEntry} {d t : Nat} (h : slotOf d e = .node t) :
    t = e.address.toNat ∧ d < 3 := by
  unfold slotOf at h
  split at h
  · cases h
  · split at h
    · cases h
    · split at h
      · cases h; exact ⟨rfl, by omega⟩
      · split at h <;> cases h

/-- Tables stand at depths 0 to 3. -/
theorem tableAt_length {s : MemState} {π : List Index} {t : Nat} (h : s.tableAt π = some t) :
    π.length ≤ 3 := by
  induction π using List.reverseRecOn with
  | nil => simp
  | append_singleton π i ih =>
    obtain ⟨t', -, hs⟩ := Tree.nodeAt_concat.mp h
    have := (eq_address_of_slotOf hs).2
    simp only [List.length_append, List.length_singleton]
    omega

/-! ## The physical page of a new table -/

/-- A page number the PMM hands out fits into an entry and its address does not wrap. -/
theorem MemState.free_lt {s : MemState} {p : Nat} (h : s.pmm.Free p) : p < 2 ^ 36 :=
  Nat.lt_of_lt_of_le h.1 s.pmm_le

theorem u64_page {p : Nat} (h : p < 2 ^ 36) : u64 (p * pageSize) = p * pageSize :=
  u64_of_lt (by simp only [pageSize]; omega)

theorem page_div (p : Nat) : p * pageSize / pageSize = p := Nat.mul_div_cancel _ (by decide)

theorem page_shiftRight (p : Nat) : (p * pageSize) >>> 12 = p := by
  rw [Nat.shiftRight_eq_div_pow]; exact page_div p

theorem page_shiftLeft (p : Nat) : p <<< 12 = p * pageSize := by
  rw [Nat.shiftLeft_eq]; rfl

/-- The page that `pmm_malloc_page` hands out for a table or for data. -/
theorem pmmMallocPage_page {s : MemState} {addr : Nat} {bits : Mem}
    (h : pmmMallocPage s.pmm = some (addr, bits)) :
    ∃ p, addr = p * pageSize ∧ p < 2 ^ 36 ∧ s.pmm.Free p ∧ (∀ q < p, ¬ s.pmm.Free q) ∧
      ∀ q, bitRead bits q = (decide (q = p) || bitRead s.pmm.bitmap q) := by
  obtain ⟨p, rfl, hfree, hrest⟩ := pmmMallocPage_some h
  have hlt := s.free_lt hfree
  exact ⟨p, u64_page hlt, hlt, hfree, hrest⟩

/-! ## One level of the walk -/

section Walk

variable {V : Set (List Index)} {s : MemState} {π : List Index} {t : Nat} {i : Index}

/-- The state after a table was added. -/
theorem install_table {p : Nat} {bits : Mem} {e : PageTableEntry} (hS : Sound V s)
    (ht : s.tableAt π = some t) (hπ : Part V π) (hd : π.length < 3)
    (habs : (s.tables t i).present = false) (hfree : s.pmm.Free p)
    (hbits : ∀ q, bitRead bits q = (decide (q = p) || bitRead s.pmm.bitmap q))
    (he : e.present = true) (hl : e.pageSizeOrPAT = false) (ha : e.address.toNat = p) :
    let s' := ((s.setPmm bits).clearPage (p * pageSize)).setEntry (t * pageSize) i e
    Sound V s' ∧ Extends V s s' ∧ Install s.tree s'.tree π t i p := by
  intro s'
  have htables : ∀ t' j, s'.tables t' j =
      if t' = t ∧ j = i then e else if t' = p then .zero else s.tables t' j := fun t' j => by
    simp only [s', MemState.setEntry, MemState.clearPage, MemState.setPmm, page_div]
  have hne : t ≠ p := by rintro rfl; exact hS.taken ht hfree
  have hused : bitRead s'.pmm.bitmap p = true := by
    simp only [s', MemState.setEntry, MemState.clearPage, MemState.setPmm, hbits]
    simp
  have hI : Install s.tree s'.tree π t i p := {
    root := rfl
    parent := ht
    empty := slotOf_absent habs
    new := by
      simp only [MemState.tree, htables, and_self, ↓reduceIte]
      rw [slotOf_router he hl hd, ha]
    only := fun d t' h => by
      simp only [MemState.tree, htables, and_self, ↓reduceIte] at h
      rw [(eq_address_of_slotOf h).1, ha]
    fresh := fun π' h => hS.taken h hfree
    clear := fun d j => by
      simp only [MemState.tree, htables, hne.symm, false_and, ↓reduceIte]
      exact slotOf_zero d
    rest := fun d t' j hf hc => by
      simp only [MemState.tree, htables]
      rw [if_neg hc, if_neg hf] }
  have hG : Extends V s s' := {
    vmm := rfl
    root := rfl
    count := rfl
    bits := fun {q} h => by
      simp only [s', MemState.setEntry, MemState.clearPage, MemState.setPmm, hbits, h, Bool.or_true]
    old := hI.nodeAt_of_old
    new := fun {π' x} h => by
      rcases hI.nodeAt_cases h with h | ⟨rfl, -⟩
      · exact .inl h
      · refine .inr ⟨hfree, hused, fun j => ?_⟩
        rw [htables, if_neg (fun h => hne h.1.symm), if_pos rfl]
        rfl
    large := fun {t' j} h => by
      rw [htables]
      split
      · exact hl
      · split
        · rfl
        · exact h
    walk := hI.walk_eq hS.owned hπ }
  exact ⟨⟨hI.owned hS.owned, hG.taken hS.taken⟩, hG, hI⟩

/-- `get_or_create_next_table`: the next table is there, or there is no page for it, or it is added
on the first free page. -/
theorem getOrCreateNextTable_cases (hS : Sound V s) (ht : s.tableAt π = some t)
    (hπ : Part V π) (hd : π.length < 3) (hl : (s.tables t i).pageSizeOrPAT = false) :
    let r := s.getOrCreateNextTable (t * pageSize) i
    (∃ t', s.tableAt (π ++ [i]) = some t' ∧ r = (t' * pageSize, s)) ∨
      (s.tableAt (π ++ [i]) = none ∧ pmmMallocPage s.pmm = none ∧ r = (0, s)) ∨
      (s.tableAt (π ++ [i]) = none ∧ ∃ p bits, pmmMallocPage s.pmm = some (p * pageSize, bits) ∧
        r.1 = p * pageSize ∧ r.2.pmm = (s.setPmm bits).pmm ∧ Sound V r.2 ∧ Extends V s r.2 ∧
        Install s.tree r.2.tree π t i p) := by
  intro r
  have hentry : s.entry (t * pageSize) i = s.tables t i := by rw [MemState.entry, page_div]
  by_cases hp : (s.tables t i).present = true
  · have hr : r = ((s.tables t i).address.toNat * pageSize, s) := by
      simp only [r, MemState.getOrCreateNextTable, hentry, hp, ↓reduceIte, page_shiftLeft]
    exact .inl ⟨_, Tree.nodeAt_concat.mpr ⟨t, ht, slotOf_router hp hl hd⟩, hr⟩
  · have habs : (s.tables t i).present = false := by simpa using hp
    have hnone : s.tableAt (π ++ [i]) = none := by
      rw [Option.eq_none_iff_forall_ne_some]
      intro x hx
      obtain ⟨t', ht', hs⟩ := Tree.nodeAt_concat.mp hx
      obtain rfl : t = t' := Option.some.inj (ht.symm.trans ht')
      simp only [MemState.tree, slotOf_absent habs] at hs
      cases hs
    refine .inr ?_
    cases hm : pmmMallocPage s.pmm with
    | none =>
      refine .inl ⟨hnone, rfl, ?_⟩
      simp only [r, MemState.getOrCreateNextTable, hentry, habs, hm, Bool.false_eq_true, ↓reduceIte]
    | some q =>
      obtain ⟨addr, bits⟩ := q
      obtain ⟨p, rfl, hlt, hfree, -, hbits⟩ := pmmMallocPage_page hm
      have hne : t ≠ p := by rintro rfl; exact hS.taken ht hfree
      have hkeep : ((s.setPmm bits).clearPage (p * pageSize)).entry (t * pageSize) i =
          s.tables t i := by
        simp only [MemState.entry, MemState.clearPage, MemState.setPmm, page_div, hne, ↓reduceIte]
      have hr : r = (p * pageSize,
          ((s.setPmm bits).clearPage (p * pageSize)).setEntry (t * pageSize) i
            { s.tables t i with
              present := true
              readWrite := true
              address := BitVec.ofNat 40 p }) := by
        simp only [r, MemState.getOrCreateNextTable, hentry, habs, hm, hkeep, Bool.false_eq_true,
          ↓reduceIte, page_shiftRight]
      have h := install_table (e := { s.tables t i with
          present := true, readWrite := true, address := BitVec.ofNat 40 p })
        hS ht hπ hd habs hfree hbits rfl hl
        (by rw [BitVec.toNat_ofNat]; exact Nat.mod_eq_of_lt (by omega))
      refine .inr ⟨hnone, p, bits, rfl, by rw [hr], by rw [hr]; rfl, ?_⟩
      rw [hr]
      exact h

/-- `get_or_create_next_table` returns the next table on the path, or the PMM had no page for it. -/
theorem getOrCreateNextTable_spec (hS : Sound V s) (ht : s.tableAt π = some t)
    (hπ : Part V π) (hd : π.length < 3) (hl : (s.tables t i).pageSizeOrPAT = false) :
    let r := s.getOrCreateNextTable (t * pageSize) i
    Sound V r.2 ∧ Extends V s r.2 ∧
      (r.1 ≠ 0 → ∃ t', t' ≠ 0 ∧ r.1 = t' * pageSize ∧ r.2.tableAt (π ++ [i]) = some t') := by
  intro r
  have hne : ∀ {n : Nat}, n * pageSize ≠ 0 → n ≠ 0 := fun h h0 => h (by rw [h0, Nat.zero_mul])
  rcases getOrCreateNextTable_cases hS ht hπ hd hl with
    ⟨t', ht', hr⟩ | ⟨-, -, hr⟩ | ⟨-, p, bits, -, hr, -, hS', hE, hI⟩
  · rw [show r = _ from hr]
    exact ⟨hS, .refl V s, fun h => ⟨t', hne h, rfl, ht'⟩⟩
  · rw [show r = _ from hr]
    exact ⟨hS, .refl V s, fun h => absurd rfl h⟩
  · exact ⟨hS', hE, fun h => ⟨p, hne (hr ▸ h), hr, hI.nodeAt_new⟩⟩

/-- A present table is returned as it is. -/
theorem getOrCreateNextTable_present {t' : Nat} (ht : s.tableAt π = some t)
    (ht' : s.tableAt (π ++ [i]) = some t') :
    s.getOrCreateNextTable (t * pageSize) i = (t' * pageSize, s) := by
  obtain ⟨t₁, ht₁, hs⟩ := Tree.nodeAt_concat.mp ht'
  obtain rfl : t = t₁ := Option.some.inj (ht.symm.trans ht₁)
  have hp : (s.tables t i).present = true := by
    cases hp : (s.tables t i).present
    · simp only [MemState.tree, slotOf_absent hp] at hs
      cases hs
    · rfl
  rw [MemState.getOrCreateNextTable, MemState.entry, page_div, if_pos hp, page_shiftLeft,
    (eq_address_of_slotOf hs).1]

/-! ## The whole walk -/

/-- `get_or_create_next_table` along several indices; `none` when it returned 0. -/
def nextTables (s : MemState) (tableAddr : Nat) : List Index → Option Nat × MemState
  | [] => (some tableAddr, s)
  | i :: is =>
    let r := s.getOrCreateNextTable tableAddr i
    if r.1 = 0 then (none, r.2) else nextTables r.2 r.1 is

theorem pageWalk_eq (s : MemState) (v : Nat) :
    s.pageWalk v = ((nextTables s s.getStartOfTree (lastTable v)).1.map (·, getPTIndex v),
      (nextTables s s.getStartOfTree (lastTable v)).2) := by
  simp only [MemState.pageWalk, lastTable, nextTables]
  generalize s.getOrCreateNextTable s.getStartOfTree (getPML4Index v) = r₁
  by_cases h₁ : r₁.1 = 0
  · simp only [h₁, ↓reduceIte, Option.map_none]
  · simp only [h₁, ↓reduceIte]
    generalize r₁.2.getOrCreateNextTable r₁.1 (getPDPTIndex v) = r₂
    by_cases h₂ : r₂.1 = 0
    · simp only [h₂, ↓reduceIte, Option.map_none]
    · simp only [h₂, ↓reduceIte]
      generalize r₂.2.getOrCreateNextTable r₂.1 (getPDIndex v) = r₃
      by_cases h₃ : r₃.1 = 0 <;> simp only [h₃, ↓reduceIte, Option.map_none, Option.map_some]

/-- The tables along `is` from `π` on are there, and none is page 0, whose address `page_walk` takes
for a failure. -/
def TablesOn (s : MemState) (π is : List Index) : Prop :=
  ∀ is', is' ≠ [] → is' <+: is → ∃ t, t ≠ 0 ∧ s.tableAt (π ++ is') = some t

theorem tablesOn_cons {is : List Index} :
    TablesOn s π (i :: is) ↔
      (∃ t, t ≠ 0 ∧ s.tableAt (π ++ [i]) = some t) ∧ TablesOn s (π ++ [i]) is := by
  constructor
  · intro h
    refine ⟨h [i] (by simp) ⟨is, rfl⟩, fun is' hne hp => ?_⟩
    have := h (i :: is') (by simp) (List.cons_prefix_cons.mpr ⟨rfl, hp⟩)
    rwa [List.append_cons] at this
  · rintro ⟨h1, h2⟩ is' hne hp
    cases is' with
    | nil => exact absurd rfl hne
    | cons j is' =>
      obtain ⟨rfl, hp'⟩ := List.cons_prefix_cons.mp hp
      by_cases he : is' = []
      · rwa [he]
      · rw [List.append_cons]
        exact h2 is' he hp'

/-- One index further on the way to the last table. -/
theorem along_cons {v : Nat} {is : List Index} (hp : π ++ i :: is <+: lastTable v) :
    (π ++ [i]) ++ is <+: lastTable v ∧ π ++ [i] <+: path v ∧ π.length < 3 := by
  have hp' : (π ++ [i]) ++ is <+: lastTable v := by simpa using hp
  have hlen := hp.length_le
  simp only [List.length_append, List.length_cons, lastTable, List.length_nil] at hlen
  exact ⟨hp', ((List.prefix_append _ is).trans hp').trans ⟨[getPTIndex v], rfl⟩, by omega⟩

/-- The walk adds tables only, and ends at the last one on the path. -/
theorem nextTables_spec {v : Nat} {is : List Index} (hS : Sound V s) (hv : path v ∈ V)
    (hc : NoLargePage s v) (ht : s.tableAt π = some t) (hp : π ++ is <+: lastTable v) :
    let r := nextTables s (t * pageSize) is
    Sound V r.2 ∧ Extends V s r.2 ∧ ∀ a, r.1 = some a → TablesOn r.2 π is ∧
      ∃ t', a = t' * pageSize ∧ r.2.tableAt (π ++ is) = some t' := by
  induction is generalizing s π t with
  | nil =>
    refine ⟨hS, .refl V s, fun a ha => ⟨fun is' hne hp => absurd (List.prefix_nil.mp hp) hne, t, ?_⟩⟩
    exact ⟨(Option.some.inj ha).symm, by rwa [List.append_nil]⟩
  | cons i is ih =>
    obtain ⟨hp', hpi, hlen⟩ := along_cons hp
    obtain ⟨hS₁, hE₁, hn₁⟩ := getOrCreateNextTable_spec hS ht (Part.of_concat ⟨_, hv, hpi⟩) hlen
      (hc π i hpi hlen t ht)
    simp only [nextTables]
    generalize s.getOrCreateNextTable (t * pageSize) i = r₁ at hS₁ hE₁ hn₁ ⊢
    obtain ⟨a₁, s₁⟩ := r₁
    dsimp only at hS₁ hE₁ hn₁ ⊢
    by_cases h₁ : a₁ = 0
    · rw [if_pos h₁]
      exact ⟨hS₁, hE₁, fun a ha => by cases ha⟩
    · rw [if_neg h₁]
      obtain ⟨t₁, hne₁, rfl, ht₁⟩ := hn₁ h₁
      obtain ⟨hS', hE', hr⟩ := ih hS₁ (hE₁.noLargePage hc) ht₁ hp'
      refine ⟨hS', hE₁.trans hE', fun a ha => ?_⟩
      obtain ⟨hon, t', he, ht'⟩ := hr a ha
      refine ⟨tablesOn_cons.mpr ⟨⟨t₁, hne₁, hE'.old ht₁⟩, hon⟩, t', he, ?_⟩
      rwa [List.append_cons]

/-- Over present tables the walk changes nothing. -/
theorem nextTables_present {is : List Index} {t' : Nat} (ht : s.tableAt π = some t)
    (hon : TablesOn s π is) (ht' : s.tableAt (π ++ is) = some t') :
    nextTables s (t * pageSize) is = (some (t' * pageSize), s) := by
  induction is generalizing π t with
  | nil =>
    rw [List.append_nil, ht] at ht'
    rw [nextTables, Option.some.inj ht']
  | cons i is ih =>
    obtain ⟨⟨t₁, hne₁, ht₁⟩, hon⟩ := tablesOn_cons.mp hon
    have hpos : t₁ * pageSize ≠ 0 := Nat.mul_ne_zero hne₁ (by decide)
    simp only [nextTables, getOrCreateNextTable_present ht ht₁, if_neg hpos]
    exact ih ht₁ hon (by rwa [← List.append_cons])

/-- The tables on the path of `v` are there, down to the last one `t`. -/
structure WalksTo (s : MemState) (v t : Nat) : Prop where
  tables : TablesOn s [] (lastTable v)
  last : s.tableAt (lastTable v) = some t

/-- `page_walk` adds tables only, and returns the last entry on the path. -/
theorem pageWalk_spec {v : Nat} (hS : Sound V s) (hv : path v ∈ V) (hc : NoLargePage s v) :
    Sound V (s.pageWalk v).2 ∧ Extends V s (s.pageWalk v).2 ∧
      ∀ r, (s.pageWalk v).1 = some r → ∃ t, r = (t * pageSize, getPTIndex v) ∧
        WalksTo (s.pageWalk v).2 v t := by
  obtain ⟨hS', hE, hr⟩ := nextTables_spec (π := []) (t := s.root) hS hv hc rfl
    (List.prefix_refl _)
  rw [pageWalk_eq]
  refine ⟨hS', hE, fun r h => ?_⟩
  obtain ⟨a, ha, rfl⟩ := Option.map_eq_some_iff.mp h
  obtain ⟨hon, t, rfl, ht⟩ := hr a ha
  exact ⟨t, rfl, hon, ht⟩

/-- Over present tables `page_walk` changes nothing. -/
theorem pageWalk_of_walksTo {v : Nat} (h : WalksTo s v t) :
    s.pageWalk v = (some (t * pageSize, getPTIndex v), s) := by
  rw [pageWalk_eq, MemState.getStartOfTree,
    nextTables_present (π := []) (t := s.root) rfl h.tables h.last]
  rfl

/-- The hardware reads the same last entry. -/
theorem walk_of_lastTable {v : Nat} (ht : s.tableAt (lastTable v) = some t) :
    s.tree.walk (path v) =
      if (s.tables t (getPTIndex v)).present then some (s.tables t (getPTIndex v), []) else none := by
  rw [path_eq, Tree.walk_append ht, Tree.walkFrom]
  simp only [MemState.tree]
  rw [slotOf_last (show 3 ≤ (lastTable v).length from Nat.le_refl 3)]
  cases (s.tables t (getPTIndex v)).present <;> rfl

/-! ## Writing the last entry -/

/-- A write to the last entry on the path of `v` affects the translation of that path only. -/
theorem setEntry_spec {v : Nat} (hV : ∀ p ∈ V, p.length = 4) (hS : Sound V s) (hv : path v ∈ V)
    (ht : s.tableAt (lastTable v) = some t) {e : PageTableEntry}
    (he : (s.tables t (getPTIndex v)).pageSizeOrPAT = false → e.pageSizeOrPAT = false) :
    let s' := s.setEntry (t * pageSize) (getPTIndex v) e
    Sound V s' ∧ Grows s s' ∧ (∀ π, s'.tableAt π = s.tableAt π) ∧
      (∀ p ∈ V, p ≠ path v → s'.tree.walk p = s.tree.walk p) ∧
      s'.tree.walk (path v) = if e.present then some (e, []) else none := by
  intro s'
  have htables : ∀ t' j, s'.tables t' j =
      if t' = t ∧ j = getPTIndex v then e else s.tables t' j := fun t' j => by
    simp only [s', MemState.setEntry, page_div]
  have hπ : Part V (lastTable v) := ⟨path v, hv, [getPTIndex v], rfl⟩
  have hlast : ∀ (e : PageTableEntry) d, 3 ≤ d → ∀ t', slotOf d e ≠ .node t' := fun e d hd t' h =>
    absurd (eq_address_of_slotOf h).2 (by omega)
  have hL : SetLeaf s.tree s'.tree (lastTable v) t (getPTIndex v) := {
    root := rfl
    parent := ht
    old := hlast _
    new := hlast _
    rest := fun d t' j hc => by
      simp only [MemState.tree, htables]
      rw [if_neg hc] }
  have hnode := hL.nodeAt_eq hS.owned hπ
  have hG : Grows s s' := {
    vmm := rfl
    root := rfl
    count := rfl
    bits := id
    old := fun {π x} h => (hnode π).trans h
    new := fun {π x} h => .inl ((hnode π).symm.trans h)
    large := fun {t' j} h => by
      rw [htables]
      split
      · rename_i hc
        obtain ⟨rfl, rfl⟩ := hc
        exact he h
      · exact h }
  refine ⟨⟨hL.owned hS.owned hπ, hG.taken hS.taken⟩, hG, hnode, fun p hp hne => ?_, ?_⟩
  · refine hL.walk_eq hS.owned hπ hp fun hpre => hne ?_
    exact (hpre.eq_of_length (by rw [hV p hp]; rfl)).symm
  · rw [path_eq, hL.walk_self hS.owned hπ [], Tree.walkFrom]
    simp only [MemState.tree, htables, and_self, ↓reduceIte]
    rw [slotOf_last (show 3 ≤ (lastTable v).length from Nat.le_refl 3)]
    cases e.present <;> rfl

end Walk

end EszOs
