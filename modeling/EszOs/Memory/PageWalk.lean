import EszOs.Memory.PageTables

/-!
# The tables that `page_walk` follows (`memory/virtual/paging/paging.cpp`)

`page_walk` takes the address 0 of a table for a failure, and the PMM hands out page 0 like any
other. All tables that the source follows count here, whatever the hardware makes of their entries.

* `nextTables_ends`, `nextTables_takes_zero`: when a walk ends at a table.
* `nextTables_keeps`, `nextTables_last`: what it leaves alone, and which tables are on the path then.
-/

namespace EszOs

open Bytes

/-! ## The tables on a path -/

/-- The addresses of the tables behind `tableAddr` that are there, along the indices. -/
def MemState.tablesAlong (s : MemState) (tableAddr : Nat) : List Index → List Nat
  | [] => []
  | i :: is =>
    if (s.entry tableAddr i).present then
      (s.entry tableAddr i).address.toNat <<< 12 ::
        s.tablesAlong ((s.entry tableAddr i).address.toNat <<< 12) is
    else []

/-- The tables behind the root on the path of an address. -/
def MemState.tablesOf (s : MemState) (v : Nat) : List Nat :=
  s.tablesAlong s.getStartOfTree (lastTable v)

/-- The number of tables that are missing on the path of an address. -/
def MemState.missingTables (s : MemState) (v : Nat) : Nat := 3 - (s.tablesOf v).length

/-- No table on the path is a free page. -/
def TablesInUse (b : Bitmap) (tables : List Nat) : Prop := ∀ a ∈ tables, ¬ b.Free (a / pageSize)

variable {s s' : MemState} {tableAddr : Nat} {i : Index} {is : List Index}

theorem tablesAlong_present (h : (s.entry tableAddr i).present = true) :
    s.tablesAlong tableAddr (i :: is) = (s.entry tableAddr i).address.toNat <<< 12 ::
      s.tablesAlong ((s.entry tableAddr i).address.toNat <<< 12) is := by
  rw [MemState.tablesAlong, if_pos h]

theorem tablesAlong_absent (h : (s.entry tableAddr i).present = false) :
    s.tablesAlong tableAddr (i :: is) = [] := by
  rw [MemState.tablesAlong, if_neg (by simp [h])]

theorem tablesAlong_length_le (s : MemState) (tableAddr : Nat) (is : List Index) :
    (s.tablesAlong tableAddr is).length ≤ is.length := by
  induction is generalizing tableAddr with
  | nil => exact Nat.le_refl 0
  | cons i is ih =>
    rw [MemState.tablesAlong]
    split
    · exact Nat.succ_le_succ (ih _)
    · exact Nat.zero_le _

theorem tablesAlong_congr (h : s'.tables = s.tables) (tableAddr : Nat) (is : List Index) :
    s'.tablesAlong tableAddr is = s.tablesAlong tableAddr is := by
  induction is generalizing tableAddr with
  | nil => rfl
  | cons i is ih =>
    have hentry : s'.entry tableAddr i = s.entry tableAddr i := by
      rw [MemState.entry, MemState.entry, h]
    rw [MemState.tablesAlong, MemState.tablesAlong, hentry, ih]

/-- A table is its page. -/
theorem tablesAlong_page {a b : Nat} (h : a / pageSize = b / pageSize) :
    s.tablesAlong a is = s.tablesAlong b is := by
  cases is with
  | nil => rfl
  | cons i is =>
    have hentry : s.entry a i = s.entry b i := by rw [MemState.entry, MemState.entry, h]
    rw [MemState.tablesAlong, MemState.tablesAlong, hentry]

/-! ## One level -/

/-- From `s` to `s'` page `p`, the first free one, became the table behind entry `i`. -/
structure Creates (s s' : MemState) (tableAddr : Nat) (i : Index) (p : Nat) : Prop where
  absent : (s.entry tableAddr i).present = false
  free : s.pmm.Free p
  first : ∀ q < p, ¬ s.pmm.Free q
  root : s'.root = s.root
  count : s'.pmm.count = s.pmm.count
  bits (q : Nat) : bitRead s'.pmm.bitmap q = (decide (q = p) || bitRead s.pmm.bitmap q)
  card : s'.pmm.freePages.card + 1 = s.pmm.freePages.card
  table : ∃ e : PageTableEntry, e.present = true ∧ e.address.toNat <<< 12 = p * pageSize ∧
    ∀ t j, s'.tables t j = if t = tableAddr / pageSize ∧ j = i then e
      else if t = p then .zero else s.tables t j

/-- What `get_or_create_next_table` does: the table is there, or there is no page for it, or it is
created on the first free page. -/
theorem getOrCreateNextTable_step (s : MemState) (tableAddr : Nat) (i : Index) :
    ((s.entry tableAddr i).present = true ∧
        s.getOrCreateNextTable tableAddr i = ((s.entry tableAddr i).address.toNat <<< 12, s)) ∨
      ((s.entry tableAddr i).present = false ∧ s.pmm.freePages = ∅ ∧
        s.getOrCreateNextTable tableAddr i = (0, s)) ∨
      ∃ p s', s.getOrCreateNextTable tableAddr i = (p * pageSize, s') ∧
        Creates s s' tableAddr i p := by
  cases hp : (s.entry tableAddr i).present with
  | true =>
    refine .inl ⟨rfl, ?_⟩
    rw [MemState.getOrCreateNextTable, if_pos hp]
  | false =>
    have habs : ¬ (s.entry tableAddr i).present = true := by simp [hp]
    cases hm : pmmMallocPage s.pmm with
    | none =>
      refine .inr (.inl ⟨rfl, freePages_eq_empty hm, ?_⟩)
      rw [MemState.getOrCreateNextTable, if_neg habs, hm]
    | some r =>
      obtain ⟨addr, bits⟩ := r
      obtain ⟨p, rfl, hlt, hfree, hfirst, hbits⟩ := pmmMallocPage_page hm
      let s₀ := (s.setPmm bits).clearPage (p * pageSize)
      let e : PageTableEntry := { s₀.entry tableAddr i with
        present := true, readWrite := true, address := BitVec.ofNat 40 ((p * pageSize) >>> 12) }
      have hget : s.getOrCreateNextTable tableAddr i =
          (p * pageSize, s₀.setEntry tableAddr i e) := by
        rw [MemState.getOrCreateNextTable, if_neg habs, hm]
      have haddr : e.address.toNat <<< 12 = p * pageSize := by
        simp only [e, page_shiftRight, BitVec.toNat_ofNat]
        rw [Nat.mod_eq_of_lt (by omega), page_shiftLeft]
      refine .inr (.inr ⟨p, _, hget, hp, hfree, hfirst, rfl, rfl, hbits, freePages_mallocPage hm,
        e, rfl, haddr, fun t j => ?_⟩)
      simp only [s₀, MemState.setEntry, MemState.clearPage, MemState.setPmm, page_div]

namespace Creates

variable {p : Nat} (hc : Creates s s' tableAddr i p)
include hc

theorem free_of_free {q : Nat} (h : s'.pmm.Free q) : s.pmm.Free q := by
  have hbit := h.2
  rw [hc.bits, Bool.or_eq_false_iff] at hbit
  exact ⟨hc.count ▸ h.1, hbit.2⟩

/-- The new table is in use. -/
theorem not_free : ¬ s'.pmm.Free p := fun h => by
  have hbit := h.2
  rw [hc.bits, decide_eq_true rfl] at hbit
  cases hbit

/-- Present entries outside the new table are kept. -/
theorem tables_eq {t : Nat} {j : Index} (ht : t ≠ p) (hp : (s.tables t j).present = true) :
    s'.tables t j = s.tables t j := by
  obtain ⟨e, -, -, htables⟩ := hc.table
  have hne : ¬ (t = tableAddr / pageSize ∧ j = i) := by
    rintro ⟨rfl, rfl⟩
    have habs := hc.absent
    rw [MemState.entry, hp] at habs
    cases habs
  rw [htables, if_neg hne, if_neg ht]

/-- The entry leads to the new table. -/
theorem tablesAlong_cons (is : List Index) :
    s'.tablesAlong tableAddr (i :: is) = p * pageSize :: s'.tablesAlong (p * pageSize) is := by
  obtain ⟨e, hpres, haddr, htables⟩ := hc.table
  have hentry : s'.entry tableAddr i = e := by
    rw [MemState.entry, htables, if_pos ⟨rfl, rfl⟩]
  rw [tablesAlong_present (by rw [hentry, hpres]), hentry, haddr]

/-- The new table is empty, but for the entry in it that may have been written since. -/
theorem entry_new (j : Index) : (s'.entry (p * pageSize) j).present = false ∨
    (s'.entry (p * pageSize) j).address.toNat <<< 12 = p * pageSize := by
  obtain ⟨e, -, haddr, htables⟩ := hc.table
  rw [MemState.entry, page_div, htables]
  split
  · exact .inr haddr
  · rw [if_pos rfl]
    exact .inl rfl

/-- No table is behind the new one, unless that is the table with the new entry. -/
theorem tablesAlong_new_eq_nil (hne : tableAddr / pageSize ≠ p) (is : List Index) :
    s'.tablesAlong (p * pageSize) is = [] := by
  obtain ⟨e, -, -, htables⟩ := hc.table
  cases is with
  | nil => rfl
  | cons j is =>
    refine tablesAlong_absent ?_
    rw [MemState.entry, page_div, htables, if_neg fun h => hne h.1.symm, if_pos rfl]
    rfl

/-- A new table at page 0 aside, no path gets to address 0. -/
theorem zero_notMem_new (hp : p ≠ 0) (is : List Index) :
    0 ∉ s'.tablesAlong (p * pageSize) is := by
  have hpos : p * pageSize ≠ 0 := Nat.mul_ne_zero hp (by decide)
  induction is with
  | nil => exact List.not_mem_nil
  | cons j is ih =>
    cases hpres : (s'.entry (p * pageSize) j).present with
    | false =>
      rw [tablesAlong_absent hpres]
      exact List.not_mem_nil
    | true =>
      have haddr := (hc.entry_new j).resolve_left (by simp [hpres])
      rw [tablesAlong_present hpres, haddr]
      exact List.not_mem_cons_of_ne_of_not_mem hpos.symm ih

theorem zero_notMem (hp : p ≠ 0) {a : Nat} {is : List Index} (h : 0 ∉ s.tablesAlong a is) :
    0 ∉ s'.tablesAlong a is := by
  induction is generalizing a with
  | nil => exact List.not_mem_nil
  | cons j is ih =>
    by_cases hentry : a / pageSize = tableAddr / pageSize ∧ j = i
    · rw [hentry.2, tablesAlong_page hentry.1, hc.tablesAlong_cons]
      exact List.not_mem_cons_of_ne_of_not_mem (Nat.mul_ne_zero hp (by decide)).symm
        (hc.zero_notMem_new hp is)
    · obtain ⟨e, -, -, htables⟩ := hc.table
      by_cases hnew : a / pageSize = p
      · have hzero : (s'.entry a j).present = false := by
          rw [MemState.entry, htables, if_neg hentry, if_pos hnew]
          rfl
        rw [tablesAlong_absent hzero]
        exact List.not_mem_nil
      · have hsame : s'.entry a j = s.entry a j := by
          rw [MemState.entry, htables, if_neg hentry, if_neg hnew]
          rfl
        cases hpres : (s.entry a j).present with
        | false =>
          rw [tablesAlong_absent (by rw [hsame, hpres])]
          exact List.not_mem_nil
        | true =>
          rw [tablesAlong_present hpres, List.mem_cons, not_or] at h
          rw [tablesAlong_present (by rw [hsame, hpres]), hsame]
          exact List.not_mem_cons_of_ne_of_not_mem h.1 (ih h.2)

end Creates

/-! ## The tables after a walk -/

/-- A walk that ends goes on from the table that is there, or from the one that it creates. -/
theorem nextTables_of_isSome {i : Index} (h : (nextTables s tableAddr (i :: is)).1.isSome) :
    ((s.entry tableAddr i).present = true ∧ nextTables s tableAddr (i :: is) =
        nextTables s ((s.entry tableAddr i).address.toNat <<< 12) is) ∨
      ∃ p s', p ≠ 0 ∧ Creates s s' tableAddr i p ∧
        nextTables s tableAddr (i :: is) = nextTables s' (p * pageSize) is := by
  simp only [nextTables] at h ⊢
  rcases getOrCreateNextTable_step s tableAddr i with
    ⟨hpres, he⟩ | ⟨-, -, he⟩ | ⟨p, s', he, hc⟩
  · rw [he] at h ⊢
    split at h
    · cases h
    · rename_i hne
      exact .inl ⟨hpres, if_neg hne⟩
  · rw [he, if_pos rfl] at h
    cases h
  · rw [he] at h ⊢
    split at h
    · cases h
    · rename_i hne
      exact .inr ⟨p, s', fun hp => hne (by rw [hp, Nat.zero_mul]), hc, if_neg hne⟩

/-- A walk that gets to address 0 over present entries changes nothing. -/
theorem nextTables_of_zero_mem (h : 0 ∈ s.tablesAlong tableAddr is) :
    nextTables s tableAddr is = (none, s) := by
  induction is generalizing tableAddr with
  | nil => cases h
  | cons i is ih =>
    cases hpres : (s.entry tableAddr i).present with
    | false =>
      rw [tablesAlong_absent hpres] at h
      cases h
    | true =>
      rw [tablesAlong_present hpres, List.mem_cons] at h
      simp only [nextTables, MemState.getOrCreateNextTable, hpres, ↓reduceIte]
      split
      · rfl
      · exact ih (h.resolve_left fun h => absurd h.symm ‹_›)

/-- If page 0 is in use, a walk leaves no path that gets to address 0 but those there were. -/
theorem nextTables_zero_notMem {a : Nat} {js : List Index} (h0 : ¬ s.pmm.Free 0)
    (h : 0 ∉ s.tablesAlong a js) : 0 ∉ (nextTables s tableAddr is).2.tablesAlong a js := by
  induction is generalizing s tableAddr with
  | nil => exact h
  | cons i is ih =>
    simp only [nextTables]
    rcases getOrCreateNextTable_step s tableAddr i with
      ⟨-, he⟩ | ⟨-, -, he⟩ | ⟨p, s₁, he, hc⟩
    · rw [he]
      split
      · exact h
      · exact ih h0 h
    · rw [he, if_pos rfl]
      exact h
    · have hp : p ≠ 0 := fun h => h0 (h ▸ hc.free)
      rw [he, if_neg (Nat.mul_ne_zero hp (by decide))]
      exact ih (fun hf => h0 (hc.free_of_free hf)) (hc.zero_notMem hp h)

/-- A walk ends if the PMM has a page for each missing table and page 0 does not get in the way. -/
theorem nextTables_ends (hz : 0 ∉ s.tablesAlong tableAddr is)
    (h0 : (s.tablesAlong tableAddr is).length = is.length ∨ ¬ s.pmm.Free 0)
    (hcost : is.length - (s.tablesAlong tableAddr is).length ≤ s.pmm.freePages.card) :
    (nextTables s tableAddr is).1.isSome := by
  induction is generalizing s tableAddr with
  | nil => rfl
  | cons i is ih =>
    simp only [nextTables]
    rcases getOrCreateNextTable_step s tableAddr i with
      ⟨hpres, he⟩ | ⟨habs, hfull, -⟩ | ⟨p, s₁, he, hc⟩
    · rw [tablesAlong_present hpres] at hz h0 hcost
      rw [List.mem_cons, not_or] at hz
      simp only [List.length_cons, Nat.add_right_cancel_iff, Nat.add_sub_add_right] at h0 hcost
      rw [he, if_neg (Ne.symm hz.1)]
      exact ih hz.2 h0 hcost
    · rw [tablesAlong_absent habs, hfull] at hcost
      simp at hcost
    · rw [tablesAlong_absent hc.absent] at h0 hcost
      simp only [List.length_cons, List.length_nil, Nat.sub_zero] at hcost
      have h0 : ¬ s.pmm.Free 0 := h0.resolve_left (by simp)
      have hp : p ≠ 0 := fun h => h0 (h ▸ hc.free)
      have hcost : is.length ≤ s₁.pmm.freePages.card := by
        have := hc.card
        omega
      rw [he, if_neg (Nat.mul_ne_zero hp (by decide))]
      exact ih (hc.zero_notMem_new hp is) (.inr fun hf => h0 (hc.free_of_free hf))
        ((Nat.sub_le _ _).trans hcost)

/-- A walk that misses a table while page 0 is free makes page 0 that table, and fails. -/
theorem nextTables_takes_zero (h0 : s.pmm.Free 0) (hz : 0 ∉ s.tablesAlong tableAddr is)
    (hlen : (s.tablesAlong tableAddr is).length < is.length) :
    let r := nextTables s tableAddr is
    r.1 = none ∧ r.2.root = s.root ∧
      (∀ t j, t ≠ 0 → (s.tables t j).present = true → r.2.tables t j = s.tables t j) ∧
      (tableAddr / pageSize ≠ 0 ∨ s.tablesAlong tableAddr is = [] →
        0 ∈ r.2.tablesAlong tableAddr is) ∧
      (tableAddr / pageSize ≠ 0 ∨ s.tablesAlong tableAddr is ≠ [] →
        ∀ j, (r.2.tables 0 j).present = false) := by
  induction is generalizing tableAddr with
  | nil => cases hlen
  | cons i is ih =>
    simp only [nextTables]
    rcases getOrCreateNextTable_step s tableAddr i with
      ⟨hpres, he⟩ | ⟨habs, hfull, -⟩ | ⟨p, s₁, he, hc⟩
    · rw [tablesAlong_present hpres] at hz hlen ⊢
      rw [List.mem_cons, not_or] at hz
      have hnext : (s.entry tableAddr i).address.toNat <<< 12 / pageSize ≠ 0 := by
        rw [page_shiftLeft, page_div]
        intro h
        rw [h] at hz
        exact hz.1 rfl
      rw [he, if_neg (Ne.symm hz.1)]
      obtain ⟨hnone, hroot, hkeep, hmem, hclear⟩ := ih hz.2 (Nat.lt_of_succ_lt_succ hlen)
      refine ⟨hnone, hroot, hkeep, fun hpage => ?_, fun _ => hclear (.inl hnext)⟩
      · have hentry : (nextTables s ((s.entry tableAddr i).address.toNat <<< 12) is).2.entry
            tableAddr i = s.entry tableAddr i :=
          hkeep _ _ (hpage.resolve_right (List.cons_ne_nil _ _)) hpres
        rw [tablesAlong_present (by rw [hentry, hpres]), hentry]
        exact List.mem_cons_of_mem _ (hmem (.inl hnext))
    · exact absurd (Bitmap.mem_freePages.mpr h0) (hfull ▸ Finset.notMem_empty 0)
    · have hp : p = 0 := Nat.eq_zero_of_not_pos fun hpos => hc.first 0 hpos h0
      subst hp
      rw [he, if_pos (Nat.zero_mul pageSize)]
      refine ⟨rfl, hc.root, fun t j ht hp => hc.tables_eq ht hp, fun _ => ?_, fun hpage j => ?_⟩
      · rw [hc.tablesAlong_cons, Nat.zero_mul]
        exact List.mem_cons_self
      · obtain ⟨e, -, -, htables⟩ := hc.table
        have hpage := hpage.resolve_right fun h => h (tablesAlong_absent hc.absent)
        rw [htables, if_neg fun h => hpage h.1.symm, if_pos rfl]
        rfl

/-- A walk keeps the entries that are present in the pages it does not take, and frees no page. -/
theorem nextTables_keeps (s : MemState) (tableAddr : Nat) (is : List Index) :
    let s' := (nextTables s tableAddr is).2
    s'.root = s.root ∧ (∀ p, s'.pmm.Free p → s.pmm.Free p) ∧
      ∀ t j, (s.pmm.Free t → s'.pmm.Free t) → (s.tables t j).present = true →
        s'.tables t j = s.tables t j := by
  induction is generalizing s tableAddr with
  | nil => exact ⟨rfl, fun _ h => h, fun _ _ _ _ => rfl⟩
  | cons i is ih =>
    simp only [nextTables]
    rcases getOrCreateNextTable_step s tableAddr i with
      ⟨-, he⟩ | ⟨-, -, he⟩ | ⟨p, s₁, he, hc⟩
    · rw [he]
      split
      · exact ⟨rfl, fun _ h => h, fun _ _ _ _ => rfl⟩
      · exact ih s _
    · rw [he, if_pos rfl]
      exact ⟨rfl, fun _ h => h, fun _ _ _ _ => rfl⟩
    · rw [he]
      have hkeep : ∀ t j, (s.pmm.Free t → s₁.pmm.Free t) → (s.tables t j).present = true →
          s₁.tables t j = s.tables t j :=
        fun t j ht hp => hc.tables_eq (fun h => hc.not_free (h ▸ ht (h ▸ hc.free))) hp
      split
      · exact ⟨hc.root, fun _ => hc.free_of_free, hkeep⟩
      · obtain ⟨hroot', hfrees', hkeep'⟩ := ih s₁ (p * pageSize)
        refine ⟨hroot'.trans hc.root, fun q hq => hc.free_of_free (hfrees' q hq), fun t j ht hp => ?_⟩
        have hfirst := hkeep t j (fun h => hfrees' t (ht h)) hp
        rw [hkeep' t j (fun h => ht (hc.free_of_free h)) (by rwa [hfirst]), hfirst]

/-- If the tables on the path are in use, the walk ends at the last table that is on it then. -/
theorem nextTables_last {a : Nat}
    (hin : TablesInUse s.pmm (tableAddr :: s.tablesAlong tableAddr is))
    (h : (nextTables s tableAddr is).1 = some a) :
    let path := (nextTables s tableAddr is).2.tablesAlong tableAddr is
    path.length = is.length ∧ (tableAddr :: path).getLast? = some a := by
  induction is generalizing s tableAddr with
  | nil =>
    obtain rfl := Option.some.inj h
    exact ⟨rfl, rfl⟩
  | cons i is ih =>
    have hpage : ¬ s.pmm.Free (tableAddr / pageSize) := hin _ List.mem_cons_self
    rcases nextTables_of_isSome (Option.isSome_of_eq_some h) with
      ⟨hpres, he⟩ | ⟨p, s₁, -, hc, he⟩ <;> rw [he] at h ⊢
    · rw [tablesAlong_present hpres] at hin
      obtain ⟨hlen, hlast⟩ := ih (List.forall_mem_cons.mp hin).2 h
      have hentry : (nextTables s ((s.entry tableAddr i).address.toNat <<< 12) is).2.entry
          tableAddr i = s.entry tableAddr i := (nextTables_keeps s _ is).2.2 _ _ (absurd · hpage) hpres
      rw [tablesAlong_present (by rw [hentry, hpres]), hentry]
      exact ⟨by rw [List.length_cons, List.length_cons, hlen], hlast⟩
    · -- The new table is in use and empty.
      obtain ⟨e, hpres, haddr, htables⟩ := hc.table
      have hother : tableAddr / pageSize ≠ p := fun h => hpage (h ▸ hc.free)
      have hempty := hc.tablesAlong_new_eq_nil hother is
      have hnew : TablesInUse s₁.pmm (p * pageSize :: s₁.tablesAlong (p * pageSize) is) := by
        rw [hempty]
        exact List.forall_mem_singleton.mpr (by rw [page_div]; exact hc.not_free)
      obtain ⟨hlen, hlast⟩ := ih hnew h
      have hset : s₁.entry tableAddr i = e := by
        rw [MemState.entry, htables, if_pos ⟨rfl, rfl⟩]
      have hentry : (nextTables s₁ (p * pageSize) is).2.entry tableAddr i = e := by
        rw [← hset]
        exact (nextTables_keeps s₁ _ is).2.2 _ _ (fun h => absurd (hc.free_of_free h) hpage)
          (by rw [← MemState.entry, hset, hpres])
      rw [tablesAlong_present (by rw [hentry, hpres]), hentry, haddr]
      exact ⟨by rw [List.length_cons, List.length_cons, hlen], hlast⟩

/-! ## `page_walk` -/

theorem lastTable_length (v : Nat) : (lastTable v).length = 3 := rfl

theorem pageWalk_isSome_iff {v : Nat} :
    (s.pageWalk v).1.isSome ↔ (nextTables s s.getStartOfTree (lastTable v)).1.isSome := by
  rw [pageWalk_eq, Option.isSome_map]

/-- What `page_walk` returns is not null. -/
theorem nextTables_ne_zero {a : Nat} (hne : is ≠ []) (h : (nextTables s tableAddr is).1 = some a) :
    a ≠ 0 := by
  induction is generalizing s tableAddr with
  | nil => exact absurd rfl hne
  | cons i is ih =>
    simp only [nextTables] at h
    split at h
    · cases h
    · rename_i h0
      cases is with
      | nil => exact fun ha => h0 ((Option.some.inj h).trans ha)
      | cons j js => exact ih (List.cons_ne_nil _ _) h

theorem pageWalk_succeeds {v : Nat} (hz : 0 ∉ s.tablesOf v)
    (h0 : s.missingTables v = 0 ∨ ¬ s.pmm.Free 0)
    (hcost : s.missingTables v ≤ s.pmm.freePages.card) : (s.pageWalk v).1.isSome := by
  have hle := tablesAlong_length_le s s.getStartOfTree (lastTable v)
  rw [MemState.missingTables, MemState.tablesOf] at h0 hcost
  rw [lastTable_length] at hle
  refine pageWalk_isSome_iff.mpr (nextTables_ends hz (h0.imp_left fun h => ?_) hcost)
  rw [lastTable_length]
  omega

theorem pageWalk_of_zero_mem {v : Nat} (h : 0 ∈ s.tablesOf v) : s.pageWalk v = (none, s) := by
  rw [pageWalk_eq, nextTables_of_zero_mem h]
  rfl

theorem tablesOf_congr {v : Nat} (htables : s'.tables = s.tables) (hroot : s'.root = s.root) :
    s'.tablesOf v = s.tablesOf v := by
  rw [MemState.tablesOf, MemState.getStartOfTree, hroot]
  exact tablesAlong_congr htables _ _

/-- The path of an address after a walk. -/
theorem tablesOf_pageWalk (s : MemState) (v : Nat) : (s.pageWalk v).2.tablesOf v =
    (nextTables s s.getStartOfTree (lastTable v)).2.tablesAlong s.getStartOfTree (lastTable v) := by
  have hroot := (nextTables_keeps s s.getStartOfTree (lastTable v)).1
  have hstart : (nextTables s s.getStartOfTree (lastTable v)).2.getStartOfTree = s.getStartOfTree := by
    rw [MemState.getStartOfTree, hroot, MemState.getStartOfTree]
  rw [pageWalk_eq, MemState.tablesOf]
  exact congrArg (MemState.tablesAlong _ · _) hstart

/-- A table is missing, and the page for it is page 0. -/
theorem pageWalk_takes_zero {v : Nat} (hz : 0 ∉ s.tablesOf v) (hmiss : s.missingTables v ≠ 0)
    (h0 : s.pmm.Free 0) :
    (s.pageWalk v).1 = none ∧
      (s.root ≠ 0 ∨ s.tablesOf v = [] → 0 ∈ (s.pageWalk v).2.tablesOf v) ∧
      (s.root = 0 → s.tablesOf v ≠ [] → (s.pageWalk v).2.tablesOf v = []) := by
  have hpage : s.getStartOfTree / pageSize = s.root := page_div s.root
  have hlen : (s.tablesOf v).length < (lastTable v).length := by
    rw [lastTable_length]
    rw [MemState.missingTables] at hmiss
    omega
  obtain ⟨hnone, -, -, hmem, hclear⟩ := nextTables_takes_zero h0 hz hlen
  rw [hpage] at hmem hclear
  rw [tablesOf_pageWalk]
  refine ⟨by rw [pageWalk_eq, hnone]; rfl, hmem, fun hroot hne => tablesAlong_absent ?_⟩
  rw [MemState.entry, hpage, hroot]
  exact hclear (.inr hne) _

end EszOs
