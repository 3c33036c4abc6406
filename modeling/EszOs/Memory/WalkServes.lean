import EszOs.Memory.FreeCost

/-!
# When `page_walk` serves (`memory/virtual/paging/paging.cpp`)

`page_walk` takes the address 0 of a table for a failure, and the PMM hands out page 0 like any
other. Nor does the PMM know which pages are page tables: a table on a page that is marked free may
be taken for a new one, and is cleared then. All tables that the source follows count here, whatever
the hardware makes of their entries.

* `nextTables_taken_iff`: a walk that ends took the lowest free pages, `takesAlong` of them.
* `nextTables_ends_iff`: the table it ended at is the last one on the path, exactly if the path was
  spared.
* `pageWalk_serves_iff`: walks fail for lack of memory only, exactly if page 0 does not get in the
  way and the path is spared.
-/

namespace EszOs

open Bytes

/-! ## The pages that a walk takes -/

/-- The number of pages that a walk along `is` takes: one for each missing table. If the table where
it stops is itself on the lowest free page, its entry leads back to it, and the next entries are
present as long as they are the same. -/
def MemState.takesAlong (s : MemState) (tableAddr : Nat) : List Index → Nat
  | [] => 0
  | i :: is =>
    if (s.entry tableAddr i).present then
      s.takesAlong ((s.entry tableAddr i).address.toNat <<< 12) is
    else if s.pmm.LowestFree 1 (tableAddr / pageSize) then
      is.length - (is.takeWhile (· == i)).length + 1
    else is.length + 1

/-- The number of pages that the walk of the path of an address takes. -/
def MemState.takes (s : MemState) (v : Nat) : Nat := s.takesAlong s.getStartOfTree (lastTable v)

/-- The `n` lowest free pages hold no table on the path, but for the last one if that is on the
lowest of them. -/
structure Spared (b : Bitmap) (n : Nat) (tables : List Nat) : Prop where
  inner {a : Nat} (h : a ∈ tables.dropLast) : ¬ b.LowestFree n (a / pageSize)
  last {a : Nat} (h : tables.getLast? = some a) :
    b.LowestFree n (a / pageSize) → b.LowestFree 1 (a / pageSize)

variable {s s' : MemState} {tableAddr p q v : Nat} {i j : Index} {is js : List Index}

theorem spared_singleton {b : Bitmap} {n a : Nat} :
    Spared b n [a] ↔ (b.LowestFree n (a / pageSize) → b.LowestFree 1 (a / pageSize)) := by
  refine ⟨fun h => h.last rfl, fun h => ⟨fun ha => absurd ha List.not_mem_nil, fun ha => ?_⟩⟩
  obtain rfl := Option.some.inj ha
  exact h

theorem spared_cons {b : Bitmap} {n a a' : Nat} {tables : List Nat} :
    Spared b n (a :: a' :: tables) ↔
      ¬ b.LowestFree n (a / pageSize) ∧ Spared b n (a' :: tables) := by
  constructor
  · intro h
    refine ⟨h.inner List.mem_cons_self, fun ha => h.inner (List.mem_cons_of_mem _ ha), fun ha => ?_⟩
    exact h.last (by rwa [List.getLast?_cons_cons])
  · rintro ⟨ha, h⟩
    refine ⟨fun hx => ?_, fun hx => h.last (by rwa [List.getLast?_cons_cons] at hx)⟩
    rcases List.mem_cons.mp hx with rfl | hx
    · exact ha
    · exact h.inner hx

/-- The lowest free page is the one the PMM hands out. -/
theorem Creates.lowestFree_one_iff (hc : Creates s s' tableAddr i p) :
    s.pmm.LowestFree 1 q ↔ q = p := by
  rw [hc.lowestFree_iff, or_iff_left lowestFree_zero]

/-- The tables behind the new one. -/
theorem Creates.tablesAlong_new (hc : Creates s s' tableAddr i p) (is : List Index) :
    (s'.tablesAlong (p * pageSize) is).length =
      if s.pmm.LowestFree 1 (tableAddr / pageSize) then (is.takeWhile (· == i)).length else 0 := by
  by_cases hloop : tableAddr / pageSize = p
  · rw [if_pos (hc.lowestFree_one_iff.mpr hloop)]
    obtain ⟨e, hpres, haddr, htables⟩ := hc.table
    induction is with
    | nil => rfl
    | cons j is ih =>
      by_cases hj : j = i
      · have hentry : s'.entry (p * pageSize) j = e := by
          rw [MemState.entry, page_div, htables, if_pos ⟨hloop.symm, hj⟩]
        rw [tablesAlong_present (by rw [hentry, hpres]), hentry, haddr,
          List.takeWhile_cons_of_pos (by simpa using hj), List.length_cons, List.length_cons, ih]
      · have hentry : s'.entry (p * pageSize) j = .zero := by
          rw [MemState.entry, page_div, htables, if_neg fun h => hj h.2, if_pos rfl]
        rw [tablesAlong_absent (by rw [hentry]; rfl),
          List.takeWhile_cons_of_neg (by simpa using hj), List.length_nil]
        rfl
  · rw [if_neg fun h => hloop (hc.lowestFree_one_iff.mp h), hc.tablesAlong_new_eq_nil hloop]
    rfl

/-- The new table is in use, and so is all that is behind it. -/
theorem Creates.tablesInUse (hc : Creates s s' tableAddr i p) (is : List Index) :
    TablesInUse s'.pmm (p * pageSize :: s'.tablesAlong (p * pageSize) is) := by
  have hnew : ¬ s'.pmm.Free (p * pageSize / pageSize) := by
    rw [page_div]
    exact hc.not_free
  refine List.forall_mem_cons.mpr ⟨hnew, ?_⟩
  induction is with
  | nil => exact fun a ha => absurd ha List.not_mem_nil
  | cons j is ih =>
    cases hpres : (s'.entry (p * pageSize) j).present with
    | false =>
      rw [tablesAlong_absent hpres]
      exact fun a ha => absurd ha List.not_mem_nil
    | true =>
      rw [tablesAlong_present hpres, (hc.entry_new j).resolve_left (by simp [hpres])]
      exact List.forall_mem_cons.mpr ⟨hnew, ih⟩

theorem nextTables_count (s : MemState) (tableAddr : Nat) (is : List Index) :
    (nextTables s tableAddr is).2.pmm.count = s.pmm.count := by
  induction is generalizing s tableAddr with
  | nil => rfl
  | cons i is ih =>
    simp only [nextTables]
    rcases getOrCreateNextTable_step s tableAddr i with
      ⟨-, he⟩ | ⟨-, -, he⟩ | ⟨p, s₁, he, hc⟩ <;> rw [he] <;> split
    · rfl
    · exact ih _ _
    · rfl
    · exact ih _ _
    · exact hc.count
    · exact (ih _ _).trans hc.count

theorem nextTables_free_iff (hin : TablesInUse s.pmm (tableAddr :: s.tablesAlong tableAddr is))
    (q : Nat) : (nextTables s tableAddr is).2.pmm.Free q ↔
      s.pmm.Free q ∧ ¬ s.pmm.LowestFree (s.demandAlong tableAddr is) q := by
  have hbits := nextTables_bits_iff hin q
  rw [Bitmap.Free, Bitmap.Free, nextTables_count, ← Bool.not_eq_true, hbits, ← Bool.not_eq_true]
  tauto

/-- A walk that ends took the lowest free pages. -/
theorem nextTables_taken_iff (h : (nextTables s tableAddr is).1.isSome) (q : Nat) :
    s.pmm.LowestFree (s.takesAlong tableAddr is) q ↔
      s.pmm.Free q ∧ ¬ (nextTables s tableAddr is).2.pmm.Free q := by
  induction is generalizing s tableAddr with
  | nil => exact iff_of_false lowestFree_zero fun h => h.2 h.1
  | cons i is ih =>
    rcases nextTables_of_isSome h with ⟨hpres, he⟩ | ⟨p, s₁, hp, hc, he⟩ <;> rw [he] at h ⊢
    · rw [MemState.takesAlong, if_pos hpres]
      exact ih h
    · have h0 : ¬ s₁.pmm.Free 0 := fun h => hc.first 0 (Nat.pos_of_ne_zero hp) (hc.free_of_free h)
      have habs : ¬ (s.entry tableAddr i).present = true := by simp [hc.absent]
      have hdemand : s₁.demandAlong (p * pageSize) is + 1 = s.takesAlong tableAddr (i :: is) := by
        rw [MemState.demandAlong, if_neg (hc.zero_notMem_new hp is), if_neg h0,
          hc.tablesAlong_new, MemState.takesAlong, if_neg habs]
        split <;> rfl
      have hlow : s₁.pmm.LowestFree (s₁.demandAlong (p * pageSize) is) q → s₁.pmm.Free q := And.left
      rw [← hdemand, hc.lowestFree_iff, nextTables_free_iff (hc.tablesInUse is)]
      constructor
      · rintro (rfl | hq)
        · exact ⟨hc.free, fun h => hc.not_free h.1⟩
        · exact ⟨hc.free_of_free (hlow hq), fun h => h.2 hq⟩
      · rintro ⟨hq, hnot⟩
        by_cases hqp : q = p
        · exact .inl hqp
        · exact .inr (not_not.mp fun h => hnot ⟨hc.free_iff.mpr ⟨hq, hqp⟩, h⟩)

/-! ## The tables on the path after a walk -/

/-- A walk from a table `p` in use whose entries lead nowhere but back to it. The tables on the path
behind it, and behind the pages taken, are those of the walk, and pages in use are left alone. -/
theorem nextTables_new (hp : ¬ s.pmm.Free p)
    (hself : ∀ j, (s.tables p j).present = true →
      (s.tables p j).address.toNat <<< 12 = p * pageSize)
    (h : (nextTables s (p * pageSize) is).1.isSome) :
    let s' := (nextTables s (p * pageSize) is).2
    (∀ j js, (s.tables p j).present = false →
        (s'.tablesAlong (p * pageSize) (j :: js)).length ≤ is.length) ∧
      (∀ q js, s.pmm.Free q → ¬ s'.pmm.Free q →
        (s'.tablesAlong (q * pageSize) js).length < is.length) ∧
      ∀ r, ¬ s.pmm.Free r → r ≠ p → s'.tables r = s.tables r := by
  induction is generalizing s p with
  | nil =>
    refine ⟨fun j js habs => ?_, fun q js hq hnot => absurd hq hnot, fun r _ _ => rfl⟩
    rw [nextTables, tablesAlong_absent (by rw [MemState.entry, page_div, habs])]
    exact Nat.le_refl 0
  | cons i is ih =>
    have hpage : p * pageSize / pageSize = p := page_div p
    rcases nextTables_of_isSome h with ⟨hpres, he⟩ | ⟨p₁, s₁, -, hc, he⟩ <;> rw [he] at h ⊢
    · rw [MemState.entry, hpage] at hpres
      simp only [MemState.entry, hpage, hself i hpres] at h ⊢
      obtain ⟨habs, htaken, hsame⟩ := ih hp hself h
      exact ⟨fun j js hj => (habs j js hj).trans (Nat.le_succ _),
        fun q js hq hnot => (htaken q js hq hnot).trans (Nat.lt_succ_self _), hsame⟩
    · have hother : p ≠ p₁ := fun h => hp (h ▸ hc.free)
      obtain ⟨e, hpres, haddr, htables⟩ := hc.table
      rw [hpage] at htables
      have hzero : ∀ j, (s₁.tables p₁ j).present = false := fun j => by
        rw [htables, if_neg fun h => hother h.1.symm, if_pos rfl]
        rfl
      have hin : ¬ s₁.pmm.Free p := fun h => hp (hc.free_of_free h)
      obtain ⟨habs, htaken, hsame⟩ := ih hc.not_free
        (fun j hj => absurd hj (by simp [hzero j])) h
      -- Behind the new table there are at most the tables of the rest of the walk.
      have hnew : ∀ js, ((nextTables s₁ (p₁ * pageSize) is).2.tablesAlong
          (p₁ * pageSize) js).length ≤ is.length := fun js => by
        cases js with
        | nil => exact Nat.zero_le _
        | cons j js => exact habs j js (hzero j)
      refine ⟨fun j js hj => ?_, fun q js hq hnot => ?_, fun r hr hrp => ?_⟩
      · have hkept := congrFun (hsame p hin hother) j
        by_cases hji : j = i
        · have hentry : (nextTables s₁ (p₁ * pageSize) is).2.entry (p * pageSize) j = e := by
            rw [MemState.entry, hpage, hkept, htables, if_pos ⟨rfl, hji⟩]
          rw [tablesAlong_present (by rw [hentry, hpres]), hentry, haddr, List.length_cons]
          exact Nat.succ_le_succ (hnew js)
        · rw [tablesAlong_absent]
          · exact Nat.zero_le _
          · rw [MemState.entry, hpage, hkept, htables, if_neg fun h => hji h.2, if_neg hother, hj]
      · by_cases hq₁ : q = p₁
        · rw [hq₁]
          exact Nat.lt_succ_of_le (hnew js)
        · exact (htaken q js (hc.free_iff.mpr ⟨hq, hq₁⟩) hnot).trans (Nat.lt_succ_self _)
      · have hr₁ : r ≠ p₁ := fun h => hr (h ▸ hc.free)
        rw [hsame r (fun h => hr (hc.free_of_free h)) hr₁]
        funext j
        rw [htables, if_neg fun h => hrp h.1, if_neg hr₁]

/-- The new table has no entry but for the one that may lead back to it. -/
theorem Creates.leadsBack (hc : Creates s s' tableAddr i p) (j : Index)
    (hj : (s'.tables p j).present = true) : (s'.tables p j).address.toNat <<< 12 = p * pageSize := by
  have hentry : s'.entry (p * pageSize) j = s'.tables p j := by rw [MemState.entry, page_div]
  have hnew := hc.entry_new j
  rw [hentry] at hnew
  exact hnew.resolve_left (by simp [hj])

/-- A table that a walk takes is off the path through the entries it had. -/
theorem nextTables_taken_short (h : (nextTables s tableAddr is).1.isSome) (hq : s.pmm.Free q)
    (hnot : ¬ (nextTables s tableAddr is).2.pmm.Free q) (hpres : (s.tables q j).present = true)
    (js : List Index) :
    ((nextTables s tableAddr is).2.tablesAlong (q * pageSize) (j :: js)).length < is.length := by
  induction is generalizing s tableAddr with
  | nil => exact absurd hq hnot
  | cons i is ih =>
    rcases nextTables_of_isSome h with ⟨-, he⟩ | ⟨p, s₁, -, hc, he⟩ <;> rw [he] at h hnot ⊢
    · exact (ih h hq hnot hpres).trans (Nat.lt_succ_self _)
    · by_cases hqp : q = p
      · -- The entry was cleared, and is not the one that was written since.
        subst hqp
        obtain ⟨e, -, -, htables⟩ := hc.table
        have hcleared : (s₁.tables q j).present = false := by
          have habs := hc.absent
          have hentry : ¬ (q = tableAddr / pageSize ∧ j = i) := by
            rintro ⟨rfl, rfl⟩
            rw [MemState.entry, hpres] at habs
            cases habs
          rw [htables, if_neg hentry, if_pos rfl]
          rfl
        obtain ⟨habs, -, -⟩ := nextTables_new hc.not_free hc.leadsBack h
        exact Nat.lt_succ_of_le (habs j js hcleared)
      · have hkept : s₁.tables q j = s.tables q j := hc.tables_eq hqp hpres
        have hfree : s₁.pmm.Free q := hc.free_iff.mpr ⟨hq, hqp⟩
        exact (ih h hfree hnot (by rw [hkept, hpres])).trans (Nat.lt_succ_self _)

/-- A walk ends at the last table that is on the path then, exactly if the path was spared. -/
theorem nextTables_ends_iff {a : Nat} (h : (nextTables s tableAddr is).1 = some a) :
    (((nextTables s tableAddr is).2.tablesAlong tableAddr is).length = is.length ∧
        (tableAddr :: (nextTables s tableAddr is).2.tablesAlong tableAddr is).getLast? = some a) ↔
      Spared s.pmm (s.takesAlong tableAddr is) (tableAddr :: s.tablesAlong tableAddr is) := by
  induction is generalizing s tableAddr with
  | nil =>
    obtain rfl := Option.some.inj h
    exact iff_of_true ⟨rfl, rfl⟩ (spared_singleton.mpr fun h => absurd h lowestFree_zero)
  | cons i is ih =>
    have htaken := nextTables_taken_iff (Option.isSome_of_eq_some h) (tableAddr / pageSize)
    rcases nextTables_of_isSome (Option.isSome_of_eq_some h) with
      ⟨hpres, he⟩ | ⟨p, s₁, -, hc, he⟩ <;> rw [he] at h htaken ⊢
    · rw [tablesAlong_present hpres, spared_cons, htaken, MemState.takesAlong, if_pos hpres, ← ih h]
      by_cases ht : s.pmm.Free (tableAddr / pageSize) →
          (nextTables s ((s.entry tableAddr i).address.toNat <<< 12) is).2.pmm.Free
            (tableAddr / pageSize)
      · have hentry : (nextTables s ((s.entry tableAddr i).address.toNat <<< 12) is).2.entry
            tableAddr i = s.entry tableAddr i := (nextTables_keeps s _ is).2.2 _ _ ht hpres
        rw [tablesAlong_present (by rw [hentry, hpres]), hentry, List.length_cons,
          List.length_cons, Nat.add_right_cancel_iff, List.getLast?_cons_cons]
        exact (and_iff_right fun hnot => hnot.2 (ht hnot.1)).symm
      · obtain ⟨hfree, hnot⟩ := Classical.not_imp.mp ht
        have hshort := nextTables_taken_short (Option.isSome_of_eq_some h) hfree hnot hpres is
        rw [tablesAlong_page (page_div _)] at hshort
        refine iff_of_false (fun hfull => ?_) (fun hspared => hspared.1 ⟨hfree, hnot⟩)
        rw [hfull.1, List.length_cons] at hshort
        omega
    · rw [tablesAlong_absent hc.absent, spared_singleton, htaken, hc.lowestFree_one_iff]
      obtain ⟨e, hpres, haddr, htables⟩ := hc.table
      have hset : s₁.entry tableAddr i = e := by
        rw [MemState.entry, htables, if_pos ⟨rfl, rfl⟩]
      by_cases ht : s₁.pmm.Free (tableAddr / pageSize) →
          (nextTables s₁ (p * pageSize) is).2.pmm.Free (tableAddr / pageSize)
      · have hentry : (nextTables s₁ (p * pageSize) is).2.entry tableAddr i = e := by
          rw [← hset]
          exact (nextTables_keeps s₁ _ is).2.2 _ _ ht (by rw [← MemState.entry, hset, hpres])
        obtain ⟨hlen, hlast⟩ := nextTables_last (hc.tablesInUse is) h
        rw [tablesAlong_present (by rw [hentry, hpres]), hentry, haddr]
        refine iff_of_true ⟨by rw [List.length_cons, List.length_cons, hlen], hlast⟩ fun hspare => ?_
        by_contra hne
        exact hspare.2 (ht (hc.free_iff.mpr ⟨hspare.1, hne⟩))
      · obtain ⟨hfree, hnot⟩ := Classical.not_imp.mp ht
        obtain ⟨-, htaken', -⟩ := nextTables_new hc.not_free hc.leadsBack (Option.isSome_of_eq_some h)
        have hshort := htaken' _ (i :: is) hfree hnot
        rw [tablesAlong_page (page_div _)] at hshort
        refine iff_of_false (fun hfull => ?_) fun himp => ?_
        · rw [hfull.1, List.length_cons] at hshort
          omega
        · exact (hc.free_iff.mp hfree).2 (himp ⟨hc.free_of_free hfree, hnot⟩)

/-! ## When walks serve -/

/-- What a walk of the path of an address promises.

* `succeeds`: with a free page for each missing table, the entry found is not null, and it is in the
  last table on the path.
* `again`: a walk that failed stands in the way of no later one, once there are pages enough. -/
structure WalkServes (s : MemState) (v : Nat) : Prop where
  succeeds (h : s.missingTables v ≤ s.pmm.freePages.card) :
    ∃ t, t ≠ 0 ∧ (s.pageWalk v).1 = some (t, getPTIndex v) ∧
      ((s.pageWalk v).2.tablesOf v).length = 3 ∧ ((s.pageWalk v).2.tablesOf v).getLast? = some t
  again (h : (s.pageWalk v).1 = none) (s' : MemState) (htables : s'.tables = (s.pageWalk v).2.tables)
    (hroot : s'.root = (s.pageWalk v).2.root) (h0 : ¬ s'.pmm.Free 0)
    (hcost : s'.missingTables v ≤ s'.pmm.freePages.card) : (s'.pageWalk v).1.isSome

/-- What the state must be like for it.

* `clear`: no table on the path is at address 0.
* `enough`: if there is a page for each missing table, page 0 is none of the free ones, unless no
  table is missing, and no table on the path is taken for a new one.
* `scarce`: if there are fewer, page 0 is none of them. (The exception is a PML4 on page 0 that is
  itself the last free page: it is cleared, and page 0 is off the path again.) -/
structure WalkSpares (s : MemState) (v : Nat) : Prop where
  clear : 0 ∉ s.tablesOf v
  enough (h : s.missingTables v ≤ s.pmm.freePages.card) :
    (s.missingTables v = 0 ∨ ¬ s.pmm.Free 0) ∧
      Spared s.pmm (s.takes v) (s.getStartOfTree :: s.tablesOf v)
  scarce (h : s.pmm.freePages.card < s.missingTables v) :
    ¬ s.pmm.Free 0 ∨ (s.root = 0 ∧ s.tablesOf v ≠ [])

/-- The same page tables with pages 1 to 7 free. -/
def MemState.refill (s : MemState) : MemState :=
  { s with pmm := ⟨fun _ => 1, 8⟩, pmm_le := oneByte_le }

theorem refill_free_zero : ¬ s.refill.pmm.Free 0 := fun h => by
  have hbit : bitRead (fun _ => 1) 0 = true := by decide
  exact Bool.false_ne_true (h.2.symm.trans hbit)

theorem refill_freePages : s.refill.pmm.freePages.card = 7 := by
  have : s.refill.pmm = ⟨fun _ => 1, 8⟩ := rfl
  rw [this]
  decide

/-- Page tables with address 0 on the path fail every walk. -/
theorem not_walkServes_of_zero_mem {v : Nat} (hnone : (s.pageWalk v).1 = none)
    (h : 0 ∈ (s.pageWalk v).2.tablesOf v) : ¬ WalkServes s v := fun hw => by
  have hsome := hw.again hnone (s.pageWalk v).2.refill rfl rfl refill_free_zero (by
    rw [refill_freePages, MemState.missingTables]
    omega)
  have hsame : (s.pageWalk v).2.refill.tablesOf v = (s.pageWalk v).2.tablesOf v :=
    tablesOf_congr rfl rfl
  rw [pageWalk_of_zero_mem (hsame ▸ h)] at hsome
  cases hsome

/-- The entry that a walk returns is in the last table on the path exactly if the path was spared. -/
theorem pageWalk_ends_iff {t : Nat} (h : (s.pageWalk v).1 = some (t, getPTIndex v)) :
    (((s.pageWalk v).2.tablesOf v).length = 3 ∧ ((s.pageWalk v).2.tablesOf v).getLast? = some t) ↔
      Spared s.pmm (s.takes v) (s.getStartOfTree :: s.tablesOf v) := by
  rw [pageWalk_eq] at h
  obtain ⟨a, ha, hat⟩ := Option.map_eq_some_iff.mp h
  obtain rfl : a = t := congrArg Prod.fst hat
  have hiff := nextTables_ends_iff ha
  rw [← tablesOf_pageWalk, lastTable_length] at hiff
  refine (and_congr_right fun hlen => ?_).trans hiff
  rw [List.getLast?_cons_of_ne_nil (List.ne_nil_of_length_pos (by rw [hlen]; decide))]

/-- Walks fail for lack of memory only, and end at the last table on the path, exactly if page 0
does not get in the way and the path is spared. -/
theorem pageWalk_serves_iff (s : MemState) (v : Nat) : WalkServes s v ↔ WalkSpares s v := by
  constructor
  · intro hw
    have hclear : 0 ∉ s.tablesOf v := fun hz => by
      have hwalk := pageWalk_of_zero_mem hz
      exact not_walkServes_of_zero_mem (by rw [hwalk]) (by rw [hwalk]; exact hz) hw
    refine ⟨hclear, fun hcost => ?_, fun hcost => ?_⟩
    · obtain ⟨t, -, ht, hends⟩ := hw.succeeds hcost
      refine ⟨?_, (pageWalk_ends_iff ht).mp hends⟩
      by_contra hcond
      obtain ⟨hmiss, hfree⟩ := not_or.mp hcond
      have hfail := (pageWalk_takes_zero hclear hmiss (not_not.mp hfree)).1
      rw [ht] at hfail
      cases hfail
    · by_contra hcond
      simp only [not_or, not_and, not_not] at hcond
      obtain ⟨hfail, hmem, -⟩ := pageWalk_takes_zero hclear (by omega) hcond.1
      exact not_walkServes_of_zero_mem hfail (hmem (or_iff_not_imp_left.mpr fun h =>
        hcond.2 (not_not.mp h))) hw
  · rintro ⟨hclear, henough, hscarce⟩
    have hserved (hcost : s.missingTables v ≤ s.pmm.freePages.card) : (s.pageWalk v).1.isSome :=
      pageWalk_succeeds hclear (henough hcost).1 hcost
    refine ⟨fun hcost => ?_, fun hfail s' htables hroot h0 hcost => ?_⟩
    · obtain ⟨r, hr⟩ := Option.isSome_iff_exists.mp (hserved hcost)
      have hwalk := hr
      rw [pageWalk_eq] at hwalk
      obtain ⟨t, ht, rfl⟩ := Option.map_eq_some_iff.mp hwalk
      exact ⟨t, nextTables_ne_zero (List.cons_ne_nil _ _) ht, hr,
        (pageWalk_ends_iff hr).mpr (henough hcost).2⟩
    · refine pageWalk_succeeds ?_ (.inr h0) hcost
      rw [tablesOf_congr htables hroot]
      have hless : s.pmm.freePages.card < s.missingTables v := by
        by_contra hcost
        have hsome := hserved (by omega)
        rw [hfail] at hsome
        cases hsome
      by_cases hfree : s.pmm.Free 0
      · obtain ⟨hroot, hne⟩ := (hscarce hless).resolve_left (not_not.mpr hfree)
        rw [(pageWalk_takes_zero hclear (by omega) hfree).2.2 hroot hne]
        exact List.not_mem_nil
      · rw [tablesOf_pageWalk]
        exact nextTables_zero_notMem hfree hclear

/-- Page 1 is an empty PML4. Pages 0 and 2 to 7 are free. -/
def zeroFree : MemState where
  pmm := ⟨fun _ => 0b00000010, 8⟩
  vmm := ⟨fun _ => 0, 8⟩
  tables _ _ := .zero
  root := 1
  hhdmOffset := 0
  pmm_le := oneByte_le
  vmm_le := oneByte_le

/-- Seven pages are free and three tables missing, but the walk fails, and leaves page tables over
which every later walk fails. -/
theorem zeroFree_pageWalk : zeroFree.missingTables 0 = 3 ∧ zeroFree.pmm.freePages.card = 7 ∧
    (zeroFree.pageWalk 0).1 = none ∧ ((zeroFree.pageWalk 0).2.refill.pageWalk 0).1 = none := by
  decide +kernel

end EszOs
