import EszOs.Memory.PageWalk
import EszOs.Memory.PageRanges

/-!
# The pages that freeing takes

`free_page` looks the last entry up with `page_walk`, which creates the tables that are missing. So
a call that frees takes free pages, for tables.

* `pageWalk_bits_iff`: a walk takes the lowest free pages, as many as it demands.
* `freePage_keeps_iff`, `freePages_keeps_iff`: `free_page` and `free_pages` keep the free pages free
  exactly if they create no table.
-/

namespace EszOs

open Bytes Radix

/-! ## The lowest free pages -/

/-- Page `p` is one of the `k` lowest free pages. -/
def Bitmap.LowestFree (b : Bitmap) (k p : Nat) : Prop :=
  b.Free p ∧ {q ∈ b.freePages | q < p}.card < k

instance (b : Bitmap) (k p : Nat) : Decidable (b.LowestFree k p) :=
  inferInstanceAs (Decidable (_ ∧ _))

variable {s s' : MemState} {tableAddr v p : Nat} {i : Index} {is : List Index}

theorem lowestFree_zero {b : Bitmap} : ¬ b.LowestFree 0 p := fun h => absurd h.2 (Nat.not_lt_zero _)

theorem Creates.free_iff (hc : Creates s s' tableAddr i p) {q : Nat} :
    s'.pmm.Free q ↔ s.pmm.Free q ∧ q ≠ p := by
  simp only [Bitmap.Free, hc.count, hc.bits, Bool.or_eq_false_iff, decide_eq_false_iff_not]
  tauto

/-- The lowest free pages are the one that was taken and the lowest of the others. -/
theorem Creates.lowestFree_iff (hc : Creates s s' tableAddr i p) {k q : Nat} :
    s.pmm.LowestFree (k + 1) q ↔ q = p ∨ s'.pmm.LowestFree k q := by
  have hmem : ∀ x, x ∈ s'.pmm.freePages ↔ x ∈ s.pmm.freePages ∧ x ≠ p := fun x => by
    rw [Bitmap.mem_freePages, Bitmap.mem_freePages, hc.free_iff]
  rcases Nat.lt_trichotomy q p with hlt | rfl | hlt
  · refine iff_of_false (fun h => hc.first q hlt h.1) ?_
    rintro (h | h)
    · omega
    · exact hc.first q hlt (hc.free_of_free h.1)
  · have hnone : {x ∈ s.pmm.freePages | x < q} = ∅ := Finset.filter_eq_empty_iff.mpr fun x hx hlt =>
      hc.first x hlt (Bitmap.mem_freePages.mp hx)
    simp only [Bitmap.LowestFree, hc.free, hnone, Finset.card_empty, Nat.zero_lt_succ, and_self,
      true_or]
  · have hinsert : {x ∈ s.pmm.freePages | x < q} = insert p {x ∈ s'.pmm.freePages | x < q} := by
      ext x
      simp only [Finset.mem_insert, Finset.mem_filter, hmem]
      constructor
      · rintro ⟨hx, hxq⟩
        exact or_iff_not_imp_left.mpr fun hne => ⟨⟨hx, hne⟩, hxq⟩
      · rintro (rfl | ⟨⟨hx, -⟩, hxq⟩)
        · exact ⟨Bitmap.mem_freePages.mpr hc.free, hlt⟩
        · exact ⟨hx, hxq⟩
    have hcard : (insert p {x ∈ s'.pmm.freePages | x < q}).card =
        {x ∈ s'.pmm.freePages | x < q}.card + 1 :=
      Finset.card_insert_of_notMem fun h => ((hmem p).mp (Finset.mem_filter.mp h).1).2 rfl
    have hne : q ≠ p := by omega
    simp only [Bitmap.LowestFree, hinsert, hcard, hc.free_iff, hne, ne_eq, not_false_eq_true,
      and_true, false_or, Nat.add_lt_add_iff_right]

/-! ## What a walk takes -/

/-- The number of pages that a walk along `is` takes, if there are so many: one for each missing
table, but none behind a table at address 0, and only page 0 if that is free. -/
def MemState.demandAlong (s : MemState) (tableAddr : Nat) (is : List Index) : Nat :=
  if 0 ∈ s.tablesAlong tableAddr is then 0
  else if s.pmm.Free 0 then min 1 (is.length - (s.tablesAlong tableAddr is).length)
  else is.length - (s.tablesAlong tableAddr is).length

/-- The number of pages that `page_walk` takes. -/
def MemState.demand (s : MemState) (v : Nat) : Nat :=
  s.demandAlong s.getStartOfTree (lastTable v)

/-- A walk over tables that are in use takes the lowest free pages. -/
theorem nextTables_bits_iff (hin : TablesInUse s.pmm (tableAddr :: s.tablesAlong tableAddr is))
    (q : Nat) : bitRead (nextTables s tableAddr is).2.pmm.bitmap q = true ↔
      bitRead s.pmm.bitmap q = true ∨ s.pmm.LowestFree (s.demandAlong tableAddr is) q := by
  induction is generalizing s tableAddr with
  | nil =>
    simp only [nextTables, MemState.demandAlong, MemState.tablesAlong, List.not_mem_nil,
      List.length_nil, Nat.sub_self, Nat.min_zero, ite_self]
    exact (or_iff_left lowestFree_zero).symm
  | cons i is ih =>
    have hpage : ¬ s.pmm.Free (tableAddr / pageSize) := hin _ List.mem_cons_self
    simp only [nextTables]
    rcases getOrCreateNextTable_step s tableAddr i with
      ⟨hpres, he⟩ | ⟨-, hfull, he⟩ | ⟨p, s₁, he, hc⟩
    · rw [he]
      by_cases h0 : (s.entry tableAddr i).address.toNat <<< 12 = 0
      · have hz : 0 ∈ s.tablesAlong tableAddr (i :: is) := by
          rw [tablesAlong_present hpres, h0]
          exact List.mem_cons_self
        rw [if_pos h0, MemState.demandAlong, if_pos hz]
        exact (or_iff_left lowestFree_zero).symm
      · have hdemand : s.demandAlong tableAddr (i :: is) =
            s.demandAlong ((s.entry tableAddr i).address.toNat <<< 12) is := by
          simp only [MemState.demandAlong, tablesAlong_present hpres, List.mem_cons, Ne.symm h0,
            false_or, List.length_cons, Nat.add_sub_add_right]
        rw [tablesAlong_present hpres] at hin
        rw [if_neg h0, hdemand]
        exact ih (List.forall_mem_cons.mp hin).2
    · rw [he, if_pos rfl]
      refine (or_iff_left fun h => ?_).symm
      have hmem := Bitmap.mem_freePages.mpr h.1
      rw [hfull] at hmem
      exact Finset.notMem_empty q hmem
    · rw [he]
      have habs : s.tablesAlong tableAddr (i :: is) = [] := tablesAlong_absent hc.absent
      by_cases h0 : p * pageSize = 0
      · -- Page 0 is the only page taken.
        obtain rfl : p = 0 := (Nat.mul_eq_zero.mp h0).resolve_right (by decide)
        have hdemand : s.demandAlong tableAddr (i :: is) = 0 + 1 := by
          rw [MemState.demandAlong, habs, if_neg List.not_mem_nil, if_pos hc.free]
          simp
        rw [if_pos h0, hdemand, hc.bits, hc.lowestFree_iff, or_iff_left lowestFree_zero,
          Bool.or_eq_true, decide_eq_true_eq]
        exact or_comm
      · have hp0 : ¬ s.pmm.Free 0 := hc.first 0 (Nat.pos_of_ne_zero fun h => h0 (by rw [h, Nat.zero_mul]))
        have hp1 : ¬ s₁.pmm.Free 0 := fun h => hp0 (hc.free_of_free h)
        have hempty := hc.tablesAlong_new_eq_nil (fun h => hpage (h ▸ hc.free)) is
        have hdemand : s.demandAlong tableAddr (i :: is) =
            s₁.demandAlong (p * pageSize) is + 1 := by
          simp [MemState.demandAlong, habs, hempty, hp0, hp1]
        have hnew : TablesInUse s₁.pmm (p * pageSize :: s₁.tablesAlong (p * pageSize) is) := by
          rw [hempty]
          exact List.forall_mem_singleton.mpr (by rw [page_div]; exact hc.not_free)
        rw [if_neg h0, hdemand, ih hnew, hc.bits, hc.lowestFree_iff, Bool.or_eq_true,
          decide_eq_true_eq]
        tauto

theorem pageWalk_bits_iff (hin : TablesInUse s.pmm (s.getStartOfTree :: s.tablesOf v)) (q : Nat) :
    bitRead (s.pageWalk v).2.pmm.bitmap q = true ↔
      bitRead s.pmm.bitmap q = true ∨ s.pmm.LowestFree (s.demand v) q := by
  rw [pageWalk_eq]
  exact nextTables_bits_iff hin q

/-- A complete path demands nothing, nor does one that ends at address 0. -/
theorem demand_eq_zero (h : 0 ∈ s.tablesOf v ∨ s.missingTables v = 0) : s.demand v = 0 := by
  rw [MemState.demand, MemState.demandAlong]
  by_cases hz : 0 ∈ s.tablesAlong s.getStartOfTree (lastTable v)
  · rw [if_pos hz]
  · have hmiss : (lastTable v).length - (s.tablesAlong s.getStartOfTree (lastTable v)).length = 0 :=
      h.resolve_left hz
    rw [if_neg hz, hmiss]
    simp

/-! ## When no page is taken -/

/-- Every free page is free afterwards. -/
def KeepsFree (s s' : MemState) : Prop := ∀ p, s.pmm.Free p → s'.pmm.Free p

/-- A walk of the path creates no table: there is no page for one, or a table at address 0 ends the
walk, or no table is missing. -/
def CreatesNoTable (s : MemState) (v : Nat) : Prop :=
  s.pmm.freePages = ∅ ∨ 0 ∈ s.tablesOf v ∨ s.missingTables v = 0

theorem KeepsFree.refl (s : MemState) : KeepsFree s s := fun _ h => h

theorem KeepsFree.trans {s₁ s₂ s₃ : MemState} (h₁ : KeepsFree s₁ s₂) (h₂ : KeepsFree s₂ s₃) :
    KeepsFree s₁ s₃ := fun p h => h₂ p (h₁ p h)

/-- A walk that gets to a missing table takes a page for it, if there is one. -/
theorem nextTables_takes (hz : 0 ∉ s.tablesAlong tableAddr is)
    (hlen : (s.tablesAlong tableAddr is).length < is.length) (hne : s.pmm.freePages ≠ ∅) :
    ∃ p, s.pmm.Free p ∧ ¬ (nextTables s tableAddr is).2.pmm.Free p := by
  induction is generalizing tableAddr with
  | nil => cases hlen
  | cons i is ih =>
    simp only [nextTables]
    rcases getOrCreateNextTable_step s tableAddr i with
      ⟨hpres, he⟩ | ⟨-, hfull, -⟩ | ⟨p, s₁, he, hc⟩
    · rw [tablesAlong_present hpres, List.mem_cons, not_or] at hz
      rw [tablesAlong_present hpres] at hlen
      rw [he, if_neg (Ne.symm hz.1)]
      exact ih hz.2 (Nat.lt_of_succ_lt_succ hlen)
    · exact absurd hfull hne
    · rw [he]
      refine ⟨p, hc.free, ?_⟩
      split
      · exact hc.not_free
      · exact fun h => hc.not_free ((nextTables_keeps s₁ _ is).2.1 p h)

/-- Over a complete path a walk changes nothing. -/
theorem nextTables_complete (hlen : (s.tablesAlong tableAddr is).length = is.length) :
    (nextTables s tableAddr is).2 = s := by
  induction is generalizing tableAddr with
  | nil => rfl
  | cons i is ih =>
    cases hpres : (s.entry tableAddr i).present with
    | false =>
      rw [tablesAlong_absent hpres] at hlen
      cases hlen
    | true =>
      rw [tablesAlong_present hpres] at hlen
      simp only [nextTables, MemState.getOrCreateNextTable, hpres, ↓reduceIte]
      split
      · rfl
      · exact ih (Nat.succ.inj hlen)

theorem tablesOf_length_le (s : MemState) (v : Nat) : (s.tablesOf v).length ≤ 3 :=
  tablesAlong_length_le s _ (lastTable v)

theorem pageWalk_complete (h : s.missingTables v = 0) : (s.pageWalk v).2 = s := by
  have hle := tablesOf_length_le s v
  rw [pageWalk_eq]
  refine nextTables_complete ?_
  rw [MemState.missingTables, MemState.tablesOf] at h
  rw [MemState.tablesOf] at hle
  rw [lastTable_length]
  omega

/-- A walk frees no page. -/
theorem free_of_free_pageWalk {q : Nat} (h : (s.pageWalk v).2.pmm.Free q) : s.pmm.Free q := by
  rw [pageWalk_eq] at h
  exact (nextTables_keeps s _ _).2.1 q h

/-- A walk keeps the free pages exactly if it creates no table. -/
theorem pageWalk_keeps_iff : KeepsFree s (s.pageWalk v).2 ↔ CreatesNoTable s v := by
  constructor
  · intro hk
    by_contra hcond
    simp only [CreatesNoTable, not_or] at hcond
    obtain ⟨hne, hz, hmiss⟩ := hcond
    have hlen : (s.tablesOf v).length < (lastTable v).length := by
      rw [lastTable_length]
      rw [MemState.missingTables] at hmiss
      omega
    obtain ⟨p, hfree, htaken⟩ := nextTables_takes hz hlen hne
    have hkept := hk p hfree
    rw [pageWalk_eq] at hkept
    exact htaken hkept
  · rintro (h | h | h)
    · intro p hp
      have := Bitmap.mem_freePages.mpr hp
      rw [h] at this
      exact absurd this (Finset.notMem_empty p)
    · rw [pageWalk_of_zero_mem h]
      exact .refl s
    · rw [pageWalk_complete h]
      exact .refl s

theorem pmm_freePage (s : MemState) (v : Nat) : (s.freePage v).2.pmm = (s.pageWalk v).2.pmm := by
  rw [MemState.freePage]
  generalize s.pageWalk v = w
  obtain ⟨_ | ⟨t, i⟩, s₁⟩ := w <;> rfl

/-- `free_page` keeps the free pages exactly if it creates no table. -/
theorem freePage_keepsFree : KeepsFree s (s.freePage v).2 ↔ CreatesNoTable s v := by
  rw [← pageWalk_keeps_iff, KeepsFree, KeepsFree, pmm_freePage]

theorem free_of_free_freePage {q : Nat} (h : (s.freePage v).2.pmm.Free q) : s.pmm.Free q := by
  rw [pmm_freePage] at h
  exact free_of_free_pageWalk h

/-- The loop of `free_pages` frees no page. -/
theorem free_of_free_freePagesLoop {n i q : Nat} {success : Bool}
    (h : (MemState.freePagesLoop v n i s success).2.pmm.Free q) : s.pmm.Free q := by
  induction n generalizing s i success with
  | zero => exact h
  | succ n ih => exact free_of_free_freePage (ih h)

/-- The loop keeps the free pages exactly if it creates no table at any page it gets to. -/
theorem freePagesLoop_keepsFree {n i : Nat} {success : Bool} :
    KeepsFree s (MemState.freePagesLoop v n i s success).2 ↔
      ∀ j < n, CreatesNoTable (MemState.freePagesLoop v j i s success).2
        (u64 (v + (i + j) * pageSize)) := by
  induction n generalizing s i success with
  | zero => exact iff_of_true (.refl s) fun j hj => absurd hj (Nat.not_lt_zero j)
  | succ n ih =>
    rw [Nat.forall_lt_succ_left]
    have hsplit : KeepsFree s (MemState.freePagesLoop v (n + 1) i s success).2 ↔
        KeepsFree s (s.freePage (u64 (v + i * pageSize))).2 ∧
          KeepsFree (s.freePage (u64 (v + i * pageSize))).2
            (MemState.freePagesLoop v (n + 1) i s success).2 := by
      constructor
      · exact fun h => ⟨fun p hp => free_of_free_freePagesLoop (h p hp), fun p hp =>
          h p (free_of_free_freePage hp)⟩
      · exact fun h => h.1.trans h.2
    rw [hsplit, freePage_keepsFree]
    refine and_congr Iff.rfl ?_
    simp only [MemState.freePagesLoop, ih]
    refine forall₂_congr fun j _ => ?_
    rw [show i + 1 + j = i + (j + 1) by omega]

/-! ## The tables that the hardware finds -/

section Hardware

variable {π : List Index} {t : Nat}

/-- The entry that leads from one table to the next. -/
theorem entry_of_tableAt {t' : Nat} (ht : s.tableAt π = some t)
    (ht' : s.tableAt (π ++ [i]) = some t') :
    (s.entry (t * pageSize) i).present = true ∧ (s.entry (t * pageSize) i).address.toNat = t' := by
  obtain ⟨t₁, ht₁, hs⟩ := Tree.nodeAt_concat.mp ht'
  obtain rfl : t = t₁ := Option.some.inj (ht.symm.trans ht₁)
  rw [MemState.entry, page_div]
  refine ⟨?_, (eq_address_of_slotOf hs).1.symm⟩
  by_contra hp
  have hempty := slotOf_absent (by simpa using hp) π.length (e := s.tables t i)
  simp only [MemState.tree, hempty] at hs
  cases hs

/-- A present entry leads to a table that the hardware finds, too. -/
theorem tableAt_concat (hc : NoLargePage s v) (ht : s.tableAt π = some t)
    (hp : π ++ i :: is <+: lastTable v) (hpres : (s.entry (t * pageSize) i).present = true) :
    s.tableAt (π ++ [i]) = some (s.entry (t * pageSize) i).address.toNat := by
  obtain ⟨-, hpi, hlen⟩ := along_cons hp
  rw [MemState.entry, page_div] at hpres ⊢
  exact Tree.nodeAt_concat.mpr ⟨t, ht, slotOf_router hpres (hc π i hpi hlen t ht) hlen⟩

/-- The tables of the path are tables that the hardware finds. -/
theorem exists_tableAt (hc : NoLargePage s v) (ht : s.tableAt π = some t)
    (hp : π ++ is <+: lastTable v) :
    ∀ a ∈ t * pageSize :: s.tablesAlong (t * pageSize) is, ∃ π', s.tableAt π' = some (a / pageSize) := by
  have hhead : ∃ π', s.tableAt π' = some (t * pageSize / pageSize) := ⟨π, by rw [page_div]; exact ht⟩
  induction is generalizing π t with
  | nil => exact List.forall_mem_singleton.mpr hhead
  | cons i is ih =>
    refine List.forall_mem_cons.mpr ⟨hhead, ?_⟩
    cases hpres : (s.entry (t * pageSize) i).present with
    | false =>
      rw [tablesAlong_absent hpres]
      exact List.forall_mem_nil _
    | true =>
      have ht' := tableAt_concat hc ht hp hpres
      rw [tablesAlong_present hpres, page_shiftLeft]
      exact ih ht' (along_cons hp).1 ⟨_, by rw [page_div]; exact ht'⟩

/-- Where no table is a free page, those of the path are in use. -/
theorem tablesInUse (hS : ∀ {π t}, s.tableAt π = some t → ¬ s.pmm.Free t) (hc : NoLargePage s v) :
    TablesInUse s.pmm (s.getStartOfTree :: s.tablesOf v) := fun a ha => by
  obtain ⟨π, hπ⟩ := exists_tableAt (π := []) (t := s.root) hc rfl (List.prefix_refl _) a ha
  exact hS hπ

/-- No table is missing on the path of an address that the hardware translates. -/
theorem tablesAlong_of_walkFrom {j : Index} (hc : NoLargePage s v) (ht : s.tableAt π = some t)
    (hp : π ++ is <+: lastTable v) (h : s.tree.walkFrom π.length t (is ++ [j]) ≠ none) :
    (s.tablesAlong (t * pageSize) is).length = is.length := by
  induction is generalizing π t with
  | nil => rfl
  | cons i is ih =>
    have hentry : s.entry (t * pageSize) i = s.tables t i := by rw [MemState.entry, page_div]
    obtain ⟨hp', hpi, hlen⟩ := along_cons hp
    cases hpres : (s.tables t i).present with
    | false =>
      simp only [List.cons_append, Tree.walkFrom, MemState.tree, slotOf_absent hpres] at h
      exact absurd rfl h
    | true =>
      have hslot := slotOf_router hpres (hc π i hpi hlen t ht) hlen
      have ht' := tableAt_concat hc ht hp (by rw [hentry, hpres])
      rw [hentry] at ht'
      have h' : s.tree.walkFrom (π.length + 1) (s.tables t i).address.toNat (is ++ [j]) ≠ none := by
        simp only [List.cons_append, Tree.walkFrom, MemState.tree, hslot] at h
        exact h
      rw [tablesAlong_present (by rw [hentry, hpres]), hentry, page_shiftLeft, List.length_cons,
        List.length_cons, ih ht' hp' (by rwa [List.length_append, List.length_singleton])]

theorem missingTables_of_translate (hc : NoLargePage s v) (h : s.translate v ≠ none) :
    s.missingTables v = 0 := by
  have hwalk : s.tree.walkFrom 0 s.root (lastTable v ++ [getPTIndex v]) ≠ none := fun h0 => h (by
    rw [MemState.translate, path_eq, Tree.walk]
    exact congrArg (Option.map _) h0)
  have hlen : (s.tablesAlong (s.root * pageSize) (lastTable v)).length = 3 :=
    tablesAlong_of_walkFrom (π := []) hc rfl (List.prefix_refl _) hwalk
  rw [MemState.missingTables, MemState.tablesOf, MemState.getStartOfTree, hlen]

/-- A complete path stays as it is when tables are added. -/
theorem tablesAlong_of_old (hc : NoLargePage s v) (hold : ∀ {π t}, s.tableAt π = some t →
    s'.tableAt π = some t) (ht : s.tableAt π = some t) (hp : π ++ is <+: lastTable v)
    (hlen : (s.tablesAlong (t * pageSize) is).length = is.length) :
    s'.tablesAlong (t * pageSize) is = s.tablesAlong (t * pageSize) is := by
  induction is generalizing π t with
  | nil => rfl
  | cons i is ih =>
    cases hpres : (s.entry (t * pageSize) i).present with
    | false =>
      rw [tablesAlong_absent hpres] at hlen
      cases hlen
    | true =>
      have ht' := tableAt_concat hc ht hp hpres
      obtain ⟨hpres', haddr⟩ := entry_of_tableAt (hold ht) (hold ht')
      rw [tablesAlong_present hpres, page_shiftLeft] at hlen ⊢
      rw [tablesAlong_present hpres', haddr, page_shiftLeft]
      rw [ih ht' (along_cons hp).1 (Nat.succ.inj hlen)]

theorem tablesOf_of_old (hc : NoLargePage s v) (hroot : s'.root = s.root)
    (hold : ∀ {π t}, s.tableAt π = some t → s'.tableAt π = some t) (h : s.missingTables v = 0) :
    s'.tablesOf v = s.tablesOf v := by
  have hle := tablesOf_length_le s v
  rw [MemState.missingTables] at h
  rw [MemState.tablesOf, MemState.getStartOfTree, hroot]
  refine tablesAlong_of_old (π := []) (t := s.root) hc hold rfl (List.prefix_refl _) ?_
  rw [MemState.tablesOf, MemState.getStartOfTree] at h hle
  rw [lastTable_length]
  omega

end Hardware

end EszOs
