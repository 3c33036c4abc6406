import EszOs.Memory.PageTables

/-!
# `map_page` and `free_page`

What one call does to the translations of the paths in `V` (`mapPage_spec`, `freePage_spec`), and,
for page tables that are pairwise distinct used pages, to those of all virtual addresses
(`mapPage_freePage_translate`).

The walk of the source makes a present entry of any entry whose `Present` bit is clear, and keeps
its `PageSizeOrPAT` bit. A set bit in an absent router entry then turns the new table into a large
page (`staleTables`).
-/

namespace EszOs

open Bytes Radix

section Spec

variable {V : Set (List Index)} {s : MemState} {v p : Nat} {flags : PagingFlags}

/-- `map_page` fails with its walk, or writes an entry of the table that the walk found. -/
theorem mapPage_cases (p : Nat) (flags : PagingFlags) (hS : Sound V s) (hv : path v ∈ V)
    (hc : NoLargePage s v) :
    ((s.pageWalk v).1 = none ∧ s.mapPage v p flags = (false, (s.pageWalk v).2)) ∨
      ∃ t, (s.pageWalk v).1.isSome ∧ WalksTo (s.pageWalk v).2 v t ∧
        s.mapPage v p flags = (true, (s.pageWalk v).2.setEntry (t * pageSize) (getPTIndex v)
          (leafEntry ((s.pageWalk v).2.tables t (getPTIndex v)) p flags)) := by
  obtain ⟨-, -, hr⟩ := pageWalk_spec hS hv hc
  simp only [MemState.mapPage]
  generalize s.pageWalk v = w at hr ⊢
  obtain ⟨ptr, s₁⟩ := w
  cases ptr with
  | none => exact .inl ⟨rfl, rfl⟩
  | some a =>
    obtain ⟨t, rfl, ht⟩ := hr a rfl
    have hentry : s₁.entry (t * pageSize) (getPTIndex v) = s₁.tables t (getPTIndex v) := by
      rw [MemState.entry, page_div]
    simp only [hentry]
    exact .inr ⟨t, rfl, ht, rfl⟩

/-- `map_page` adds tables and writes the last entry, or fails after adding some tables. -/
theorem mapPage_spec (hV : ∀ q ∈ V, q.length = 4) (hS : Sound V s) (hv : path v ∈ V)
    (hc : NoLargePage s v) :
    let r := s.mapPage v p flags
    Sound V r.2 ∧ Grows s r.2 ∧ (∀ q ∈ V, q ≠ path v → r.2.tree.walk q = s.tree.walk q) ∧
      if r.1 then ∃ e, r.2.tree.walk (path v) = some (leafEntry e p flags, [])
      else r.2.tree.walk (path v) = s.tree.walk (path v) := by
  intro r
  obtain ⟨hS₁, hE, -⟩ := pageWalk_spec hS hv hc
  rcases mapPage_cases p flags hS hv hc with ⟨-, hr⟩ | ⟨t, -, ht, hr⟩
  · simp only [r, hr]
    exact ⟨hS₁, hE.toGrows, fun q hq _ => hE.walk hq, hE.walk hv⟩
  · obtain ⟨hS', hG, -, hother, hself⟩ := setEntry_spec (e := leafEntry _ p flags) hV hS₁ hv ht.last id
    simp only [r, hr]
    exact ⟨hS', hE.toGrows.trans hG, fun q hq hne => (hother q hq hne).trans (hE.walk hq), _, hself⟩

/-- `free_page` adds tables and clears the last entry, or fails after adding some tables. -/
theorem freePage_spec (hV : ∀ q ∈ V, q.length = 4) (hS : Sound V s) (hv : path v ∈ V)
    (hc : NoLargePage s v) :
    let r := s.freePage v
    Sound V r.2 ∧ Grows s r.2 ∧ (∀ q ∈ V, q ≠ path v → r.2.tree.walk q = s.tree.walk q) ∧
      if r.1 then r.2.tree.walk (path v) = none
      else r.2.tree.walk (path v) = s.tree.walk (path v) := by
  intro r
  obtain ⟨hS₁, hE, hr⟩ := pageWalk_spec hS hv hc
  simp only [r, MemState.freePage]
  generalize s.pageWalk v = w at hS₁ hE hr ⊢
  obtain ⟨ptr, s₁⟩ := w
  cases ptr with
  | none => exact ⟨hS₁, hE.toGrows, fun q hq _ => hE.walk hq, hE.walk hv⟩
  | some a =>
    obtain ⟨t, rfl, ht⟩ := hr a rfl
    obtain ⟨hS', hG, -, hother, hself⟩ :=
      setEntry_spec (e := .zero) hV hS₁ hv ht.last fun _ => rfl
    exact ⟨hS', hE.toGrows.trans hG, fun q hq hne => (hother q hq hne).trans (hE.walk hq), hself⟩

end Spec

/-! ## All virtual addresses -/

/-- The reachable tables are pairwise distinct physical pages, marked used. -/
structure DistinctTables (s : MemState) : Prop where
  distinct {π π' : List Index} {t : Nat} (h : s.tableAt π = some t) (h' : s.tableAt π' = some t) :
    π = π'
  used {π : List Index} {t : Nat} (h : s.tableAt π = some t) : bitRead s.pmm.bitmap t = true

/-- All paths of four indices. -/
def allPaths : Set (List Index) := {q | q.length = 4}

/-- Distinct tables are owned by all paths. -/
theorem DistinctTables.sound {s : MemState} (hd : DistinctTables s) : Sound allPaths s where
  owned := {
    unique := fun _ _ h h' => hd.distinct h' h
    depth := fun _ h h' => by rw [hd.distinct h h'] }
  taken h hf := by
    have := hd.used h
    rw [hf.2] at this
    cases this

theorem part_allPaths {s : MemState} {π : List Index} {t : Nat} (h : s.tableAt π = some t) :
    Part allPaths π := by
  have hlen := tableAt_length h
  exact ⟨π ++ List.replicate (4 - π.length) 0, by simp [allPaths]; omega, List.prefix_append _ _⟩

theorem Grows.distinctTables {s s' : MemState} (hG : Grows s s') (hd : DistinctTables s)
    (hS : Sound allPaths s') : DistinctTables s' where
  distinct h h' := hS.owned.unique (part_allPaths h') (part_allPaths h) h' h
  used h := by
    rcases hG.new h with h | ⟨-, hu, -⟩
    · exact hG.bits (hd.used h)
    · exact hu

theorem translate_congr {s s' : MemState} {v : Nat}
    (h : s'.tree.walk (path v) = s.tree.walk (path v)) : s'.translate v = s.translate v := by
  rw [MemState.translate, MemState.translate, h]

/-- The leaf that `map_page` writes translates to the page of the given physical address. -/
theorem translate_leafEntry {s : MemState} {v p : Nat} {flags : PagingFlags} {e : PageTableEntry}
    (hp : p < 2 ^ 52) (h : s.tree.walk (path v) = some (leafEntry e p flags, [])) :
    s.translate v = some ⟨p >>> 12, leafEntry e p flags⟩ := by
  have hpage : leafPage (leafEntry e p flags) [] = p >>> 12 := by
    have hlt : p >>> 12 < 2 ^ 40 := by rw [Nat.shiftRight_eq_div_pow]; omega
    simp only [leafPage, leafEntry, BitVec.toNat_ofNat, List.length_nil, Nat.pow_zero, Nat.div_one,
      Nat.mul_one, List.foldl_nil, Nat.add_zero]
    exact Nat.mod_eq_of_lt hlt
  rw [MemState.translate, h, Option.map_some, hpage]

/-- A successful `map_page` maps the page of `v`. Whether it succeeds or not, the other pages stay. -/
theorem mapPage_translate {s : MemState} (hd : DistinctTables s) {v p : Nat} (hc : NoLargePage s v)
    (hp : p < 2 ^ 52) (flags : PagingFlags) :
    ((s.mapPage v p flags).1 = true → ∃ e,
        (s.mapPage v p flags).2.translate v = some ⟨p >>> 12, e⟩ ∧
        e.readWrite = (flags &&& pageFlagWrite != 0) ∧
        e.cacheDisabled = (flags &&& pageFlagCacheDisable != 0)) ∧
      DistinctTables (s.mapPage v p flags).2 ∧
      ∀ v', pageBits v' ≠ pageBits v → (s.mapPage v p flags).2.translate v' = s.translate v' := by
  obtain ⟨hS, hG, hother, hself⟩ := mapPage_spec (p := p) (fun _ hq => hq) hd.sound (path_length v) hc
  refine ⟨fun hr => ?_, hG.distinctTables hd hS, fun v' hne => translate_congr ?_⟩
  · rw [if_pos hr] at hself
    obtain ⟨e, he⟩ := hself
    exact ⟨_, translate_leafEntry hp he, rfl, rfl⟩
  · exact hother _ (path_length v') fun he => hne (path_eq_iff.mp he)

/-- A successful `free_page` unmaps the page of `v`. -/
theorem freePage_translate {s : MemState} (hd : DistinctTables s) {v : Nat} (hc : NoLargePage s v) :
    ((s.freePage v).1 = true → (s.freePage v).2.translate v = none) ∧
      DistinctTables (s.freePage v).2 ∧
      ∀ v', pageBits v' ≠ pageBits v → (s.freePage v).2.translate v' = s.translate v' := by
  obtain ⟨hS, hG, hother, hself⟩ := freePage_spec (fun _ hq => hq) hd.sound (path_length v) hc
  refine ⟨fun hr => ?_, hG.distinctTables hd hS, fun v' hne => translate_congr ?_⟩
  · rw [if_pos hr] at hself
    rw [MemState.translate, hself, Option.map_none]
  · exact hother _ (path_length v') fun he => hne (path_eq_iff.mp he)

/-- If no router entry on the path of `v` has `PageSizeOrPAT` set, a successful `map_page` maps `v`
and a successful `free_page` unmaps it; in every case all other translations stay and the tables
remain distinct. -/
theorem mapPage_freePage_translate {s : MemState} (hd : DistinctTables s) {v p : Nat}
    (hc : NoLargePage s v) (hp : p < 2 ^ 52) (flags : PagingFlags) :
    ((s.mapPage v p flags).1 = true → ∃ e,
        (s.mapPage v p flags).2.translate v = some ⟨p >>> 12, e⟩ ∧
        e.readWrite = (flags &&& pageFlagWrite != 0) ∧
        e.cacheDisabled = (flags &&& pageFlagCacheDisable != 0)) ∧
      ((s.freePage v).1 = true → (s.freePage v).2.translate v = none) ∧
      ∀ s', s' = (s.mapPage v p flags).2 ∨ s' = (s.freePage v).2 →
        DistinctTables s' ∧ ∀ v', pageBits v' ≠ pageBits v → s'.translate v' = s.translate v' := by
  obtain ⟨hmap, hmapped⟩ := mapPage_translate hd hc hp flags
  obtain ⟨hfree, hfreed⟩ := freePage_translate hd hc
  refine ⟨hmap, hfree, ?_⟩
  rintro s' (rfl | rfl)
  · exact hmapped
  · exact hfreed

/-! ## A large-page bit in an absent entry -/

/-- No present entry on the path of an address is a large page. -/
def NoPresentLargePage (s : MemState) (v : Nat) : Prop :=
  ∀ π i, π ++ [i] <+: path v → π.length < 3 → ∀ t, s.tableAt π = some t →
    (s.tables t i).present = true → (s.tables t i).pageSizeOrPAT = false

/-- Page 1 is the PML4 and its first entry names page 2, whose first entry is not present but has
`PageSizeOrPAT` set. Pages 3 to 7 are free. -/
def staleTables : MemState where
  pmm := ⟨fun _ => 0b00000111, 8⟩
  vmm := ⟨fun _ => 0, 8⟩
  tables t i :=
    if t = 1 ∧ i = 0 then { PageTableEntry.zero with present := true, address := 2 }
    else if t = 2 ∧ i = 0 then { PageTableEntry.zero with pageSizeOrPAT := true }
    else .zero
  root := 1
  hhdmOffset := 0
  pmm_le := oneByte_le
  vmm_le := oneByte_le

theorem staleTables_tableAt {π : List Index} {t : Nat} (h : staleTables.tableAt π = some t) :
    (π = [] ∧ t = 1) ∨ (π = [0] ∧ t = 2) := by
  induction π using List.reverseRecOn generalizing t with
  | nil => cases h; exact .inl ⟨rfl, rfl⟩
  | append_singleton π i ih =>
    obtain ⟨t', ht', hs⟩ := Tree.nodeAt_concat.mp h
    simp only [MemState.tree, staleTables] at hs
    rcases ih ht' with ⟨rfl, rfl⟩ | ⟨rfl, rfl⟩
    · by_cases hi : i = 0
      · subst hi
        exact .inr ⟨rfl, (eq_address_of_slotOf hs).1⟩
      · simp [hi, slotOf_zero] at hs
    · by_cases hi : i = 0 <;> simp [hi, slotOf_absent, PageTableEntry.zero] at hs

theorem staleTables_distinct : DistinctTables staleTables where
  distinct h h' := by
    rcases staleTables_tableAt h with ⟨rfl, rfl⟩ | ⟨rfl, rfl⟩ <;>
      rcases staleTables_tableAt h' with ⟨rfl, h2⟩ | ⟨rfl, h2⟩ <;> first | rfl | cases h2
  used h := by rcases staleTables_tableAt h with ⟨-, rfl⟩ | ⟨-, rfl⟩ <;> decide

/-- `map_page` succeeds and the hardware finds a 1 GiB page at the address. -/
theorem staleTables_mapPage :
    DistinctTables staleTables ∧ NoPresentLargePage staleTables 0 ∧
      (staleTables.mapPage 0 0x9000 pageFlagWrite).1 = true ∧
      ∀ e, (staleTables.mapPage 0 0x9000 pageFlagWrite).2.translate 0 ≠ some ⟨0x9000 >>> 12, e⟩ := by
  have hpage : ((staleTables.mapPage 0 0x9000 pageFlagWrite).2.translate 0).map Translation.page =
      some 0 := by decide
  refine ⟨staleTables_distinct, fun π i _ _ t ht hp => ?_, by decide, fun e he => ?_⟩
  · rcases staleTables_tableAt ht with ⟨-, rfl⟩ | ⟨-, rfl⟩ <;> by_cases hi : i = 0 <;>
      simp [staleTables, hi, PageTableEntry.zero] at hp ⊢
  · rw [he] at hpage
    cases hpage

/-- Behind the second entry of the same PML4 the page is mapped as asked. -/
theorem staleTables_mapPage_other : ∃ e,
    (staleTables.mapPage (2 ^ 39) 0x9000 pageFlagWrite).2.translate (2 ^ 39) = some ⟨9, e⟩ ∧
      e.readWrite = true ∧ e.cacheDisabled = false := by
  have hc : NoLargePage staleTables (2 ^ 39) := fun π i hp _ t ht => by
    rcases staleTables_tableAt ht with ⟨rfl, rfl⟩ | ⟨rfl, rfl⟩
    · by_cases hi : i = 0 <;> simp [staleTables, hi, PageTableEntry.zero]
    · have h0 := (List.cons_prefix_cons.mp hp).1
      exact absurd h0 (by decide)
  exact (mapPage_freePage_translate staleTables_distinct hc (by decide) pageFlagWrite).1 (by decide)

end EszOs
