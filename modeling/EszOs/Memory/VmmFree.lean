import Mathlib.Data.Nat.Count
import EszOs.Memory.FreeCost
import EszOs.Memory.VmmRuns

/-!
# What `vmm_free_pages` frees

The loop of `vmm_free_pages` keeps the position in `vmm_bitmap` apart from the address, and only
moves it on at a page that it frees. A page is freed if it is mapped and no table on its path is
page 0 (`Freeable`); the lookup of any other page may create tables, and takes the lowest free pages
for them (`TakenAt`).

* `vmmFreeTurn_freed`, `vmmFreeTurn_skipped`: one turn of the loop.
* `freeLoop_result`: what the loop leaves.
* `vmmFreePages_freesRange`: when the range is freed, and nothing else.
* `freeing_keepsFree`: when `free_page`, `free_pages` and `vmm_free_pages` take no page.
-/

namespace EszOs

open Bytes Radix

/-- One turn of the loop of `vmm_free_pages`: its success, the next `currPage` and the state. -/
def vmmFreeTurn (virtAddr i currPage : Nat) (s : MemState) : Bool × Nat × MemState :=
  let currVirtAddr := u64 (virtAddr + i * pageSize)
  match s.pageWalk currVirtAddr with
  | (none, s) => (false, currPage, s)
  | (some (table, idx), s) =>
    if (s.entry table idx).present = false then (false, currPage, s)
    else
      let physAddr := (s.entry table idx).address.toNat <<< 12
      let r := (s.setVmm (bitWrite s.vmm.bitmap currPage false)).freePage currVirtAddr
      (r.1, currPage + 1, r.2.setPmm (pmmFree r.2.pmm physAddr pageSize))

theorem vmmFreeLoop_succ (a n i c : Nat) (s : MemState) (success : Bool) :
    MemState.vmmFreeLoop a (n + 1) i c s success =
      MemState.vmmFreeLoop a n (i + 1) (vmmFreeTurn a i c s).2.1 (vmmFreeTurn a i c s).2.2
        ((vmmFreeTurn a i c s).1 && success) := by
  simp only [MemState.vmmFreeLoop, vmmFreeTurn]
  generalize s.pageWalk (u64 (a + i * pageSize)) = w
  obtain ⟨_ | ⟨t, j⟩, s₁⟩ := w
  · rfl
  · by_cases hp : (s₁.entry t j).present = false
    · simp only [hp, ↓reduceIte, Bool.false_and]
    · simp only [if_neg hp]

/-- Page `k` is mapped and no table on its path is page 0. -/
def Freeable (s : MemState) (k : Nat) : Prop :=
  (s.backing k).isSome ∧ 0 ∉ s.tablesOf (vmmPageAddr k)

instance (s : MemState) (k : Nat) : Decidable (Freeable s k) := inferInstanceAs (Decidable (_ ∧ _))

/-- The lookup of page `k` takes the physical page `x` for a table. -/
def TakenAt (s : MemState) (k x : Nat) : Prop := s.pmm.LowestFree (s.demand (vmmPageAddr k)) x

/-! ## One turn -/

section Turn

variable {s : MemState} {b i k c x : Nat}

/-- From `s` to `s'` page `k`, backed by `x`, was freed and bit `c` cleared. -/
structure FreesPage (s s' : MemState) (k c x : Nat) : Prop where
  core : VmmCore s'
  root : s'.root = s.root
  vmm : s'.vmm = { s.vmm with bitmap := bitWrite s.vmm.bitmap c false }
  old {π : List Index} {t : Nat} (h : s.tableAt π = some t) : s'.tableAt π = some t
  unmapped : s'.backing k = none
  other {k' : Nat} (hk' : k' < s.vmm.count) (hne : k' ≠ k) : s'.backing k' = s.backing k'
  frames : s'.pmm.count = s.pmm.count
  bits (q : Nat) : bitRead s'.pmm.bitmap q = (!decide (q = x) && bitRead s.pmm.bitmap q)

/-- From `s` to `s'` page `k` was looked up. -/
structure LooksUp (s s' : MemState) (k : Nat) : Prop where
  core : VmmCore s'
  root : s'.root = s.root
  vmm : s'.vmm = s.vmm
  old {π : List Index} {t : Nat} (h : s.tableAt π = some t) : s'.tableAt π = some t
  backing {k' : Nat} (hk' : k' < s.vmm.count) : s'.backing k' = s.backing k'
  frames : s'.pmm.count = s.pmm.count
  bits (q : Nat) : bitRead s'.pmm.bitmap q = true ↔ bitRead s.pmm.bitmap q = true ∨ TakenAt s k q

theorem missingTables_of_backing (hC : VmmCore s) (hk : k < s.vmm.count)
    (hx : s.backing k = some x) : s.missingTables (vmmPageAddr k) = 0 := by
  refine missingTables_of_translate (hC.clear hk) fun h => ?_
  rw [MemState.backing, h] at hx
  cases hx

/-- A page that can be freed is freed over its present tables. -/
theorem vmmFreeTurn_eq (hC : VmmCore s) (hk : b + i < s.vmm.count)
    (hx : s.backing (b + i) = some x) (hz : 0 ∉ s.tablesOf (vmmPageAddr (b + i))) :
    let s₂ := s.setVmm (bitWrite s.vmm.bitmap c false)
    let r := s₂.freePage (vmmPageAddr (b + i))
    (∃ t, WalksTo s (vmmPageAddr (b + i)) t ∧
      (s.tables t (getPTIndex (vmmPageAddr (b + i)))).present = true ∧
      (s.tables t (getPTIndex (vmmPageAddr (b + i)))).address.toNat = x) ∧
    r.2.pmm = s.pmm ∧
    vmmFreeTurn (vmmPageAddr b) i c s =
      (r.1, c + 1, r.2.setPmm (pmmFree r.2.pmm (x <<< 12) pageSize)) := by
  intro s₂ r
  have hmiss := missingTables_of_backing hC hk hx
  obtain ⟨-, -, hptr⟩ := pageWalk_spec hC.sound (path_mem_vmmPaths hk) (hC.clear hk)
  obtain ⟨ptr, hwalk⟩ : ∃ ptr, s.pageWalk (vmmPageAddr (b + i)) = (some ptr, s) := by
    obtain ⟨ptr, hptr⟩ := Option.isSome_iff_exists.mp (pageWalk_succeeds hz (.inl hmiss) (by omega))
    exact ⟨ptr, Prod.ext hptr (pageWalk_complete hmiss)⟩
  obtain ⟨t, rfl, hw⟩ := hptr ptr (by rw [hwalk])
  rw [hwalk] at hw
  have hentry : s.entry (t * pageSize) (getPTIndex (vmmPageAddr (b + i))) =
      s.tables t (getPTIndex (vmmPageAddr (b + i))) := by rw [MemState.entry, page_div]
  have hp : (s.tables t (getPTIndex (vmmPageAddr (b + i)))).present = true := by
    by_contra hp
    rw [MemState.backing, MemState.translate, walk_of_lastTable hw.last, if_neg hp] at hx
    cases hx
  have haddr := Option.some.inj ((VmmCore.backing_of_walksTo hw hp).symm.trans hx)
  refine ⟨⟨t, hw, hp, haddr⟩, ?_, ?_⟩
  · have hpath : s₂.tablesOf (vmmPageAddr (b + i)) = s.tablesOf (vmmPageAddr (b + i)) :=
      tablesOf_congr rfl rfl
    have hmiss₂ : s₂.missingTables (vmmPageAddr (b + i)) = 0 := by
      rw [MemState.missingTables, hpath]
      exact hmiss
    rw [pmm_freePage, pageWalk_complete hmiss₂]
    rfl
  · simp only [vmmFreeTurn, vmmPageAddr_add, hwalk, hentry, hp, Bool.true_eq_false, ↓reduceIte,
      haddr, r, s₂]

/-- Over complete tables a lookup takes no page. -/
theorem not_takenAt_of_missingTables (h : s.missingTables (vmmPageAddr k) = 0) (q : Nat) :
    ¬ TakenAt s k q := by
  rw [TakenAt, demand_eq_zero (.inr h)]
  exact lowestFree_zero

theorem FreesPage.clear_iff {s' : MemState} (h : FreesPage s s' k c x) (q : Nat) :
    bitRead s'.pmm.bitmap q = false ↔ q = x ∨ bitRead s.pmm.bitmap q = false := by
  rw [h.bits]
  by_cases hq : q = x <;> simp [hq]

theorem LooksUp.clear_iff {s' : MemState} (h : LooksUp s s' k) (q : Nat) :
    bitRead s'.pmm.bitmap q = false ↔ bitRead s.pmm.bitmap q = false ∧ ¬ TakenAt s k q := by
  rw [← Bool.not_eq_true, h.bits, not_or, Bool.not_eq_true]

/-- A page that can be freed is. -/
theorem vmmFreeTurn_freed (hC : VmmCore s) (hk : b + i < s.vmm.count)
    (hx : s.backing (b + i) = some x) (hz : 0 ∉ s.tablesOf (vmmPageAddr (b + i))) :
    ∃ s', vmmFreeTurn (vmmPageAddr b) i c s = (true, c + 1, s') ∧ FreesPage s s' (b + i) c x := by
  obtain ⟨⟨t, hw, hp, haddr⟩, hpmm, hturn⟩ := vmmFreeTurn_eq (c := c) hC hk hx hz
  obtain ⟨s₂, hs₂⟩ : ∃ s₂, s₂ = s.setVmm (bitWrite s.vmm.bitmap c false) := ⟨_, rfl⟩
  rw [← hs₂] at hpmm hturn
  have hC₂ : VmmCore s₂ := hs₂ ▸ hC.setVmm _
  have htables : s₂.tables = s.tables := by rw [hs₂]; rfl
  have hk₂ : b + i < s₂.vmm.count := by rw [hs₂]; exact hk
  obtain ⟨-, hG, -, -⟩ := freePage_spec vmmPaths_length hC₂.sound (path_mem_vmmPaths hk₂)
    (hC₂.clear hk₂)
  obtain ⟨hok, hC', hvmm, hnone, hother⟩ := hC₂.freeStep (k := b + i) (t := t) hk₂
    (by rw [hs₂]; exact ⟨hw.tables, hw.last⟩) (by rw [htables]; exact hp)
  rw [htables, haddr] at hC' hvmm hnone hother
  refine ⟨_, by rw [hturn, hok], hC', ?_, ?_, ?_, hnone, ?_, ?_, ?_⟩
  · exact hG.root.trans (by rw [hs₂]; rfl)
  · rw [hvmm, hs₂]
    rfl
  · exact fun h => hG.old (by rw [hs₂]; exact h)
  · exact fun hk' hne => (hother _ (by rw [hs₂]; exact hk') hne).trans (by rw [hs₂]; rfl)
  · have hcount := congrArg Bitmap.count hpmm
    exact hcount
  · intro q
    have hbits : bitRead (pmmFree (s₂.freePage (vmmPageAddr (b + i))).2.pmm (x * pageSize) pageSize) q =
        (!decide (q = x) && bitRead s.pmm.bitmap q) := by
      rw [bitRead_pmmFree, hpmm]
    rw [← page_shiftLeft] at hbits
    exact hbits

/-- Any other page is only looked up. -/
theorem vmmFreeTurn_skipped (hC : VmmCore s) (hk : b + i < s.vmm.count)
    (h : ¬ Freeable s (b + i)) :
    ∃ s', vmmFreeTurn (vmmPageAddr b) i c s = (false, c, s') ∧ LooksUp s s' (b + i) := by
  obtain ⟨hS, hE, hptr⟩ := pageWalk_spec hC.sound (path_mem_vmmPaths hk) (hC.clear hk)
  have hbits := pageWalk_bits_iff (tablesInUse hC.sound.taken (hC.clear hk))
  have hlook : LooksUp s (s.pageWalk (vmmPageAddr (b + i))).2 (b + i) :=
    ⟨hC.extend hS hE, hE.root, hE.vmm, hE.old, fun hk' => backing_congr (hE.walk (path_mem_vmmPaths hk')),
      hE.count, hbits⟩
  refine ⟨_, ?_, hlook⟩
  have hzero : 0 ∈ s.tablesOf (vmmPageAddr (b + i)) → (s.pageWalk (vmmPageAddr (b + i))).1 = none :=
    fun hz => by rw [pageWalk_of_zero_mem hz]
  have hback := hlook.backing hk
  simp only [vmmFreeTurn, vmmPageAddr_add]
  generalize s.pageWalk (vmmPageAddr (b + i)) = w at hptr hzero hback ⊢
  obtain ⟨_ | ptr, s₁⟩ := w
  · rfl
  · obtain ⟨t, rfl, hw⟩ := hptr ptr rfl
    have hp : (s₁.tables t (getPTIndex (vmmPageAddr (b + i)))).present = false := by
      by_contra hp
      refine h ⟨?_, fun hz => by cases hzero hz⟩
      rw [← hback, VmmCore.backing_of_walksTo hw (by simpa using hp)]
      rfl
    simp only [MemState.entry, page_div, hp, ↓reduceIte]

/-- What can be freed stays so, where nothing else happens to it. -/
theorem freeable_congr {s' : MemState} (hC : VmmCore s) (hk : k < s.vmm.count)
    (hroot : s'.root = s.root) (hold : ∀ {π t}, s.tableAt π = some t → s'.tableAt π = some t)
    (hback : s'.backing k = s.backing k) : Freeable s' k ↔ Freeable s k := by
  rw [Freeable, Freeable, hback]
  refine and_congr_right fun hsome => ?_
  obtain ⟨x, hx⟩ := Option.isSome_iff_exists.mp hsome
  rw [tablesOf_of_old (hC.clear hk) hroot hold (missingTables_of_backing hC hk hx)]

end Turn

/-! ## The loop -/

/-- The state in which the loop of `vmm_free_pages` gets to page `j` of the range. -/
def freeStateAt (s : MemState) (b j : Nat) : MemState :=
  (MemState.vmmFreeLoop (vmmPageAddr b) j 0 b s true).2

/-- What the loop leaves of `n` pages from page `b` on, if it starts at bit `c`. -/
structure FreeResult (s s' : MemState) (b n c : Nat) : Prop where
  core : VmmCore s'
  count : s'.vmm.count = s.vmm.count
  root : s'.root = s.root
  old {π : List Index} {t : Nat} (h : s.tableAt π = some t) : s'.tableAt π = some t
  vmm (q : Nat) : bitRead s'.vmm.bitmap q =
    if c ≤ q ∧ q < c + Nat.count (fun j => Freeable s (b + j)) n then false
    else bitRead s.vmm.bitmap q
  backing {k : Nat} (hk : k < s.vmm.count) :
    s'.backing k = if b ≤ k ∧ k < b + n ∧ Freeable s k then none else s.backing k
  frames : s'.pmm.count = s.pmm.count

/-- The pages that can be freed: the first one, and the others. -/
theorem count_freeable {s s₁ : MemState} {b n : Nat}
    (h : ∀ k, b < k → k < b + 1 + n → (Freeable s₁ k ↔ Freeable s k)) :
    Nat.count (fun j => Freeable s (b + j)) (n + 1) =
      Nat.count (fun j => Freeable s₁ (b + 1 + j)) n + if Freeable s b then 1 else 0 := by
  have hcongr : Nat.count (fun j => Freeable s (b + (j + 1))) n =
      Nat.count (fun j => Freeable s₁ (b + 1 + j)) n := by
    refine Nat.le_antisymm (Nat.count_mono_left fun j hj hf => ?_)
      (Nat.count_mono_left fun j hj hf => ?_)
    · rw [h _ (by omega) (by omega), show b + 1 + j = b + (j + 1) by omega]
      exact hf
    · rw [← h _ (by omega) (by omega), show b + (j + 1) = b + 1 + j by omega]
      exact hf
  rw [Nat.count_succ', hcongr]
  rfl

namespace FreeResult

variable {s s₁ s' : MemState} {b n c x : Nat}

/-- A page that was freed, then the rest. -/
theorem cons_freed (hC : VmmCore s) (hb : b + 1 + n ≤ s.vmm.count) (hf : Freeable s b)
    (h₁ : FreesPage s s₁ b c x) (h : FreeResult s₁ s' (b + 1) n (c + 1)) :
    FreeResult s s' b (n + 1) c := by
  have hcount₁ : s₁.vmm.count = s.vmm.count := by rw [h₁.vmm]
  have hsame : ∀ k, k < s.vmm.count → k ≠ b → (Freeable s₁ k ↔ Freeable s k) := fun k hk hne =>
    freeable_congr hC hk h₁.root h₁.old (h₁.other hk hne)
  refine ⟨h.core, h.count.trans hcount₁, h.root.trans h₁.root, fun ht => h.old (h₁.old ht),
    fun q => ?_, fun {k} hk => ?_, h.frames.trans h₁.frames⟩
  · have hbit : bitRead s₁.vmm.bitmap q = if q = c then false else bitRead s.vmm.bitmap q := by
      rw [h₁.vmm]
      exact bitRead_bitWrite _ _ _ _
    have hrest : ∀ k, b < k → k < b + 1 + n → (Freeable s₁ k ↔ Freeable s k) := fun k h1 h2 =>
      hsame k (by omega) (by omega)
    rw [h.vmm, hbit, count_freeable hrest, if_pos hf]
    by_cases hq : q = c
    · subst hq
      rw [if_neg (by omega), if_pos rfl, if_pos (by omega)]
    · rw [if_neg hq]
      exact if_congr (by omega) rfl rfl
  · rw [h.backing (by omega)]
    by_cases hkb : k = b
    · subst hkb
      rw [if_neg (by omega), if_pos ⟨by omega, by omega, hf⟩, h₁.unmapped]
    · rw [h₁.other hk hkb]
      refine if_congr ?_ rfl rfl
      rw [hsame k hk hkb]
      exact ⟨fun ⟨h1, h2, h3⟩ => ⟨by omega, by omega, h3⟩, fun ⟨h1, h2, h3⟩ =>
        ⟨by omega, by omega, h3⟩⟩

/-- A page that was only looked up, then the rest. -/
theorem cons_skipped (hC : VmmCore s) (hb : b + 1 + n ≤ s.vmm.count) (hf : ¬ Freeable s b)
    (h₁ : LooksUp s s₁ b) (h : FreeResult s₁ s' (b + 1) n c) : FreeResult s s' b (n + 1) c := by
  have hcount₁ : s₁.vmm.count = s.vmm.count := by rw [h₁.vmm]
  have hsame : ∀ k, k < s.vmm.count → (Freeable s₁ k ↔ Freeable s k) := fun k hk =>
    freeable_congr hC hk h₁.root h₁.old (h₁.backing hk)
  refine ⟨h.core, h.count.trans hcount₁, h.root.trans h₁.root, fun ht => h.old (h₁.old ht),
    fun q => ?_, fun {k} hk => ?_, h.frames.trans h₁.frames⟩
  · have hrest : ∀ k, b < k → k < b + 1 + n → (Freeable s₁ k ↔ Freeable s k) := fun k h1 h2 =>
      hsame k (by omega)
    rw [h.vmm, h₁.vmm, count_freeable hrest, if_neg hf]
    rfl
  · rw [h.backing (by omega), h₁.backing hk]
    refine if_congr ?_ rfl rfl
    rw [hsame k hk]
    refine ⟨fun ⟨h1, h2, h3⟩ => ⟨by omega, by omega, h3⟩, fun ⟨h1, h2, h3⟩ => ?_⟩
    have hkb : k ≠ b := by rintro rfl; exact hf h3
    exact ⟨by omega, by omega, h3⟩

end FreeResult

/-- A failure on one page is the result of the loop. -/
theorem success_of_freeLoop {s : MemState} {a n i c : Nat} {success : Bool}
    (h : (MemState.vmmFreeLoop a n i c s success).1 = true) : success = true := by
  induction n generalizing s i c success with
  | zero => exact h
  | succ n ih =>
    rw [vmmFreeLoop_succ] at h
    exact (Bool.and_eq_true_iff.mp (ih h)).2

/-- The pages that can be freed are the same where the mapping is. -/
theorem exists_freeable_congr {s s' : MemState} {b n x : Nat}
    (hf : ∀ j < n, Freeable s' (b + j) ↔ Freeable s (b + j))
    (hback : ∀ j < n, s'.backing (b + j) = s.backing (b + j)) :
    (∃ j < n, Freeable s' (b + j) ∧ s'.backing (b + j) = some x) ↔
      ∃ j < n, Freeable s (b + j) ∧ s.backing (b + j) = some x :=
  exists_congr fun j => and_congr_right fun hj => by rw [hf j hj, hback j hj]

/-- What the loop of `vmm_free_pages` does: the pages that can be freed are, and as many bits are
cleared from `currPage` on. -/
theorem freeLoop_result {s : MemState} {b n i c : Nat} {success : Bool} (hC : VmmCore s)
    (hb : b + i + n ≤ s.vmm.count) :
    let r := MemState.vmmFreeLoop (vmmPageAddr b) n i c s success
    FreeResult s r.2 (b + i) n c ∧
      (r.1 = true ↔ success = true ∧ ∀ j < n, Freeable s (b + i + j)) ∧
      ∀ x, bitRead r.2.pmm.bitmap x = false ↔
        (bitRead s.pmm.bitmap x = false ∨
          ∃ j < n, Freeable s (b + i + j) ∧ s.backing (b + i + j) = some x) ∧
        ∀ j < n, ¬ TakenAt (MemState.vmmFreeLoop (vmmPageAddr b) j i c s success).2 (b + i + j) x := by
  induction n generalizing s i c success with
  | zero =>
    refine ⟨⟨hC, rfl, rfl, id, fun q => ?_, fun _ => ?_, rfl⟩, by simp [MemState.vmmFreeLoop], fun x => ?_⟩
    · rw [Nat.count_zero, if_neg (by omega)]
      rfl
    · rw [if_neg (by omega)]
      rfl
    · simp [MemState.vmmFreeLoop]
  | succ n ih =>
    have hk : b + i < s.vmm.count := by omega
    have hindex : ∀ j, b + i + (j + 1) = b + (i + 1) + j := fun j => by omega
    simp only [vmmFreeLoop_succ, Nat.forall_lt_succ_left, Nat.exists_lt_succ_left, Nat.add_zero,
      hindex]
    by_cases hf : Freeable s (b + i)
    · obtain ⟨x₀, hx₀⟩ := Option.isSome_iff_exists.mp hf.1
      obtain ⟨s₁, ht, h₁⟩ := vmmFreeTurn_freed (c := c) hC hk hx₀ hf.2
      have hcount₁ : s₁.vmm.count = s.vmm.count := by rw [h₁.vmm]
      obtain ⟨hres, hok, hbits⟩ := @ih s₁ (i + 1) (c + 1) (true && success) h₁.core
        (by rw [hcount₁]; omega)
      have hkept : ∀ j < n, s₁.backing (b + (i + 1) + j) = s.backing (b + (i + 1) + j) :=
        fun j hj => h₁.other (by omega) (by omega)
      have hsame : ∀ j < n, (Freeable s₁ (b + (i + 1) + j) ↔ Freeable s (b + (i + 1) + j)) :=
        fun j hj => freeable_congr hC (by omega) h₁.root h₁.old (hkept j hj)
      rw [ht]
      refine ⟨hres.cons_freed hC (by omega) hf h₁, ?_, fun x => ?_⟩
      · rw [hok, Bool.true_and]
        refine and_congr_right fun _ => ?_
        rw [and_iff_right hf]
        exact forall₂_congr hsame
      · -- The lookup takes nothing, and the page behind it becomes free.
        have hnone := not_takenAt_of_missingTables (missingTables_of_backing hC hk hx₀) x
        have hback : s.backing (b + i) = some x ↔ x = x₀ := by
          rw [hx₀, Option.some.injEq, eq_comm]
        rw [hbits, exists_freeable_congr hsame hkept, h₁.clear_iff, hback, and_iff_right hf]
        exact and_congr (or_assoc.trans or_left_comm) (and_iff_right hnone).symm
    · obtain ⟨s₁, ht, h₁⟩ := vmmFreeTurn_skipped (c := c) hC hk hf
      have hcount₁ : s₁.vmm.count = s.vmm.count := by rw [h₁.vmm]
      obtain ⟨hres, -, hbits⟩ := @ih s₁ (i + 1) c (false && success) h₁.core
        (by rw [hcount₁]; omega)
      have hback : ∀ j < n, s₁.backing (b + (i + 1) + j) = s.backing (b + (i + 1) + j) :=
        fun j hj => h₁.backing (by omega)
      have hsame : ∀ j < n, (Freeable s₁ (b + (i + 1) + j) ↔ Freeable s (b + (i + 1) + j)) :=
        fun j hj => freeable_congr hC (by omega) h₁.root h₁.old (hback j hj)
      rw [ht]
      refine ⟨hres.cons_skipped hC (by omega) hf h₁, ?_, fun x => ?_⟩
      · exact iff_of_false (fun h => by cases success_of_freeLoop h) fun h => hf h.2.1
      · -- A page that backs a page is in use, so it is not taken.
        have hused : (∃ j < n, Freeable s (b + (i + 1) + j) ∧
            s.backing (b + (i + 1) + j) = some x) → ¬ TakenAt s (b + i) x := by
          rintro ⟨j, hj, -, hx⟩ htaken
          exact not_free_of_used (hC.used (by omega) hx) htaken.1
        have hself : ¬ (Freeable s (b + i) ∧ s.backing (b + i) = some x) := fun h => hf h.1
        rw [hbits, exists_freeable_congr hsame hback, h₁.clear_iff, or_iff_right hself]
        have hzero : (MemState.vmmFreeLoop (vmmPageAddr b) 0 i c s success).2 = s := rfl
        rw [hzero]
        refine Iff.trans (and_congr_left' ?_) and_assoc
        rw [or_and_right, and_iff_left_of_imp hused]

/-! ## Freeing the range -/

/-- The `n` pages from page `b` on are freed: those that were mapped are not any more, their
physical pages are free and their bits clear. All other bits of `vmm_bitmap` are kept. -/
structure FreesRange (s s' : MemState) (b n : Nat) : Prop where
  mapped {j x : Nat} (hj : j < n) (hx : s.backing (b + j) = some x) :
    s'.translate (vmmPageAddr (b + j)) = none ∧ bitRead s'.pmm.bitmap x = false ∧
      bitRead s'.vmm.bitmap (b + j) = false
  unmapped {j : Nat} (hj : j < n) (hx : s.backing (b + j) = none) :
    bitRead s'.vmm.bitmap (b + j) = bitRead s.vmm.bitmap (b + j)
  outside {k : Nat} (hk : k < b ∨ b + n ≤ k) : bitRead s'.vmm.bitmap k = bitRead s.vmm.bitmap k

/-- The number of the first `n` pages from page `b` on that are mapped. -/
def mappedCount (s : MemState) (b n : Nat) : Nat := Nat.count (fun j => (s.backing (b + j)).isSome) n

/-- The mapped pages of the range can be freed. -/
def MappedFreeable (s : MemState) (b n : Nat) : Prop :=
  ∀ j < n, (s.backing (b + j)).isSome → 0 ∉ s.tablesOf (vmmPageAddr (b + j))

/-- A page of the range whose bit is set is mapped exactly if it is one of as many first ones. -/
def MappedFirst (s : MemState) (b n : Nat) : Prop :=
  ∀ j < n, bitRead s.vmm.bitmap (b + j) = true →
    ((s.backing (b + j)).isSome ↔ j < mappedCount s b n)

/-- When the loop gets to a page of the range, its lookup takes no page that backs the range. -/
def KeepsBacking (s : MemState) (b n : Nat) : Prop :=
  ∀ j < n, ∀ k < n, ∀ x, s.backing (b + k) = some x → ¬ TakenAt (freeStateAt s b j) (b + j) x

section Range

variable {s : MemState} {b n : Nat}

theorem backing_eq_none_iff {k : Nat} : s.backing k = none ↔ s.translate (vmmPageAddr k) = none := by
  rw [MemState.backing, Option.map_eq_none_iff]

theorem vmmFreePages_eq (hb : b + reqPages n ≤ s.vmm.count) :
    (s.vmmFreePages (vmmPageAddr b) n).2 = freeStateAt s b (reqPages n) := by
  have hle := s.vmm_le
  rw [MemState.vmmFreePages, freeStateAt]
  rcases Nat.eq_zero_or_pos (reqPages n) with h0 | hpos
  · simp only [h0, MemState.vmmFreeLoop]
  · rw [firstPage_vmmPageAddr (by omega)]

theorem count_freeable_eq (h : MappedFreeable s b n) :
    Nat.count (fun j => Freeable s (b + j)) n = mappedCount s b n :=
  Nat.le_antisymm (Nat.count_mono_left fun _ _ hf => hf.1)
    (Nat.count_mono_left fun j hj hm => ⟨hm, h j hj hm⟩)

theorem freeStateAt_result (hC : VmmCore s) (hb : b + n ≤ s.vmm.count) :
    FreeResult s (freeStateAt s b n) b n b ∧
      ∀ x, bitRead (freeStateAt s b n).pmm.bitmap x = false ↔
        (bitRead s.pmm.bitmap x = false ∨
          ∃ j < n, Freeable s (b + j) ∧ s.backing (b + j) = some x) ∧
        ∀ j < n, ¬ TakenAt (freeStateAt s b j) (b + j) x := by
  obtain ⟨hres, -, hbits⟩ := @freeLoop_result s b n 0 b true hC hb
  simp only [Nat.add_zero] at hres hbits
  exact ⟨hres, hbits⟩

theorem freeStateAt_freesRange (hC : VmmCore s) (hb : b + n ≤ s.vmm.count) :
    FreesRange s (freeStateAt s b n) b n ↔
      MappedFreeable s b n ∧ MappedFirst s b n ∧ KeepsBacking s b n := by
  obtain ⟨hres, hbits⟩ := freeStateAt_result hC hb
  have hle : Nat.count (fun j => Freeable s (b + j)) n ≤ n := Nat.count_le _
  have hvmm : ∀ j, bitRead (freeStateAt s b n).vmm.bitmap (b + j) =
      if j < Nat.count (fun j => Freeable s (b + j)) n then false
      else bitRead s.vmm.bitmap (b + j) := fun j => by
    rw [hres.vmm]
    exact if_congr (by omega) rfl rfl
  constructor
  · intro h
    have hA : MappedFreeable s b n := fun j hj hm hz => by
      obtain ⟨x, hx⟩ := Option.isSome_iff_exists.mp hm
      have hnone := backing_eq_none_iff.mpr (h.mapped hj hx).1
      rw [hres.backing (by omega), if_neg fun hf => hf.2.2.2 hz, hx] at hnone
      cases hnone
    rw [count_freeable_eq hA] at hvmm
    refine ⟨hA, fun j hj hset => ?_, fun j hj k hk x hx => ?_⟩
    · have hbit := hvmm j
      cases hx : s.backing (b + j) with
      | none =>
        rw [h.unmapped hj hx, hset] at hbit
        refine iff_of_false (by simp) fun hlt => ?_
        rw [if_pos hlt] at hbit
        cases hbit
      | some x =>
        rw [(h.mapped hj hx).2.2] at hbit
        refine iff_of_true rfl ?_
        by_contra hlt
        rw [if_neg hlt, hset] at hbit
        cases hbit
    · exact ((hbits x).mp (h.mapped hk hx).2.1).2 j hj
  · rintro ⟨hA, hB, hK⟩
    rw [count_freeable_eq hA] at hvmm hle
    refine ⟨fun {j x} hj hx => ?_, fun {j} hj hx => ?_, fun {k} hk => ?_⟩
    · have hm : (s.backing (b + j)).isSome := by rw [hx]; rfl
      have hf : Freeable s (b + j) := ⟨hm, hA j hj hm⟩
      refine ⟨backing_eq_none_iff.mp ?_, ?_, ?_⟩
      · rw [hres.backing (by omega), if_pos ⟨by omega, by omega, hf⟩]
      · exact (hbits x).mpr ⟨.inr ⟨j, hj, hf, hx⟩, fun i hi => hK i hi j hj x hx⟩
      · rw [hvmm]
        split
        · rfl
        · cases hset : bitRead s.vmm.bitmap (b + j)
          · rfl
          · exact absurd ((hB j hj hset).mp hm) ‹_›
    · rw [hvmm]
      split
      · cases hset : bitRead s.vmm.bitmap (b + j)
        · rfl
        · have hm := (hB j hj hset).mpr ‹_›
          rw [hx] at hm
          cases hm
      · rfl
    · rw [hres.vmm, count_freeable_eq hA, if_neg (by omega)]

/-- Where no table was missing before the call, the lookup takes nothing. -/
theorem not_takenAt_of_complete {j x : Nat} (hC : VmmCore s) (hb : b + j < s.vmm.count)
    (hmiss : s.missingTables (vmmPageAddr (b + j)) = 0) :
    ¬ TakenAt (freeStateAt s b j) (b + j) x := by
  obtain ⟨hres, -⟩ := freeStateAt_result (b := b) (n := j) hC (by omega)
  have htables := tablesOf_of_old (hC.clear hb) hres.root hres.old hmiss
  refine not_takenAt_of_missingTables ?_ x
  rw [MemState.missingTables, htables]
  exact hmiss

/-- The lookups take no page that backs the range if no table is missing behind a mapped page. -/
theorem keepsBacking_of_complete (hC : VmmCore s) (hb : b + n ≤ s.vmm.count)
    (h : ∀ i j, i < j → j < n → (s.backing (b + i)).isSome →
      s.missingTables (vmmPageAddr (b + j)) = 0) : KeepsBacking s b n := by
  intro j hj k hk x hx htaken
  obtain ⟨-, hbits⟩ := freeStateAt_result (b := b) (n := j) hC (by omega)
  -- The page is free by then, so it was freed before.
  rcases ((hbits x).mp htaken.1.2).1 with hfree | ⟨i, hi, hf, -⟩
  · rw [hC.used (by omega) hx] at hfree
    cases hfree
  · exact not_takenAt_of_complete hC (by omega) (h i j hi hj hf.1) htaken

/-- `vmm_free_pages` of `n` bytes from page `b` of the region on frees the range exactly if no table
on the path of a mapped page is page 0, the mapped pages come first, and no lookup takes a page
that backs the range for a table. The last is so if no table is missing behind a mapped page. -/
theorem vmmFreePages_freesRange (hC : VmmCore s) (hb : b + reqPages n ≤ s.vmm.count) :
    (FreesRange s (s.vmmFreePages (vmmPageAddr b) n).2 b (reqPages n) ↔
      MappedFreeable s b (reqPages n) ∧ MappedFirst s b (reqPages n) ∧
        KeepsBacking s b (reqPages n)) ∧
    ((∀ i j, i < j → j < reqPages n → (s.backing (b + i)).isSome →
      s.missingTables (vmmPageAddr (b + j)) = 0) → KeepsBacking s b (reqPages n)) := by
  refine ⟨?_, keepsBacking_of_complete hC hb⟩
  rw [vmmFreePages_eq hb]
  exact freeStateAt_freesRange hC hb

end Range

/-! ## Ranges of a few pages -/

theorem emptyTables_backing (k : Nat) : emptyTables.backing k = none := rfl

theorem emptyTables_core : VmmCore emptyTables where
  sound := emptyTables_sound _
  clear _ := emptyTables_noLargePage _
  used _ h := by cases (emptyTables_backing _).symm.trans h
  noTable _ h := by cases (emptyTables_backing _).symm.trans h
  inj _ _ h := by cases (emptyTables_backing _).symm.trans h

/-- Page 0 of the region is backed by the physical page 2, with its tables on the pages 3 to 5. -/
def oneMapped : MemState := (emptyTables.vmmMallocPages pageSize).2

/-- Pages 0 and 1 of the region are mapped. -/
def twoMapped : MemState := (emptyTables.vmmMallocPages (2 * pageSize)).2

theorem twoMapped_core : VmmCore twoMapped := by
  have hi : VmmInv emptyTables [] :=
    ⟨emptyTables_core, fun {q} hq => absurd hq List.not_mem_nil, List.Pairwise.nil⟩
  have hm : emptyTables.vmmMallocPages (2 * pageSize) =
      ((emptyTables.vmmMallocPages (2 * pageSize)).1, twoMapped) := by rw [twoMapped]
  exact (hi.malloc hm).1.core

/-- The two mapped pages are freed, with two unmapped ones behind them. -/
theorem twoMapped_freesRange : FreesRange twoMapped
    (twoMapped.vmmFreePages (vmmPageAddr 0) (4 * pageSize)).2 0 (reqPages (4 * pageSize)) := by
  have hfour : reqPages (4 * pageSize) = 4 := rfl
  have hcond := vmmFreePages_freesRange (n := 4 * pageSize) twoMapped_core (b := 0)
    (by decide +kernel)
  have hfreeable : ∀ j < 4, 0 ∉ twoMapped.tablesOf (vmmPageAddr (0 + j)) := by decide +kernel
  have hfirst : MappedFirst twoMapped 0 4 := by
    unfold MappedFirst
    decide +kernel
  have hcomplete : ∀ j < 4, twoMapped.missingTables (vmmPageAddr (0 + j)) = 0 := by decide +kernel
  rw [hfour] at hcond ⊢
  exact hcond.1.mpr ⟨fun j hj _ => hfreeable j hj, hfirst,
    hcond.2 fun i j _ hj _ => hcomplete j hj⟩

/-- Of two pages the first was freed. -/
def secondMapped : MemState :=
  (twoMapped.vmmFreePages (vmmPageAddr 0) pageSize).2

/-- Freeing both leaves the bit of the second set. -/
theorem secondMapped_not_freesRange : ¬ FreesRange secondMapped
    (secondMapped.vmmFreePages (vmmPageAddr 0) (2 * pageSize)).2 0 (reqPages (2 * pageSize)) := by
  intro h
  have hbit := (h.mapped (j := 1) (x := 6) (by decide) (by decide +kernel)).2.2
  exact absurd hbit (by decide +kernel)

/-! ## Freeing without taking -/

/-- `pmm_free` keeps free pages free. -/
theorem free_pmmFree {b : Bitmap} {q : Nat} (addr n : Nat) (h : b.Free q) :
    ({ b with bitmap := pmmFree b addr n } : Bitmap).Free q := by
  refine ⟨h.1, ?_⟩
  show bitRead (pmmFree b addr n) q = false
  rw [pmmFree, bitRead_writeLoop]
  split
  · rfl
  · exact h.2

/-- A turn that creates no table keeps the free pages. -/
theorem vmmFreeTurn_keepsFree {s : MemState} {a i : Nat} (c : Nat)
    (h : CreatesNoTable s (u64 (a + i * pageSize))) : KeepsFree s (vmmFreeTurn a i c s).2.2 := by
  have hkeep := pageWalk_keeps_iff.mpr h
  have hzero : ∀ {v}, 0 ∈ s.tablesOf v → s.pageWalk v = (none, s) := pageWalk_of_zero_mem
  have hfull : ∀ {v}, s.missingTables v = 0 → (s.pageWalk v).2 = s := pageWalk_complete
  rw [vmmFreeTurn]
  generalize u64 (a + i * pageSize) = v at *
  rcases h with hnone | hz | hmiss
  · intro p hp
    have hmem := Bitmap.mem_freePages.mpr hp
    rw [hnone] at hmem
    exact absurd hmem (Finset.notMem_empty p)
  · rw [hzero hz]
    exact .refl s
  · have hsame := hfull hmiss
    generalize s.pageWalk v = w at hkeep hsame ⊢
    obtain ⟨_ | ⟨t, j⟩, s₁⟩ := w
    · exact hkeep
    · simp only at hsame ⊢
      subst hsame
      split
      · exact .refl s₁
      · have hfree : KeepsFree s₁ ((s₁.setVmm (bitWrite s₁.vmm.bitmap c false)).freePage v).2 := by
          refine freePage_keepsFree (s := s₁.setVmm (bitWrite s₁.vmm.bitmap c false)).mpr
            (.inr (.inr ?_))
          have hpath : (s₁.setVmm (bitWrite s₁.vmm.bitmap c false)).tablesOf v = s₁.tablesOf v :=
            tablesOf_congr rfl rfl
          rw [MemState.missingTables, hpath]
          exact hmiss
        exact fun p hp => free_pmmFree _ _ (hfree p hp)

/-- The loop keeps the free pages if it creates no table at any page it gets to. -/
theorem vmmFreeLoop_keepsFree {s : MemState} {a n i c : Nat} {success : Bool}
    (h : ∀ j < n, CreatesNoTable (MemState.vmmFreeLoop a j i c s success).2
      (u64 (a + (i + j) * pageSize))) :
    KeepsFree s (MemState.vmmFreeLoop a n i c s success).2 := by
  induction n generalizing s i c success with
  | zero => exact .refl s
  | succ n ih =>
    rw [Nat.forall_lt_succ_left] at h
    rw [vmmFreeLoop_succ]
    refine (vmmFreeTurn_keepsFree c h.1).trans (ih fun j hj => ?_)
    have hj := h.2 j hj
    rwa [vmmFreeLoop_succ, show i + (j + 1) = i + 1 + j by omega] at hj

/-- In the region, freeing also keeps the free pages if the lookups take only pages that the call
freed before, and only then. -/
theorem freeStateAt_keepsFree {s : MemState} {b n : Nat} (hC : VmmCore s)
    (hb : b + n ≤ s.vmm.count) : KeepsFree s (freeStateAt s b n) ↔
      ∀ j < n, ∀ x, s.pmm.Free x → ¬ TakenAt (freeStateAt s b j) (b + j) x := by
  obtain ⟨hres, hbits⟩ := freeStateAt_result hC hb
  constructor
  · intro h j hj x hx
    exact ((hbits x).mp (h x hx).2).2 j hj
  · intro h x hx
    exact ⟨hres.frames ▸ hx.1, (hbits x).mpr ⟨.inl hx.2, fun j hj => h j hj x hx⟩⟩

/-- The calls that free pages keep the free pages exactly as follows: `free_page` and `free_pages` if
they create no table at any page they get to; `vmm_free_pages` if it creates none, and in the region
also if the pages its lookups take were not free before. -/
theorem freeing_keepsFree (s : MemState) :
    (∀ v, KeepsFree s (s.freePage v).2 ↔ CreatesNoTable s v) ∧
    (∀ v size, KeepsFree s (s.freePages v size).2 ↔ ∀ j < divideRoundUp size pageSize,
      CreatesNoTable (MemState.freePagesLoop v j 0 s true).2 (u64 (v + j * pageSize))) ∧
    (∀ a n, (∀ j < reqPages n, CreatesNoTable (MemState.vmmFreeLoop a j 0 (firstPage a) s true).2
      (u64 (a + j * pageSize))) → KeepsFree s (s.vmmFreePages a n).2) ∧
    (VmmCore s → ∀ b n, b + reqPages n ≤ s.vmm.count →
      (KeepsFree s (s.vmmFreePages (vmmPageAddr b) n).2 ↔ ∀ j < reqPages n, ∀ x, s.pmm.Free x →
        ¬ TakenAt (freeStateAt s b j) (b + j) x)) := by
  refine ⟨fun v => freePage_keepsFree, fun v size => ?_, fun a n h => ?_, fun hC b n hb => ?_⟩
  · rw [MemState.freePages, freePagesLoop_keepsFree]
    simp only [Nat.zero_add]
  · exact vmmFreeLoop_keepsFree (by simpa only [Nat.zero_add] using h)
  · rw [vmmFreePages_eq hb]
    exact freeStateAt_keepsFree hC hb

/-- Where the tables are there, freeing takes nothing. -/
theorem twoMapped_keepsFree :
    KeepsFree twoMapped (twoMapped.vmmFreePages (vmmPageAddr 0) (4 * pageSize)).2 := by
  have hfour : 0 + reqPages (4 * pageSize) ≤ twoMapped.vmm.count := by decide +kernel
  have hcomplete : ∀ j < 4, twoMapped.missingTables (vmmPageAddr (0 + j)) = 0 := by decide +kernel
  refine ((freeing_keepsFree twoMapped).2.2.2 twoMapped_core 0 _ hfour).mpr fun j hj x _ => ?_
  exact not_takenAt_of_complete twoMapped_core (Nat.lt_of_lt_of_le (Nat.add_lt_add_left hj 0) hfour)
    (hcomplete j hj)

/-- Page 2 is free, and taken for a table when a page that was never mapped is freed. -/
theorem emptyTables_freeing : emptyTables.pmm.Free 2 ∧ ¬ (emptyTables.freePage 0).2.pmm.Free 2 ∧
    ¬ (emptyTables.freePages 0 pageSize).2.pmm.Free 2 ∧
    ¬ (emptyTables.vmmFreePages (vmmPageAddr 0) pageSize).2.pmm.Free 2 := by
  decide +kernel

end EszOs
