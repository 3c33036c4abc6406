import EszOs.Memory.Vmm

/-!
# What the pages of the VMM region are backed by

`VmmCore s` ties the three structures together: the paths of the region own their tables, every
mapped page of the region is backed by a used physical page that is no table, and no two pages by
the same one. It says nothing about `vmm_bitmap`, so it also holds of the mappings that a failed
call leaves behind.

Each page that a loop maps or frees keeps it (`VmmCore.mapStep`, `VmmCore.freeStep`), and so do the
loops (`VmmCore.mallocLoop`, `VmmCore.freeLoop`); pages outside the range of the call are left
alone.
-/

namespace EszOs

open Bytes Radix

/-- The physical page that backs page `k` of the region. -/
def MemState.backing (s : MemState) (k : Nat) : Option Nat :=
  (s.translate (vmmPageAddr k)).map Translation.page

theorem backing_congr {s s' : MemState} {k : Nat}
    (h : s'.tree.walk (path (vmmPageAddr k)) = s.tree.walk (path (vmmPageAddr k))) :
    s'.backing k = s.backing k := by
  rw [MemState.backing, MemState.backing, translate_congr h]

/-- Page tables, PMM and the mapped pages of the region are in step. -/
structure VmmCore (s : MemState) : Prop where
  sound : Sound (vmmPaths s.vmm.count) s
  clear {k : Nat} (hk : k < s.vmm.count) : NoLargePage s (vmmPageAddr k)
  used {k x : Nat} (hk : k < s.vmm.count) (h : s.backing k = some x) :
    bitRead s.pmm.bitmap x = true
  noTable {k x : Nat} (hk : k < s.vmm.count) (h : s.backing k = some x) (π : List Index) :
    s.tableAt π ≠ some x
  inj {k k' x : Nat} (hk : k < s.vmm.count) (hk' : k' < s.vmm.count) (h : s.backing k = some x)
    (h' : s.backing k' = some x) : k = k'

/-- A used page is not free. -/
theorem not_free_of_used {b : Bitmap} {x : Nat} (h : bitRead b.bitmap x = true) : ¬ b.Free x := by
  intro hf
  rw [hf.2] at h
  cases h

namespace VmmCore

variable {s s' : MemState} {k : Nat}

/-- `vmm_bitmap` does not matter. -/
theorem setVmm (hC : VmmCore s) (bits : Mem) : VmmCore (s.setVmm bits) :=
  ⟨⟨hC.sound.owned, hC.sound.taken⟩, hC.clear, hC.used, hC.noTable, hC.inj⟩

theorem reserve (hC : VmmCore s) (req b : Nat) : VmmCore (s.reserve req b) := hC.setVmm _

/-- A walk of the source adds tables only. -/
theorem extend (hC : VmmCore s) (hS : Sound (vmmPaths s.vmm.count) s')
    (hE : Extends (vmmPaths s.vmm.count) s s') : VmmCore s' := by
  have hback : ∀ {k}, k < s.vmm.count → s'.backing k = s.backing k := fun hk =>
    backing_congr (hE.walk (path_mem_vmmPaths hk))
  have hcount : s'.vmm.count = s.vmm.count := by rw [hE.vmm]
  constructor
  · rwa [hcount]
  · intro k hk
    exact hE.toGrows.noLargePage (hC.clear (hcount ▸ hk))
  · intro k x hk h
    rw [hcount] at hk
    exact hE.bits (hC.used hk ((hback hk).symm.trans h))
  · intro k x hk h π ht
    rw [hcount] at hk
    rw [hback hk] at h
    rcases hE.new ht with ht | ⟨hf, -⟩
    · exact hC.noTable hk h π ht
    · exact not_free_of_used (hC.used hk h) hf
  · intro k k' x hk hk' h h'
    rw [hcount] at hk hk'
    exact hC.inj hk hk' ((hback hk).symm.trans h) ((hback hk').symm.trans h')

/-! ## Mapping one page -/

/-- One turn of the loop of `vmm_malloc_pages`. -/
theorem mapStep (hC : VmmCore s) (hk : k < s.vmm.count) {addr : Nat} {bits : Mem}
    (hm : pmmMallocPage s.pmm = some (addr, bits)) :
    let r := (s.setPmm bits).mapPage (vmmPageAddr k) addr pageFlagWrite
    VmmCore r.2 ∧ r.2.vmm = s.vmm ∧ (r.1 = true → (r.2.backing k).isSome) ∧
      ∀ k' < s.vmm.count, k' ≠ k → r.2.backing k' = s.backing k' := by
  intro r
  obtain ⟨d, rfl, hlt, hfree, -, hbits⟩ := pmmMallocPage_page hm
  have hmono : ∀ {q}, bitRead s.pmm.bitmap q = true → bitRead bits q = true := fun h => by
    rw [hbits, h, Bool.or_true]
  have hused : bitRead bits d = true := by rw [hbits]; simp
  have hS₀ : Sound (vmmPaths s.vmm.count) (s.setPmm bits) :=
    ⟨hC.sound.owned, fun {π t} h hf => hC.sound.taken h ⟨hf.1, by
      cases hb : bitRead s.pmm.bitmap t
      · rfl
      · rw [← hmono hb]; exact hf.2⟩⟩
  obtain ⟨hS, hG, hother, hself⟩ := mapPage_spec (p := d * pageSize)
    vmmPaths_length hS₀ (path_mem_vmmPaths hk) (hC.clear hk)
  have hback : ∀ k' < s.vmm.count, k' ≠ k → r.2.backing k' = s.backing k' := fun k' hk' hne => by
    refine backing_congr (hother _ (path_mem_vmmPaths hk') fun he => hne ?_)
    exact path_vmmPageAddr_inj (Nat.lt_of_lt_of_le hk' s.vmm_le) (Nat.lt_of_lt_of_le hk s.vmm_le) he
  have hvmm : r.2.vmm = s.vmm := hG.vmm
  have hcount : r.2.vmm.count = s.vmm.count := by rw [hvmm]
  -- The page behind `k`: the new one, or the old one when the walk failed.
  have hnew : r.1 = true → r.2.backing k = some d := fun hr => by
    rw [if_pos hr] at hself
    obtain ⟨e, he⟩ := hself
    rw [MemState.backing, translate_leafEntry (by simp only [pageSize]; omega) he, page_shiftRight]
    rfl
  have hold : r.1 = false → r.2.backing k = s.backing k := fun hr => by
    rw [if_neg (by rw [show _ = false from hr]; decide)] at hself
    exact backing_congr hself
  have hcases : ∀ {k' x}, k' < s.vmm.count → r.2.backing k' = some x →
      s.backing k' = some x ∨ (k' = k ∧ x = d) := by
    intro k' x hk' h
    by_cases he : k' = k
    · subst he
      cases hr : r.1
      · exact .inl ((hold hr).symm.trans h)
      · rw [hnew hr] at h
        exact .inr ⟨rfl, (Option.some.inj h).symm⟩
    · exact .inl ((hback k' hk' he).symm.trans h)
  have hfresh : ∀ {k' : Nat}, k' < s.vmm.count → s.backing k' ≠ some d := fun hk' h =>
    not_free_of_used (hC.used hk' h) hfree
  refine ⟨⟨by rwa [hcount], fun hk' => hG.noLargePage (hC.clear (hcount ▸ hk')), fun hk' h => ?_,
    fun hk' h π ht => ?_, fun hk₁ hk₂ h₁ h₂ => ?_⟩, hvmm, fun hr => by rw [hnew hr]; rfl, hback⟩
  · rw [hcount] at hk'
    rcases hcases hk' h with h | ⟨-, rfl⟩
    · exact hG.bits (hmono (hC.used hk' h))
    · exact hG.bits hused
  · rw [hcount] at hk'
    rcases hG.new ht with ht₀ | ⟨hf, -⟩
    · rcases hcases hk' h with h₀ | ⟨-, rfl⟩
      · exact hC.noTable hk' h₀ π ht₀
      · exact hC.sound.taken ht₀ hfree
    · refine not_free_of_used (b := (s.setPmm bits).pmm) ?_ hf
      rcases hcases hk' h with h₀ | ⟨-, rfl⟩
      · exact hmono (hC.used hk' h₀)
      · exact hused
  · rw [hcount] at hk₁ hk₂
    rcases hcases hk₁ h₁ with h₁' | ⟨rfl, he₁⟩ <;> rcases hcases hk₂ h₂ with h₂' | ⟨rfl, he₂⟩
    · exact hC.inj hk₁ hk₂ h₁' h₂'
    · exact absurd (he₂ ▸ h₁') (hfresh hk₁)
    · exact absurd (he₁ ▸ h₂') (hfresh hk₂)
    · rfl

/-! ## Freeing one page -/

theorem backing_of_walksTo {t : Nat} (hw : WalksTo s (vmmPageAddr k) t)
    (hp : (s.tables t (getPTIndex (vmmPageAddr k))).present = true) :
    s.backing k = some (s.tables t (getPTIndex (vmmPageAddr k))).address.toNat := by
  rw [MemState.backing, MemState.translate, walk_of_lastTable hw.last, if_pos hp]
  simp [leafPage]

/-- From `s` to `s'` page `k` of the region was unmapped and the physical page `x` freed. -/
structure UnmapsPage (s s' : MemState) (k x : Nat) : Prop where
  vmm : s'.vmm = s.vmm
  count : s'.pmm.count = s.pmm.count
  owned : Owned (vmmPaths s.vmm.count) s'.tree
  tables (π : List Index) : s'.tableAt π = s.tableAt π
  clear {k' : Nat} (hk' : k' < s.vmm.count) : NoLargePage s' (vmmPageAddr k')
  bits (q : Nat) : bitRead s'.pmm.bitmap q = (!decide (q = x) && bitRead s.pmm.bitmap q)
  none : s'.backing k = none
  other {k' : Nat} (hk' : k' < s.vmm.count) (hne : k' ≠ k) : s'.backing k' = s.backing k'

namespace UnmapsPage

variable {x : Nat}

/-- A page of the region that is still mapped is another one, with another physical page. -/
theorem backing (h : UnmapsPage s s' k x) (hC : VmmCore s) (hk : k < s.vmm.count)
    (hx : s.backing k = some x) {k' y : Nat} (hk' : k' < s.vmm.count)
    (hy : s'.backing k' = some y) : s.backing k' = some y ∧ y ≠ x := by
  by_cases he : k' = k
  · rw [he, h.none] at hy
    cases hy
  · rw [h.other hk' he] at hy
    refine ⟨hy, ?_⟩
    rintro rfl
    exact he (hC.inj hk' hk hy hx)

/-- If `x` was behind the page, the invariant is kept. -/
theorem core (h : UnmapsPage s s' k x) (hC : VmmCore s) (hk : k < s.vmm.count)
    (hx : s.backing k = some x) : VmmCore s' := by
  have hcount : s'.vmm.count = s.vmm.count := by rw [h.vmm]
  refine ⟨⟨?_, fun {π y} ht hf => ?_⟩, fun hk' => ?_, fun hk' hy => ?_, fun hk' hy π ht => ?_,
    fun hk₁ hk₂ h₁ h₂ => ?_⟩
  · rw [hcount]
    exact h.owned
  · rw [h.tables] at ht
    have hyx : y ≠ x := fun he => hC.noTable hk hx π (he ▸ ht)
    refine hC.sound.taken ht ⟨h.count ▸ hf.1, ?_⟩
    have hbit := hf.2
    rw [h.bits] at hbit
    simpa [hyx] using hbit
  · rw [hcount] at hk'
    exact h.clear hk'
  · rw [hcount] at hk'
    obtain ⟨hold, hne⟩ := h.backing hC hk hx hk' hy
    rw [h.bits, hC.used hk' hold]
    simp [hne]
  · rw [hcount] at hk'
    rw [h.tables] at ht
    exact hC.noTable hk' (h.backing hC hk hx hk' hy).1 π ht
  · rw [hcount] at hk₁ hk₂
    exact hC.inj hk₁ hk₂ (h.backing hC hk hx hk₁ h₁).1 (h.backing hC hk hx hk₂ h₂).1

end UnmapsPage

/-- One turn of the loop of `vmm_free_pages`, at a mapped page whose tables are present. -/
theorem freeStep (hC : VmmCore s) (hk : k < s.vmm.count) {t : Nat}
    (hw : WalksTo s (vmmPageAddr k) t)
    (hp : (s.tables t (getPTIndex (vmmPageAddr k))).present = true) :
    let r := s.freePage (vmmPageAddr k)
    let s' := r.2.setPmm (pmmFree r.2.pmm
      ((s.tables t (getPTIndex (vmmPageAddr k))).address.toNat <<< 12) pageSize)
    r.1 = true ∧ VmmCore s' ∧ s'.vmm = s.vmm ∧ s'.backing k = none ∧
      ∀ k' < s.vmm.count, k' ≠ k → s'.backing k' = s.backing k' := by
  intro r s'
  obtain ⟨x, hx⟩ : ∃ x, x = (s.tables t (getPTIndex (vmmPageAddr k))).address.toNat := ⟨_, rfl⟩
  have hxk : s.backing k = some x := by rw [hx]; exact backing_of_walksTo hw hp
  have hr : r = (true, s.setEntry (t * pageSize) (getPTIndex (vmmPageAddr k)) .zero) := by
    simp only [r, MemState.freePage, pageWalk_of_walksTo hw]
  obtain ⟨hS, hG, hnode, hother, hself⟩ := setEntry_spec (e := .zero) vmmPaths_length hC.sound
    (path_mem_vmmPaths hk) hw.last fun _ => rfl
  have hunmaps : UnmapsPage s s' k x := by
    simp only [s', hr, ← hx, page_shiftLeft]
    refine ⟨rfl, rfl, hS.owned, hnode, fun hk' => hG.noLargePage (hC.clear hk'),
      bitRead_pmmFree _, ?_, fun {k'} hk' hne => ?_⟩
    · have hwalk : (s.setEntry (t * pageSize) (getPTIndex (vmmPageAddr k)) .zero).tree.walk
          (path (vmmPageAddr k)) = none := hself
      exact congrArg (fun w => (Option.map _ w).map Translation.page) hwalk
    · refine backing_congr (hother _ (path_mem_vmmPaths hk') fun he => hne ?_)
      exact path_vmmPageAddr_inj (Nat.lt_of_lt_of_le hk' s.vmm_le) (Nat.lt_of_lt_of_le hk s.vmm_le) he
  exact ⟨by rw [hr], hunmaps.core hC hk hxk, hunmaps.vmm, hunmaps.none, fun _ => hunmaps.other⟩

/-! ## The loops -/

/-- A failure on one page is the result of the loop. -/
theorem success_of_mallocLoop {req b n i : Nat} {success : Bool}
    (h : (s.vmmMallocLoop req b n i success).1 = true) : success = true := by
  induction n generalizing s i success with
  | zero => exact h
  | succ n ih =>
    simp only [MemState.vmmMallocLoop] at h
    cases hm : pmmMallocPage s.pmm with
    | none => simp [hm] at h
    | some q =>
      simp only [hm] at h
      exact (Bool.and_eq_true_iff.mp (ih h)).2

/-- The loop of `vmm_malloc_pages` over the range of `req` pages from page `b`. -/
theorem mallocLoop {req b n i : Nat} (success : Bool) (hC : VmmCore s) (hi : i + n ≤ req)
    (hb : b + req ≤ s.vmm.count) :
    let r := s.vmmMallocLoop req b n i success
    VmmCore r.2 ∧ r.2.vmm.count = s.vmm.count ∧
      (∀ p, p < b ∨ b + req ≤ p → bitRead r.2.vmm.bitmap p = bitRead s.vmm.bitmap p) ∧
      (∀ k < s.vmm.count, k < b + i ∨ b + i + n ≤ k → r.2.backing k = s.backing k) ∧
      (r.1 = true → r.2.vmm = s.vmm ∧ ∀ k, b + i ≤ k → k < b + i + n → (r.2.backing k).isSome) := by
  induction n generalizing s i success with
  | zero => exact ⟨hC, rfl, fun _ _ => rfl, fun _ _ _ => rfl, fun _ => ⟨rfl, fun k h1 h2 => by omega⟩⟩
  | succ n ih =>
    simp only [MemState.vmmMallocLoop]
    cases hm : pmmMallocPage s.pmm with
    | none =>
      refine ⟨hC.setVmm _, rfl, fun p hp => ?_, fun _ _ _ => rfl, fun h => by cases h⟩
      have := s.vmm_le
      rw [Bitmap.bitRead_writeBitsInRangeFrom p (by omega), if_neg (by omega)]
    | some q =>
      obtain ⟨addr, bits⟩ := q
      simp only
      obtain ⟨hC₁, hvmm, hsome, hother⟩ := hC.mapStep (k := b + i) (by omega) hm
      generalize (s.setPmm bits).mapPage (vmmPageAddr (b + i)) addr pageFlagWrite = r at *
      obtain ⟨ok, s₁⟩ := r
      simp only at hC₁ hvmm hsome hother ⊢
      obtain ⟨hC', hcount, hbits, hback, hdone⟩ := ih (i := i + 1) (ok && success) hC₁
        (by omega) (by rw [hvmm]; exact hb)
      rw [hvmm] at hcount hbits hback hdone
      refine ⟨hC', hcount, hbits, fun k hk hout => ?_, fun hr => ⟨(hdone hr).1, fun k h1 h2 => ?_⟩⟩
      · rw [hback k hk (by omega), hother k hk (by omega)]
      · by_cases hki : k = b + i
        · rw [hback k (by omega) (by omega), hki]
          exact hsome (Bool.and_eq_true_iff.mp (success_of_mallocLoop hr)).1
        · exact (hdone hr).2 k (by omega) (by omega)

/-- The loop of `vmm_free_pages`, over pages of the range from page `b`. -/
theorem freeLoop {a b n i : Nat} (currPage : Nat) (success : Bool) (hC : VmmCore s) (ha : a = vmmPageAddr b)
    (hb : b + i + n ≤ s.vmm.count) (hcurr : b ≤ currPage ∧ currPage ≤ b + i) :
    let r := MemState.vmmFreeLoop a n i currPage s success
    VmmCore r.2 ∧ r.2.vmm.count = s.vmm.count ∧
      (∀ p, p < b ∨ b + i + n ≤ p → bitRead r.2.vmm.bitmap p = bitRead s.vmm.bitmap p) ∧
      ∀ k < s.vmm.count, k < b ∨ b + i + n ≤ k → r.2.backing k = s.backing k := by
  induction n generalizing s i currPage success with
  | zero => exact ⟨hC, rfl, fun _ _ => rfl, fun _ _ _ => rfl⟩
  | succ n ih =>
    have hk : b + i < s.vmm.count := by omega
    obtain ⟨hS₁, hE, hptr⟩ := pageWalk_spec hC.sound (path_mem_vmmPaths hk) (hC.clear hk)
    have hC₁ := hC.extend hS₁ hE
    have hvmm₁ := hE.vmm
    have hback₁ : ∀ k < s.vmm.count, (s.pageWalk (vmmPageAddr (b + i))).2.backing k = s.backing k :=
      fun k hk => backing_congr (hE.walk (path_mem_vmmPaths hk))
    simp only [MemState.vmmFreeLoop, ha, vmmPageAddr_add]
    rw [← ha]
    generalize s.pageWalk (vmmPageAddr (b + i)) = w at hS₁ hE hptr hC₁ hvmm₁ hback₁ ⊢
    obtain ⟨ptr, s₁⟩ := w
    simp only at hS₁ hE hptr hC₁ hvmm₁ hback₁
    -- A page that is not mapped is skipped, and `currPage` stays.
    have skip : ∀ {success}, let r := MemState.vmmFreeLoop a n (i + 1) currPage s₁ success
        VmmCore r.2 ∧ r.2.vmm.count = s.vmm.count ∧
          (∀ p, p < b ∨ b + i + (n + 1) ≤ p →
            bitRead r.2.vmm.bitmap p = bitRead s.vmm.bitmap p) ∧
          ∀ k < s.vmm.count, k < b ∨ b + i + (n + 1) ≤ k → r.2.backing k = s.backing k := by
      intro success r
      obtain ⟨h1, h2, h3, h4⟩ := ih (i := i + 1) currPage success hC₁
        (by rw [hvmm₁]; omega) (by omega)
      rw [hvmm₁] at h2 h3 h4
      exact ⟨h1, h2, fun p hp => h3 p (by omega), fun k hk' hout =>
        (h4 k hk' (by omega)).trans (hback₁ k hk')⟩
    cases ptr with
    | none => exact skip
    | some a =>
      obtain ⟨t, rfl, hw⟩ := hptr a rfl
      have hentry : s₁.entry (t * pageSize) (getPTIndex (vmmPageAddr (b + i))) =
          s₁.tables t (getPTIndex (vmmPageAddr (b + i))) := by rw [MemState.entry, page_div]
      simp only [hentry]
      by_cases hp : (s₁.tables t (getPTIndex (vmmPageAddr (b + i)))).present = false
      · rw [if_pos hp]
        exact skip
      · rw [if_neg hp]
        obtain ⟨s₂, hs₂⟩ : ∃ s₂, s₂ = s₁.setVmm (bitWrite s₁.vmm.bitmap currPage false) := ⟨_, rfl⟩
        have hcount₂ : s₂.vmm.count = s.vmm.count := by rw [hs₂, ← hvmm₁]; rfl
        have hbits₂ : ∀ p, p ≠ currPage →
            bitRead s₂.vmm.bitmap p = bitRead s.vmm.bitmap p := fun p hp => by
          rw [hs₂, ← hvmm₁]
          exact (bitRead_bitWrite _ _ _ _).trans (if_neg hp)
        have hback₂ : ∀ k, s₂.backing k = s₁.backing k := fun k => by rw [hs₂]; rfl
        have hC₂ : VmmCore s₂ := hs₂ ▸ hC₁.setVmm _
        have htables : s₁.tables = s₂.tables := by rw [hs₂]; rfl
        rw [← hs₂, htables]
        obtain ⟨-, hC₃, hvmm₃, -, hother⟩ := hC₂.freeStep (k := b + i) (t := t) (by omega)
          (by rw [hs₂]; exact ⟨hw.tables, hw.last⟩) (by rw [← htables]; simpa using hp)
        obtain ⟨h1, h2, h3, h4⟩ := ih (i := i + 1) (currPage + 1) _ hC₃
          (by rw [hvmm₃]; omega) (by omega)
        rw [hvmm₃, hcount₂] at h2 h4
        rw [hvmm₃] at h3
        refine ⟨h1, h2, fun p hp => (h3 p (by omega)).trans (hbits₂ p (by omega)), fun k hk' hout => ?_⟩
        rw [h4 k hk' (by omega), hother k (by omega) (by omega), hback₂, hback₁ k hk']

end VmmCore

end EszOs
