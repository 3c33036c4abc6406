import EszOs.Memory.PmmRuns
import EszOs.Memory.VmmFree

/-!
# `vmm_malloc_pages` and `vmm_free_pages` undo each other

The loop of `vmm_malloc_pages` takes pages for data and for tables in turns. `Accounts` keeps books:
the pages that came into use are the data pages and the new tables. Freeing gives the data pages
back, so the tables remain (`vmmMallocPages_vmmFreePages`).
-/

namespace EszOs

open Bytes Radix

/-! ## The pages that came into use -/

/-- The hardware reaches page `x` as a table. -/
def IsTable (s : MemState) (x : Nat) : Prop := ∃ π, s.tableAt π = some x

/-- From `s` to `s'` the pages of `D` and the new tables came into use. -/
structure Accounts (s s' : MemState) (D : Set Nat) : Prop where
  used (x : Nat) : bitRead s'.pmm.bitmap x = true ↔
    bitRead s.pmm.bitmap x = true ∨ x ∈ D ∨ (IsTable s' x ∧ ¬ IsTable s x)
  fresh {x : Nat} (h : x ∈ D) : ¬ bitRead s.pmm.bitmap x = true
  old {x : Nat} (h : IsTable s x) : IsTable s' x

namespace Accounts

variable {s s₁ s₂ : MemState} {D D₁ D₂ : Set Nat}

theorem refl (s : MemState) : Accounts s s ∅ := ⟨fun x => by simp, fun h => absurd h id, id⟩

theorem trans (h₁ : Accounts s s₁ D₁) (h₂ : Accounts s₁ s₂ D₂) : Accounts s s₂ (D₁ ∪ D₂) where
  used x := by
    have hold₁ := h₁.old (x := x)
    have hold₂ := h₂.old (x := x)
    rw [h₂.used, h₁.used, Set.mem_union]
    tauto
  fresh {x} h := by
    rcases h with h | h
    · exact h₁.fresh h
    · exact fun hused => h₂.fresh h ((h₁.used x).mpr (.inl hused))
  old h := h₂.old (h₁.old h)

/-- Only the set of tables and the bits matter. -/
theorem congr {s' s₁' : MemState} (h : Accounts s s₁ D) (ht : ∀ π, s'.tableAt π = s.tableAt π)
    (hb : s'.pmm.bitmap = s.pmm.bitmap) (ht₁ : ∀ π, s₁'.tableAt π = s₁.tableAt π)
    (hb₁ : s₁'.pmm.bitmap = s₁.pmm.bitmap) : Accounts s' s₁' D := by
  have hs : ∀ x, IsTable s' x ↔ IsTable s x := fun x => exists_congr fun π => by rw [ht]
  have hs₁ : ∀ x, IsTable s₁' x ↔ IsTable s₁ x := fun x => exists_congr fun π => by rw [ht₁]
  refine ⟨fun x => ?_, fun h' => by rw [hb]; exact h.fresh h',
    fun h' => (hs₁ _).mpr (h.old ((hs _).mp h'))⟩
  rw [hb, hb₁, hs, hs₁]
  exact h.used x

end Accounts

section Walk

variable {V : Set (List Index)} {s : MemState} {π : List Index} {t : Nat}

/-- A walk takes pages for tables only. -/
theorem nextTables_accounts {v : Nat} {is : List Index} (hS : Sound V s) (hv : path v ∈ V)
    (hc : NoLargePage s v) (ht : s.tableAt π = some t) (hp : π ++ is <+: lastTable v) :
    Accounts s (nextTables s (t * pageSize) is).2 ∅ := by
  induction is generalizing s π t with
  | nil => exact .refl s
  | cons i is ih =>
    obtain ⟨hp', hpi, hlen⟩ := along_cons hp
    have hπ : Part V π := Part.of_concat ⟨_, hv, hpi⟩
    simp only [nextTables]
    rcases getOrCreateNextTable_cases hS ht hπ hlen (hc π i hpi hlen t ht) with
      ⟨t', ht', he⟩ | ⟨-, -, he⟩ | ⟨hnone, p, bits, hm, he, hpmm, hS', hE, hI⟩
    · rw [he]
      split
      · exact .refl s
      · exact ih hS hc ht' hp'
    · rw [he, if_pos rfl]
      exact .refl s
    · obtain ⟨p', hpp, -, hfree, -, hbits⟩ := pmmMallocPage_page hm
      obtain rfl : p = p' := Nat.eq_of_mul_eq_mul_right (by decide) hpp
      have hone : Accounts s (s.getOrCreateNextTable (t * pageSize) i).2 ∅ := by
        refine ⟨fun x => ?_, fun h => absurd h id, fun h => h.imp fun π' => hE.old⟩
        have hbit : bitRead (s.getOrCreateNextTable (t * pageSize) i).2.pmm.bitmap x =
            (decide (x = p) || bitRead s.pmm.bitmap x) := by
          rw [hpmm]
          exact hbits x
        have hnew : IsTable (s.getOrCreateNextTable (t * pageSize) i).2 x ∧ ¬ IsTable s x ↔
            x = p := by
          constructor
          · rintro ⟨⟨π', h⟩, hno⟩
            rcases hI.nodeAt_cases h with h | ⟨h, -⟩
            · exact absurd ⟨π', h⟩ hno
            · exact h
          · rintro rfl
            exact ⟨⟨_, hI.nodeAt_new⟩, fun h => h.elim hI.fresh⟩
        rw [hbit, hnew, Bool.or_eq_true, decide_eq_true_eq]
        simp [or_comm]
      generalize s.getOrCreateNextTable (t * pageSize) i = r at *
      obtain ⟨a', s'⟩ := r
      simp only at he hpmm hS' hE hI hone ⊢
      subst he
      split
      · exact hone
      · have h := hone.trans (ih hS' (hE.noLargePage hc) hI.nodeAt_new hp')
        rwa [Set.union_empty] at h

theorem pageWalk_accounts {v : Nat} (hS : Sound V s) (hv : path v ∈ V) (hc : NoLargePage s v) :
    Accounts s (s.pageWalk v).2 ∅ := by
  rw [pageWalk_eq]
  exact nextTables_accounts (π := []) (t := s.root) hS hv hc rfl (List.prefix_refl _)

end Walk

/-! ## Mapping the range -/

theorem WalksTo.of_old {s s' : MemState} {v t : Nat} (h : WalksTo s v t)
    (hold : ∀ {π t}, s.tableAt π = some t → s'.tableAt π = some t) : WalksTo s' v t where
  tables is' hne hp := by
    obtain ⟨t', hne', ht'⟩ := h.tables is' hne hp
    exact ⟨t', hne', hold ht'⟩
  last := hold h.last

/-- A path that a walk gets to the end of has no table at address 0. -/
theorem WalksTo.zero_notMem {s : MemState} {v t : Nat} (h : WalksTo s v t) : 0 ∉ s.tablesOf v :=
  fun hz => by
    have hnone := pageWalk_of_zero_mem hz
    rw [pageWalk_of_walksTo h] at hnone
    cases hnone

/-- From `s` to `s'` page `k` was mapped to the physical page `d`. -/
structure MapsPage (s s' : MemState) (k d : Nat) : Prop where
  core : VmmCore s'
  distinct : DistinctTables s'
  vmm : s'.vmm = s.vmm
  old {π : List Index} {t : Nat} (h : s.tableAt π = some t) : s'.tableAt π = some t
  backing : s'.backing k = some d
  walks : ∃ t, WalksTo s' (vmmPageAddr k) t
  other {v : Nat} (h : pageBits v ≠ pageBits (vmmPageAddr k)) : s'.translate v = s.translate v
  accounts : Accounts s s' {d}

theorem mapPage_mapsPage {s : MemState} {k addr : Nat} {bits : Mem} (hC : VmmCore s)
    (hd : DistinctTables s) (hk : k < s.vmm.count) (hm : pmmMallocPage s.pmm = some (addr, bits))
    (hr : ((s.setPmm bits).mapPage (vmmPageAddr k) addr pageFlagWrite).1 = true) :
    ∃ d, MapsPage s ((s.setPmm bits).mapPage (vmmPageAddr k) addr pageFlagWrite).2 k d := by
  obtain ⟨hC', hvmm, -, -⟩ := hC.mapStep hk hm
  obtain ⟨d, rfl, hlt, hfree, -, hbits⟩ := pmmMallocPage_page hm
  have hd₀ : DistinctTables (s.setPmm bits) := ⟨hd.distinct, fun {π t} h => by
    have hused : bitRead bits t = true := by rw [hbits, hd.used h, Bool.or_true]
    exact hused⟩
  have hc₀ : NoLargePage (s.setPmm bits) (vmmPageAddr k) := hC.clear hk
  have htake : Accounts s (s.setPmm bits) {d} := by
    refine ⟨fun x => ?_, fun {x} hx => ?_, id⟩
    swap
    · rw [Set.mem_singleton_iff.mp hx, hfree.2]
      decide
    have hbit : bitRead (s.setPmm bits).pmm.bitmap x = (decide (x = d) || bitRead s.pmm.bitmap x) :=
      hbits x
    have hno : ¬ (IsTable (s.setPmm bits) x ∧ ¬ IsTable s x) := fun h => h.2 h.1
    rw [hbit, or_iff_left hno, Set.mem_singleton_iff, Bool.or_eq_true, decide_eq_true_eq]
    exact or_comm
  obtain ⟨hmap, hd', hother⟩ := mapPage_translate hd₀ hc₀ (p := d * pageSize)
    (by simp only [pageSize]; omega) pageFlagWrite
  have hG : Grows (s.setPmm bits)
      ((s.setPmm bits).mapPage (vmmPageAddr k) (d * pageSize) pageFlagWrite).2 :=
    (mapPage_spec (fun _ hq => hq) hd₀.sound (path_length (vmmPageAddr k)) hc₀).2.1
  obtain ⟨e, he, -⟩ := hmap hr
  have hwalks : (∃ t, WalksTo ((s.setPmm bits).mapPage (vmmPageAddr k) (d * pageSize)
      pageFlagWrite).2 (vmmPageAddr k) t) ∧
      Accounts (s.setPmm bits) ((s.setPmm bits).mapPage (vmmPageAddr k) (d * pageSize)
        pageFlagWrite).2 ∅ := by
    have hS₁ := (pageWalk_spec hd₀.sound (path_length (vmmPageAddr k)) hc₀).1
    have haccount := pageWalk_accounts hd₀.sound (path_length (vmmPageAddr k)) hc₀
    rcases mapPage_cases (d * pageSize) pageFlagWrite hd₀.sound (path_length (vmmPageAddr k)) hc₀ with
      ⟨-, hfails⟩ | ⟨t, -, hw, hmaps⟩
    · rw [hfails] at hr
      cases hr
    · obtain ⟨-, -, htable, -, -⟩ := setEntry_spec (e := leafEntry _ (d * pageSize) pageFlagWrite)
        (fun _ hq => hq) hS₁ (path_length (vmmPageAddr k)) hw.last id
      rw [hmaps]
      exact ⟨⟨t, hw.of_old fun {π _} h => (htable π).trans h⟩,
        haccount.congr (fun _ => rfl) rfl htable rfl⟩
  refine ⟨d, hC', hd', hvmm, hG.old, ?_, hwalks.1, fun {v} hv => hother v hv, ?_⟩
  · rw [MemState.backing, he, Option.map_some, page_shiftRight]
  · have h := htake.trans hwalks.2
    rwa [Set.union_empty] at h

theorem pageBits_vmmPageAddr_ne {k k' : Nat} (h : k < 2 ^ 36) (h' : k' < 2 ^ 36) (hne : k ≠ k') :
    pageBits (vmmPageAddr k) ≠ pageBits (vmmPageAddr k') := fun he =>
  hne (path_vmmPageAddr_inj h h' (path_eq_iff.mpr he))

/-- What the loop of `vmm_malloc_pages` does if it succeeds, for `n` pages from page `k` on. -/
structure MapsRange (s s' : MemState) (k n : Nat) : Prop where
  core : VmmCore s'
  distinct : DistinctTables s'
  vmm : s'.vmm = s.vmm
  old {π : List Index} {t : Nat} (h : s.tableAt π = some t) : s'.tableAt π = some t
  freeable {j : Nat} (hj : j < n) : Freeable s' (k + j)
  other {v : Nat} (h : ∀ j < n, pageBits v ≠ pageBits (vmmPageAddr (k + j))) :
    s'.translate v = s.translate v
  accounts : Accounts s s' {x | ∃ j < n, s'.backing (k + j) = some x}

theorem mallocLoop_mapsRange {s : MemState} {req b n i : Nat} {success : Bool} (hC : VmmCore s)
    (hd : DistinctTables s) (hb : b + i + n ≤ s.vmm.count)
    (hr : (s.vmmMallocLoop req b n i success).1 = true) :
    MapsRange s (s.vmmMallocLoop req b n i success).2 (b + i) n := by
  induction n generalizing s i success with
  | zero =>
    refine ⟨hC, hd, rfl, id, fun hj => absurd hj (Nat.not_lt_zero _), fun _ => rfl, ?_⟩
    have hnone : {x | ∃ j < 0, s.backing (b + i + j) = some x} = ∅ := by
      ext x
      simp
    rw [MemState.vmmMallocLoop, hnone]
    exact .refl s
  | succ n ih =>
    simp only [MemState.vmmMallocLoop] at hr ⊢
    cases hm : pmmMallocPage s.pmm with
    | none => simp [hm] at hr
    | some q =>
      obtain ⟨addr, bits⟩ := q
      simp only [hm] at hr ⊢
      have hok := Bool.and_eq_true_iff.mp (VmmCore.success_of_mallocLoop hr)
      obtain ⟨d, h₁⟩ := mapPage_mapsPage hC hd (k := b + i) (by omega) hm hok.1
      generalize (s.setPmm bits).mapPage (vmmPageAddr (b + i)) addr pageFlagWrite = r at *
      obtain ⟨ok, s₁⟩ := r
      simp only at hr hok h₁ ⊢
      have hcount : s₁.vmm.count = s.vmm.count := by rw [h₁.vmm]
      have h := ih (i := i + 1) h₁.core h₁.distinct (by omega) hr
      have hindex : ∀ j, b + i + (j + 1) = b + (i + 1) + j := fun j => by omega
      have hle := s.vmm_le
      generalize s₁.vmmMallocLoop req b n (i + 1) (ok && success) = r at hr h ⊢
      obtain ⟨done, s'⟩ := r
      simp only at hr h ⊢
      -- The later pages leave this one alone.
      have hfirst : s'.backing (b + i) = some d := by
        rw [MemState.backing, h.other fun j hj => pageBits_vmmPageAddr_ne (by omega) (by omega)
          (by omega), ← MemState.backing, h₁.backing]
      obtain ⟨t, hw⟩ := h₁.walks
      refine ⟨h.core, h.distinct, h.vmm.trans h₁.vmm, fun ht => h.old (h₁.old ht), fun {j} hj => ?_,
        fun {v} hv => ?_, ?_⟩
      · cases j with
        | zero => exact ⟨by rw [Nat.add_zero, hfirst]; rfl, (hw.of_old h.old).zero_notMem⟩
        | succ j =>
          rw [hindex]
          exact h.freeable (by omega)
      · rw [h.other fun j hj => by rw [← hindex]; exact hv _ (by omega), h₁.other (hv 0 (by omega))]
      · have hset : {x | ∃ j < n + 1, s'.backing (b + i + j) = some x} =
            {d} ∪ {x | ∃ j < n, s'.backing (b + (i + 1) + j) = some x} := by
          ext x
          simp only [Set.mem_ofPred_eq, Set.mem_union, Set.mem_singleton_iff,
            Nat.exists_lt_succ_left, Nat.add_zero, hfirst, Option.some.injEq, hindex, eq_comm]
        rw [hset]
        exact h₁.accounts.trans h.accounts

/-! ## Freeing it again -/

/-- A page that is freed leaves all other translations alone. -/
theorem vmmFreeTurn_other {s : MemState} {b i c : Nat} (hC : VmmCore s) (hd : DistinctTables s)
    (hk : b + i < s.vmm.count) (hf : Freeable s (b + i)) :
    let s' := (vmmFreeTurn (vmmPageAddr b) i c s).2.2
    DistinctTables s' ∧
      ∀ v, pageBits v ≠ pageBits (vmmPageAddr (b + i)) → s'.translate v = s.translate v := by
  obtain ⟨x, hx⟩ := Option.isSome_iff_exists.mp hf.1
  obtain ⟨-, hpmm, hturn⟩ := vmmFreeTurn_eq (c := c) hC hk hx hf.2
  obtain ⟨s₂, hs₂⟩ : ∃ s₂, s₂ = s.setVmm (bitWrite s.vmm.bitmap c false) := ⟨_, rfl⟩
  rw [← hs₂] at hpmm hturn
  have htables : ∀ π, s₂.tableAt π = s.tableAt π := fun π => by rw [hs₂]; rfl
  have hpmm₂ : s₂.pmm = s.pmm := by rw [hs₂]; rfl
  have hd₂ : DistinctTables s₂ := ⟨fun h h' => hd.distinct (htables _ ▸ h) (htables _ ▸ h'),
    fun h => hpmm₂ ▸ hd.used (htables _ ▸ h)⟩
  have hc₂ : NoLargePage s₂ (vmmPageAddr (b + i)) := by
    rw [hs₂]
    exact hC.clear hk
  obtain ⟨-, hd', hother⟩ := freePage_translate hd₂ hc₂
  obtain ⟨-, hG, -⟩ := freePage_spec (fun _ hq => hq) hd₂.sound (path_length _) hc₂
  rw [hturn]
  refine ⟨⟨hd'.distinct, fun {π t} h => ?_⟩, fun v hv => (hother v hv).trans (by rw [hs₂]; rfl)⟩
  have hne : t ≠ x := by
    rintro rfl
    rcases hG.new h with h | ⟨hfree, hused, -⟩
    · exact hC.noTable hk hx π (htables π ▸ h)
    · rw [hpmm, ← hpmm₂, hfree.2] at hused
      cases hused
  have hbit : bitRead (pmmFree (s₂.freePage (vmmPageAddr (b + i))).2.pmm (x * pageSize) pageSize) t =
      true := by
    rw [bitRead_pmmFree, hd'.used h]
    simp [hne]
  rw [← page_shiftLeft] at hbit
  exact hbit

/-- The loop of `vmm_free_pages` leaves the translations outside its range alone. -/
theorem freeLoop_other {s : MemState} {b n i c : Nat} {success : Bool} (hC : VmmCore s)
    (hd : DistinctTables s) (hb : b + i + n ≤ s.vmm.count)
    (hf : ∀ j < n, Freeable s (b + i + j)) {v : Nat}
    (hv : ∀ j < n, pageBits v ≠ pageBits (vmmPageAddr (b + i + j))) :
    (MemState.vmmFreeLoop (vmmPageAddr b) n i c s success).2.translate v = s.translate v := by
  induction n generalizing s i c success with
  | zero => rfl
  | succ n ih =>
    have hindex : ∀ j, b + (i + 1) + j = b + i + (j + 1) := fun j => by omega
    have hk : b + i < s.vmm.count := by omega
    have hfirst : Freeable s (b + i) := hf 0 (Nat.succ_pos n)
    obtain ⟨x, hx⟩ := Option.isSome_iff_exists.mp hfirst.1
    obtain ⟨s₁, ht, h₁⟩ := vmmFreeTurn_freed (c := c) hC hk hx hfirst.2
    obtain ⟨hd₁, hother⟩ := vmmFreeTurn_other (c := c) hC hd hk hfirst
    have hcount : s₁.vmm.count = s.vmm.count := by rw [h₁.vmm]
    rw [ht] at hd₁ hother
    rw [vmmFreeLoop_succ, ht]
    refine (ih (i := i + 1) h₁.core hd₁ (by omega) (fun j hj => ?_) fun j hj => ?_).trans
      (hother v (hv 0 (Nat.succ_pos n)))
    · rw [hindex, freeable_congr hC (by omega) h₁.root h₁.old (h₁.other (by omega) (by omega))]
      exact hf (j + 1) (by omega)
    · rw [hindex]
      exact hv (j + 1) (by omega)

/-- What `vmm_free_pages` leaves of a range whose pages can all be freed. -/
theorem freeStateAt_of_freeable {s : MemState} {b n : Nat} (hC : VmmCore s) (hd : DistinctTables s)
    (hb : b + n ≤ s.vmm.count) (hf : ∀ j < n, Freeable s (b + j)) :
    (∀ q, bitRead (freeStateAt s b n).vmm.bitmap q =
      if b ≤ q ∧ q < b + n then false else bitRead s.vmm.bitmap q) ∧
    (∀ x, bitRead (freeStateAt s b n).pmm.bitmap x = true ↔ bitRead s.pmm.bitmap x = true ∧
      ¬ ∃ j < n, s.backing (b + j) = some x) ∧
    (∀ j < n, (freeStateAt s b n).translate (vmmPageAddr (b + j)) = none) ∧
    ∀ v, (∀ j < n, pageBits v ≠ pageBits (vmmPageAddr (b + j))) →
      (freeStateAt s b n).translate v = s.translate v := by
  obtain ⟨hres, hbits⟩ := freeStateAt_result hC hb
  have hcount : Nat.count (fun j => Freeable s (b + j)) n = n := Nat.count_iff_forall.mpr hf
  refine ⟨fun q => by rw [hres.vmm, hcount], fun x => ?_, fun j hj => ?_, fun v hv =>
    freeLoop_other (i := 0) hC hd hb hf hv⟩
  · have hnone : ∀ j < n, ¬ TakenAt (freeStateAt s b j) (b + j) x := fun j hj => by
      obtain ⟨y, hy⟩ := Option.isSome_iff_exists.mp (hf j hj).1
      exact not_takenAt_of_complete hC (by omega) (missingTables_of_backing hC (by omega) hy)
    have hex : (∃ j < n, Freeable s (b + j) ∧ s.backing (b + j) = some x) ↔
        ∃ j < n, s.backing (b + j) = some x :=
      exists_congr fun j => and_congr_right fun hj => and_iff_right (hf j hj)
    rw [← Bool.not_eq_false, hbits, and_iff_left hnone, hex, not_or, Bool.not_eq_false]
  · rw [← backing_eq_none_iff, hres.backing (by omega), if_pos ⟨by omega, by omega, hf j hj⟩]

/-- What `vmm_malloc_pages` hands out was a run of clear bits, and is mapped after it is marked. -/
theorem vmmMallocPages_mapsRange {s s₁ : MemState} {n a : Nat} (hC : VmmCore s)
    (hd : DistinctTables s) (hm : s.vmmMallocPages n = (a, s₁)) (ha : a ≠ 0) :
    ∃ b, 0 < reqPages n ∧ s.vmm.FreeRun (reqPages n) b ∧ a = vmmPageAddr b ∧
      MapsRange (s.reserve (reqPages n) b) s₁ b (reqPages n) := by
  obtain ⟨b, hpos, hrun, haddr, hloop⟩ := vmmMallocPages_of_ne_zero hm ha
  have hd₀ : DistinctTables (s.reserve (reqPages n) b) := ⟨hd.distinct, hd.used⟩
  have hrange := mallocLoop_mapsRange (i := 0) (hC.reserve (reqPages n) b) hd₀ hrun.1
    (congrArg Prod.fst hloop)
  rw [hloop] at hrange
  exact ⟨b, hpos, hrun, haddr, hrange⟩

/-- The data pages came from the free ones and are no tables. -/
theorem MapsRange.data {s s' : MemState} {b n p : Nat} (h : MapsRange s s' b n)
    (hb : b + n ≤ s'.vmm.count) (hp : ∃ j < n, s'.backing (b + j) = some p) :
    ¬ bitRead s.pmm.bitmap p = true ∧ ¬ IsTable s' p := by
  refine ⟨h.accounts.fresh hp, ?_⟩
  obtain ⟨j, hj, hback⟩ := hp
  rintro ⟨π, htable⟩
  exact h.core.noTable (by omega) hback π htable

/-- Freeing what `vmm_malloc_pages` handed out succeeds and gives `vmm_bitmap` and all translations
back. The page tables that the mapping created stay in use, and nothing else does. -/
theorem vmmMallocPages_vmmFreePages {s s₁ : MemState} {n a : Nat} (hC : VmmCore s)
    (hd : DistinctTables s)
    (hclear : ∀ k < s.vmm.count, bitRead s.vmm.bitmap k = false → s.backing k = none)
    (hm : s.vmmMallocPages n = (a, s₁)) (ha : a ≠ 0) :
    (s₁.vmmFreePages a n).1 = true ∧ (s₁.vmmFreePages a n).2.vmm = s.vmm ∧
      (∀ v, (s₁.vmmFreePages a n).2.translate v = s.translate v) ∧
      ∀ p, bitRead (s₁.vmmFreePages a n).2.pmm.bitmap p = true ↔
        bitRead s.pmm.bitmap p = true ∨ (IsTable s₁ p ∧ ¬ IsTable s p) := by
  obtain ⟨b, hpos, hrun, haddr, hmap⟩ := vmmMallocPages_mapsRange hC hd hm ha
  rw [haddr]
  have hle := s.vmm_le
  have hb := hrun.1
  have hcount₁ : s₁.vmm.count = s.vmm.count := by
    rw [hmap.vmm]
    rfl
  have hle₁ : b + reqPages n ≤ s₁.vmm.count := by omega
  have hfreeable : ∀ j < reqPages n, Freeable s₁ (b + j) := fun j hj => hmap.freeable hj
  obtain ⟨hvmm, hpmm, hnone, hother⟩ :=
    freeStateAt_of_freeable hmap.core hmap.distinct hle₁ hfreeable
  rw [vmmFreePages_eq hle₁]
  refine ⟨?_, ?_, fun v => ?_, fun p => ?_⟩
  · rw [MemState.vmmFreePages, firstPage_vmmPageAddr (by omega)]
    exact (freeLoop_result (i := 0) hmap.core hle₁).2.1.mpr ⟨rfl, by simpa using hfreeable⟩
  · refine Bitmap.ext_usedPages ?_ (Set.ext fun q => ?_)
    · rw [(freeStateAt_result hmap.core hle₁).1.count, hcount₁]
    · have hbit : bitRead (freeStateAt s₁ b (reqPages n)).vmm.bitmap q =
          bitRead s.vmm.bitmap q := by
        rw [hvmm, hmap.vmm, bitRead_reserve hb]
        split
        · rename_i hq
          exact (hrun.2 q hq.1 hq.2).symm
        · rfl
      rw [Bitmap.usedPages, Bitmap.usedPages, Set.mem_ofPred_eq, Set.mem_ofPred_eq, hbit]
  · by_cases hin : ∃ j < reqPages n, pageBits v = pageBits (vmmPageAddr (b + j))
    · obtain ⟨j, hj, he⟩ := hin
      have hzero := hclear (b + j) (by omega) (hrun.2 _ (by omega) (by omega))
      rw [translate_of_pageBits he, hnone j hj, translate_of_pageBits he,
        backing_eq_none_iff.mp hzero]
    · have hout : ∀ j < reqPages n, pageBits v ≠ pageBits (vmmPageAddr (b + j)) :=
        fun j hj he => hin ⟨j, hj, he⟩
      exact (hother v hout).trans (hmap.other hout)
  · have hused : bitRead s₁.pmm.bitmap p = true ↔ bitRead s.pmm.bitmap p = true ∨
        (∃ j < reqPages n, s₁.backing (b + j) = some p) ∨ (IsTable s₁ p ∧ ¬ IsTable s p) :=
      hmap.accounts.used p
    rw [hpmm, hused]
    by_cases hp : ∃ j < reqPages n, s₁.backing (b + j) = some p
    · obtain ⟨hfresh, htable⟩ := hmap.data hle₁ hp
      have hfree : ¬ bitRead s.pmm.bitmap p = true := hfresh
      simp only [hp, hfree, htable, not_true_eq_false, and_false, false_and, or_false,
        Bool.false_eq_true]
    · simp only [hp, not_false_eq_true, and_true, false_or]

/-- The physical pages 3 to 5 stay in use, as tables. -/
theorem emptyTables_roundTrip :
    (oneMapped.vmmFreePages (vmmPageAddr 0) pageSize).1 = true ∧
      (oneMapped.vmmFreePages (vmmPageAddr 0) pageSize).2.vmm = emptyTables.vmm ∧
      bitRead (oneMapped.vmmFreePages (vmmPageAddr 0) pageSize).2.pmm.bitmap 2 = false ∧
      bitRead (oneMapped.vmmFreePages (vmmPageAddr 0) pageSize).2.pmm.bitmap 3 = true := by
  have hm : emptyTables.vmmMallocPages pageSize = (vmmPageAddr 0, oneMapped) :=
    Prod.ext (by decide +kernel) (by rw [oneMapped])
  have ha : vmmPageAddr 0 ≠ 0 := by decide
  obtain ⟨hok, hvmm, -, -⟩ := vmmMallocPages_vmmFreePages emptyTables_core emptyTables_distinct
    (fun _ _ _ => rfl) hm ha
  exact ⟨hok, hvmm, by decide +kernel, by decide +kernel⟩

end EszOs
