import EszOs.Types.StringObject
import EszOs.Types.Text

/-!
# Splitting a text into blocks (`types/string/string.cpp`)

`str_split` counts the separators in one loop and cuts the text in another, into a block for each
section.

* `splitLoop_eq`: the second loop finds the sections of `strSplit`, and fills a block with each.
* `exec_fillBlocks`: the blocks are new, and each keeps what it was filled with.
* `strSplit_joins`: the sections, joined, are the text.
-/

namespace EszOs

namespace StringProgram

section Source

variable (A : Allocator Nat) (text : CString) (splitChar : UInt8)

/-- The loop that counts. -/
def splitQty : Nat := text.foldl (fun outSplitQty c => if c = splitChar then outSplitQty + 1
  else outSplitQty) 1

/-- The section of `partLen` characters from `partStart` on. -/
def sectionAt (partStart partLen : Nat) : CString := (text.drop partStart).take partLen

/-- The loop that cuts: its stores to `outSplits`, each with its index. -/
def splitLoop : List Nat → Nat → Nat → StringProgram (List (Nat × Nat))
  | [], _, _ => return []
  | i :: is, partStart, partNo =>
    if i ≠ text.length ∧ text[i]? ≠ some splitChar then splitLoop is partStart partNo
    else do
      let partLen := i - partStart
      let part ← mallocStr A (partLen + 1)
      BlockHeap.store part (sectionAt text partStart partLen)
      let outSplits ← splitLoop is (i + 1) (partNo + 1)
      return (partNo, part) :: outSplits

/-- `str_split`: `outSplitQty` and the stores to `outSplits`. -/
def strSplit : StringProgram (Nat × List (Nat × Nat)) := do
  let outSplitQty := splitQty text splitChar
  let outSplits ← splitLoop A text splitChar (List.range (text.length + 1)) 0 0
  return (outSplitQty, outSplits)

end Source

/-! ## The sections -/

variable {text : CString} {splitChar : UInt8}

theorem splitQty_eq (text : CString) (splitChar : UInt8) :
    splitQty text splitChar = text.count splitChar + 1 := by
  have hfold : ∀ n, text.foldl (fun qty c => if c = splitChar then qty + 1 else qty) n =
      text.count splitChar + n := by
    induction text with
    | nil => simp
    | cons c text ih =>
      intro n
      rw [List.foldl_cons, ih, List.count_cons]
      grind
  exact hfold 1

/-- The sections that the loop cuts at the positions. -/
def sections (text : CString) (splitChar : UInt8) : List Nat → Nat → List CString
  | [], _ => []
  | i :: is, partStart =>
    if i ≠ text.length ∧ text[i]? ≠ some splitChar then sections text splitChar is partStart
    else sectionAt text partStart (i - partStart) :: sections text splitChar is (i + 1)

/-- From a position on, the loop goes on with the section it is in. -/
theorem sections_range' {n i partStart : Nat} (hn : i + n = text.length) (hle : partStart ≤ i) :
    sections text splitChar (List.range' i (n + 1)) partStart =
      strSplitLoop splitChar (text.drop i) (sectionAt text partStart (i - partStart)) := by
  induction n generalizing i partStart with
  | zero =>
    have hend : i = text.length := hn
    simp [List.range', sections, hend, strSplitLoop]
  | succ n ih =>
    have hlt : i < text.length := by omega
    have hne : i ≠ text.length := by omega
    rw [List.range'_succ, sections, List.drop_eq_getElem_cons hlt, strSplitLoop,
      List.getElem?_eq_getElem hlt]
    by_cases hc : text[i] = splitChar
    · rw [if_neg (by simp [hc]), if_neg (by simp [hc]), ih (by omega) (Nat.le_refl _)]
      simp [sectionAt]
    · rw [if_pos ⟨hne, by simpa using hc⟩, if_pos hc, ih (by omega) (by omega)]
      congr 1
      have hlen : i - partStart < (text.drop partStart).length := by
        rw [List.length_drop]
        omega
      have hsucc : i + 1 - partStart = i - partStart + 1 := by omega
      rw [sectionAt, sectionAt, hsucc, List.take_succ_eq_append_getElem hlen, List.getElem_drop]
      simp [Nat.add_sub_cancel' hle]

theorem sections_eq (text : CString) (splitChar : UInt8) :
    sections text splitChar (List.range (text.length + 1)) 0 = EszOs.strSplit text splitChar := by
  rw [List.range_eq_range', sections_range' (Nat.zero_add _) (Nat.le_refl 0)]
  simp [sectionAt, EszOs.strSplit]

/-- The sections, joined, are the text. -/
theorem intercalate_strSplitLoop (splitChar : UInt8) (text part : CString) :
    [splitChar].intercalate (strSplitLoop splitChar text part) = part ++ text := by
  induction text generalizing part with
  | nil => simp [strSplitLoop]
  | cons c text ih =>
    rw [strSplitLoop]
    split
    · rw [ih, List.append_assoc]
      rfl
    · rename_i hc
      rw [List.intercalate_cons_of_ne_nil (strSplitLoop_ne_nil _ _ _), ih, not_not.mp hc]
      simp

/-! ## The blocks -/

/-- A block for each section. -/
def fillBlocks (A : Allocator Nat) : List CString → StringProgram (List Nat)
  | [] => return []
  | part :: parts => do
    let p ← mallocStr A (part.length + 1)
    BlockHeap.store p part
    let ps ← fillBlocks A parts
    return p :: ps

/-- The loop fills a block with each section, and stores it at the next index. -/
theorem splitLoop_eq (A : Allocator Nat) {is : List Nat} {partStart partNo : Nat}
    (his : ∀ i ∈ is, i ≤ text.length) (hsorted : is.Pairwise (· < ·)) (hpos : ∀ i ∈ is, partStart ≤ i) :
    splitLoop A text splitChar is partStart partNo = do
      let ps ← fillBlocks A (sections text splitChar is partStart)
      return (ps.zipIdx partNo).map Prod.swap := by
  induction is generalizing partStart partNo with
  | nil => rfl
  | cons i is ih =>
    obtain ⟨hi, his⟩ := List.forall_mem_cons.mp his
    obtain ⟨hlt, hsorted⟩ := List.pairwise_cons.mp hsorted
    obtain ⟨hstart, hpos⟩ := List.forall_mem_cons.mp hpos
    rw [splitLoop, sections]
    split
    · exact ih his hsorted hpos
    · have hlength : (sectionAt text partStart (i - partStart)).length = i - partStart := by
        rw [sectionAt, List.length_take_of_le]
        rw [List.length_drop]
        omega
      rw [ih his hsorted hlt, fillBlocks, hlength]
      simp

/-- The blocks are new and not the same, each keeps its section, and what was there stays. -/
theorem exec_fillBlocks (A : Allocator Nat) (parts : List CString) (h : BlockHeap Nat CString) :
    ∃ ps h', Program.exec (fillBlocks A parts) h = (.ok ps, h') ∧ ps.Nodup ∧
      (∀ p ∈ ps, p ∉ h.live) ∧ h'.live = ps + h.live ∧ ps.map h'.content = parts ∧
        ∀ p ∈ h.live, h'.content p = h.content p := by
  induction parts generalizing h with
  | nil =>
    refine ⟨[], h, rfl, List.nodup_nil, fun p hp => absurd hp List.not_mem_nil, ?_, rfl, fun _ _ => rfl⟩
    simp
  | cons part parts ih =>
    let p := A.place h.mallocs h.live (part.length + 1)
    have hfresh : p ∉ h.live := A.place_fresh _ _ _
    let h₁ := h.allocate A (part.length + 1) []
    let h₂ : BlockHeap Nat CString :=
      { h₁ with content := fun q => if q = p then part else h₁.content q }
    have hmalloc : Program.exec (mallocStr A (part.length + 1)) h = (.ok p, h₁) := rfl
    have hlive : h₂.live = p ::ₘ h.live := rfl
    have hstore : Program.exec (BlockHeap.store p part) h₁ = (.ok (), h₂) := by
      have hmem : p ∈ h₁.live := Multiset.mem_cons_self p h.live
      unfold BlockHeap.store
      rw [Program.exec_bind_ok (Program.exec_get _), if_pos hmem]
      rfl
    obtain ⟨ps, h', hrun, hnodup, hnew, hlive', hcontent, hkept⟩ := ih h₂
    rw [hlive] at hnew hlive' hkept
    refine ⟨p :: ps, h', ?_, ?_, ?_, ?_, ?_, ?_⟩
    · rw [fillBlocks, Program.exec_bind_ok hmalloc, Program.exec_bind_ok hstore,
        Program.exec_bind_ok hrun]
      rfl
    · exact List.nodup_cons.mpr ⟨fun hp => hnew p hp (Multiset.mem_cons_self _ _), hnodup⟩
    · intro q hq
      rcases List.mem_cons.mp hq with rfl | hq
      · exact hfresh
      · exact fun hmem => hnew q hq (Multiset.mem_cons_of_mem hmem)
    · rw [hlive', ← Multiset.cons_coe, Multiset.cons_add, Multiset.add_cons]
    · have hp : h'.content p = part := by
        rw [hkept p (Multiset.mem_cons_self _ _)]
        exact if_pos rfl
      rw [List.map_cons, hp, hcontent]
    · intro q hq
      have hne : q ≠ p := fun heq => hfresh (heq ▸ hq)
      rw [hkept q (Multiset.mem_cons_of_mem hq)]
      exact (if_neg hne).trans (if_neg hne)

/-- `outSplitQty` is one more than there are separators, and `outSplits` gets that many entries, each
a new block of its own. No section has a separator in it, and joined they are the text. -/
theorem strSplit_joins (A : Allocator Nat) (h : BlockHeap Nat CString) (text : CString)
    (splitChar : UInt8) :
    ∃ outSplits h', Program.exec (strSplit A text splitChar) h =
        (.ok (text.count splitChar + 1, outSplits), h') ∧
      outSplits.map Prod.fst = List.range (text.count splitChar + 1) ∧
      (outSplits.map Prod.snd).Nodup ∧
      (∀ s ∈ outSplits, s.2 ∉ h.live ∧ s.2 ∈ h'.live ∧ splitChar ∉ h'.content s.2) ∧
      [splitChar].intercalate (outSplits.map fun s => h'.content s.2) = text := by
  obtain ⟨ps, h', hrun, hnodup, hnew, hlive, hcontent, -⟩ :=
    exec_fillBlocks A (EszOs.strSplit text splitChar) h
  have hlength : ps.length = text.count splitChar + 1 := by
    rw [← strSplit_length, ← hcontent, List.length_map]
  have hsnd : ((ps.zipIdx 0).map Prod.swap).map Prod.snd = ps := by
    rw [List.map_map]
    exact List.zipIdx_map_fst 0 ps
  have hfst : ((ps.zipIdx 0).map Prod.swap).map Prod.fst = List.range (text.count splitChar + 1) := by
    rw [List.map_map, ← hlength, List.range_eq_range']
    exact List.zipIdx_map_snd 0 ps
  have hsections : ((ps.zipIdx 0).map Prod.swap).map (fun s => h'.content s.2) =
      EszOs.strSplit text splitChar := by
    have hmap := congrArg (List.map h'.content) hsnd
    rw [List.map_map] at hmap
    exact hmap.trans hcontent
  refine ⟨(ps.zipIdx 0).map Prod.swap, h', ?_, hfst, hsnd.symm ▸ hnodup, fun s hs => ?_, ?_⟩
  · unfold strSplit
    rw [splitLoop_eq A (fun i hi => Nat.le_of_lt_succ (List.mem_range.mp hi)) List.pairwise_lt_range
      (fun i _ => Nat.zero_le i), sections_eq, splitQty_eq, bind_assoc,
      Program.exec_bind_ok hrun]
    rfl
  · have hmem : s.2 ∈ ps := hsnd ▸ List.mem_map_of_mem hs
    refine ⟨hnew _ hmem, ?_, ?_⟩
    · rw [hlive]
      exact Multiset.mem_add.mpr (.inl hmem)
    · have hsection : h'.content s.2 ∈ EszOs.strSplit text splitChar := by
        rw [← hsections]
        exact List.mem_map_of_mem hs
      exact not_mem_of_mem_strSplit hsection
  · rw [hsections]
    exact intercalate_strSplitLoop splitChar text []

end StringProgram

end EszOs
