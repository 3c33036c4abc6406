import EszOs.Types.Cuts
import EszOs.Types.Search

/-!
# Replacing in a text (`types/string/string.cpp`)

`str_replace` collects the positions of all occurrences, those that overlap as well, and then
rewrites the text at one after the other. The text is in a region of memory, and so is what is in
front of it: the positions are moved by a signed offset, which may lead there.

* `findings_lt_iff`: when the positions fit `findingsStartPtr`.
* `exec_replaceOne`, `exec_replaceLoop`: what the rewriting does while it stays in the text.
* `replaceLoop_served`: where it returns, it stayed in the text and got its blocks, or it stored in
  front of the text.
* `strReplace_iff`: when the occurrences that the scan from the left keeps are replaced, and nothing
  else.
-/

namespace EszOs

open Occurrences

namespace TextProgram

/-! ## The function -/

/-- The loop that looks for the occurrences: the stores to `findingsStartPtr`, each with its index. -/
def findingsLoop (text searchText : CString) : List Nat → Nat → List (Nat × Nat)
  | [], _ => []
  | i :: is, counter =>
    if strEqual searchText (comparison text i searchText.length) then
      (counter, i) :: findingsLoop text searchText is (counter + 1)
    else findingsLoop text searchText is counter

def findingsStores (text searchText : CString) : List (Nat × Nat) :=
  if searchText.length > text.length then []
  else findingsLoop text searchText (searchRange text searchText) 0

/-- `str_add`, to the text at `target`. -/
def strAdd (m : Region) (target : Int) (value : Region) : TextProgram Region := do
  let targetText ← inside (m.string target)
  let valueText ← inside (value.string 0)
  let m ← inside (m.store (target + targetText.length) valueText)
  inside (m.set (target + targetText.length + valueText.length) 0)

/-- The body of the loop that replaces. -/
def replaceOne (searchTextLen : Nat) (replacedBy : CString) (ptr : Int) (m : Region) :
    TextProgram Region :=
  if replacedBy.length = searchTextLen then inside (m.store ptr replacedBy)
  else do
    let text ← inside (m.string ptr)
    let tail ← strCutStart text (UInt64.ofNat searchTextLen)
    let m ← inside (m.store ptr replacedBy)
    let m ← inside (m.set (ptr + replacedBy.length) 0)
    let m ← strAdd m ptr tail.content
    NullProgram.free kernelHeap tail.ptr
    return m

/-- The loop that replaces. -/
def replaceLoop (searchTextLen : Nat) (replacedBy : CString) :
    List Nat → Int → Region → TextProgram Region
  | [], _, m => return m
  | finding :: findings, offset, m => do
    let m ← replaceOne searchTextLen replacedBy (finding + offset) m
    replaceLoop searchTextLen replacedBy findings (offset + replacedBy.length - searchTextLen) m

/-- `str_replace`, of the text that starts at `start`. -/
def strReplace (m : Region) (start : Nat) (searchText replacedBy : CString) :
    TextProgram Region := do
  let text ← inside (m.string start)
  let findings := findingsStores text searchText
  if findings.any fun s => 1024 ≤ s.1 then NullProgram.fault .findingsOverrun
  else replaceLoop searchText.length replacedBy (findings.map fun s => start + s.2) 0 m

/-! ## The findings -/

theorem findingsLoop_eq (text searchText : CString) (is : List Nat) (counter : Nat) :
    findingsLoop text searchText is counter =
      ((is.filter fun i => strEqual searchText (comparison text i searchText.length)).zipIdx
        counter).map Prod.swap := by
  induction is generalizing counter with
  | nil => rfl
  | cons i is ih =>
    rw [findingsLoop]
    split
    · rename_i h
      simp only [List.filter_cons, h, if_true, List.zipIdx_cons, List.map_cons, ih]
      rfl
    · rename_i h
      simp only [List.filter_cons, h, Bool.false_eq_true, if_false, ih]

/-- The findings are the occurrences, those that overlap included. -/
theorem findingsStores_eq (text searchText : CString) :
    findingsStores text searchText = ((occurrences searchText text).zipIdx 0).map Prod.swap := by
  unfold findingsStores
  split
  · rename_i h
    rw [occurrences_eq_nil h]
    rfl
  · rename_i h
    rw [findingsLoop_eq, filter_searchRange (Nat.not_lt.mp h)]

theorem map_snd_findingsStores (text searchText : CString) :
    (findingsStores text searchText).map Prod.snd = occurrences searchText text := by
  rw [findingsStores_eq, List.map_map]
  exact List.zipIdx_map_fst 0 _

theorem map_fst_findingsStores (text searchText : CString) :
    (findingsStores text searchText).map Prod.fst = List.range (strCount text searchText) := by
  rw [findingsStores_eq, List.map_map, strCount_eq_length, List.range_eq_range']
  exact List.zipIdx_map_snd 0 _

/-- The findings fit an array of `capacity` entries exactly if there are no more of them. -/
theorem findings_lt_iff (text searchText : CString) (capacity : Nat) :
    (∀ s ∈ findingsStores text searchText, s.1 < capacity) ↔ strCount text searchText ≤ capacity := by
  have hforall : (∀ s ∈ findingsStores text searchText, s.1 < capacity) ↔
      ∀ i ∈ (findingsStores text searchText).map Prod.fst, i < capacity := by
    rw [List.forall_mem_map]
  rw [hforall, map_fst_findingsStores]
  constructor
  · intro h
    by_contra hlt
    exact absurd (h capacity (List.mem_range.mpr (Nat.not_le.mp hlt))) (Nat.lt_irrefl _)
  · intro h i hi
    exact Nat.lt_of_lt_of_le (List.mem_range.mp hi) h

/-- `str_replace` stores its findings inside `findingsStartPtr` exactly if there are at most 1024
occurrences. -/
theorem strReplace_findings_iff (text searchText : CString) :
    (∀ s ∈ findingsStores text searchText, s.1 < 1024) ↔ strCount text searchText ≤ 1024 :=
  findings_lt_iff text searchText 1024

/-- A text of 1024 characters has 1025 positions for the empty text. -/
theorem findings_overrun :
    ¬ ∀ s ∈ findingsStores (List.replicate 1024 0x61) [], s.1 < 1024 := by
  rw [findings_lt_iff, strCount_eq_length, occurrences_nil, List.length_range, List.length_replicate]
  decide

/-! ## One replacement -/

/-- The heap has room for blocks of these sizes, each freed before the next. -/
def ServesInTurn (h : Heap) : List Nat → Prop
  | [] => True
  | n :: ns => ∃ p h' h'', h.malloc n = some (some p, h') ∧ h'.free p = some h'' ∧ ServesInTurn h'' ns

theorem kernelHeap_free (h : Heap) (p : Nat) : kernelHeap.free h p = h.free p := rfl

theorem exec_free {h h' : Heap} {p : Nat} (hfree : h.free p = some h') (refused : Bool) :
    Program.exec (NullProgram.free kernelHeap (some p) : TextProgram Unit) ⟨h, refused⟩ =
      (.ok (), ⟨h', refused⟩) :=
  NullProgram.exec_free_eq_ok.mpr ⟨(kernelHeap_free h p).trans hfree, rfl⟩

section One

variable (before rest : List UInt8) (st : List Nat) {s replacedBy : List UInt8} {k q : Nat}

/-- The size of the block for the tail. -/
theorem tail_size (hq : q + k ≤ s.length) (hlen : s.length + 1 < 2 ^ 64) :
    u64 ((s.drop q).length + 2 ^ 64 - (UInt64.ofNat k).toNat + 1) = s.length - q - k + 1 := by
  have hk : (UInt64.ofNat k).toNat = k := UInt64.toNat_ofNat_of_lt' (by rw [UInt64.size]; omega)
  rw [hk, List.length_drop, u64]
  omega

theorem length_before_take (hq : q ≤ s.length) :
    (before ++ s.take q).length = before.length + q := by
  rw [List.length_append, List.length_take_of_le hq]

theorem bytes_split (s : List UInt8) (q : Nat) :
    before ++ s ++ 0 :: rest = before ++ s.take q ++ (s.drop q ++ 0 :: rest) := by
  rw [← List.append_assoc, List.append_assoc before (s.take q), List.take_append_drop]

theorem length_drop_rest (s : List UInt8) (q : Nat) :
    (s.drop q ++ 0 :: rest).length = s.length - q + 1 + rest.length := by
  rw [List.length_append, List.length_drop, List.length_cons]
  omega

/-- The text at `ptr`. -/
theorem string_at (hq : q ≤ s.length) (hs : 0 ∉ s) :
    Region.string ⟨before ++ s ++ 0 :: rest, st⟩ (before.length + q : Nat) = some (s.drop q) := by
  have hdrop : 0 ∉ s.drop q := fun hmem => hs (List.mem_of_mem_drop hmem)
  have hstring := Region.string_mid (before ++ s.take q) hdrop rest st
  rw [length_before_take before hq, List.append_assoc, ← bytes_split] at hstring
  exact hstring

/-- The tail of the text at `ptr`. -/
theorem exec_cutTail (hq : q + k ≤ s.length) (hs : 0 ∉ s) (hlen : s.length + 1 < 2 ^ 64)
    {h h' : Heap} {p : Nat} (hm : h.malloc (s.length - q - k + 1) = some (some p, h'))
    (refused : Bool) :
    ∃ tail : StrBlock, Program.exec (strCutStart (s.drop q) (UInt64.ofNat k)) ⟨h, refused⟩ =
        (.ok tail, ⟨h', refused⟩) ∧
      tail.ptr = some p ∧ tail.content.string 0 = some (s.drop (q + k)) := by
  have hk : (UInt64.ofNat k).toNat = k := UInt64.toNat_ofNat_of_lt' (by rw [UInt64.size]; omega)
  rw [← tail_size hq hlen] at hm
  obtain ⟨tail, hcut, hptr, htail⟩ := exec_strCutStart (fun hmem => hs (List.mem_of_mem_drop hmem))
    (by rw [List.length_drop]; omega) (by rw [hk, List.length_drop]; omega) hm refused
  rw [hk, List.drop_drop] at htail
  exact ⟨tail, hcut, hptr, htail⟩

/-- `replacedBy` and its terminator, over the text at `ptr`. -/
theorem put_replacedBy (hq : q ≤ s.length) (replacedBy : List UInt8)
    (hroom : replacedBy.length ≤ s.length - q + rest.length) :
    ∃ m st', Region.store ⟨before ++ s ++ 0 :: rest, st⟩ (before.length + q : Nat) replacedBy =
        some m ∧
      m.set ((before.length + q : Nat) + replacedBy.length) 0 =
        some ⟨before ++ s.take q ++ replacedBy ++
          0 :: (s.drop q ++ 0 :: rest).drop (replacedBy.length + 1), st' ++ st⟩ ∧
      ∀ i ∈ st', before.length + q ≤ i := by
  have hroom' : replacedBy.length < (s.drop q ++ 0 :: rest).length := by
    rw [length_drop_rest]
    omega
  have hput := Region.put_mid (before ++ s.take q) hroom' st
  rw [length_before_take before hq, ← bytes_split] at hput
  exact hput

/-- Where the lengths are the same, the characters are overwritten. -/
theorem exec_replaceOne_same (hq : q + k ≤ s.length) (hby : replacedBy.length = k)
    (heap : NullState Heap) :
    ∃ st', Program.exec (replaceOne k replacedBy (before.length + q : Nat)
        ⟨before ++ s ++ 0 :: rest, st⟩) heap =
      (.ok ⟨before ++ rewriteAt k replacedBy q s ++ 0 :: rest, st' ++ st⟩, heap) ∧
        ∀ i ∈ st', before.length ≤ i := by
  have hpos : (before ++ s.take q).length = before.length + q := length_before_take before (by omega)
  have hsplit : before ++ s ++ 0 :: rest =
      before ++ s.take q ++ (s.drop q).take k ++ (s.drop (q + k) ++ 0 :: rest) := by
    rw [← List.drop_drop]
    simp only [List.append_assoc, List.append_cancel_left_eq]
    rw [← List.append_assoc (List.take k _), List.take_append_drop, ← List.append_assoc,
      List.take_append_drop]
  have hlength : ((s.drop q).take k).length = replacedBy.length := by
    rw [List.length_take_of_le (by rw [List.length_drop]; omega), hby]
  obtain ⟨st', hstore, hst'⟩ := Region.store_mid (before ++ s.take q) hlength
    (s.drop (q + k) ++ 0 :: rest) st
  rw [hpos, ← hsplit] at hstore
  refine ⟨st', ?_, fun i hi => Nat.le_trans (Nat.le_add_right _ q) (hpos ▸ hst' i hi)⟩
  unfold replaceOne
  rw [if_pos hby, exec_inside hstore]
  simp [rewriteAt]

/-- Where they are not, the tail is cut off and added again. -/
theorem exec_replaceOne_other (hq : q + k ≤ s.length) (hby : replacedBy.length ≠ k)
    (hs : 0 ∉ s) (hr : 0 ∉ replacedBy) (hlen : s.length + 1 < 2 ^ 64)
    (hroom : replacedBy.length ≤ k + rest.length) {h h' h'' : Heap} {p : Nat}
    (hm : h.malloc (s.length - q - k + 1) = some (some p, h')) (hfree : h'.free p = some h'')
    (refused : Bool) :
    ∃ rest' st', Program.exec (replaceOne k replacedBy (before.length + q : Nat)
        ⟨before ++ s ++ 0 :: rest, st⟩) ⟨h, refused⟩ =
      (.ok ⟨before ++ rewriteAt k replacedBy q s ++ 0 :: rest', st' ++ st⟩, ⟨h'', refused⟩) ∧
        (∀ i ∈ st', before.length ≤ i) ∧
          rest'.length + replacedBy.length = rest.length + k := by
  have hqs : q ≤ s.length := by omega
  have hpos := length_before_take before hqs
  obtain ⟨tail, hcut, hptr, htail⟩ := exec_cutTail hq hs hlen hm refused
  obtain ⟨m₁, st₁, hstore₁, hset₁, hst₁⟩ := put_replacedBy before rest st hqs replacedBy
    (by omega)
  -- `str_add` of the tail
  let behind := (s.drop q ++ 0 :: rest).drop (replacedBy.length + 1)
  have hbehind : behind.length = s.length - q + rest.length - replacedBy.length := by
    rw [List.length_drop, length_drop_rest]
    omega
  have htarget := Region.string_mid (before ++ s.take q) hr behind (st₁ ++ st)
  rw [hpos] at htarget
  have htailroom : (s.drop (q + k)).length < (0 :: behind).length := by
    rw [List.length_drop, List.length_cons, hbehind]
    omega
  obtain ⟨m₂, st₂, hstore₂, hset₂, hst₂⟩ := Region.put_mid (before ++ s.take q ++ replacedBy)
    htailroom (st₁ ++ st)
  have hpos' : (before ++ s.take q ++ replacedBy).length = before.length + q + replacedBy.length := by
    rw [List.length_append, hpos]
  rw [hpos', Int.natCast_add] at hstore₂ hset₂
  refine ⟨behind.drop (s.drop (q + k)).length, st₂ ++ st₁, ?_, ?_, ?_⟩
  · unfold replaceOne
    rw [if_neg hby, Program.exec_bind_ok (exec_inside (string_at _ _ _ hqs hs) _),
      Program.exec_bind_ok hcut, Program.exec_bind_ok (exec_inside hstore₁ _),
      Program.exec_bind_ok (exec_inside hset₁ _)]
    have hadd : Program.exec (strAdd ⟨before ++ s.take q ++ replacedBy ++ 0 :: behind, st₁ ++ st⟩
        (before.length + q : Nat) tail.content) ⟨h', refused⟩ =
        (.ok ⟨before ++ rewriteAt k replacedBy q s ++ 0 :: behind.drop (s.drop (q + k)).length,
          st₂ ++ st₁ ++ st⟩, ⟨h', refused⟩) := by
      unfold strAdd
      rw [Program.exec_bind_ok (exec_inside htarget _), Program.exec_bind_ok (exec_inside htail _),
        Program.exec_bind_ok (exec_inside hstore₂ _), exec_inside hset₂]
      simp [rewriteAt]
    rw [Program.exec_bind_ok hadd, hptr, Program.exec_bind_ok (exec_free hfree refused)]
    rfl
  · intro i hi
    rcases List.mem_append.mp hi with hi | hi
    · have := hst₂ i hi
      omega
    · have := hst₁ i hi
      omega
  · rw [List.length_drop, hbehind, List.length_drop]
    omega

variable {before rest st}

/-- Where the tail is cut off and added again, the heap had a block for it and the buffer room. -/
theorem room_of_replaceOne (hq : q + k ≤ s.length) (hby : replacedBy.length ≠ k) (hs : 0 ∉ s)
    (hr : 0 ∉ replacedBy) (hlen : s.length + 1 < 2 ^ 64) {h : Heap} {refused : Bool} {m' : Region}
    {s' : NullState Heap} (hrun : Program.exec (replaceOne k replacedBy (before.length + q : Nat)
      ⟨before ++ s ++ 0 :: rest, st⟩) ⟨h, refused⟩ = (.ok m', s')) :
    replacedBy.length ≤ k + rest.length ∧
      ∃ p h', h.malloc (s.length - q - k + 1) = some (some p, h') ∧ h'.free p = some s'.heap := by
  have hqs : q ≤ s.length := by omega
  have hbytes : (before ++ s ++ 0 :: rest).length = before.length + s.length + 1 + rest.length := by
    rw [List.length_append, List.length_append, List.length_cons]
    omega
  unfold replaceOne at hrun
  rw [if_neg hby, Program.exec_bind_ok (exec_inside (string_at _ _ _ hqs hs) _)] at hrun
  obtain ⟨tail, s₁, hcut, hrun⟩ := Program.exec_bind_eq_ok.mp hrun
  -- the block of the tail
  obtain ⟨r, s₂, hmalloc, -⟩ := Program.exec_bind_eq_ok.mp hcut
  rw [tail_size hq hlen] at hmalloc
  obtain ⟨p, hp, -⟩ := (served_of_mallocStr hmalloc).2 (Nat.succ_pos _)
  obtain ⟨tail', hcut', hptr, htail⟩ := exec_cutTail hq hs hlen hp refused
  rw [hcut'] at hcut
  cases hcut
  -- the stores
  obtain ⟨m₁, s₃, hm₁, hrun⟩ := Program.exec_bind_eq_ok.mp hrun
  obtain ⟨hstore₁, rfl⟩ := exec_inside_eq_ok.mp hm₁
  obtain ⟨m₂, s₄, hm₂, hrun⟩ := Program.exec_bind_eq_ok.mp hrun
  obtain ⟨hset₁, rfl⟩ := exec_inside_eq_ok.mp hm₂
  obtain ⟨m₃, s₅, hadd, hrun⟩ := Program.exec_bind_eq_ok.mp hrun
  obtain ⟨_, s₆, hfree, hend⟩ := Program.exec_bind_eq_ok.mp hrun
  cases hend
  have hlength₁ := (Region.length_store hstore₁).trans hbytes
  obtain ⟨hlength₂, hlt₂⟩ := Region.length_set hset₁
  obtain ⟨m₁', st₁, hstore₁', hset₁', -⟩ := put_replacedBy before rest st hqs
    replacedBy (by omega)
  rw [hstore₁] at hstore₁'
  cases hstore₁'
  rw [hset₁] at hset₁'
  cases hset₁'
  have htarget := Region.string_mid (before ++ s.take q) hr
    ((s.drop q ++ 0 :: rest).drop (replacedBy.length + 1)) (st₁ ++ st)
  rw [length_before_take before hqs] at htarget
  unfold strAdd at hadd
  rw [Program.exec_bind_ok (exec_inside htarget _), Program.exec_bind_ok (exec_inside htail _)] at hadd
  obtain ⟨m₄, s₆, hm₄, hm₃⟩ := Program.exec_bind_eq_ok.mp hadd
  obtain ⟨hstore₂, rfl⟩ := exec_inside_eq_ok.mp hm₄
  obtain ⟨hset₂, rfl⟩ := exec_inside_eq_ok.mp hm₃
  have hlength₃ := (Region.length_store hstore₂).trans (hlength₂.trans hlength₁)
  obtain ⟨-, hlt₃⟩ := Region.length_set hset₂
  rw [List.length_drop] at hlt₃
  refine ⟨by omega, p, _, hp, ?_⟩
  rw [hptr] at hfree
  exact (kernelHeap_free _ _).symm.trans (NullProgram.exec_free_eq_ok.mp hfree).1

end One

/-! ## In front of the text -/

theorem stored_replaceOne {k : Nat} {replacedBy : CString} {ptr : Int} {m m' : Region}
    {s s' : NullState Heap} (hrun : Program.exec (replaceOne k replacedBy ptr m) s = (.ok m', s')) :
    m.stored <:+ m'.stored ∧ (replacedBy.length ≠ k → 0 ≤ ptr ∧ ptr.toNat ∈ m'.stored) := by
  unfold replaceOne at hrun
  split at hrun
  · rename_i hby
    exact ⟨Region.stored_store (exec_inside_eq_ok.mp hrun).1, fun h => absurd hby h⟩
  · obtain ⟨text, s₁, -, hrun⟩ := Program.exec_bind_eq_ok.mp hrun
    obtain ⟨tail, s₂, -, hrun⟩ := Program.exec_bind_eq_ok.mp hrun
    obtain ⟨m₁, s₃, hm₁, hrun⟩ := Program.exec_bind_eq_ok.mp hrun
    obtain ⟨hstore₁, -⟩ := exec_inside_eq_ok.mp hm₁
    obtain ⟨m₂, s₄, hm₂, hrun⟩ := Program.exec_bind_eq_ok.mp hrun
    obtain ⟨hset₁, -⟩ := exec_inside_eq_ok.mp hm₂
    obtain ⟨m₃, s₅, hadd, hrun⟩ := Program.exec_bind_eq_ok.mp hrun
    obtain ⟨_, s₆, -, hend⟩ := Program.exec_bind_eq_ok.mp hrun
    cases hend
    unfold strAdd at hadd
    obtain ⟨target, s₇, -, hadd⟩ := Program.exec_bind_eq_ok.mp hadd
    obtain ⟨value, s₈, -, hadd⟩ := Program.exec_bind_eq_ok.mp hadd
    obtain ⟨m₄, s₉, hm₄, hm₃⟩ := Program.exec_bind_eq_ok.mp hadd
    have hsuffix₁ := Region.stored_store hstore₁
    obtain ⟨hpos, hstored₂⟩ := Region.stored_set hset₁
    have hsuffix₂ : m₂.stored <:+ m'.stored := by
      refine (Region.stored_store (exec_inside_eq_ok.mp hm₄).1).trans ?_
      rw [(Region.stored_set (exec_inside_eq_ok.mp hm₃).1).2]
      exact List.suffix_cons _ _
    have hstep : m₁.stored <:+ m₂.stored := hstored₂ ▸ List.suffix_cons _ _
    refine ⟨hsuffix₁.trans (hstep.trans hsuffix₂), fun _ => ?_⟩
    by_cases hr : replacedBy = []
    · -- The terminator is stored at `ptr`.
      rw [hr, List.length_nil, Int.natCast_zero, Int.add_zero] at hpos hstored₂
      refine ⟨hpos, hsuffix₂.subset ?_⟩
      rw [hstored₂]
      exact List.mem_cons_self
    · obtain ⟨hpos, hmem⟩ := Region.mem_stored_store hstore₁ hr
      exact ⟨hpos, (hstep.trans hsuffix₂).subset hmem⟩

theorem stored_replaceLoop {k : Nat} {replacedBy : CString} {findings : List Nat} {offset : Int}
    {m m' : Region} {s s' : NullState Heap}
    (hrun : Program.exec (replaceLoop k replacedBy findings offset m) s = (.ok m', s')) :
    m.stored <:+ m'.stored := by
  induction findings generalizing offset m s with
  | nil =>
    cases hrun
    exact List.suffix_refl _
  | cons finding findings ih =>
    obtain ⟨m₁, s₁, hone, hrun⟩ := Program.exec_bind_eq_ok.mp hrun
    exact (stored_replaceOne hone).1.trans (ih hrun)

/-! ## The loop -/

section Loop

variable (before rest : List UInt8) (st : List Nat) {s replacedBy : List UInt8} {k n : Nat}
  {offset : Int} {ms : List Nat} {h : Heap}

/-- The sizes of the blocks for the tails, of a text of `n` characters. -/
def tailSizes (k n : Nat) (ms : List Nat) : List Nat := ms.map fun m => n - m - k + 1

/-- Each replacement leaves the text with the rest of the buffer behind it. -/
theorem exec_replaceLoop (hms : ∀ m ∈ ms, m + k ≤ n) (hstays : Stays k replacedBy.length offset ms)
    (hs : (s.length : Int) = n + offset) (h0 : 0 ∉ s) (hr : 0 ∉ replacedBy)
    (hlen : s.length + 1 + rest.length < 2 ^ 64)
    (hroom : ms.length * replacedBy.length ≤ ms.length * k + rest.length)
    (hserved : replacedBy.length ≠ k → ServesInTurn h (tailSizes k n ms)) (refused : Bool) :
    ∃ rest' st' h', Program.exec (replaceLoop k replacedBy (ms.map (before.length + ·)) offset
        ⟨before ++ s ++ 0 :: rest, st⟩) ⟨h, refused⟩ =
      (.ok ⟨before ++ rewriteAll k replacedBy offset ms s ++ 0 :: rest', st' ++ st⟩,
        ⟨h', refused⟩) ∧ ∀ i ∈ st', before.length ≤ i := by
  induction ms generalizing s rest st offset h with
  | nil => exact ⟨rest, [], h, rfl, fun i hi => absurd hi List.not_mem_nil⟩
  | cons m ms ih =>
    obtain ⟨hpos, hstays⟩ := hstays
    have hm := hms m List.mem_cons_self
    obtain ⟨q, hq⟩ := Int.eq_ofNat_of_zero_le hpos
    have hptr : ((before.length + m : Nat) : Int) + offset = (before.length + q : Nat) := by omega
    have hfit : q + k ≤ s.length := by omega
    rw [List.length_cons, Nat.succ_mul, Nat.succ_mul] at hroom
    have hone : replacedBy.length ≤ k + rest.length := by
      rcases Nat.le_total replacedBy.length k with hle | hle
      · omega
      · have := Nat.mul_le_mul_left ms.length hle
        omega
    have hstep : ∃ rest₁ st₁ h₁, Program.exec (replaceOne k replacedBy (before.length + q : Nat)
          ⟨before ++ s ++ 0 :: rest, st⟩) ⟨h, refused⟩ =
        (.ok ⟨before ++ rewriteAt k replacedBy q s ++ 0 :: rest₁, st₁ ++ st⟩, ⟨h₁, refused⟩) ∧
          (∀ i ∈ st₁, before.length ≤ i) ∧ rest₁.length + replacedBy.length = rest.length + k ∧
            (replacedBy.length ≠ k → ServesInTurn h₁ (tailSizes k n ms)) := by
      by_cases hby : replacedBy.length = k
      · obtain ⟨st₁, hrun, hst₁⟩ := exec_replaceOne_same before rest st hfit hby ⟨h, refused⟩
        exact ⟨rest, st₁, h, hrun, hst₁, by rw [hby], fun hne => absurd hby hne⟩
      · obtain ⟨p, h', h'', hmalloc, hfree, hserved⟩ := hserved hby
        have hsize : s.length - q - k + 1 = n - m - k + 1 := by omega
        have hmalloc : h.malloc (s.length - q - k + 1) = some (some p, h') := hsize ▸ hmalloc
        obtain ⟨rest₁, st₁, hrun, hst₁, hrest₁⟩ := exec_replaceOne_other before rest st hfit hby h0 hr
          (by omega) hone hmalloc hfree refused
        exact ⟨rest₁, st₁, h'', hrun, hst₁, hrest₁, fun _ => hserved⟩
    obtain ⟨rest₁, st₁, h₁, hrun, hst₁, hrest₁, hserved₁⟩ := hstep
    have hlength := length_rewriteAt (r := replacedBy) hfit
    have hnext : ((rewriteAt k replacedBy q s).length : Int) = n + (offset + replacedBy.length - k) := by
      omega
    obtain ⟨rest', st', h', hloop, hst'⟩ := ih rest₁ (st₁ ++ st)
      (fun m' hm' => hms m' (List.mem_cons_of_mem m hm')) hstays hnext
      (fun hmem => (mem_rewriteAt hmem).elim h0 hr) (by omega) (by omega) hserved₁
    refine ⟨rest', st' ++ st₁, h', ?_, ?_⟩
    · rw [List.map_cons, replaceLoop, hptr, Program.exec_bind_ok hrun, hloop, rewriteAll, hq,
        List.append_assoc st']
      rfl
    · intro i hi
      rcases List.mem_append.mp hi with hi | hi
      · exact hst' i hi
      · exact hst₁ i hi

variable {before rest st}

/-- Where the loop returns without a store in front of the text, it stayed behind there, and the heap
had the blocks. -/
theorem replaceLoop_served (hms : ∀ m ∈ ms, m + k ≤ n) (hs : (s.length : Int) = n + offset)
    (h0 : 0 ∉ s) (hr : 0 ∉ replacedBy) (hlen : s.length + 1 + rest.length < 2 ^ 64)
    (hby : replacedBy.length ≠ k) {refused : Bool} {m' : Region} {s' : NullState Heap}
    (hrun : Program.exec (replaceLoop k replacedBy (ms.map (before.length + ·)) offset
      ⟨before ++ s ++ 0 :: rest, st⟩) ⟨h, refused⟩ = (.ok m', s'))
    (hfront : ∀ i ∈ m'.stored, before.length ≤ i) :
    Stays k replacedBy.length offset ms ∧ ServesInTurn h (tailSizes k n ms) ∧
      ∃ rest', m'.bytes = before ++ rewriteAll k replacedBy offset ms s ++ 0 :: rest' := by
  induction ms generalizing s rest st offset h refused with
  | nil =>
    cases hrun
    exact ⟨trivial, trivial, rest, rfl⟩
  | cons m ms ih =>
    have hm := hms m List.mem_cons_self
    rw [List.map_cons, replaceLoop] at hrun
    obtain ⟨m₁, ⟨h₁, refused₁⟩, hone, hloop⟩ := Program.exec_bind_eq_ok.mp hrun
    obtain ⟨h0ptr, hmem⟩ := (stored_replaceOne hone).2 hby
    have hle := hfront _ ((stored_replaceLoop hloop).subset hmem)
    obtain ⟨q, hq⟩ : ∃ q : Nat, m + offset = q := Int.eq_ofNat_of_zero_le (by omega)
    have hptr : ((before.length + m : Nat) : Int) + offset = (before.length + q : Nat) := by omega
    have hfit : q + k ≤ s.length := by omega
    rw [hptr] at hone
    obtain ⟨hroom, p, h', hmalloc, hfree⟩ := room_of_replaceOne hfit hby h0 hr (by omega) hone
    obtain ⟨rest₁, st₁, hrun₁, -, hrest₁⟩ := exec_replaceOne_other before rest st hfit hby h0
      hr (by omega) hroom hmalloc hfree refused
    rw [hrun₁] at hone
    cases hone
    have hlength := length_rewriteAt (r := replacedBy) hfit
    have hnext : ((rewriteAt k replacedBy q s).length : Int) = n + (offset + replacedBy.length - k) := by
      omega
    have hspace : (rewriteAt k replacedBy q s).length + 1 + rest₁.length < 2 ^ 64 := by omega
    obtain ⟨hstays, hserved, rest', hbytes⟩ := ih (fun m' hm' => hms m' (List.mem_cons_of_mem m hm'))
      hnext (fun hmem => (mem_rewriteAt hmem).elim h0 hr) hspace hloop
    have hsize : s.length - q - k + 1 = n - m - k + 1 := by omega
    rw [hsize] at hmalloc
    refine ⟨⟨by omega, hstays⟩, ⟨p, h', _, hmalloc, hfree, hserved⟩, rest', ?_⟩
    rw [hbytes, rewriteAll, hq]
    rfl

end Loop

/-! ## The whole function -/

section Whole

variable {before text rest searchText replacedBy : List UInt8} {h : Heap}

/-- The text with the leftmost occurrences that do not overlap replaced. -/
def replaced (text searchText replacedBy : CString) : CString :=
  splice searchText.length replacedBy 0 (leftmost searchText text) text

/-- `str_replace` returns, leaves the text with the leftmost occurrences replaced, and stores nothing
in front of it. -/
def Replaces (before text rest : List UInt8) (searchText replacedBy : CString) (h : Heap) : Prop :=
  ∃ m s, (strReplace ⟨before ++ text ++ 0 :: rest, []⟩ before.length searchText replacedBy).run h =
    (.ok m, s) ∧ m.string before.length = some (replaced text searchText replacedBy) ∧
      ∀ i ∈ m.stored, before.length ≤ i

/-- The occurrences fit `findingsStartPtr`. If the lengths are the same, each position of the text
gets the same from the last occurrence that covers it as from the leftmost ones. If they are not, no
two occurrences overlap, and the heap has a block for the tail behind each. -/
def Replaceable (h : Heap) (text searchText replacedBy : CString) : Prop :=
  strCount text searchText ≤ 1024 ∧
    if replacedBy.length = searchText.length then
      ∀ p < text.length, overwritten replacedBy (occurrences searchText text) text p =
        overwritten replacedBy (leftmost searchText text) text p
    else
      Apart searchText.length (occurrences searchText text) ∧
        ServesInTurn h (tailSizes searchText.length text.length (occurrences searchText text))

theorem run_strReplace (htext : 0 ∉ text) :
    (strReplace ⟨before ++ text ++ 0 :: rest, []⟩ before.length searchText replacedBy).run h =
      if strCount text searchText ≤ 1024 then
        Program.exec (replaceLoop searchText.length replacedBy
          ((occurrences searchText text).map (before.length + ·)) 0
          ⟨before ++ text ++ 0 :: rest, []⟩) ⟨h, false⟩
      else (.error (.client .findingsOverrun), ⟨h, false⟩) := by
  have hfindings : ((findingsStores text searchText).map fun s => before.length + s.2) =
      (occurrences searchText text).map (before.length + ·) := by
    rw [← map_snd_findingsStores, List.map_map]
    rfl
  have hany : ((findingsStores text searchText).any fun s => decide (1024 ≤ s.1)) = true ↔
      ¬ strCount text searchText ≤ 1024 := by
    rw [← findings_lt_iff, List.any_eq_true]
    push Not
    simp
  unfold NullProgram.run strReplace
  rw [Program.exec_bind_ok (exec_inside (Region.string_mid before htext rest []) _)]
  dsimp only
  split
  · rename_i h1024
    rw [if_neg (hany.mp h1024)]
    rfl
  · rename_i h1024
    rw [if_pos (not_not.mp (mt hany.mpr h1024)), hfindings]

theorem leftmost_le (text searchText : CString) : ∀ m ∈ leftmost searchText text, m + searchText.length ≤ text.length :=
  fun _ hm => add_le_of_mem_occurrences ((leftmost_sublist _ _).subset hm)

/-- One replacement after the other, at the leftmost occurrences only. -/
theorem replaced_eq_rewriteAll : replaced text searchText replacedBy =
    rewriteAll searchText.length replacedBy 0 (leftmost searchText text) text := by
  have hle : ∀ m ∈ leftmost searchText text, m + searchText.length ≤ 0 + text.length := by
    intro m hm
    rw [Nat.zero_add]
    exact leftmost_le text searchText m hm
  have hstart : (([] : List UInt8).length : Int) = (0 : Nat) + 0 := rfl
  exact (rewriteAll_apart (leftmost_apart searchText text) (fun m _ => Nat.zero_le m) hle hstart).symm

theorem length_replaced (text searchText replacedBy : CString) : (replaced text searchText replacedBy).length +
      (leftmost searchText text).length * searchText.length =
    text.length + (leftmost searchText text).length * replacedBy.length :=
  length_splice (leftmost_apart searchText text) (fun m _ => Nat.zero_le m) fun m hm => by
    rw [Nat.zero_add]
    exact leftmost_le text searchText m hm

/-- Another number of replacements gives another length, unless each keeps it. -/
theorem eq_of_replaced_length {x y g n k l : Nat} (hn : x + n * k = y + n * l)
    (hg : x + g * k = y + g * l) (hlt : g < n) : k = l := by
  obtain ⟨d, rfl⟩ := Nat.exists_eq_add_of_lt hlt
  have hd : (d + 1) * k = (d + 1) * l := by
    rw [Nat.add_assoc, Nat.add_mul, Nat.add_mul g] at hn
    omega
  exact Nat.eq_of_mul_eq_mul_left (Nat.succ_pos d) hd

/-- What the whole loop leaves, where it stays in the text. -/
theorem string_rewriteAll (htext : 0 ∉ text) (hr : 0 ∉ replacedBy) (rest' : List UInt8)
    (st : List Nat) (ms : List Nat) :
    Region.string ⟨before ++ rewriteAll searchText.length replacedBy 0 ms text ++ 0 :: rest', st⟩
      before.length = some (rewriteAll searchText.length replacedBy 0 ms text) :=
  Region.string_mid before (fun hmem => (mem_rewriteAll hmem).elim htext hr) rest' st

/-- The loop over the positions that were found does what `str_replace` should. -/
def LoopReplaces (before text rest : List UInt8) (searchText replacedBy : CString) (h : Heap) : Prop :=
  ∃ m s, Program.exec (replaceLoop searchText.length replacedBy
    ((occurrences searchText text).map (before.length + ·)) 0 ⟨before ++ text ++ 0 :: rest, []⟩)
      ⟨h, false⟩ = (.ok m, s) ∧ m.string before.length = some (replaced text searchText replacedBy) ∧
    ∀ i ∈ m.stored, before.length ≤ i

theorem replaces_iff_loopReplaces (htext : 0 ∉ text) :
    Replaces before text rest searchText replacedBy h ↔
      strCount text searchText ≤ 1024 ∧ LoopReplaces before text rest searchText replacedBy h := by
  unfold Replaces LoopReplaces
  rw [run_strReplace htext]
  by_cases hcount : strCount text searchText ≤ 1024
  · rw [if_pos hcount, and_iff_right hcount]
  · rw [if_neg hcount]
    exact iff_of_false (fun ⟨_, _, hrun, _⟩ => nomatch hrun) fun hloop => hcount hloop.1

/-- If the lengths are the same, the characters are overwritten in place, and the loop returns. -/
theorem loopReplaces_same_iff (htext : 0 ∉ text) (hr : 0 ∉ replacedBy)
    (hlen : before.length + text.length + 1 + rest.length < 2 ^ 64)
    (hby : replacedBy.length = searchText.length) :
    LoopReplaces before text rest searchText replacedBy h ↔
      ∀ p < text.length, overwritten replacedBy (occurrences searchText text) text p =
        overwritten replacedBy (leftmost searchText text) text p := by
  have hms : ∀ m ∈ occurrences searchText text, m + searchText.length ≤ text.length :=
    fun m => add_le_of_mem_occurrences
  have hs : (text.length : Int) = text.length + 0 := (Int.add_zero _).symm
  have hms' := hms
  have hleftmost := leftmost_le text searchText
  rw [← hby] at hms' hleftmost
  have hoverwrite := overwriteAll_eq_iff hms' hleftmost
  rw [hby] at hoverwrite
  obtain ⟨rest', st', h', hrun, hfront⟩ := exec_replaceLoop before rest [] hms
    (by rw [hby]; exact stays_same) hs htext hr (by omega) (by rw [hby]; omega)
    (fun hne => absurd hby hne) false
  rw [List.append_nil] at hrun
  unfold LoopReplaces
  rw [hrun, ← hoverwrite, ← replaced_eq_rewriteAll]
  constructor
  · rintro ⟨m, s, heq, hstring, -⟩
    cases heq
    rw [string_rewriteAll htext hr] at hstring
    exact Option.some.inj hstring
  · intro heq
    refine ⟨_, _, rfl, ?_, hfront⟩
    rw [string_rewriteAll htext hr, heq]

/-- If they are not, the occurrences have to lie apart, and the heap to serve the tails. -/
theorem loopReplaces_other_iff (htext : 0 ∉ text) (hr : 0 ∉ replacedBy)
    (hlen : before.length + text.length + 1 + rest.length < 2 ^ 64)
    (hroom : (replaced text searchText replacedBy).length ≤ text.length + rest.length)
    (hby : replacedBy.length ≠ searchText.length) :
    LoopReplaces before text rest searchText replacedBy h ↔
      Apart searchText.length (occurrences searchText text) ∧
        ServesInTurn h (tailSizes searchText.length text.length (occurrences searchText text)) := by
  have hms : ∀ m ∈ occurrences searchText text, m + searchText.length ≤ text.length :=
    fun m => add_le_of_mem_occurrences
  have hs : (text.length : Int) = text.length + 0 := (Int.add_zero _).symm
  have hexpected := length_replaced text searchText replacedBy
  constructor
  · rintro ⟨m, s, hrun, hstring, hfront⟩
    obtain ⟨hstays, hserved, rest', hbytes⟩ := replaceLoop_served hms hs htext hr (by omega) hby
      hrun hfront
    obtain ⟨bytes, st⟩ := m
    dsimp only at hbytes
    rw [hbytes, string_rewriteAll htext hr] at hstring
    -- With an occurrence too many, the result has another length.
    have hlength := length_rewriteAll (r := replacedBy) hstays hms hs
    rw [Option.some.inj hstring] at hlength
    refine ⟨?_, hserved⟩
    by_contra hoverlap
    exact hby (eq_of_replaced_length hlength hexpected (length_leftmost_lt hoverlap)).symm
  · rintro ⟨hapart, hserved⟩
    have hleftmost := leftmost_eq_occurrences_iff.mpr hapart
    rw [hleftmost] at hexpected
    obtain ⟨rest', st', h', hrun, hfront⟩ := exec_replaceLoop before rest [] hms
      (stays_of_apart hapart (fun m _ => Nat.zero_le m) (Int.le_refl 0)) hs htext hr (by omega)
      (by omega) (fun _ => hserved) false
    rw [List.append_nil] at hrun
    refine ⟨_, _, hrun, ?_, hfront⟩
    rw [string_rewriteAll htext hr, replaced_eq_rewriteAll, hleftmost]

/-- `str_replace` does what it should exactly if the text is replaceable, where the buffer has room
for the result. -/
theorem strReplace_iff (htext : 0 ∉ text) (hr : 0 ∉ replacedBy)
    (hlen : before.length + text.length + 1 + rest.length < 2 ^ 64)
    (hroom : (replaced text searchText replacedBy).length ≤ text.length + rest.length) (h : Heap) :
    Replaces before text rest searchText replacedBy h ↔
      Replaceable h text searchText replacedBy := by
  rw [replaces_iff_loopReplaces htext, Replaceable]
  refine and_congr_right fun _ => ?_
  by_cases hby : replacedBy.length = searchText.length
  · rw [if_pos hby]
    exact loopReplaces_same_iff htext hr hlen hby
  · rw [if_neg hby]
    exact loopReplaces_other_iff htext hr hlen hroom hby

end Whole

/-- Both dots are replaced. -/
theorem strReplace_dots : Replaces [] (literal "a.b.") [] (literal ".") (literal "-")
    ⟨fun _ => 0, pageSize, 2 * pageSize⟩ := by
  refine (strReplace_iff (by decide) (by decide) (by decide) (by decide) _).mpr ⟨by decide, ?_⟩
  rw [if_pos (by decide)]
  decide

/-- The second of two occurrences that overlap is replaced as well, and without an entry in place of
two it is moved in front of the text. -/
theorem strReplace_overlap :
    (¬ ∃ h, Replaces [] (literal "aaa") [] (literal "aa") (literal "bc") h) ∧
      ¬ ∃ h, Replaces (literal "x") (literal "aaa") [] (literal "aa") [] h := by
  constructor
  · rintro ⟨h, m, s, hrun, hstring, -⟩
    have hbbc : (strReplace ⟨[] ++ literal "aaa" ++ 0 :: [], []⟩ 0 (literal "aa")
        (literal "bc")).run h = (.ok ⟨literal "bbc" ++ [0], [2, 1, 1, 0]⟩, ⟨h, false⟩) := rfl
    cases hbbc.symm.trans hrun
    exact absurd hstring (by decide)
  · rintro ⟨h, m, s, hrun, -, hfront⟩
    rw [run_strReplace (by decide), if_pos (by decide)] at hrun
    obtain ⟨⟨-, hfirst, -⟩, -⟩ := replaceLoop_served (n := 3) (by decide) rfl (by decide) (by decide)
      (by decide) (by decide) hrun hfront
    exact absurd hfirst (by decide)

end TextProgram

end EszOs
