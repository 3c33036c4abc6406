import EszOs.Lib.Regions
import EszOs.Types.StringNulls

/-!
# Cutting texts (`types/string/string.cpp`)

The functions that cut a text, on the kernel heap and with the bytes of the blocks: a load or store
outside a block stops the program, and so does a store through the null pointer that `malloc` returns
when it has no room.

* `strCutStart_returns_iff`: when `str_cut_start` returns the rest of the text.
* `cuts_right_iff`: when the functions and their law are right.
-/

namespace EszOs

/-- What stops a function besides the heap. -/
inductive TextFault
  /-- A load or store outside a block. -/
  | outside
  /-- A finding is stored behind `findingsStartPtr`. -/
  | findingsOverrun

/-- A program that works on texts in the blocks of the kernel heap. -/
abbrev TextProgram := NullProgram TextFault Heap

/-- A block: where it is, and what is in it. -/
structure StrBlock where
  ptr : Option Nat
  content : Region

namespace TextProgram

/-! ## The functions -/

/-- What a load or store gives. -/
def inside {α : Type} : Option α → TextProgram α
  | some a => return a
  | none => NullProgram.fault .outside

def mallocStr (size : Nat) : TextProgram StrBlock := do
  let string ← NullProgram.malloc kernelHeap size
  NullProgram.store string size -- `memory_clear`
  return ⟨string, Region.cleared size⟩

/-- `str_cut_start`; the difference wraps. -/
def strCutStart (text : CString) (n : UInt64) : TextProgram StrBlock := do
  let returnString ← mallocStr (u64 (text.length + 2 ^ 64 - n.toNat + 1))
  let content ← inside (returnString.content.store 0 (text.drop n.toNat))
  return { returnString with content }

/-- `str_cut_end_malloc` -/
def strCutEndMalloc (text : CString) (n : UInt64) : TextProgram StrBlock := do
  let returnString ← mallocStr (text.length + 1)
  -- `str_copy`
  let copied ← inside (returnString.content.store 0 text)
  let copied ← inside (copied.set text.length 0)
  if n.toNat ≥ text.length then
    let content ← inside (copied.set 0 0)
    return { returnString with content }
  else
    let content ← inside (copied.set (text.length - n.toNat : Nat) 0)
    return { returnString with content }

/-- `str_cut_end`, of the text at the start of a region. -/
def strCutEnd (region : Region) (n : UInt64) : Option Region := do
  let text ← region.string 0
  if n.toNat ≥ text.length then region.set 0 0
  else region.set (text.length - n.toNat : Nat) 0

/-! ## Requests -/

/-- The heap has room for blocks of these sizes, one after the other. -/
def Serves (h : Heap) : List Nat → Prop
  | [] => True
  | n :: ns => ∃ p h', h.malloc n = some (some p, h') ∧ Serves h' ns

/-- No block is as long as half of the address space. -/
theorem not_serves_of_le {h : Heap} {n : Nat} {ns : List Nat} (hn : 2 ^ 63 ≤ n) :
    ¬ Serves h (n :: ns) := by
  have hsearch : ∀ fuel a b, h.searchLoop n fuel a ≠ some (some b) := by
    intro fuel
    induction fuel with
    | zero =>
      intro a b h
      cases h
    | succ fuel ih =>
      intro a b
      rw [Heap.searchLoop, if_pos (.inl (Nat.lt_of_lt_of_le (readHeader_length_lt h.mem a) hn))]
      dsimp only
      split
      · intro h
        cases h
      · exact ih _ b
  rintro ⟨p, h', hmalloc, -⟩
  unfold Heap.malloc at hmalloc
  split at hmalloc
  · cases hmalloc
  · cases hmalloc
  · rename_i b hb
    exact hsearch _ _ b hb

/-- The program returns a block with that text in it. -/
def Returns (m : TextProgram StrBlock) (h : Heap) (text : CString) : Prop :=
  ∃ b s, m.run h = (.ok b, s) ∧ b.content.string 0 = some text

theorem exec_mallocStr {h h' : Heap} {size p : Nat} (hm : h.malloc size = some (some p, h'))
    (refused : Bool) : Program.exec (mallocStr size) ⟨h, refused⟩ =
      (.ok ⟨some p, Region.cleared size⟩, ⟨h', refused⟩) := by
  have hkernel : kernelHeap.malloc h size = some (some p, h') := hm
  have hmalloc : Program.exec (NullProgram.malloc kernelHeap size : TextProgram _) ⟨h, refused⟩ =
      (.ok (some p), ⟨h', refused⟩) := by
    rw [NullProgram.exec_malloc]
    simp only [hkernel]
  unfold mallocStr
  rw [Program.exec_bind_ok hmalloc]
  unfold NullProgram.store NullProgram.storeWith
  split <;> rfl

/-- Where `malloc_str` returns, the block is cleared, and the heap had room unless it has no bytes. -/
theorem served_of_mallocStr {h : Heap} {size : Nat} {refused : Bool} {b : StrBlock}
    {s : NullState Heap} (hrun : Program.exec (mallocStr size) ⟨h, refused⟩ = (.ok b, s)) :
    b.content = Region.cleared size ∧
      (0 < size → ∃ p, h.malloc size = some (some p, s.heap) ∧ s.refused = refused) := by
  unfold mallocStr at hrun
  obtain ⟨ptr, s₁, hmalloc, hrun⟩ := Program.exec_bind_eq_ok.mp hrun
  obtain ⟨_, s₂, hstore, hrun⟩ := Program.exec_bind_eq_ok.mp hrun
  cases hrun
  refine ⟨rfl, fun hpos => ?_⟩
  unfold NullProgram.store NullProgram.storeWith at hstore
  rw [if_neg (Nat.ne_of_gt hpos)] at hstore
  cases ptr with
  | none => cases hstore
  | some p =>
    cases hstore
    rw [NullProgram.exec_malloc] at hmalloc
    show ∃ p, kernelHeap.malloc h size = _ ∧ _
    split at hmalloc
    · cases hmalloc
    · cases hmalloc
    · rename_i q h' hq
      cases hmalloc
      exact ⟨p, hq, rfl⟩

/-! ## What the functions return -/

theorem exec_inside {α : Type} {o : Option α} {a : α} (h : o = some a) (s : NullState Heap) :
    Program.exec (inside o) s = (.ok a, s) := by
  rw [h]
  rfl

theorem exec_inside_eq_ok {α : Type} {o : Option α} {a : α} {s s' : NullState Heap} :
    Program.exec (inside o) s = (.ok a, s') ↔ o = some a ∧ s' = s := by
  cases o with
  | none => exact iff_of_false nofun nofun
  | some b =>
    constructor
    · intro h
      cases h
      exact ⟨rfl, rfl⟩
    · rintro ⟨h, rfl⟩
      cases h
      rfl

/-- The size of the block of `str_cut_start`: the characters that are left and the terminator, unless
the difference wraps. -/
theorem cutStart_size {text : CString} {n : UInt64} (hlen : text.length + 1 < 2 ^ 64)
    (hne : n.toNat ≠ text.length + 1) :
    (text.drop n.toNat).length < u64 (text.length + 2 ^ 64 - n.toNat + 1) := by
  have hn := n.toNat_lt
  rw [List.length_drop, u64]
  omega

theorem exec_strCutStart {text : CString} {n : UInt64} (htext : 0 ∉ text)
    (hlen : text.length + 1 < 2 ^ 64) (hne : n.toNat ≠ text.length + 1) {h h' : Heap} {p : Nat}
    (hm : h.malloc (u64 (text.length + 2 ^ 64 - n.toNat + 1)) = some (some p, h'))
    (refused : Bool) :
    ∃ b : StrBlock, Program.exec (strCutStart text n) ⟨h, refused⟩ = (.ok b, ⟨h', refused⟩) ∧
      b.ptr = some p ∧ b.content.string 0 = some (text.drop n.toNat) := by
  obtain ⟨m, hstore, hstring⟩ := Region.string_cleared (fun h => htext (List.mem_of_mem_drop h))
    (cutStart_size hlen hne)
  refine ⟨⟨some p, m⟩, ?_, rfl, hstring⟩
  unfold strCutStart
  rw [Program.exec_bind_ok (exec_mallocStr hm refused),
    Program.exec_bind_ok (exec_inside hstore _)]
  rfl

theorem exec_strCutEndMalloc {text : CString} (htext : 0 ∉ text) (n : UInt64) {h h' : Heap} {p : Nat}
    (hm : h.malloc (text.length + 1) = some (some p, h')) (refused : Bool) :
    ∃ b : StrBlock, Program.exec (strCutEndMalloc text n) ⟨h, refused⟩ = (.ok b, ⟨h', refused⟩) ∧
      b.content.string 0 = some (text.take (text.length - n.toNat)) := by
  obtain ⟨st, hstore⟩ := Region.store_cleared (Nat.lt_succ_self text.length)
  have hcopy : Region.set ⟨text ++ 0 :: List.replicate (text.length.succ - text.length - 1) 0, st⟩
      text.length 0 = some _ := Region.set_mid text 0 _ st 0
  obtain ⟨m, hset, hstring⟩ := Region.set_zero htext (Nat.sub_le text.length n.toNat)
    (List.replicate (text.length.succ - text.length - 1) 0) (text.length :: st)
  refine ⟨⟨some p, m⟩, ?_, hstring⟩
  unfold strCutEndMalloc
  rw [Program.exec_bind_ok (exec_mallocStr hm refused),
    Program.exec_bind_ok (exec_inside hstore _), Program.exec_bind_ok (exec_inside hcopy _)]
  split
  · rename_i hle
    rw [Nat.sub_eq_zero_of_le hle, Int.natCast_zero] at hset
    rw [Program.exec_bind_ok (exec_inside hset _)]
    rfl
  · rw [Program.exec_bind_ok (exec_inside hset _)]
    rfl

/-- `str_cut_start` is right exactly if the block has room for a terminator and the heap for the
block. -/
theorem strCutStart_returns_iff {text : CString} (htext : 0 ∉ text) (hlen : text.length + 1 < 2 ^ 64)
    (n : UInt64) (h : Heap) :
    Returns (strCutStart text n) h (text.drop n.toNat) ↔
      n.toNat ≠ text.length + 1 ∧ Serves h [u64 (text.length + 2 ^ 64 - n.toNat + 1)] := by
  constructor
  · rintro ⟨b, s, hrun, hstring⟩
    obtain ⟨r, s₁, hmalloc, hrest⟩ := Program.exec_bind_eq_ok.mp hrun
    obtain ⟨hcontent, hserved⟩ := served_of_mallocStr hmalloc
    obtain ⟨content, s₂, hstore, hend⟩ := Program.exec_bind_eq_ok.mp hrest
    cases hend
    have hne : n.toNat ≠ text.length + 1 := by
      intro heq
      have hsize : u64 (text.length + 2 ^ 64 - n.toNat + 1) = 0 := by
        have hn := n.toNat_lt
        rw [u64]
        omega
      have hdrop : text.drop n.toNat = [] := List.drop_eq_nil_of_le (by omega)
      rw [hcontent, hsize, hdrop] at hstore
      obtain ⟨hcleared, -⟩ := exec_inside_eq_ok.mp hstore
      cases hcleared
      cases hstring
    have hpos := Nat.lt_of_le_of_lt (Nat.zero_le _) (cutStart_size hlen hne)
    obtain ⟨p, hp, -⟩ := hserved hpos
    exact ⟨hne, p, _, hp, trivial⟩
  · rintro ⟨hne, p, h', hm, -⟩
    obtain ⟨b, hrun, -, hstring⟩ := exec_strCutStart htext hlen hne hm false
    exact ⟨b, _, hrun, hstring⟩

theorem strCutEndMalloc_returns_iff {text : CString} (htext : 0 ∉ text) (n : UInt64) (h : Heap) :
    Returns (strCutEndMalloc text n) h (text.take (text.length - n.toNat)) ↔
      Serves h [text.length + 1] := by
  constructor
  · rintro ⟨b, s, hrun, -⟩
    obtain ⟨r, s₁, hmalloc, -⟩ := Program.exec_bind_eq_ok.mp hrun
    obtain ⟨p, hp, -⟩ := (served_of_mallocStr hmalloc).2 (Nat.succ_pos _)
    exact ⟨p, _, hp, trivial⟩
  · rintro ⟨p, h', hm, -⟩
    obtain ⟨b, hrun, hstring⟩ := exec_strCutEndMalloc htext n hm false
    exact ⟨b, _, hrun, hstring⟩

/-- `str_cut_end` leaves what `str_cut_end_malloc` returns. -/
theorem string_strCutEnd {text : CString} (htext : 0 ∉ text) (n : UInt64) (rest : List UInt8)
    (st : List Nat) : ∃ m, strCutEnd ⟨text ++ 0 :: rest, st⟩ n = some m ∧
      m.string 0 = some (text.take (text.length - n.toNat)) := by
  obtain ⟨m, hset, hstring⟩ := Region.set_zero htext (Nat.sub_le text.length n.toNat) rest st
  refine ⟨m, ?_, hstring⟩
  unfold strCutEnd
  rw [Region.string_zero htext, Option.bind_eq_bind, Option.bind_some]
  split
  · rename_i hle
    rw [Nat.sub_eq_zero_of_le hle, Int.natCast_zero] at hset
    exact hset
  · exact hset

/-! ## The law -/

/-- Both parts of a text that is cut behind its `k`-th character. -/
def cutAt (text : CString) (k : Nat) : TextProgram (StrBlock × StrBlock) := do
  let front ← strCutEndMalloc text (UInt64.ofNat (text.length - k))
  let back ← strCutStart text (UInt64.ofNat k)
  return (front, back)

/-- The two parts are there, and joined they are the text. -/
def Joins (text : CString) (k : Nat) (h : Heap) : Prop :=
  ∃ front back s, (cutAt text k).run h = (.ok (front, back), s) ∧
    ∃ a b, front.content.string 0 = some a ∧ back.content.string 0 = some b ∧ a ++ b = text

theorem joins_iff {text : CString} (htext : 0 ∉ text) (hlen : text.length + 1 < 2 ^ 64) {k : Nat}
    (hk : k ≤ text.length) (h : Heap) :
    Joins text k h ↔ Serves h [text.length + 1, text.length - k + 1] := by
  have hk' : (UInt64.ofNat k).toNat = k := UInt64.toNat_ofNat_of_lt' (by rw [UInt64.size]; omega)
  have hsize : u64 (text.length + 2 ^ 64 - (UInt64.ofNat k).toNat + 1) = text.length - k + 1 := by
    rw [hk', u64]
    omega
  have hne : (UInt64.ofNat k).toNat ≠ text.length + 1 := by omega
  constructor
  · rintro ⟨front, back, s, hrun, -⟩
    obtain ⟨a, s₁, hfront, hrest⟩ := Program.exec_bind_eq_ok.mp hrun
    obtain ⟨b, s₂, hback, -⟩ := Program.exec_bind_eq_ok.mp hrest
    obtain ⟨r, s₁', hmalloc, hend⟩ := Program.exec_bind_eq_ok.mp hfront
    obtain ⟨p, hp, -⟩ := (served_of_mallocStr hmalloc).2 (Nat.succ_pos _)
    obtain ⟨b', hcut, -⟩ := exec_strCutEndMalloc htext (UInt64.ofNat (text.length - k)) hp false
    have hs₁ : s₁ = ⟨s₁'.heap, false⟩ := congrArg Prod.snd (hfront.symm.trans hcut)
    obtain ⟨r', s₂', hmalloc', -⟩ := Program.exec_bind_eq_ok.mp hback
    rw [hs₁, hsize] at hmalloc'
    obtain ⟨p', hp', -⟩ := (served_of_mallocStr hmalloc').2 (Nat.succ_pos _)
    exact ⟨p, _, hp, p', _, hp', trivial⟩
  · rintro ⟨p, h', hm, p', h'', hm', -⟩
    obtain ⟨front, hfront, ha⟩ := exec_strCutEndMalloc htext (UInt64.ofNat (text.length - k)) hm false
    obtain ⟨back, hback, -, hb⟩ := exec_strCutStart htext hlen hne (by rw [hsize]; exact hm') false
    refine ⟨front, back, ⟨h'', false⟩, ?_, _, _, ha, hb, ?_⟩
    · unfold NullProgram.run cutAt
      rw [Program.exec_bind_ok hfront, Program.exec_bind_ok hback]
      rfl
    · have hsub : (UInt64.ofNat (text.length - k)).toNat = text.length - k :=
        UInt64.toNat_ofNat_of_lt' (by rw [UInt64.size]; omega)
      rw [hk', hsub, Nat.sub_sub_self hk, List.take_append_drop]

/-- The functions cut the text as they should for this `n`, and so they do for each `k` of the law. -/
structure CutsRight (text : CString) (n : UInt64) (h : Heap) : Prop where
  cutStart : Returns (strCutStart text n) h (text.drop n.toNat)
  cutEndMalloc : Returns (strCutEndMalloc text n) h (text.take (text.length - n.toNat))
  cutEnd : ∀ rest, ∃ m, strCutEnd ⟨text ++ 0 :: rest, []⟩ n = some m ∧
    m.string 0 = some (text.take (text.length - n.toNat))
  joins : ∀ k ≤ text.length, Joins text k h

/-- The functions are right exactly if `n` is not the length plus one and the heap has room for the
blocks that they ask for. -/
theorem cuts_right_iff {text : CString} (htext : 0 ∉ text) (hlen : text.length + 1 < 2 ^ 64)
    (n : UInt64) (h : Heap) :
    CutsRight text n h ↔
      n.toNat ≠ text.length + 1 ∧ Serves h [u64 (text.length + 2 ^ 64 - n.toNat + 1)] ∧
        ∀ k ≤ text.length, Serves h [text.length + 1, text.length - k + 1] := by
  constructor
  · intro hright
    obtain ⟨hne, hserved⟩ := (strCutStart_returns_iff htext hlen n h).mp hright.cutStart
    exact ⟨hne, hserved, fun k hk => (joins_iff htext hlen hk h).mp (hright.joins k hk)⟩
  · rintro ⟨hne, hserved, hlaw⟩
    refine ⟨(strCutStart_returns_iff htext hlen n h).mpr ⟨hne, hserved⟩, ?_,
      fun rest => string_strCutEnd htext n rest [], fun k hk => (joins_iff htext hlen hk h).mpr (hlaw k hk)⟩
    obtain ⟨p, h', hm, -⟩ := hlaw 0 (Nat.zero_le _)
    exact (strCutEndMalloc_returns_iff htext n h).mpr ⟨p, h', hm, trivial⟩

/-- One character more than there are leaves no room for a terminator. -/
theorem cuts_right_emptyBlock : ¬ CutsRight (literal "ab") 3 ⟨fun _ => 0, pageSize, 2 * pageSize⟩ :=
  fun h => absurd rfl ((cuts_right_iff (by decide) (by decide) 3 _).mp h).1

/-- For two characters more the size of the block wraps, and no heap has such a block. -/
theorem cutStart_wraps : ¬ ∃ h, CutsRight (literal "ab") 4 h := by
  rintro ⟨h, hright⟩
  obtain ⟨-, hserved⟩ := (strCutStart_returns_iff (by decide) (by decide) 4 h).mp hright.cutStart
  exact not_serves_of_le (by decide) hserved

end TextProgram

end EszOs
