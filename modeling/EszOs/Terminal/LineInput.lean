import EszOs.Config
import EszOs.Lib.Views
import EszOs.Types.String
import Mathlib.Data.List.TakeWhile

/-!
# The line input (`terminal/terminal.cpp`)

The input line is kept in `lineInputBuffer`, up to `lineInputLength` and with a terminator behind,
and `lineInputCursorPos` says where the next character goes. Nothing but the code's own tests keeps
the length below `TERMINAL_BUFFER_SIZE`: a store behind the buffer is a store like any other here,
and `stored` records the index of each.
-/

namespace EszOs

/-- The globals of the input line. `stored` lists the indices of the stores to `lineInputBuffer`,
latest first. -/
structure LineInput where
  lineInputLength : Nat
  lineInputBuffer : Int → UInt8
  lineInputCursorPos : Nat
  stored : List Int

namespace LineInput

/-- `lineInputBuffer`, as an array. -/
def buffer : View LineInput UInt8 where
  get t i := t.lineInputBuffer i
  set t i c := { t with
    lineInputBuffer := fun k => if k = i then c else t.lineInputBuffer k
    stored := i :: t.stored }
  get_set _ _ _ _ := rfl

/-- The characters of the line. -/
def text (t : LineInput) : CString := buffer.read t 0 t.lineInputLength

/-- `reset_line_input` -/
def reset (t : LineInput) : LineInput :=
  buffer.set { t with lineInputLength := 0, lineInputCursorPos := 0 } 0 0

/-- The half of `insert_char_at_cursor` that is about the buffer. -/
def insertChar (c : UInt8) (t : LineInput) : LineInput :=
  let shifted := buffer.shiftUp t.lineInputCursorPos (t.lineInputLength - t.lineInputCursorPos) t
  let inserted := buffer.set shifted t.lineInputCursorPos c
  { buffer.set inserted (t.lineInputLength + 1) 0 with
    lineInputLength := t.lineInputLength + 1
    lineInputCursorPos := t.lineInputCursorPos + 1 }

/-- The half of `handle_input_buffer_deletion` that is about the buffer, for a line and a cursor
that are not at 0. -/
def deleteChar (t : LineInput) : LineInput :=
  let pos := t.lineInputCursorPos - 1
  let shifted := buffer.shiftDown pos (t.lineInputLength - 1 - pos) t
  { buffer.set shifted (t.lineInputLength - 1 : Nat) 0 with
    lineInputLength := t.lineInputLength - 1
    lineInputCursorPos := pos }

/-- The line becomes `text`, with the cursor at its end: what `handle_show_history` does to the
buffer. -/
def recallLine (text : CString) (t : LineInput) : LineInput :=
  { buffer.store 0 (text ++ [0]) t with
    lineInputLength := text.length
    lineInputCursorPos := text.length }

/-- The string at `lineInputBuffer + lo`, which ends at the first zero byte or with the line. -/
def stringFrom (t : LineInput) (lo : Nat) : CString :=
  (buffer.read t lo (t.lineInputLength - lo)).takeWhile (· != 0)

/-- `getInputArgs`: the first space of the line becomes a terminator, and what is behind it are the
arguments. -/
def getInputArgs (t : LineInput) : LineInput × CString :=
  match t.text.findIdx? (· == space) with
  | some i => let t' := buffer.set t (i : Nat) 0; (t', t'.stringFrom (i + 1))
  | none => (t, [])

/-- The loop of `getCurrTokenFromBuffer` that goes back from the cursor to a space, from `i` on. -/
def tokenStartsAt (t : LineInput) : Nat → Nat
  | 0 => 0
  | i + 1 =>
    if t.lineInputBuffer (i + 1) = space ∧ i + 1 ≠ t.lineInputCursorPos then i + 1
    else t.tokenStartsAt i

/-- `getCurrTokenFromBuffer` -/
def getCurrTokenFromBuffer (t : LineInput) : CString :=
  let found := t.tokenStartsAt t.lineInputCursorPos
  let start := if found ≠ 0 then found + 1 else found
  ((buffer.read t start (t.lineInputLength - start)).takeWhile (· != space)).foldl strAddChar []

/-! ## Stores -/

/-- Every store was inside the buffer. -/
def StoresIn (t : LineInput) : Prop := ∀ i ∈ t.stored, 0 ≤ i ∧ i < terminalBufferSize

theorem StoresIn.set {t : LineInput} (h : t.StoresIn) {i : Int} (h0 : 0 ≤ i)
    (hlt : i < terminalBufferSize) (c : UInt8) : (buffer.set t i c).StoresIn :=
  List.forall_mem_cons.mpr ⟨⟨h0, hlt⟩, h⟩

/-! ## The text -/

theorem length_text (t : LineInput) : t.text.length = t.lineInputLength := View.length_read _ _ _

theorem text_insertChar {t : LineInput} (h : t.lineInputCursorPos ≤ t.lineInputLength) (c : UInt8) :
    (t.insertChar c).text = t.text.insertIdx t.lineInputCursorPos c := by
  have hins := View.read_insert (A := buffer) t 0 c h
  rw [Int.zero_add] at hins
  show buffer.read (t.insertChar c) 0 (t.lineInputLength + 1) =
    (buffer.read t 0 t.lineInputLength).insertIdx t.lineInputCursorPos c
  rw [← hins]
  refine (View.read_congr fun i _ hi => ?_)
  exact View.get_set_of_ne (A := buffer) (by omega)

theorem text_deleteChar {t : LineInput} (hpos : 0 < t.lineInputCursorPos)
    (h : t.lineInputCursorPos ≤ t.lineInputLength) :
    t.deleteChar.text = t.text.eraseIdx (t.lineInputCursorPos - 1) := by
  have hdel := View.read_shiftDown (A := buffer) t 0 (n := t.lineInputLength)
    (c := t.lineInputCursorPos - 1) (by omega)
  rw [Int.zero_add] at hdel
  show buffer.read t.deleteChar 0 (t.lineInputLength - 1) =
    (buffer.read t 0 t.lineInputLength).eraseIdx (t.lineInputCursorPos - 1)
  rw [← hdel]
  refine (View.read_congr fun i _ hi => ?_)
  exact View.get_set_of_ne (A := buffer) (by omega)

/-- The text and the terminator behind it. -/
theorem read_recall (text : CString) (t : LineInput) :
    (t.recallLine text).text = text ∧ (t.recallLine text).lineInputBuffer text.length = 0 := by
  have hstore := View.read_store (A := buffer) 0 (text ++ [0]) t
  rw [List.length_append, List.length_singleton, View.read_succ] at hstore
  obtain ⟨htext, hzero⟩ := List.append_inj' hstore rfl
  rw [Int.zero_add] at hzero
  exact ⟨htext, (List.cons.inj hzero).1⟩

/-! ## Invariant -/

/-- The line and its terminator lie in the buffer, the cursor in the line, and so did every store. -/
structure InBuffer (t : LineInput) : Prop where
  cursor_le : t.lineInputCursorPos ≤ t.lineInputLength
  length_lt : t.lineInputLength < terminalBufferSize
  terminated : t.lineInputBuffer t.lineInputLength = 0
  storesIn : t.StoresIn

theorem InBuffer.reset {t : LineInput} (h : t.InBuffer) : t.reset.InBuffer where
  cursor_le := Nat.le_refl 0
  length_lt := by show 0 < terminalBufferSize; decide
  terminated := View.get_set_self (A := buffer)
    { t with lineInputLength := 0, lineInputCursorPos := 0 } 0 0
  storesIn := StoresIn.set h.storesIn (Int.le_refl 0) (by decide) 0

theorem InBuffer.insertChar {t : LineInput} (h : t.InBuffer)
    (hfits : t.lineInputLength + 1 < terminalBufferSize) (c : UInt8) : (t.insertChar c).InBuffer := by
  have hle := h.cursor_le
  have hshift : (buffer.shiftUp t.lineInputCursorPos (t.lineInputLength - t.lineInputCursorPos)
      t).StoresIn :=
    View.shiftUp_induct (fun _ i c _ _ hs => hs.set (by omega) (by omega) c) h.storesIn
  refine ⟨Nat.succ_le_succ hle, hfits, if_pos rfl, ?_⟩
  exact (hshift.set (by omega) (by omega) c).set (by omega) (by omega) 0

theorem InBuffer.deleteChar {t : LineInput} (h : t.InBuffer) (hpos : 0 < t.lineInputCursorPos) :
    t.deleteChar.InBuffer := by
  have hle := h.cursor_le
  have hlt := h.length_lt
  have hshift : (buffer.shiftDown (t.lineInputCursorPos - 1 : Nat)
      (t.lineInputLength - 1 - (t.lineInputCursorPos - 1)) t).StoresIn :=
    View.shiftDown_induct (fun _ i c _ _ hs => hs.set (by omega) (by omega) c) h.storesIn
  refine ⟨?_, ?_, if_pos rfl, hshift.set (by omega) (by omega) 0⟩
  · show t.lineInputCursorPos - 1 ≤ t.lineInputLength - 1
    omega
  · show t.lineInputLength - 1 < terminalBufferSize
    omega

theorem InBuffer.recallLine {t : LineInput} (h : t.InBuffer) {text : CString}
    (hfits : text.length < terminalBufferSize) : (t.recallLine text).InBuffer := by
  have hstore : (buffer.store 0 (text ++ [0]) t).StoresIn :=
    View.store_induct (fun _ i c _ hi hs => by
      rw [List.length_append, List.length_singleton] at hi
      exact hs.set (by omega) (by omega) c) h.storesIn
  exact ⟨Nat.le_refl _, hfits, (read_recall text t).2, hstore⟩

theorem InBuffer.getInputArgs {t : LineInput} (h : t.InBuffer) : t.getInputArgs.1.InBuffer := by
  unfold LineInput.getInputArgs
  split
  · rename_i i hi
    have hlt := (List.findIdx?_eq_some_iff_getElem.mp hi).1
    rw [length_text] at hlt
    have hlength := h.length_lt
    have hterm : (buffer.set t (i : Nat) 0).lineInputBuffer t.lineInputLength = 0 :=
      (View.get_set_of_ne (A := buffer) (by omega)).trans h.terminated
    exact ⟨h.cursor_le, hlength, hterm, h.storesIn.set (by omega) (by omega) 0⟩
  · exact h

/-- A line without zero bytes is the string in the buffer. -/
theorem stringFrom_zero {t : LineInput} (h : ∀ c ∈ t.text, c ≠ 0) : t.stringFrom 0 = t.text :=
  List.takeWhile_eq_self_iff.mpr fun c hc => bne_iff_ne.mpr (h c hc)

theorem length_stringFrom_le (t : LineInput) (lo : Nat) :
    (t.stringFrom lo).length ≤ t.lineInputLength := by
  have h := (List.takeWhile_prefix (p := (· != (0 : UInt8)))
    (l := buffer.read t lo (t.lineInputLength - lo))).length_le
  rw [View.length_read] at h
  exact Nat.le_trans h (Nat.sub_le _ _)

end LineInput

end EszOs
