import EszOs.Terminal.Refinement
import EszOs.Terminal.Token
import Mathlib.Logic.Function.Iterate

/-!
# Edits on any screen (`terminal/terminal.cpp`)

`handle_input_buffer_deletion` deletes only in front of an interactable cell, but it does not look
whether that cell shows the character that it deletes. The edits of the line in the buffer are those of
an editor wherever the cursor of the screen is; a deletion is one only where the screen allows it.

* `HasLine`: the line in the buffer. `HasLine.insertChars`, `iterate_right`: insertions and moves.
* `deletions_iff`: `n` deletions delete `n` characters exactly if the cells in front of the cursor allow
  it (`DeletesFrom`), in terms of the screen before.
-/

namespace EszOs

/-! ## The cells that a deletion leaves alone -/

namespace Screen

theorem deleteCell_eq (s : Screen) : ∃ x y d, s.deleteCell =
    { s.shiftOutCell with
      isRedrawing := false, cursorRenderedX := x, cursorRenderedY := y, drawn := d } :=
  redrawCurrentLine_redrawn (s := { s.shiftOutCell with isRedrawing := false }) rfl

theorem deleteCell_cursorAtX (s : Screen) : s.deleteCell.cursorAtX = s.cursorAtX - 1 := by
  obtain ⟨x, y, d, h⟩ := s.deleteCell_eq
  rw [h]
  exact (shiftOutCell_edited s).cursorAtX

theorem deleteCell_cursorAtY (s : Screen) : s.deleteCell.cursorAtY = s.cursorAtY := by
  obtain ⟨x, y, d, h⟩ := s.deleteCell_eq
  rw [h]
  exact (shiftOutCell_edited s).cursorAtY

theorem deleteCell_amountOfCells (s : Screen) :
    s.deleteCell.amountOfCells s.cursorAtY = s.amountOfCells s.cursorAtY - 1 := by
  obtain ⟨x, y, d, h⟩ := s.deleteCell_eq
  rw [h]
  exact (shiftOutCell_edited s).amountOfCells

/-- In front of the deleted cell, only the cell that the line counts as its last one can change: it is
cleared. -/
theorem deleteCell_interactable {s : Screen} {x : Int} (hx : x < s.cursorAtX - 1) :
    (s.deleteCell.cell s.cursorAtY x).interactable = true ↔
      (s.cell s.cursorAtY x).interactable = true ∧ x ≠ s.amountOfCells s.cursorAtY - 1 := by
  obtain ⟨x', y', d, h⟩ := s.deleteCell_eq
  have hcell : s.deleteCell.cell s.cursorAtY x = s.shiftOutCell.cell s.cursorAtY x := by rw [h]; rfl
  let last := s.amountOfCells s.cursorAtY - 1
  let shifted := (line s.cursorAtY).shiftDown (s.cursorAtX - 1) (last - (s.cursorAtX - 1)).toNat s
  have hshifted : shifted.cell s.cursorAtY x = s.cell s.cursorAtY x := by
    have hget := View.get_shiftDown (A := line s.cursorAtY) (s.cursorAtX - 1)
      (last - (s.cursorAtX - 1)).toNat s x
    rw [if_neg (by omega)] at hget
    exact hget
  have hstore : s.shiftOutCell.cell s.cursorAtY x =
      if x = last then { shifted.cell s.cursorAtY last with text := 0, interactable := false }
      else shifted.cell s.cursorAtY x :=
    (line s.cursorAtY).get_set shifted last _ x
  rw [hcell, hstore]
  by_cases hlast : x = last
  · rw [if_pos hlast]
    exact iff_of_false Bool.false_ne_true fun h => h.2 hlast
  · rw [if_neg hlast, hshifted]
    exact (and_iff_left hlast).symm

end Screen

namespace Terminal

/-! ## The line in the buffer -/

/-- The buffer holds the editor's line. -/
structure HasLine (t : Terminal) (e : LineEditor UInt8) : Prop where
  text : t.text = e.text
  cursor : t.lineInputCursorPos = e.cursor

theorem exists_hasLine {t : Terminal} (h : t.lineInputCursorPos ≤ t.lineInputLength) :
    ∃ e, HasLine t e := by
  rw [← t.length_text] at h
  exact ⟨⟨t.text, t.lineInputCursorPos, [], 0, h, Nat.le_refl 0⟩, rfl, rfl⟩

theorem Simulates.hasLine {prompt : List Cell} {maxChars : Int} {t : Terminal}
    {e : LineEditor UInt8} (h : Simulates prompt maxChars t e) : HasLine t e := ⟨h.text, h.cursor⟩

namespace HasLine

variable {t : Terminal} {e : LineEditor UInt8}

theorem length (h : HasLine t e) : t.lineInputLength = e.text.length := by
  rw [← h.text, t.length_text]

theorem cursor_le (h : HasLine t e) : t.lineInputCursorPos ≤ t.lineInputLength := by
  rw [h.cursor, h.length]
  exact e.cursor_le

theorem getElem?_text (h : HasLine t e) (hlt : e.cursor < e.text.length) :
    e.text[e.cursor]? = some (t.lineInputBuffer t.lineInputCursorPos) := by
  rw [← h.text, ← h.cursor, LineInput.getElem?_text]
  rw [h.cursor, h.length]
  exact hlt

theorem cursorMoveInline_right (h : HasLine t e) : HasLine (t.cursorMoveInline true) e.right := by
  have hlength := h.length
  have hcursor := h.cursor
  unfold LineEditor.right Terminal.cursorMoveInline
  rw [if_pos rfl]
  by_cases hlt : e.cursor < e.text.length
  · rw [dif_pos hlt, if_neg (by omega)]
    exact ⟨h.text, congrArg (· + 1) hcursor⟩
  · rw [dif_neg hlt, if_pos (by omega)]
    exact h

theorem insertChars (h : HasLine t e) (chars : CString) :
    HasLine (t.insertChars chars) (e.inserts chars) := by
  induction chars generalizing t e with
  | nil => exact h
  | cons c chars ih =>
    refine ih (t := t.insertCharAtCursor c) (e := e.insert c) ⟨?_, congrArg (· + 1) h.cursor⟩
    show (t.toLineInput.insertChar c).text = e.text.insertIdx e.cursor c
    rw [LineInput.text_insertChar h.cursor_le, h.text, h.cursor]

/-- The cursor stops behind the characters that are no spaces. -/
theorem moveToTokenEnd (h : HasLine t e) {behind n : Nat} (hn : behind ≤ n)
    (hword : ∀ j, e.cursor ≤ j → j < e.cursor + behind → j < e.text.length ∧ e.text[j]? ≠ some space)
    (hend : ∀ c ∈ e.text[e.cursor + behind]?, c = space) :
    t.moveToTokenEnd n = (Terminal.cursorMoveInline true)^[behind] t := by
  induction behind generalizing t e n with
  | zero =>
    cases n with
    | zero => rfl
    | succ n =>
      rw [Terminal.moveToTokenEnd, if_neg]
      · rfl
      · rintro ⟨hlt, hne⟩
        rw [h.cursor, h.length] at hlt
        exact hne (hend _ (h.getElem?_text hlt))
  | succ behind ih =>
    cases n with
    | zero => omega
    | succ n =>
      obtain ⟨hlt, hne⟩ := hword e.cursor (Nat.le_refl _) (by omega)
      obtain ⟨htext, hcursor⟩ := LineEditor.right_of_lt hlt
      rw [h.getElem?_text hlt] at hne
      rw [Terminal.moveToTokenEnd, if_pos, Function.iterate_succ_apply]
      · refine ih h.cursorMoveInline_right (Nat.le_of_succ_le_succ hn) ?_ ?_
        · intro j hle hj
          rw [htext]
          exact hword j (by omega) (by omega)
        · rw [htext, hcursor, Nat.add_assoc, Nat.add_comm 1]
          exact hend
      · rw [h.cursor, h.length]
        rw [h.cursor] at hne
        exact ⟨hlt, fun heq => hne (congrArg some heq)⟩

end HasLine

/-! ## Moves -/

/-- The screens have the same cells and the cursor in the same line, `dx` columns apart. -/
structure Moved (dx : Int) (s s' : Screen) : Prop where
  cursorAtX : s'.cursorAtX = s.cursorAtX + dx
  cursorAtY : s'.cursorAtY = s.cursorAtY
  amountOfCells : s'.amountOfCells = s.amountOfCells
  cell : s'.cell = s.cell

theorem moveCursor_moved (dx : Int) (s : Screen) : Moved dx s (s.moveCursor dx) := by
  obtain ⟨x, y, d, h⟩ := Screen.moveCursor_redrawn dx s
  rw [h]
  exact ⟨rfl, rfl, rfl, rfl⟩

theorem cursorMoveInline_moved {t : Terminal} (h : t.lineInputCursorPos < t.lineInputLength) :
    Moved 1 t.screen (t.cursorMoveInline true).screen := by
  rw [cursorMoveInline, if_pos rfl, if_neg (Nat.not_le.mpr h)]
  exact moveCursor_moved 1 t.screen

/-- The cursor of the screen moves with the one of the line. -/
theorem iterate_right {t : Terminal} {e : LineEditor UInt8} (h : HasLine t e) {n : Nat}
    (hn : e.cursor + n ≤ e.text.length) :
    HasLine ((cursorMoveInline true)^[n] t) (e.rights n) ∧
      Moved n t.screen ((cursorMoveInline true)^[n] t).screen := by
  induction n generalizing t e with
  | zero => exact ⟨h, (Int.add_zero _).symm, rfl, rfl, rfl⟩
  | succ n ih =>
    obtain ⟨htext, hcursor⟩ := LineEditor.right_of_lt (e := e) (by omega)
    obtain ⟨hline, hmoved⟩ := ih h.cursorMoveInline_right (by rw [htext, hcursor]; omega)
    have hone := cursorMoveInline_moved (t := t) (by rw [h.cursor, h.length]; omega)
    rw [Function.iterate_succ_apply]
    refine ⟨hline, ?_, hmoved.cursorAtY.trans hone.cursorAtY,
      hmoved.amountOfCells.trans hone.amountOfCells, hmoved.cell.trans hone.cell⟩
    rw [hmoved.cursorAtX, hone.cursorAtX]
    omega

/-! ## Deletions -/

/-- What `handle_input_buffer_deletion` asks of the screen. -/
def DeletesHere (s : Screen) : Prop :=
  0 < s.cursorAtX ∧ (s.cell s.cursorAtY (s.cursorAtX - 1)).interactable = true

/-- The `i`-th cell in front of column `x` is one that is deleted, after the `i` cells behind it. The
line may count fewer cells than there are columns in front of `x`: then each deletion clears the last of
them. -/
def DeletesAt (s : Screen) (x : Int) (i : Nat) : Prop :=
  0 ≤ x - 1 - i ∧ (s.cell s.cursorAtY (x - 1 - i)).interactable = true ∧
    (x ≤ s.amountOfCells s.cursorAtY ∨ s.amountOfCells s.cursorAtY ≤ x - 1 - i)

/-- So are the `n` cells in front of column `x`. -/
def DeletesFrom (s : Screen) (x : Int) (n : Nat) : Prop := ∀ i < n, DeletesAt s x i

def deletions (n : Nat) (t : Terminal) : Terminal :=
  Loop.upTo (fun _ => handleInputBufferDeletion) n t

/-- `t'` is `t` after `n` deletions. -/
structure Deleted (t : Terminal) (e : LineEditor UInt8) (n : Nat) (t' : Terminal) : Prop
    extends HasLine t' (e.backspaces n) where
  cursorAtX : t'.screen.cursorAtX = t.screen.cursorAtX - n
  cursorAtY : t'.screen.cursorAtY = t.screen.cursorAtY
  amountOfCells : t'.screen.amountOfCells t.screen.cursorAtY =
    t.screen.amountOfCells t.screen.cursorAtY - n
  cells : ∀ x < t.screen.cursorAtX - n,
    (t'.screen.cell t.screen.cursorAtY x).interactable = true ↔
      (t.screen.cell t.screen.cursorAtY x).interactable = true ∧
        (x < t.screen.amountOfCells t.screen.cursorAtY - n ∨
          t.screen.amountOfCells t.screen.cursorAtY ≤ x)

variable {t t' : Terminal} {e : LineEditor UInt8} {n : Nat}

theorem Deleted.refl (h : HasLine t e) : Deleted t e 0 t where
  toHasLine := h
  cursorAtX := (Int.sub_zero _).symm
  cursorAtY := rfl
  amountOfCells := (Int.sub_zero _).symm
  cells x hx := by
    simp
    intro _
    omega

/-- The screen allows the next deletion exactly if it did before the others. -/
theorem Deleted.deletesHere_iff (h : Deleted t e n t') :
    DeletesHere t'.screen ↔ DeletesAt t.screen t.screen.cursorAtX n := by
  have hX := h.cursorAtX
  rw [DeletesHere, DeletesAt, h.cursorAtY, hX, show t.screen.cursorAtX - n - 1 =
    t.screen.cursorAtX - 1 - n from by omega, h.cells _ (by omega)]
  refine and_congr (by omega) (and_congr_right fun _ => ?_)
  omega

theorem handleInputBufferDeletion_of_not (h : ¬ DeletesHere t.screen) :
    t.handleInputBufferDeletion = t := by
  unfold handleInputBufferDeletion
  split
  · rfl
  split
  · rfl
  split
  · rfl
  rename_i hcolumn
  rw [if_pos]
  have hcell : (t.screen.cell t.screen.cursorAtY (t.screen.cursorAtX - 1)).interactable ≠ true :=
    fun hcell => h ⟨by omega, hcell⟩
  simpa using hcell

theorem Deleted.step (h : Deleted t e n t') (hn : n < e.cursor) (hhere : DeletesHere t'.screen) :
    Deleted t e (n + 1) t'.handleInputBufferDeletion := by
  obtain ⟨hlength, hcursor⟩ := LineEditor.backspaces_of_le (Nat.le_of_lt hn)
  have hle := e.cursor_le
  have hpos := h.cursor
  have hlen := h.toHasLine.length
  have hdelete : t'.handleInputBufferDeletion =
      { t' with toLineInput := t'.toLineInput.deleteChar, screen := t'.screen.deleteCell } := by
    unfold handleInputBufferDeletion
    rw [if_neg (by omega), if_neg (by omega), if_neg (by have := hhere.1; omega), hhere.2,
      if_neg (by simp)]
  have hbackspace : (e.backspaces (n + 1)).text =
        (e.backspaces n).text.eraseIdx ((e.backspaces n).cursor - 1) ∧
      (e.backspaces (n + 1)).cursor = (e.backspaces n).cursor - 1 := by
    rw [LineEditor.backspaces, LineEditor.backspace, dif_neg (by omega)]
    exact ⟨rfl, rfl⟩
  rw [hdelete]
  refine ⟨⟨?_, ?_⟩, ?_, ?_, ?_, fun x hx => ?_⟩
  · show t'.toLineInput.deleteChar.text = _
    rw [LineInput.text_deleteChar (by omega) h.toHasLine.cursor_le, h.text, hpos, hbackspace.1]
  · show t'.lineInputCursorPos - 1 = _
    rw [hpos, hbackspace.2]
  · show t'.screen.deleteCell.cursorAtX = _
    rw [Screen.deleteCell_cursorAtX, h.cursorAtX]
    omega
  · show t'.screen.deleteCell.cursorAtY = _
    rw [Screen.deleteCell_cursorAtY, h.cursorAtY]
  · have hamount := t'.screen.deleteCell_amountOfCells
    rw [h.cursorAtY, h.amountOfCells] at hamount
    show t'.screen.deleteCell.amountOfCells _ = _
    rw [hamount]
    omega
  · have hX := h.cursorAtX
    have hcell := Screen.deleteCell_interactable (s := t'.screen) (x := x) (by omega)
    rw [h.cursorAtY, h.amountOfCells, h.cells x (by omega)] at hcell
    show (t'.screen.deleteCell.cell _ x).interactable = true ↔ _
    rw [hcell, and_assoc]
    refine and_congr_right fun _ => ?_
    omega

/-- A deletion makes the line shorter by one character at most. -/
theorem handleInputBufferDeletion_length (t : Terminal) :
    t.lineInputLength ≤ t.handleInputBufferDeletion.lineInputLength + 1 := by
  unfold handleInputBufferDeletion
  split
  · omega
  split
  · omega
  split
  · omega
  split
  · omega
  · show t.lineInputLength ≤ t.lineInputLength - 1 + 1
    omega

theorem deletions_deleted (h : HasLine t e) (hn : n ≤ e.cursor)
    (hdeletes : DeletesFrom t.screen t.screen.cursorAtX n) : Deleted t e n (deletions n t) := by
  induction n with
  | zero => exact Deleted.refl h
  | succ n ih =>
    have hdeleted := ih (Nat.le_of_succ_le hn) fun i hi => hdeletes i (Nat.lt_succ_of_lt hi)
    exact hdeleted.step hn (hdeleted.deletesHere_iff.mpr (hdeletes n (Nat.lt_succ_self n)))

/-- As many characters go as there are deletions only if the screen allows them all. -/
theorem deletions_length (h : HasLine t e) (hn : n ≤ e.cursor) :
    t.lineInputLength ≤ (deletions n t).lineInputLength + n ∧
      ((deletions n t).lineInputLength + n = t.lineInputLength →
        DeletesFrom t.screen t.screen.cursorAtX n) := by
  induction n with
  | zero => exact ⟨Nat.le_refl _, fun _ i hi => absurd hi (Nat.not_lt_zero i)⟩
  | succ n ih =>
    obtain ⟨hle, honly⟩ := ih (Nat.le_of_succ_le hn)
    have hone := (deletions n t).handleInputBufferDeletion_length
    have hsucc : deletions (n + 1) t = (deletions n t).handleInputBufferDeletion := rfl
    rw [hsucc]
    refine ⟨by omega, fun heq => ?_⟩
    have hbefore := honly (by omega)
    have hdeleted := deletions_deleted h (Nat.le_of_succ_le hn) hbefore
    have hhere : DeletesHere (deletions n t).screen := by
      by_contra hnot
      rw [handleInputBufferDeletion_of_not hnot] at heq
      omega
    intro i hi
    rcases Nat.lt_succ_iff_lt_or_eq.mp hi with hlt | rfl
    · exact hbefore i hlt
    · exact hdeleted.deletesHere_iff.mp hhere

/-- `n` deletions delete the `n` characters in front of the cursor exactly if the screen allows it. -/
theorem deletions_iff (h : HasLine t e) (hn : n ≤ e.cursor) :
    HasLine (deletions n t) (e.backspaces n) ↔ DeletesFrom t.screen t.screen.cursorAtX n := by
  refine ⟨fun hline => (deletions_length h hn).2 ?_, fun hdeletes => ?_⟩
  · rw [hline.length, h.length, (LineEditor.backspaces_of_le hn).1]
    have := e.cursor_le
    omega
  · exact (deletions_deleted h hn hdeletes).toHasLine

end Terminal

end EszOs
