import EszOs.Lib.LineEditor
import EszOs.Terminal.History
import EszOs.Terminal.Prompt

/-!
# The terminal is a line editor

From a fresh prompt, as long as prompt and input fit the line of the screen, the terminal does what
`LineEditor` does: the buffer and the screen hold its text, and both cursors are at its cursor.

* `Simulates`: the relation that each editing key keeps (`Simulates.press`).
* `keys_refine`: whole sequences of keys.
-/

namespace EszOs

/-! ## Keys -/

/-- The edit that a key stands for: a printable character, Backspace or an arrow. -/
def Key.edit (k : Key) : Option (LineEditor.Edit UInt8) :=
  if k.isExtendedScancode then
    if k.scancode = 0x48 then some .up
    else if k.scancode = 0x50 then some .down
    else if k.scancode = 0x4B then some .left
    else if k.scancode = 0x4D then some .right
    else none
  else
    let key := scancodeToKeycode k.shift k.scancode
    if key = .backspace then some .backspace
    else if 32 ≤ key ∧ key ≤ 126 then some (.char key.toUInt8)
    else none

namespace Terminal

/-! ## The relation -/

/-- The cell of a typed character. -/
def typedCell (c : UInt8) : Cell := ⟨.white, c, true⟩

/-- The terminal shows the editor's line behind a prompt. -/
structure Refines (prompt : List Cell) (t : Terminal) (e : LineEditor UInt8) : Prop where
  text : t.text = e.text
  cursor : t.lineInputCursorPos = e.cursor
  column : t.screen.cursorAtX = t.lineInputStartX + t.lineInputCursorPos
  row : t.screen.row t.screen.cursorAtY = prompt ++ e.text.map typedCell

/-- What else the keys keep, on a screen of `maxChars` columns. -/
structure Simulates (prompt : List Cell) (maxChars : Int) (t : Terminal) (e : LineEditor UInt8) :
    Prop extends Refines prompt t e where
  lines : t.screen.InLines
  width : t.screen.maxChars = maxChars
  start : t.lineInputStartX = prompt.length
  history : t.historyLines = e.history
  recalled : t.goThroughHistoryCount = e.recalled

/-- Prompt and input fit the line of the screen, and the input its buffer. -/
def Fits (prompt : List Cell) (maxChars : Int) (e : LineEditor UInt8) : Prop :=
  prompt.length + e.text.length < maxChars ∧ e.text.length < terminalBufferSize

instance (prompt : List Cell) (maxChars : Int) (e : LineEditor UInt8) :
    Decidable (Fits prompt maxChars e) := inferInstanceAs (Decidable (_ ∧ _))

/-- The recalled line is printed behind the prompt. -/
theorem screen_handleShowHistory {t : Terminal} {text : CString} (htext : Printable text)
    (hentry : t.commandHistory (t.cmdHistCount - t.goThroughHistoryCount) = text) :
    t.handleShowHistory.screen =
      (t.screen.clearInput t.lineInputStartX).printChars text .white true := by
  subst hentry
  let entry := t.commandHistory (t.cmdHistCount - t.goThroughHistoryCount)
  let line := t.clearInputOnScreen.toLineInput.recallLine entry
  have hline : line.text = entry := (LineInput.read_recall entry _).1
  have hstring : line.stringFrom 0 = entry := by
    rw [LineInput.stringFrom_zero, hline]
    intro c hc
    rw [hline] at hc
    exact htext.ne hc (by decide)
  exact congrArg (fun text => (t.screen.clearInput t.lineInputStartX).printChars text .white true)
    hstring

namespace Simulates

variable {prompt : List Cell} {maxChars : Int} {t : Terminal} {e : LineEditor UInt8}

theorem length (h : Simulates prompt maxChars t e) : t.lineInputLength = e.text.length := by
  rw [← h.text, t.length_text]

theorem notRedrawing (h : Simulates prompt maxChars t e) : t.screen.isRedrawing = false :=
  h.lines.notRedrawing

theorem cursorAtX (h : Simulates prompt maxChars t e) :
    t.screen.cursorAtX = (prompt.length + e.cursor : Nat) := by
  rw [h.column, h.start, h.cursor]
  rfl

theorem amountOfCells (h : Simulates prompt maxChars t e) :
    t.screen.amountOfCells t.screen.cursorAtY = (prompt.length + e.text.length : Nat) := by
  have hlength := congrArg List.length h.row
  rw [Screen.length_row, List.length_append, List.length_map] at hlength
  have := h.lines.amount_cursor_nonneg
  omega

/-- The globals of the keyboard do not matter. -/
theorem keyboard (h : Simulates prompt maxChars t e) (shift isExtended : Bool) :
    Simulates prompt maxChars { t with shift := shift, isExtendedScancode := isExtended } e :=
  ⟨⟨h.text, h.cursor, h.column, h.row⟩, h.lines, h.width, h.start, h.history, h.recalled⟩

/-! ## Edits -/

theorem insertCharAtCursor (h : Simulates prompt maxChars t e) (hfits : Fits prompt maxChars e)
    (c : UInt8) : Simulates prompt maxChars (t.insertCharAtCursor c) (e.insert c) := by
  have hX := h.cursorAtX
  have hamount := h.amountOfCells
  have hle := e.cursor_le
  have hroom := hfits.1
  have hwidth := h.width
  have hedit := Screen.insertCell_edited h.notRedrawing c
  have hredrawn := Screen.insertCell_redrawn h.notRedrawing c
  refine ⟨⟨?_, ?_, ?_, ?_⟩, ?_, hedit.maxChars.trans h.width, h.start, h.history, h.recalled⟩
  · show (t.toLineInput.insertChar c).text = e.text.insertIdx e.cursor c
    rw [LineInput.text_insertChar (by rw [h.cursor, h.length]; exact hle), h.text, h.cursor]
  · show t.lineInputCursorPos + 1 = e.cursor + 1
    rw [h.cursor]
  · show (t.screen.insertCell c).cursorAtX = t.lineInputStartX + (t.lineInputCursorPos + 1 : Nat)
    rw [hedit.cursorAtX, h.column]
    omega
  · show (t.screen.insertCell c).row (t.screen.insertCell c).cursorAtY =
      prompt ++ (e.text.insertIdx e.cursor c).map typedCell
    rw [hedit.cursorAtY, hredrawn.row, Screen.row_shiftInCell hamount hX (by omega), h.row,
      List.insertIdx_append_right, List.map_insertIdx]
    rfl
  · exact hredrawn.inLines (Screen.shiftInCell_inLines h.lines (by omega) (by omega) (by omega) c)

theorem handleInputBufferDeletion (h : Simulates prompt maxChars t e) :
    Simulates prompt maxChars t.handleInputBufferDeletion e.backspace := by
  have hX := h.cursorAtX
  have hamount := h.amountOfCells
  have hle := e.cursor_le
  have hlength := h.length
  have hcursor := h.cursor
  unfold LineEditor.backspace Terminal.handleInputBufferDeletion
  by_cases hzero : e.cursor = 0
  · rw [dif_pos hzero]
    split
    · exact h
    · rw [if_pos (by rw [hcursor, hzero])]
      exact h
  · have htyped : (e.text.map typedCell)[e.cursor - 1]? = some (typedCell e.text[e.cursor - 1]) := by
      rw [List.getElem?_map, List.getElem?_eq_getElem (by omega)]
      rfl
    have hcell : t.screen.cell t.screen.cursorAtY (t.screen.cursorAtX - 1) =
        typedCell e.text[e.cursor - 1] := by
      have hget : (t.screen.row t.screen.cursorAtY)[prompt.length + (e.cursor - 1)]? =
          some (typedCell e.text[e.cursor - 1]) := by
        rw [h.row, List.getElem?_append_right (Nat.le_add_right _ _), Nat.add_sub_cancel_left, htyped]
      rw [← Screen.cell_of_row hget]
      congr 1
      omega
    rw [dif_neg hzero, if_neg (by omega), if_neg (by omega), if_neg (by omega), hcell,
      if_neg (by simp [typedCell])]
    have hedit := Screen.deleteCell_edited h.notRedrawing
    have hredrawn := Screen.deleteCell_redrawn h.notRedrawing
    refine ⟨⟨?_, ?_, ?_, ?_⟩, ?_, hedit.maxChars.trans h.width, h.start, h.history, h.recalled⟩
    · show t.toLineInput.deleteChar.text = e.text.eraseIdx (e.cursor - 1)
      rw [LineInput.text_deleteChar (by omega) (by omega), h.text, hcursor]
    · show t.lineInputCursorPos - 1 = e.cursor - 1
      rw [hcursor]
    · show t.screen.deleteCell.cursorAtX = t.lineInputStartX + (t.lineInputCursorPos - 1 : Nat)
      rw [hedit.cursorAtX, h.column]
      omega
    · show t.screen.deleteCell.row t.screen.deleteCell.cursorAtY =
        prompt ++ (e.text.eraseIdx (e.cursor - 1)).map typedCell
      rw [hedit.cursorAtY, hredrawn.row, Screen.row_shiftOutCell (c := prompt.length + (e.cursor - 1))
        hamount (by omega) (by omega), h.row, List.eraseIdx_append_of_length_le (Nat.le_add_right _ _),
        Nat.add_sub_cancel_left, List.eraseIdx_map]
    · exact hredrawn.inLines (Screen.shiftOutCell_inLines h.lines (by omega) (by omega))

/-- The cursors move together. -/
theorem moveCursor (h : Simulates prompt maxChars t e) {e' : LineEditor UInt8} {dx : Int} {pos : Nat}
    (hpos : pos = e'.cursor) (hdx : t.screen.cursorAtX + dx = t.lineInputStartX + pos)
    (htext : e'.text = e.text) (hhistory : e'.history = e.history)
    (hrecalled : e'.recalled = e.recalled) :
    Simulates prompt maxChars
      { t with screen := t.screen.moveCursor dx, lineInputCursorPos := pos } e' := by
  have hedit := Screen.moveCursor_edited dx t.screen
  have hredrawn := Screen.moveCursor_redrawn dx t.screen
  refine ⟨⟨?_, hpos, ?_, ?_⟩, ?_, hedit.maxChars.trans h.width, h.start, h.history.trans hhistory.symm,
    h.recalled.trans hrecalled.symm⟩
  · exact h.text.trans htext.symm
  · exact hedit.cursorAtX.trans hdx
  · show (t.screen.moveCursor dx).row (t.screen.moveCursor dx).cursorAtY = _
    rw [hedit.cursorAtY, hredrawn.row, htext, ← h.row]
    rfl
  · exact Screen.moveCursor_inLines h.lines dx

theorem cursorMoveInline_right (h : Simulates prompt maxChars t e) :
    Simulates prompt maxChars (t.cursorMoveInline true) e.right := by
  have hlength := h.length
  have hcursor := h.cursor
  have hcolumn := h.column
  unfold LineEditor.right Terminal.cursorMoveInline
  rw [if_pos rfl]
  by_cases hlt : e.cursor < e.text.length
  · rw [dif_pos hlt, if_neg (by omega)]
    exact h.moveCursor (congrArg (· + 1) hcursor) (by omega) rfl rfl rfl
  · rw [dif_neg hlt, if_pos (by omega)]
    exact h

theorem cursorMoveInline_left (h : Simulates prompt maxChars t e) :
    Simulates prompt maxChars (t.cursorMoveInline false) e.left := by
  have hcursor := h.cursor
  have hcolumn := h.column
  unfold LineEditor.left Terminal.cursorMoveInline
  rw [if_neg Bool.false_ne_true]
  by_cases hzero : t.lineInputCursorPos = 0
  · rw [if_pos hzero]
    refine ⟨⟨h.text, ?_, hcolumn, h.row⟩, h.lines, h.width, h.start, h.history, h.recalled⟩
    show t.lineInputCursorPos = e.cursor - 1
    omega
  · rw [if_neg hzero]
    exact h.moveCursor (congrArg (· - 1) hcursor) (by omega) rfl rfl rfl

/-! ## History -/

theorem length_history (h : Simulates prompt maxChars t e) : e.history.length = t.cmdHistCount := by
  rw [← h.history, length_historyLines]

/-- The `n`-th latest line. -/
theorem entry_eq (h : Simulates prompt maxChars t e) {n : Nat} (hn : n ≤ e.history.length)
    (hpos : n ≠ 0) : LineEditor.entry e.history n = t.commandHistory (t.cmdHistCount - n) := by
  have hlength := h.length_history
  rw [← h.history]
  exact entry_historyLines (by omega) hpos

/-- An emptied line, with the prompt left. -/
theorem clearInput (h : Simulates prompt maxChars t e) (hstart : prompt.length < maxChars) :
    (t.screen.clearInput t.lineInputStartX).Printing ∧
      (t.screen.clearInput t.lineInputStartX).AtEnd ∧
      (t.screen.clearInput t.lineInputStartX).row t.screen.cursorAtY = prompt := by
  have hle := e.cursor_le
  have honScreen : t.OnScreen :=
    ⟨h.lines, by rw [h.cursor, h.length]; exact hle, by
      rw [h.amountOfCells, h.column, h.length, h.start]
      omega, by rw [h.start]; omega, by rw [h.start, h.width]; exact hstart⟩
  obtain ⟨hprint, hend, -⟩ := honScreen.clearInput_spec
  refine ⟨hprint, hend, ?_⟩
  rw [(Screen.clearInput_redrawn h.notRedrawing _).row, h.start,
    Screen.row_blankInput h.amountOfCells (Nat.le_add_right _ _), h.row, List.take_left]

theorem clearInputOnScreen (h : Simulates prompt maxChars t e) (hstart : prompt.length < maxChars)
    {n : Nat} (hn : n ≤ e.history.length) (hzero : n = 0) :
    Simulates prompt maxChars
      ({ t with goThroughHistoryCount := n }.clearInputOnScreen.resetLineInput) (e.recallLine n hn) := by
  obtain ⟨hprint, hend, hrow⟩ := h.clearInput hstart
  have hedit := Screen.clearInput_edited h.notRedrawing t.lineInputStartX
  have hentry : LineEditor.entry e.history n = [] := if_pos hzero
  refine ⟨⟨?_, ?_, ?_, ?_⟩, hprint.toInLines, hedit.maxChars.trans h.width, h.start, h.history, rfl⟩
  · exact hentry.symm
  · exact (congrArg List.length hentry).symm
  · exact hedit.cursorAtX.trans (Int.add_zero _).symm
  · show (t.screen.clearInput t.lineInputStartX).row
      (t.screen.clearInput t.lineInputStartX).cursorAtY =
        prompt ++ (LineEditor.entry e.history n).map typedCell
    rw [hedit.cursorAtY, hrow, hentry, List.map_nil, List.append_nil]

theorem handleShowHistory (h : Simulates prompt maxChars t e) {n : Nat} (hn : n ≤ e.history.length)
    (hpos : n ≠ 0) (hprintable : ∀ line ∈ e.history, Printable line)
    (hfits : Fits prompt maxChars (e.recallLine n hn)) :
    Simulates prompt maxChars { t with goThroughHistoryCount := n }.handleShowHistory
      (e.recallLine n hn) := by
  have hlength := h.length_history
  obtain ⟨text, hentry⟩ : ∃ text, t.commandHistory (t.cmdHistCount - n) = text := ⟨_, rfl⟩
  have htext : Printable text := by
    refine hprintable text ?_
    rw [← h.history, ← hentry]
    exact List.mem_map.mpr ⟨_, List.mem_range.mpr (by omega), rfl⟩
  have hrecalled : LineEditor.entry e.history n = text := (h.entry_eq hn hpos).trans hentry
  have hroom : prompt.length + text.length < maxChars := hrecalled ▸ hfits.1
  obtain ⟨hprint, hend, hrow⟩ := h.clearInput (by omega)
  have hedit := Screen.clearInput_edited h.notRedrawing t.lineInputStartX
  have hbreaks : ∀ c ∈ text, c ≠ 0x0A ∧ c ≠ 0x0D :=
    fun c hc => ⟨htext.ne hc (by decide), htext.ne hc (by decide)⟩
  obtain ⟨hY, hX, hshown⟩ := Screen.printChars_row hprint hend hbreaks
    (by rw [hedit.cursorAtX, hedit.maxChars, h.start, h.width]; exact hroom) .white true
  have hscreen := screen_handleShowHistory (t := { t with goThroughHistoryCount := n }) htext hentry
  refine ⟨⟨?_, ?_, ?_, ?_⟩, ?_, ?_, h.start, h.history, rfl⟩
  · exact (LineInput.read_recall _ _).1.trans (hentry.trans hrecalled.symm)
  · exact congrArg List.length (hentry.trans hrecalled.symm)
  · rw [hscreen]
    refine hX.trans ?_
    show _ = t.lineInputStartX + ((t.commandHistory (t.cmdHistCount - n)).length : Nat)
    rw [hedit.cursorAtX, hentry]
  · rw [hscreen, hY]
    show _ = prompt ++ (LineEditor.entry e.history n).map typedCell
    rw [hshown, hedit.cursorAtY, hrow, hrecalled]
    rfl
  · rw [hscreen]
    exact (Screen.printChars_printing hprint text .white true).toInLines
  · rw [hscreen, Screen.maxChars_printChars hprint, hedit.maxChars, h.width]

/-! ## Keys -/

/-- A printable key is none of the keys that edit otherwise, and inserts its character. -/
theorem printable_keycode {key : Keycode} (h : 32 ≤ key ∧ key ≤ 126) :
    key ≠ .enter ∧ key ≠ .tab ∧ key.toUInt8 ≠ 0 := by
  obtain ⟨h32, h126⟩ := h
  rw [UInt16.le_iff_toNat_le] at h32 h126
  refine ⟨?_, ?_, ?_⟩
  · rintro rfl
    exact absurd h126 (by decide)
  · rintro rfl
    exact absurd h126 (by decide)
  · intro hzero
    have hnat := congrArg UInt8.toNat hzero
    rw [UInt16.toNat_toUInt8] at hnat
    simp at h32 h126 hnat
    omega

theorem onPlainKey (h : Simulates prompt maxChars t e) (sh : Shell) {k : Key}
    (hext : k.isExtendedScancode = false) (hshift : t.shift = k.shift)
    {edit : LineEditor.Edit UInt8} (hedit : k.edit = some edit) (hfits : Fits prompt maxChars e) :
    Simulates prompt maxChars (t.onPlainKey sh k.scancode) (e.step edit) := by
  unfold Key.edit at hedit
  rw [if_neg (by rw [hext]; exact Bool.false_ne_true)] at hedit
  unfold Terminal.onPlainKey
  rw [hshift]
  dsimp only at hedit ⊢
  split at hedit
  · rename_i hback
    cases hedit
    rw [if_neg (by rw [hback]; decide), if_pos hback]
    exact h.handleInputBufferDeletion
  · rename_i hback
    split at hedit
    · rename_i hchar
      cases hedit
      obtain ⟨henter, htab, hzero⟩ := printable_keycode hchar
      rw [if_neg henter, if_neg hback, if_neg htab, handleInputBufferInsertion, hshift, if_neg hzero]
      exact h.insertCharAtCursor hfits _
    · cases hedit

theorem onExtendedKey_up (h : Simulates prompt maxChars t e)
    (hprintable : ∀ line ∈ e.history, Printable line) (hfits' : Fits prompt maxChars e.up) :
    Simulates prompt maxChars (t.onExtendedKey 0x48) e.up := by
  have hlength := h.length_history
  have hrecalled := h.recalled
  unfold Terminal.onExtendedKey
  rw [if_pos rfl]
  unfold LineEditor.up at hfits' ⊢
  by_cases hlt : e.recalled < e.history.length
  · rw [dif_pos hlt] at hfits' ⊢
    rw [if_neg (by omega), if_pos (by omega), hrecalled]
    exact h.handleShowHistory hlt (Nat.succ_ne_zero _) hprintable hfits'
  · rw [dif_neg hlt]
    split
    · exact h
    · rw [if_neg (by omega)]
      exact h

theorem onExtendedKey_down (h : Simulates prompt maxChars t e)
    (hprintable : ∀ line ∈ e.history, Printable line) (hfits : Fits prompt maxChars e)
    (hfits' : Fits prompt maxChars e.down) :
    Simulates prompt maxChars (t.onExtendedKey 0x50) e.down := by
  have hrecalled := h.recalled
  unfold Terminal.onExtendedKey
  rw [if_neg (by decide), if_pos rfl]
  unfold LineEditor.down at hfits' ⊢
  by_cases hzero : e.recalled = 0
  · rw [if_pos hzero, if_pos (by omega)]
    exact h
  · rw [if_neg hzero] at hfits' ⊢
    rw [if_neg (by omega), hrecalled]
    dsimp only
    by_cases hone : e.recalled - 1 = 0
    · rw [if_pos hone]
      exact h.clearInputOnScreen (by have := hfits.1; omega) _ hone
    · rw [if_neg hone]
      exact h.handleShowHistory _ hone hprintable hfits'

theorem onExtendedKey (h : Simulates prompt maxChars t e) {k : Key}
    (hext : k.isExtendedScancode = true) {edit : LineEditor.Edit UInt8}
    (hedit : k.edit = some edit)
    (hprintable : ∀ line ∈ e.history, Printable line)
    (hfits : Fits prompt maxChars e) (hfits' : Fits prompt maxChars (e.step edit)) :
    Simulates prompt maxChars (t.onExtendedKey k.scancode) (e.step edit) := by
  unfold Key.edit at hedit
  rw [if_pos hext] at hedit
  split at hedit
  · rename_i hup
    cases hedit
    rw [hup]
    exact h.onExtendedKey_up hprintable hfits'
  · split at hedit
    · rename_i hdown
      cases hedit
      rw [hdown]
      exact h.onExtendedKey_down hprintable hfits hfits'
    · split at hedit
      · rename_i hleft
        cases hedit
        rw [hleft]
        exact h.cursorMoveInline_left
      · split at hedit
        · rename_i hright
          cases hedit
          rw [hright]
          exact h.cursorMoveInline_right
        · cases hedit

/-- Each editing key keeps the relation. -/
theorem press (h : Simulates prompt maxChars t e) (sh : Shell) {k : Key}
    {edit : LineEditor.Edit UInt8} (hedit : k.edit = some edit)
    (hprintable : ∀ line ∈ e.history, Printable line)
    (hfits : Fits prompt maxChars e) (hfits' : Fits prompt maxChars (e.step edit)) :
    Simulates prompt maxChars (t.press sh k) (e.step edit) := by
  have harrive := h.keyboard k.shift k.isExtendedScancode
  unfold Terminal.press terminalOnKey
  by_cases hext : (t.arrive k).isExtendedScancode = true
  · rw [if_pos hext]
    exact (harrive.onExtendedKey hext hedit hprintable hfits hfits').keyboard _ false
  · rw [if_neg hext]
    exact harrive.onPlainKey sh (Bool.eq_false_iff.mpr hext) rfl hedit hfits

/-- So do sequences of editing keys. -/
theorem foldl_press (h : Simulates prompt maxChars t e) (sh : Shell) {keys : List Key}
    {edits : List (LineEditor.Edit UInt8)} (hkeys : keys.map Key.edit = edits.map some)
    (hprintable : ∀ line ∈ e.history, Printable line)
    (hfits : ∀ e' ∈ e.states edits, Fits prompt maxChars e') :
    Simulates prompt maxChars (keys.foldl (Terminal.press sh) t) (edits.foldl LineEditor.step e) := by
  induction keys generalizing t e edits with
  | nil =>
    obtain rfl := List.map_eq_nil_iff.mp hkeys.symm
    exact h
  | cons k keys ih =>
    obtain ⟨edit, rest, rfl, hedit, hrest⟩ := List.map_eq_cons_iff.mp hkeys.symm
    rw [LineEditor.states, Runs.states_cons rfl, List.forall_mem_cons] at hfits
    refine ih (h.press sh hedit.symm hprintable hfits.1 ?_) hrest.symm ?_ hfits.2
    · exact hfits.2 _ (Runs.mem_states _ _)
    · rw [LineEditor.history_step]
      exact hprintable

end Simulates

/-! ## Runs from a prompt -/

theorem FreshPrompt.simulates {prompt : List Cell} {t : Terminal} (h : FreshPrompt prompt t) :
    Simulates prompt t.screen.maxChars t (LineEditor.fresh t.historyLines) where
  text := List.length_eq_zero_iff.mp (t.length_text.trans h.empty)
  cursor := h.cursor
  column := by
    rw [h.column, h.start, h.cursor]
    exact (Int.add_zero _).symm
  row := h.row.trans (List.append_nil _).symm
  lines := h.lines
  width := rfl
  start := h.start
  history := rfl
  recalled := h.recalled

/-- From a fresh prompt, for every sequence of keys that edit the line and as long as it fits, the
terminal refines the line editor, and the interactable cells of the line are those behind the prompt. -/
theorem keys_refine (sh : Shell) {prompt : List Cell} {t : Terminal} (h : FreshPrompt prompt t)
    (hprintable : ∀ line ∈ t.historyLines, Printable line) {keys : List Key}
    {edits : List (LineEditor.Edit UInt8)} (hkeys : keys.map Key.edit = edits.map some)
    (hfits : ∀ e ∈ (LineEditor.fresh t.historyLines).states edits, Fits prompt t.screen.maxChars e) :
    let t' := keys.foldl (press sh) t
    Refines prompt t' (edits.foldl LineEditor.step (LineEditor.fresh t.historyLines)) ∧
      ∀ x cell, (t'.screen.row t'.screen.cursorAtY)[x]? = some cell →
        (cell.interactable = true ↔ prompt.length ≤ x) := by
  intro t'
  have hrefines := (h.simulates.foldl_press sh hkeys hprintable hfits).toRefines
  refine ⟨hrefines, fun x cell hcell => ?_⟩
  rw [hrefines.row] at hcell
  by_cases hx : prompt.length ≤ x
  · rw [List.getElem?_append_right hx] at hcell
    obtain ⟨c, -, rfl⟩ := List.mem_map.mp (List.mem_of_getElem? hcell)
    exact iff_of_true rfl hx
  · rw [List.getElem?_append_left (Nat.lt_of_not_le hx)] at hcell
    have hplain := h.plain cell (List.mem_of_getElem? hcell)
    exact iff_of_false (by rw [hplain]; exact Bool.false_ne_true) hx

/-- On a screen of 80 columns, for the keys A, Left, A, Backspace and Up. -/
theorem keys_refine_80x25 :
    let t := (boot (Screen.initPrint 80 25).initScreenBuffer).terminalInit
    let t' := [keyA, ⟨false, true, 0x4B⟩, keyA, ⟨false, false, 0x0E⟩, ⟨false, true, 0x48⟩].foldl
      (press fun _ _ _ => []) t
    Refines t.prompt t' ([.char 0x61, .left, .char 0x61, .backspace, .up].foldl LineEditor.step
        (LineEditor.fresh t.historyLines)) ∧
      ∀ x cell, (t'.screen.row t'.screen.cursorAtY)[x]? = some cell →
        (cell.interactable = true ↔ t.prompt.length ≤ x) := by
  have hprint : (Screen.initPrint 80 25).initScreenBuffer.Printing :=
    Screen.Early.printing ⟨rfl, by decide, by decide, by decide, by decide, rfl⟩
  refine keys_refine (fun _ _ _ => []) (terminalInit_freshPrompt hprint)
    (fun line hline => by cases hline) (by decide) ?_
  rw [maxChars_terminalInit hprint, terminalInit_prompt hprint (by decide)]
  decide

end Terminal

end EszOs
