import EszOs.Rendering.Columns

/-!
# The input line on the screen (`terminal/terminal.cpp`)

What the edits of the input line do to the cells of the current line: the second half of
`insert_char_at_cursor` and of `handle_input_buffer_deletion`, and `clear_input_on_screen`. Each
stores cells (`shiftInCell`, `shiftOutCell`, `blankInput`) and then redraws the line.

* `insertCell_redrawn`, …: up to what is drawn, the edit is its stores.
* `shiftInCell_inLines`, …: where the stores stay in the line.
* `row_shiftInCell`, …: what the line shows then.
-/

namespace EszOs

namespace Screen

/-! ## Definitions -/

/-- The stores of `insert_char_at_cursor`. -/
def shiftInCell (c : UInt8) (s : Screen) : Screen :=
  let y := s.cursorAtY
  let shifted := (line y).shiftUp s.cursorAtX (s.amountOfCells y - s.cursorAtX).toNat s
  let inserted := shifted.setCell y s.cursorAtX ⟨.white, c, true⟩
  { inserted.setAmountOfCells y (s.amountOfCells y + 1) with cursorAtX := s.cursorAtX + 1 }

/-- The half of `insert_char_at_cursor` that is about the screen. -/
def insertCell (c : UInt8) (s : Screen) : Screen := (s.shiftInCell c).redrawCurrentLine

/-- The stores of `handle_input_buffer_deletion`. -/
def shiftOutCell (s : Screen) : Screen :=
  let y := s.cursorAtY
  let last := s.amountOfCells y - 1
  let shifted := (line y).shiftDown (s.cursorAtX - 1) (last - (s.cursorAtX - 1)).toNat s
  let deleted :=
    shifted.setCell y last { shifted.cell y last with text := 0, interactable := false }
  { deleted.setAmountOfCells y last with cursorAtX := s.cursorAtX - 1 }

/-- The half of `handle_input_buffer_deletion` that is about the screen. -/
def deleteCell (s : Screen) : Screen := s.shiftOutCell.redrawCurrentLine

/-- The stores of `clear_input_on_screen`, for an input that starts in column `start`. -/
def blankInput (start : Int) (s : Screen) : Screen :=
  let y := s.cursorAtY
  let totalCells := s.amountOfCells y
  let cleared := (line y).store start
    (List.replicate (min totalCells s.maxChars - start).toNat ⟨.white, 0, false⟩) s
  { cleared.setAmountOfCells y start with cursorAtX := start }

/-- `clear_input_on_screen` -/
def clearInput (start : Int) (s : Screen) : Screen := (s.blankInput start).redrawCurrentLine

/-- The cursor `dx` columns on. -/
def moveCursor (dx : Int) (s : Screen) : Screen :=
  updateCursorRender { s with cursorAtX := s.cursorAtX + dx }

/-! ## Stores -/

/-- `s'` is `s` up to cells and the record of the stores. -/
def SameLines (s s' : Screen) : Prop :=
  ∃ cells w, s' = { s with cellBlock := cells, written := w }

theorem SameLines.refl (s : Screen) : SameLines s s := ⟨_, _, rfl⟩

theorem SameLines.setCell {s s' : Screen} (h : SameLines s s') (y x : Int) (c : Cell) :
    SameLines s (s'.setCell y x c) := by
  obtain ⟨cells, w, rfl⟩ := h
  exact ⟨_, _, rfl⟩

theorem shiftUp_sameLines (y lo : Int) (n : Nat) (s : Screen) :
    SameLines s ((line y).shiftUp lo n s) :=
  View.shiftUp_induct (fun _ i c _ _ h => h.setCell y i c) (SameLines.refl s)

theorem shiftDown_sameLines (y lo : Int) (n : Nat) (s : Screen) :
    SameLines s ((line y).shiftDown lo n s) :=
  View.shiftDown_induct (fun _ i c _ _ h => h.setCell y i c) (SameLines.refl s)

theorem store_sameLines (y lo : Int) (l : List Cell) (s : Screen) :
    SameLines s ((line y).store lo l s) :=
  View.store_induct (fun _ i c _ _ h => h.setCell y i c) (SameLines.refl s)

/-- `s'` is `s` up to cells and what is drawn, with `n` cells in the current line and the cursor in
column `x`. -/
def Edited (s : Screen) (n x : Int) (s' : Screen) : Prop :=
  ∃ cells w rx ry d, s' = { s.setAmountOfCells s.cursorAtY n with
    cellBlock := cells, written := w, cursorAtX := x
    cursorRenderedX := rx, cursorRenderedY := ry, drawn := d }

theorem SameLines.edited {s s' : Screen} (h : SameLines s s') (n x : Int) :
    Edited s n x { s'.setAmountOfCells s.cursorAtY n with cursorAtX := x } := by
  obtain ⟨cells, w, rfl⟩ := h
  exact ⟨_, _, _, _, _, rfl⟩

namespace Edited

variable {s s' : Screen} {n x : Int}

theorem redrawn (h : Edited s n x s') {s'' : Screen} (h' : Redrawn s' s'') : Edited s n x s'' := by
  obtain ⟨cells, w, rx, ry, d, rfl⟩ := h
  obtain ⟨rx', ry', d', rfl⟩ := h'
  exact ⟨_, _, _, _, _, rfl⟩

theorem cursorAtX (h : Edited s n x s') : s'.cursorAtX = x := by
  obtain ⟨cells, w, rx, ry, d, rfl⟩ := h
  rfl

theorem cursorAtY (h : Edited s n x s') : s'.cursorAtY = s.cursorAtY := by
  obtain ⟨cells, w, rx, ry, d, rfl⟩ := h
  rfl

theorem maxChars (h : Edited s n x s') : s'.maxChars = s.maxChars := by
  obtain ⟨cells, w, rx, ry, d, rfl⟩ := h
  rfl

theorem maxStoredLines (h : Edited s n x s') : s'.maxStoredLines = s.maxStoredLines := by
  obtain ⟨cells, w, rx, ry, d, rfl⟩ := h
  rfl

theorem isRedrawing (h : Edited s n x s') : s'.isRedrawing = s.isRedrawing := by
  obtain ⟨cells, w, rx, ry, d, rfl⟩ := h
  rfl

theorem amountOfCells (h : Edited s n x s') : s'.amountOfCells s.cursorAtY = n := by
  obtain ⟨cells, w, rx, ry, d, rfl⟩ := h
  exact if_pos rfl

end Edited

theorem shiftInCell_edited (c : UInt8) (s : Screen) :
    Edited s (s.amountOfCells s.cursorAtY + 1) (s.cursorAtX + 1) (s.shiftInCell c) :=
  ((shiftUp_sameLines _ _ _ s).setCell _ _ _).edited _ _

theorem shiftOutCell_edited (s : Screen) :
    Edited s (s.amountOfCells s.cursorAtY - 1) (s.cursorAtX - 1) s.shiftOutCell :=
  ((shiftDown_sameLines _ _ _ s).setCell _ _ _).edited _ _

theorem blankInput_edited (start : Int) (s : Screen) : Edited s start start (s.blankInput start) :=
  (store_sameLines _ _ _ s).edited _ _

/-! ## Drawing -/

theorem insertCell_redrawn {s : Screen} (h : s.isRedrawing = false) (c : UInt8) :
    Redrawn (s.shiftInCell c) (s.insertCell c) :=
  redrawCurrentLine_redrawn ((shiftInCell_edited c s).isRedrawing.trans h)

theorem deleteCell_redrawn {s : Screen} (h : s.isRedrawing = false) :
    Redrawn s.shiftOutCell s.deleteCell :=
  redrawCurrentLine_redrawn ((shiftOutCell_edited s).isRedrawing.trans h)

theorem clearInput_redrawn {s : Screen} (h : s.isRedrawing = false) (start : Int) :
    Redrawn (s.blankInput start) (s.clearInput start) :=
  redrawCurrentLine_redrawn ((blankInput_edited start s).isRedrawing.trans h)

theorem moveCursor_redrawn (dx : Int) (s : Screen) :
    Redrawn { s with cursorAtX := s.cursorAtX + dx } (s.moveCursor dx) :=
  updateCursorRender_redrawn _

theorem insertCell_edited {s : Screen} (h : s.isRedrawing = false) (c : UInt8) :
    Edited s (s.amountOfCells s.cursorAtY + 1) (s.cursorAtX + 1) (s.insertCell c) :=
  (shiftInCell_edited c s).redrawn (insertCell_redrawn h c)

theorem deleteCell_edited {s : Screen} (h : s.isRedrawing = false) :
    Edited s (s.amountOfCells s.cursorAtY - 1) (s.cursorAtX - 1) s.deleteCell :=
  (shiftOutCell_edited s).redrawn (deleteCell_redrawn h)

theorem clearInput_edited {s : Screen} (h : s.isRedrawing = false) (start : Int) :
    Edited s start start (s.clearInput start) :=
  (blankInput_edited start s).redrawn (clearInput_redrawn h start)

theorem moveCursor_edited (dx : Int) (s : Screen) :
    Edited s (s.amountOfCells s.cursorAtY) (s.cursorAtX + dx) (s.moveCursor dx) := by
  refine Edited.redrawn ?_ (moveCursor_redrawn dx s)
  have hsame : s.setAmountOfCells s.cursorAtY (s.amountOfCells s.cursorAtY) = s := by
    have hamounts : (s.setAmountOfCells s.cursorAtY (s.amountOfCells s.cursorAtY)).amountOfCells =
        s.amountOfCells := by
      funext y
      rw [amountOfCells_setAmountOfCells]
      split
      · rename_i hy
        rw [hy]
      · rfl
    exact congrArg (fun a => { s with amountOfCells := a }) hamounts
  refine ⟨s.cellBlock, s.written, s.cursorRenderedX, s.cursorRenderedY, s.drawn, ?_⟩
  rw [hsame]

/-- An insertion stores at the cursor, among others. -/
theorem written_insertCell {s : Screen} (h : s.isRedrawing = false) (c : UInt8) :
    ∀ p ∈ (s.cursorAtY, s.cursorAtX) :: s.written, p ∈ (s.insertCell c).written := by
  have hshift : ∀ p ∈ s.written, p ∈ ((line s.cursorAtY).shiftUp s.cursorAtX
      (s.amountOfCells s.cursorAtY - s.cursorAtX).toNat s).written :=
    View.shiftUp_induct (P := fun s' : Screen => ∀ p ∈ s.written, p ∈ s'.written)
      (fun _ _ _ _ _ hs' p hp => List.mem_cons_of_mem _ (hs' p hp)) (fun _ hp => hp)
  obtain ⟨x, y, d, heq⟩ := insertCell_redrawn h c
  rw [heq]
  intro p hp
  rcases List.mem_cons.mp hp with rfl | hp
  · exact List.mem_cons_self
  · exact List.mem_cons_of_mem _ (hshift p hp)

/-! ## Columns -/

/-- A store to a column of the current line. -/
theorem InLines.setCell_cellsOk {s s' : Screen} (h : s.InLines)
    (hs' : SameLines s s' ∧ s'.CellsOk) {x : Int} (h0 : 0 ≤ x) (hlt : x < s.maxChars) (c : Cell) :
    SameLines s (s'.setCell s.cursorAtY x c) ∧ (s'.setCell s.cursorAtY x c).CellsOk := by
  refine ⟨hs'.1.setCell _ _ _, hs'.2.setCell ?_ c⟩
  obtain ⟨cells, w, rfl⟩ := hs'.1
  exact ⟨h.cursorAtY_nonneg, h.cursorAtY_lt, h0, hlt⟩

/-- After stores to its columns, the current line gets another length. -/
theorem InLines.edited {s s' : Screen} (h : s.InLines) (hs' : SameLines s s' ∧ s'.CellsOk) {n : Int}
    (h0 : 0 ≤ n) (hle : n ≤ s.maxChars) (x : Int) :
    InLines { s'.setAmountOfCells s.cursorAtY n with cursorAtX := x } := by
  obtain ⟨⟨cells, w, rfl⟩, hok⟩ := hs'
  have hamount := hok.setAmountOfCells s.cursorAtY h0 hle
  refine ⟨⟨hamount.amount_nonneg, hamount.amount_le, hamount.written⟩, h.buffered, h.notRedrawing,
    h.maxChars_pos, h.stored, h.cursorAtY_nonneg, h.cursorAtY_lt, fun y h1 h2 => ?_⟩
  have hne : y ≠ s.cursorAtY := by
    change s.cursorAtY < y at h1
    omega
  exact (if_neg hne).trans (h.below y h1 h2)

/-- An insertion in a line with a free column, between its first cell and its end. -/
theorem shiftInCell_inLines {s : Screen} (h : s.InLines) (h0 : 0 ≤ s.cursorAtX)
    (hle : s.cursorAtX ≤ s.amountOfCells s.cursorAtY)
    (hfree : s.amountOfCells s.cursorAtY < s.maxChars) (c : UInt8) : (s.shiftInCell c).InLines := by
  have hshift : SameLines s ((line s.cursorAtY).shiftUp s.cursorAtX
      (s.amountOfCells s.cursorAtY - s.cursorAtX).toNat s) ∧ CellsOk _ :=
    View.shiftUp_induct (P := fun s' => SameLines s s' ∧ s'.CellsOk)
      (fun s' i c hlo hhi hs' => h.setCell_cellsOk hs' (by omega) (by omega) c)
      ⟨SameLines.refl s, h.toCellsOk⟩
  exact h.edited (h.setCell_cellsOk hshift h0 (by omega) _) (by omega) (by omega) _

/-- A deletion in a line of which the cursor has passed a cell. -/
theorem shiftOutCell_inLines {s : Screen} (h : s.InLines) (h0 : 0 < s.cursorAtX)
    (hle : s.cursorAtX ≤ s.amountOfCells s.cursorAtY) : s.shiftOutCell.InLines := by
  have hmax := h.amount_cursor_le
  have hshift : SameLines s ((line s.cursorAtY).shiftDown (s.cursorAtX - 1)
      (s.amountOfCells s.cursorAtY - 1 - (s.cursorAtX - 1)).toNat s) ∧ CellsOk _ :=
    View.shiftDown_induct (P := fun s' => SameLines s s' ∧ s'.CellsOk)
      (fun s' i c hlo hhi hs' => h.setCell_cellsOk hs' (by omega) (by omega) c)
      ⟨SameLines.refl s, h.toCellsOk⟩
  exact h.edited (h.setCell_cellsOk hshift (by omega) (by omega) _) (by omega) (by omega) _

theorem blankInput_inLines {s : Screen} (h : s.InLines) {start : Int} (h0 : 0 ≤ start)
    (hlt : start < s.maxChars) : (s.blankInput start).InLines := by
  have hstore : SameLines s ((line s.cursorAtY).store start
      (List.replicate (min (s.amountOfCells s.cursorAtY) s.maxChars - start).toNat
        ⟨.white, 0, false⟩) s) ∧ CellsOk _ :=
    View.store_induct (P := fun s' => SameLines s s' ∧ s'.CellsOk)
      (fun s' i c hlo hhi hs' => by
        rw [List.length_replicate] at hhi
        exact h.setCell_cellsOk hs' (by omega) (by omega) c)
      ⟨SameLines.refl s, h.toCellsOk⟩
  exact h.edited hstore h0 (by omega) _

theorem moveCursor_inLines {s : Screen} (h : s.InLines) (dx : Int) : (s.moveCursor dx).InLines :=
  (moveCursor_redrawn dx s).inLines ⟨⟨h.amount_nonneg, h.amount_le, h.written⟩, h.buffered,
    h.notRedrawing, h.maxChars_pos, h.stored, h.cursorAtY_nonneg, h.cursorAtY_lt, h.below⟩

/-! ## What the line shows -/

/-- A cell that the line shows. -/
theorem cell_of_row {s : Screen} {y : Int} {i : Nat} {c : Cell} (h : (s.row y)[i]? = some c) :
    s.cell y i = c := by
  rw [row, View.getElem?_read] at h
  split at h
  · rw [Int.zero_add] at h
    exact Option.some.inj h
  · cases h

theorem row_shiftInCell {s : Screen} {n c : Nat} (hn : s.amountOfCells s.cursorAtY = n)
    (hc : s.cursorAtX = c) (hle : c ≤ n) (ch : UInt8) :
    (s.shiftInCell ch).row s.cursorAtY = (s.row s.cursorAtY).insertIdx c ⟨.white, ch, true⟩ := by
  have hins := View.read_insert (A := line s.cursorAtY) s 0 ⟨.white, ch, true⟩ hle
  rw [Int.zero_add] at hins
  have hcount : (s.amountOfCells s.cursorAtY - s.cursorAtX).toNat = n - c := by omega
  have hamount : (s.shiftInCell ch).amountOfCells s.cursorAtY = (n + 1 : Nat) := by
    rw [(shiftInCell_edited ch s).amountOfCells, hn]
    rfl
  rw [row_eq_read hamount, Int.toNat_natCast, shiftInCell, hcount, hc, row_eq_read hn,
    Int.toNat_natCast, ← hins]
  rfl

theorem row_shiftOutCell {s : Screen} {n c : Nat} (hn : s.amountOfCells s.cursorAtY = n)
    (hc : s.cursorAtX = (c + 1 : Nat)) (hlt : c < n) :
    s.shiftOutCell.row s.cursorAtY = (s.row s.cursorAtY).eraseIdx c := by
  have hdel := View.read_shiftDown (A := line s.cursorAtY) s 0 hlt
  rw [Int.zero_add] at hdel
  have hX : s.cursorAtX - 1 = c := by omega
  have hlast : s.amountOfCells s.cursorAtY - 1 = (n - 1 : Nat) := by omega
  have hcount : (((n - 1 : Nat) : Int) - c).toNat = n - 1 - c := by omega
  have hamount : s.shiftOutCell.amountOfCells s.cursorAtY = (n - 1 : Nat) := by
    rw [(shiftOutCell_edited s).amountOfCells, hlast]
  rw [row_eq_read hamount, Int.toNat_natCast, shiftOutCell, hX, hlast, hcount, row_eq_read hn,
    Int.toNat_natCast, ← hdel]
  rw [read_edited]
  exact View.read_set_of_le (A := line s.cursorAtY) (by omega)

theorem row_blankInput {s : Screen} {n start : Nat} (hn : s.amountOfCells s.cursorAtY = n)
    (hle : start ≤ n) :
    (s.blankInput start).row s.cursorAtY = (s.row s.cursorAtY).take start := by
  rw [row_eq_read (blankInput_edited start s).amountOfCells, Int.toNat_natCast, row_eq_read hn,
    Int.toNat_natCast, View.take_read hle]
  refine View.read_congr fun i _ hi => ?_
  exact View.get_store_of_outside (A := line s.cursorAtY) (.inl (by omega))

/-- A text without line breaks that fits the line follows what the line shows. -/
theorem printChars_row {s : Screen} (h : s.Printing) (hend : s.AtEnd) {text : CString}
    (htext : ∀ c ∈ text, c ≠ 0x0A ∧ c ≠ 0x0D) (hfits : s.cursorAtX + text.length < s.maxChars)
    (color : Color) (interactable : Bool) :
    (s.printChars text color interactable).cursorAtY = s.cursorAtY ∧
      (s.printChars text color interactable).cursorAtX = s.cursorAtX + text.length ∧
      (s.printChars text color interactable).row s.cursorAtY =
        s.row s.cursorAtY ++ text.map fun c => ⟨color, c, interactable⟩ := by
  induction text generalizing s with
  | nil => exact ⟨rfl, (Int.add_zero _).symm, by simp [printChars]⟩
  | cons c text ih =>
    obtain ⟨⟨hlf, hcr⟩, hrest⟩ := List.forall_mem_cons.mp htext
    rw [List.length_cons] at hfits
    obtain ⟨t, ht, heq⟩ := printChar_eq h.buffered h.notRedrawing c color interactable
    have hX : t.cursorAtX = s.cursorAtX + 1 := ht.cursorAtX
    have hmax : t.maxChars = s.maxChars := by
      rw [ht.maxChars, typed, putCell_of_le h.amount_le_cursorAtX]
      rfl
    have hY : t.cursorAtY = s.cursorAtY := by
      rw [ht.cursorAtY, typed, putCell_of_le h.amount_le_cursorAtX]
      rfl
    have hrow : t.row s.cursorAtY = s.row s.cursorAtY ++ [⟨color, c, interactable⟩] := by
      rw [ht.row, row_typed h hend]
    have hstep : s.printTextChar color interactable c = t := by
      rw [printTextChar, if_neg hcr, if_neg hlf, heq, handleAutomaticNewline, if_neg (by omega)]
    obtain ⟨hprint, hend'⟩ := printChar_spec h c color interactable
    rw [heq, handleAutomaticNewline, if_neg (by omega)] at hprint hend'
    obtain ⟨h1, h2, h3⟩ := ih hprint hend' hrest (by omega)
    show (printChars text color interactable (s.printTextChar color interactable c)).cursorAtY = _ ∧
      (printChars text color interactable (s.printTextChar color interactable c)).cursorAtX = _ ∧
      (printChars text color interactable (s.printTextChar color interactable c)).row _ = _
    rw [hstep]
    refine ⟨h1.trans hY, ?_, ?_⟩
    · rw [h2, List.length_cons]
      omega
    · rw [← hY, h3, hY, hrow, List.append_assoc]
      rfl

/-- A text that fills the line is followed by a line break. -/
theorem printChars_full {s : Screen} (h : s.Printing) (hend : s.AtEnd) {text : CString} {c : UInt8}
    (htext : ∀ c' ∈ text ++ [c], c' ≠ 0x0A ∧ c' ≠ 0x0D)
    (hfull : s.cursorAtX + text.length + 1 = s.maxChars) (color : Color) (interactable : Bool) :
    (s.printChars (text ++ [c]) color interactable).cursorAtX = 0 := by
  obtain ⟨-, hX, -⟩ := printChars_row h hend (fun c' hc' => htext c' (List.mem_append_left _ hc'))
    (by omega) color interactable
  have hprint := printChars_printing h text color interactable
  have hmax := maxChars_printChars h text color interactable
  obtain ⟨hlf, hcr⟩ := htext c (List.mem_append_right _ (List.mem_singleton_self c))
  obtain ⟨t, ht, heq⟩ := printChar_eq hprint.buffered hprint.notRedrawing c color interactable
  have hlines : t.InLines := ht.inLines (typed_inLines hprint _).1
  have hfull' : t.maxChars ≤ t.cursorAtX := by
    rw [ht.cursorAtX, ht.maxChars, typed, putCell_of_le hprint.amount_le_cursorAtX]
    show (s.printChars text color interactable).maxChars ≤ (s.printChars text color interactable).cursorAtX + 1
    omega
  have hstep : s.printChars (text ++ [c]) color interactable = t.newline := by
    show (text ++ [c]).foldl _ s = _
    rw [List.foldl_append]
    show (s.printChars text color interactable).printTextChar color interactable c = _
    rw [printTextChar, if_neg hcr, if_neg hlf, heq, handleAutomaticNewline, if_pos hfull']
  rw [hstep, (newline_spec hlines).2, newline_empty hlines]

end Screen

end EszOs
