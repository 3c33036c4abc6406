import EszOs.Lib.Transcript
import EszOs.Rendering.Viewport

/-!
# The buffer holds the last lines

What the printing calls write is a transcript of lines without end. The buffer holds its last ones,
as many as it has lines for.

* `copyLines_row`, `newline_rows`: dropping the oldest line moves each line up by one.
* `Mirrors`: the lines above the cursor are the last finished ones, and the cursor's is the current
  one. Every call keeps this.
* `startsInLine`: where the cursor starts in the middle of a line, the first character fills it up.
* `calls_mirror`: the lines of the buffer up to the cursor are the last of the transcript, and all of
  them as long as they fit.
-/

namespace EszOs

namespace Screen

/-! ## Cells -/

/-- The cells of the lines do not overlap. -/
theorem cell_index_inj {W y x y' x' : Int} (hx : 0 ≤ x) (hlt : x < W) (hx' : 0 ≤ x') (hlt' : x' < W)
    (h : y * W + x = y' * W + x') : y = y' ∧ x = x' := by
  have hW : W ≠ 0 := by omega
  have hline : ∀ {y x : Int}, 0 ≤ x → x < W → (y * W + x) / W = y := fun {y x} hx hlt => by
    rw [Int.add_comm, Int.add_mul_ediv_right x y hW, Int.ediv_eq_zero_of_lt hx hlt, Int.zero_add]
  have hy : y = y' := by
    rw [← hline (y := y) hx hlt, h, hline hx' hlt']
  subst hy
  exact ⟨rfl, by omega⟩

theorem cell_setCell {s : Screen} {y x y' x' : Int} (hx : 0 ≤ x) (hlt : x < s.maxChars)
    (hx' : 0 ≤ x') (hlt' : x' < s.maxChars) (c : Cell) :
    (s.setCell y x c).cell y' x' = if y' = y ∧ x' = x then c else s.cell y' x' := by
  show (if y' * s.maxChars + x' = y * s.maxChars + x then c else s.cell y' x') = _
  refine if_congr ⟨fun h => cell_index_inj hx' hlt' hx hlt h, ?_⟩ rfl rfl
  rintro ⟨rfl, rfl⟩
  rfl

/-- Lines with the same cells show the same. -/
theorem row_congr {s s' : Screen} {y y' : Int} (hamount : s'.amountOfCells y' = s.amountOfCells y)
    (hcell : ∀ x, 0 ≤ x → x < s.amountOfCells y → s'.cell y' x = s.cell y x) :
    s'.row y' = s.row y := by
  unfold row
  rw [hamount]
  refine List.map_congr_left fun i hi => ?_
  rw [List.mem_range] at hi
  exact hcell _ (by omega) (by omega)

/-! ## Dropping the oldest line -/

/-- The inner loop of `handle_scroll`. -/
theorem copyCells_spec (line : Int) {n : Nat} {s : Screen} (hn : n ≤ s.maxChars) :
    (Loop.upTo (fun i s => s.setCell line i (s.cell (line + 1) i)) n s).maxChars = s.maxChars ∧
      ∀ y x, 0 ≤ x → x < s.maxChars →
        (Loop.upTo (fun i s => s.setCell line i (s.cell (line + 1) i)) n s).cell y x =
          if y = line ∧ x < n then s.cell (line + 1) x else s.cell y x := by
  induction n with
  | zero => exact ⟨rfl, fun y x h0 _ => (if_neg (by omega)).symm⟩
  | succ n ih =>
    obtain ⟨hmax, hcell⟩ := ih (by omega)
    refine ⟨hmax, fun y x h0 hlt => ?_⟩
    rw [Loop.upTo, cell_setCell (by omega) (by omega) h0 (by omega), hcell y x h0 hlt,
      hcell (line + 1) n (by omega) (by omega), if_neg (c := line + 1 = line ∧ _) (by omega)]
    by_cases hlast : y = line ∧ x = n
    · obtain ⟨rfl, rfl⟩ := hlast
      rw [if_pos ⟨rfl, rfl⟩, if_pos ⟨rfl, by omega⟩]
    · rw [if_neg hlast]
      exact if_congr (by omega) rfl rfl

/-- One line is copied up. -/
theorem copyNextLine_row {s : Screen} (h : s.CellsOk) {line : Nat}
    (hlt : (line : Int) + 1 < s.maxStoredLines) {y : Int} (hy : 0 ≤ y) (hylt : y < s.maxStoredLines) :
    (copyNextLine line s).row y = if y = line then s.row (line + 1) else s.row y := by
  have hnonneg := h.amount_nonneg (line + 1) (by omega) hlt
  have hle := h.amount_le (line + 1) (by omega) hlt
  obtain ⟨-, hcell⟩ := copyCells_spec line (n := (s.amountOfCells (line + 1)).toNat)
    (s := s.setAmountOfCells line (s.amountOfCells (line + 1)))
    (by show ((s.amountOfCells (line + 1)).toNat : Int) ≤ s.maxChars; omega)
  have hamounts : (copyNextLine line s).amountOfCells =
      (s.setAmountOfCells line (s.amountOfCells (line + 1))).amountOfCells :=
    Loop.upTo_induct (P := fun t : Screen => t.amountOfCells =
      (s.setAmountOfCells line (s.amountOfCells (line + 1))).amountOfCells)
      (fun _ _ _ ht => ht) rfl
  have hamount := congrFun hamounts y
  rw [amountOfCells_setAmountOfCells] at hamount
  have hyle := h.amount_le y hy hylt
  split
  · rename_i hline
    rw [if_pos hline] at hamount
    refine row_congr hamount fun x h0 hx => ?_
    have hstep := hcell y x h0 (by show x < s.maxChars; omega)
    rw [if_pos ⟨hline, by omega⟩] at hstep
    exact hstep
  · rename_i hline
    rw [if_neg hline] at hamount
    refine row_congr hamount fun x h0 hx => ?_
    have hstep := hcell y x h0 (by show x < s.maxChars; omega)
    rw [if_neg (fun h => hline h.1)] at hstep
    exact hstep

/-- The outer loop of `handle_scroll`. -/
theorem copyLines_row {s : Screen} (h : s.CellsOk) {n : Nat} (hn : n + 1 ≤ s.maxStoredLines) {y : Int}
    (hy : 0 ≤ y) (hylt : y < s.maxStoredLines) :
    (Loop.upTo copyNextLine n s).row y = if y < n then s.row (y + 1) else s.row y := by
  induction n generalizing y with
  | zero => exact (if_neg (by omega)).symm
  | succ n ih =>
    obtain ⟨cells, amounts, written, heq, hok⟩ := copyLines_spec h (n := n) (by omega)
    have hstored : (Loop.upTo copyNextLine n s).maxStoredLines = s.maxStoredLines := by rw [heq]
    rw [Loop.upTo, copyNextLine_row hok (by omega) hy (by omega), ih (by omega) hy hylt,
      ih (by omega) (y := n + 1) (by omega) (by omega), if_neg (c := (n : Int) + 1 < n) (by omega)]
    by_cases hlast : y = n
    · subst hlast
      rw [if_pos rfl, if_pos (by omega)]
    · rw [if_neg hlast]
      exact if_congr (by omega) rfl rfl

theorem dropOldLine_rows {s : Screen} (h : s.CellsOk) (hlast : s.cursorAtY = s.maxStoredLines)
    (hpos : 0 < s.maxStoredLines) :
    s.dropOldLine.cursorAtY = s.cursorAtY - 1 ∧
      ∀ y, 0 ≤ y → y < s.cursorAtY - 1 → s.dropOldLine.row y = s.row (y + 1) := by
  unfold dropOldLine
  rw [if_pos (Int.le_of_eq hlast.symm)]
  refine ⟨rfl, fun y h0 hlt => ?_⟩
  have hcopied := copyLines_row h (n := (s.maxStoredLines - 1).toNat) (by omega) h0 (by omega)
  rw [if_pos (by omega)] at hcopied
  refine Eq.trans (row_congr (if_neg ?_) fun x _ _ => rfl) hcopied
  show y ≠ s.cursorAtY - 1
  omega

/-- A line break keeps the lines, or drops the oldest if the cursor was in the last. -/
theorem newline_rows {s : Screen} (h : s.InLines) :
    (s.cursorAtY + 1 < s.maxStoredLines ∧ s.newline.cursorAtY = s.cursorAtY + 1 ∧
        ∀ y, 0 ≤ y → y ≤ s.cursorAtY → s.newline.row y = s.row y) ∨
      (s.cursorAtY + 1 = s.maxStoredLines ∧ s.newline.cursorAtY = s.cursorAtY ∧
        ∀ y, 0 ≤ y → y < s.cursorAtY → s.newline.row y = s.row (y + 1)) := by
  have hY := h.cursorAtY_nonneg
  have hlt := h.cursorAtY_lt
  obtain ⟨y, cells, amounts, written, lines, start, heq, -⟩ := nextLine_dropOldLine h
  obtain ⟨start', hscroll⟩ := scrollUp_eq (s := s.nextLine.dropOldLine) (by
    rw [heq]
    exact h.notRedrawing)
  have hredrawn := hscroll.trans (updateCursorRender_redrawn _)
  rw [← newline_of_buffered h] at hredrawn
  have hrow : ∀ y, s.newline.row y = s.nextLine.dropOldLine.row y := fun y => hredrawn.row y
  have hcursor : s.newline.cursorAtY = s.nextLine.dropOldLine.cursorAtY := hredrawn.cursorAtY
  by_cases hlast : s.cursorAtY + 1 < s.maxStoredLines
  · have hkeep : s.nextLine.dropOldLine = s.nextLine :=
      if_neg (by show ¬ s.cursorAtY + 1 ≥ s.maxStoredLines; omega)
    rw [hkeep] at hrow hcursor
    exact .inl ⟨hlast, hcursor, fun y _ _ => hrow y⟩
  · obtain ⟨hdropCursor, hdropRow⟩ := dropOldLine_rows (s := s.nextLine)
      ⟨h.amount_nonneg, h.amount_le, h.written⟩
      (by show s.cursorAtY + 1 = s.maxStoredLines; omega)
      (by show 0 < s.maxStoredLines; omega)
    refine .inr ⟨by omega, ?_, fun y h0 hylt => ?_⟩
    · rw [hcursor, hdropCursor]
      show s.cursorAtY + 1 - 1 = s.cursorAtY
      omega
    · rw [hrow, hdropRow y h0 (by show y < s.cursorAtY + 1 - 1; omega)]
      rfl

/-- A character does not change the other lines. -/
theorem row_typed_of_ne {s : Screen} (h : s.Printing) {y : Int} (hy : 0 ≤ y)
    (hlt : y < s.maxStoredLines) (hne : y ≠ s.cursorAtY) (c : Cell) :
    (s.typed c).row y = s.row y := by
  have hle := h.amount_le y hy hlt
  rw [typed, putCell_of_le h.amount_le_cursorAtX]
  refine row_congr (if_neg hne) fun x h0 hx => ?_
  refine (cell_setCell h.cursorAtX_nonneg h.cursorAtX_lt h0 (by omega) c).trans ?_
  exact if_neg fun h => hne h.1

/-! ## Simulation -/

/-- The first `n` lines of the buffer. -/
def rowsTo (s : Screen) (n : Nat) : List (List Cell) := (List.range n).map fun y : Nat => s.row y

theorem rowsTo_succ (s : Screen) (n : Nat) : s.rowsTo (n + 1) = s.rowsTo n ++ [s.row n] := by
  rw [rowsTo, List.range_succ, List.map_append]
  rfl

theorem rowsTo_congr {s s' : Screen} {n : Nat} (h : ∀ y : Int, 0 ≤ y → y < n → s'.row y = s.row y) :
    s'.rowsTo n = s.rowsTo n :=
  List.map_congr_left fun y hy => h y (by omega) (by exact_mod_cast List.mem_range.mp hy)

/-- The lines of a buffer of `N` lines of `W` columns are the last of the transcript. -/
structure Mirrors (W N : Int) (s : Screen) (t : Transcript Cell) : Prop where
  inLines : s.InLines
  atEnd : s.AtEnd
  maxChars : s.maxChars = W
  stored : s.maxStoredLines = N
  above : s.rowsTo s.cursorAtY.toNat = t.finished.rtake (N - 1).toNat
  current : s.row s.cursorAtY = t.current

namespace Mirrors

variable {W N : Int} {s : Screen} {t : Transcript Cell}

/-- All lines up to the cursor's. -/
theorem rowsTo_cursor (h : s.Mirrors W N t) :
    s.rowsTo (s.cursorAtY.toNat + 1) = t.finished.rtake (N - 1).toNat ++ [t.current] := by
  have hY := h.inLines.cursorAtY_nonneg
  rw [rowsTo_succ, h.above, Int.toNat_of_nonneg hY, h.current]

/-- The number of lines above the cursor. -/
theorem length_above (h : s.Mirrors W N t) :
    s.cursorAtY.toNat = min (N - 1).toNat t.finished.length := by
  rw [← List.length_rtake, ← h.above, rowsTo, List.length_map, List.length_range]

theorem newline (h : s.Mirrors W N t) : s.newline.Mirrors W N t.breakLine := by
  have hY := h.inLines.cursorAtY_nonneg
  have hlength := h.length_above
  have hstored := h.stored
  have hnewStored : s.newline.maxStoredLines = s.maxStoredLines := by
    obtain ⟨y, cells, amounts, written, lines, start, -, -, -, -, rx, ry, d, heq⟩ :=
      newline_eq h.inLines
    rw [heq]
  obtain ⟨hprint, hend⟩ := newline_spec h.inLines
  refine ⟨hprint.toInLines, hend, (maxChars_newline h.inLines).trans h.maxChars,
    hnewStored.trans h.stored, ?_, row_of_empty (newline_empty h.inLines)⟩
  show _ = (t.finished ++ [t.current]).rtake (N - 1).toNat
  rcases newline_rows h.inLines with ⟨hroom, hcursor, hrow⟩ | ⟨hfull, hcursor, hrow⟩
  · have hnat : s.newline.cursorAtY.toNat = s.cursorAtY.toNat + 1 := by omega
    rw [hnat, rowsTo_congr fun y h0 hlt => hrow y h0 (by omega), h.rowsTo_cursor,
      List.rtake_concat_of_lt (by omega)]
  · have htail : s.newline.rowsTo s.newline.cursorAtY.toNat =
        (s.rowsTo (s.cursorAtY.toNat + 1)).tail := by
      rw [hcursor, rowsTo, rowsTo, List.range_succ_eq_map, List.map_cons, List.tail_cons,
        List.map_map]
      refine List.map_congr_left fun y hy => ?_
      rw [List.mem_range] at hy
      exact hrow y (by omega) (by omega)
    rw [htail, h.rowsTo_cursor, List.rtake_concat_of_full (by omega)]

theorem redrawn {s' : Screen} (h : s.Mirrors W N t) (h' : Redrawn s s') : s'.Mirrors W N t := by
  have hlines := h'.inLines h.inLines
  obtain ⟨x, y, d, rfl⟩ := h'
  exact ⟨hlines, h.atEnd, h.maxChars, h.stored, h.above, h.current⟩

/-- A cell behind the current line. -/
theorem printed (h : s.Mirrors W N t) (hprint : s.Printing) (c : UInt8) (color : Color)
    (interactable : Bool) :
    (s.printed c color interactable).Mirrors W N
        { t with current := t.current ++ [⟨color, c, interactable⟩] } ∧
      (s.printed c color interactable).cursorAtX = s.cursorAtX + 1 := by
  have hredrawn := printed_redrawn hprint.buffered hprint.notRedrawing c color interactable
  obtain ⟨hlines, hend⟩ := typed_inLines hprint ⟨color, c, interactable⟩
  have hrow := row_typed hprint h.atEnd ⟨color, c, interactable⟩
  have hother : ∀ y, 0 ≤ y → y < s.cursorAtY →
      (s.typed ⟨color, c, interactable⟩).row y = s.row y := fun y h0 hlt =>
    row_typed_of_ne hprint h0 (Int.lt_trans hlt hprint.cursorAtY_lt) (Int.ne_of_lt hlt) _
  have htyped : (s.typed ⟨color, c, interactable⟩).maxChars = s.maxChars ∧
      (s.typed ⟨color, c, interactable⟩).maxStoredLines = s.maxStoredLines ∧
      (s.typed ⟨color, c, interactable⟩).cursorAtY = s.cursorAtY := by
    rw [typed, putCell_of_le hprint.amount_le_cursorAtX]
    exact ⟨rfl, rfl, rfl⟩
  have hmirrors : (s.typed ⟨color, c, interactable⟩).Mirrors W N
      { t with current := t.current ++ [⟨color, c, interactable⟩] } := by
    refine ⟨hlines, hend, htyped.1.trans h.maxChars, htyped.2.1.trans h.stored, ?_, ?_⟩
    · rw [htyped.2.2, rowsTo_congr fun y h0 hlt => hother y h0 (by omega)]
      exact h.above
    · rw [htyped.2.2, hrow, h.current]
  exact ⟨hmirrors.redrawn hredrawn, hredrawn.cursorAtX⟩

/-- A character, and the line break behind a full line. -/
theorem printChar (h : s.Mirrors W N t) (hprint : s.Printing) (c : UInt8) (color : Color)
    (interactable : Bool) :
    (s.printChar c color interactable).Mirrors W N (t.put W.toNat ⟨color, c, interactable⟩) := by
  obtain ⟨hprinted, hX⟩ := h.printed hprint c color interactable
  have hW : (s.printed c color interactable).maxChars = W := hprinted.maxChars
  have hlength : (t.current ++ [(⟨color, c, interactable⟩ : Cell)]).length =
      (s.printed c color interactable).cursorAtX.toNat := by
    have hcurrent := congrArg List.length hprinted.current
    rw [length_row, ← hprinted.atEnd] at hcurrent
    exact hcurrent.symm
  have hpos := hprint.maxChars_pos
  have hmax := h.maxChars
  have hX0 := hprint.cursorAtX_nonneg
  show (s.printed c color interactable).handleAutomaticNewline.Mirrors W N _
  unfold handleAutomaticNewline Transcript.put
  dsimp only
  rw [hlength]
  split
  · rw [if_pos (by omega)]
    exact hprinted.newline
  · rw [if_neg (by omega)]
    exact hprinted

end Mirrors

/-! ## Sequences of calls -/

/-- A character of a text in the transcript of `width` columns: carriage returns are dropped, and a
line feed starts a new line. -/
def writeTextChar (width : Nat) (color : Color) (interactable : Bool) (t : Transcript Cell)
    (c : UInt8) : Transcript Cell :=
  if c = 0x0D then t
  else if c = 0x0A then t.breakLine
  else t.put width ⟨color, c, interactable⟩

/-- What a call writes. `print_char` writes any character. -/
def write (width : Nat) (t : Transcript Cell) : TextCall → Transcript Cell
  | .printChar c color interactable => t.put width ⟨color, c, interactable⟩
  | .printChars text color interactable => text.foldl (writeTextChar width color interactable) t
  | .print text color => (text.foldl (writeTextChar width color false) t).breakLine
  | .newline => t.breakLine

theorem Mirrors.printTextChar {W N : Int} {s : Screen} {t : Transcript Cell} (h : s.Mirrors W N t)
    (hprint : s.Printing) (color : Color) (interactable : Bool) (c : UInt8) :
    (s.printTextChar color interactable c).Mirrors W N
      (writeTextChar W.toNat color interactable t c) := by
  unfold Screen.printTextChar writeTextChar
  split
  · exact h
  · split
    · exact h.newline
    · exact h.printChar hprint c color interactable

theorem Mirrors.printChars {W N : Int} {s : Screen} {t : Transcript Cell} (h : s.Mirrors W N t)
    (hprint : s.Printing) (text : CString) (color : Color) (interactable : Bool) :
    (s.printChars text color interactable).Mirrors W N
      (text.foldl (writeTextChar W.toNat color interactable) t) := by
  induction text generalizing s t with
  | nil => exact h
  | cons c text ih =>
    exact ih (h.printTextChar hprint color interactable c)
      (printTextChar_printing hprint color interactable c)

theorem Mirrors.run {W N : Int} {s : Screen} {t : Transcript Cell} (h : s.Mirrors W N t)
    (hprint : s.Printing) (call : TextCall) :
    (call.run s).Mirrors W N (write W.toNat t call) ∧ (call.run s).Printing := by
  cases call with
  | printChar c color interactable =>
    exact ⟨h.printChar hprint c color interactable, (printChar_spec hprint c color interactable).1⟩
  | printChars text color interactable =>
    exact ⟨h.printChars hprint text color interactable,
      printChars_printing hprint text color interactable⟩
  | print text color =>
    have hchars := h.printChars hprint text color false
    exact ⟨hchars.newline, (newline_spec hchars.inLines).1⟩
  | newline => exact ⟨h.newline, (newline_spec h.inLines).1⟩

theorem Mirrors.runs {W N : Int} {s : Screen} {t : Transcript Cell} (h : s.Mirrors W N t)
    (hprint : s.Printing) (calls : List TextCall) :
    (calls.foldl TextCall.run s).Mirrors W N (calls.foldl (write W.toNat) t) := by
  induction calls generalizing s t with
  | nil => exact h
  | cons call calls ih =>
    obtain ⟨hrun, hprint'⟩ := h.run hprint call
    exact ih hrun hprint'

/-! ## The first line -/

/-- Is the first that the calls write a character of the current line? -/
def writesFirst : List TextCall → Bool
  | [] => false
  | .printChar _ _ _ :: _ => true
  | .printChars text _ _ :: calls =>
    match text.dropWhile (· == 0x0D) with
    | [] => writesFirst calls
    | c :: _ => c != 0x0A
  | .print text _ :: _ =>
    match text.dropWhile (· == 0x0D) with
    | [] => false
    | c :: _ => c != 0x0A
  | .newline :: _ => false

/-- The transcript of an empty buffer whose cursor is in line `y`. -/
def emptyTranscript (y : Int) : Transcript Cell := ⟨List.replicate y.toNat [], []⟩

/-- What the calls add to, with the cursor in column `x` of line `y`: a character comes behind blank
cells, a line break leaves the line empty. -/
def startTranscript (x y : Int) (calls : List TextCall) : Transcript Cell :=
  if writesFirst calls then { emptyTranscript y with current := List.replicate x.toNat Cell.zero }
  else emptyTranscript y

/-- At the start of a line there is nothing to fill. -/
theorem startTranscript_zero (y : Int) (calls : List TextCall) :
    startTranscript 0 y calls = emptyTranscript y := by
  unfold startTranscript
  split <;> rfl

/-- The current line, filled up to the cursor. -/
def filled (s : Screen) : Screen := s.setAmountOfCells s.cursorAtY s.cursorAtX

/-- The cursor goes to the start of its line. -/
def atStart (s : Screen) : Screen := { s with cursorAtX := 0 }

theorem newline_atStart (s : Screen) : s.atStart.newline = s.newline := rfl

theorem printChar_filled {s : Screen} (h : s.Printing) (c : UInt8) (color : Color)
    (interactable : Bool) :
    s.filled.printChar c color interactable = s.printChar c color interactable := by
  have hput : s.filled.putCell ⟨color, c, interactable⟩ = s.putCell ⟨color, c, interactable⟩ := by
    have hfilled : s.filled.amountOfCells s.cursorAtY ≤ s.filled.cursorAtX :=
      Int.le_of_eq (if_pos rfl)
    rw [putCell_of_le h.amount_le_cursorAtX, putCell_of_le (s := s.filled) hfilled]
    refine congrArg (fun amounts => { s.setCell s.cursorAtY s.cursorAtX ⟨color, c, interactable⟩ with
      amountOfCells := amounts }) (funext fun y => ?_)
    show (if y = s.cursorAtY then s.cursorAtX + 1
      else if y = s.cursorAtY then s.cursorAtX else s.amountOfCells y) =
      if y = s.cursorAtY then s.cursorAtX + 1 else s.amountOfCells y
    by_cases hy : y = s.cursorAtY
    · rw [if_pos hy, if_pos hy]
    · rw [if_neg hy, if_neg hy, if_neg hy]
  have hstores : ∀ {s' : Screen}, s'.useScreenBuffer = true → s'.isRedrawing = false →
      s'.drawChar c s.cursorAtX s.cursorAtY color interactable =
        drawGlyph c s.cursorAtX s.cursorAtY color (s'.putCell ⟨color, c, interactable⟩) :=
    fun hbuf hredraw => by
      rw [drawChar, if_pos (by rw [hbuf, hredraw]; rfl)]
  have hdraw : s.filled.drawChar c s.filled.cursorAtX s.filled.cursorAtY color interactable =
      s.drawChar c s.cursorAtX s.cursorAtY color interactable := by
    rw [hstores h.buffered h.notRedrawing, ← hput]
    exact hstores h.buffered h.notRedrawing
  rw [printChar, printChar, hdraw]

theorem printChars_dropCarriageReturns (s : Screen) (text : CString) (color : Color)
    (interactable : Bool) :
    s.printChars text color interactable =
      s.printChars (text.dropWhile (· == 0x0D)) color interactable := by
  induction text with
  | nil => rfl
  | cons c text ih =>
    by_cases hc : c = 0x0D
    · subst hc
      exact ih
    · rw [List.dropWhile_cons_of_neg (by rwa [beq_iff_eq])]

/-- The first character of a text behind the carriage returns. -/
theorem printChars_start {s : Screen} (h : s.Printing) {text rest : CString} {c : UInt8}
    (htext : text.dropWhile (· == 0x0D) = c :: rest) (color : Color) (interactable : Bool) :
    s.printChars text color interactable =
      (if c != 0x0A then s.filled else s.atStart).printChars text color interactable := by
  have hc : c ≠ 0x0D := fun hc =>
    List.dropWhile_get_zero_not (· == 0x0D) text (by rw [htext]; exact Nat.succ_pos _)
      (by simp [htext, hc])
  rw [printChars_dropCarriageReturns s,
    printChars_dropCarriageReturns (if c != 0x0A then s.filled else s.atStart), htext]
  show rest.foldl _ (s.printTextChar color interactable c) =
    rest.foldl _ (printTextChar color interactable _ c)
  congr 1
  unfold printTextChar
  rw [if_neg hc, if_neg hc]
  by_cases hfeed : c = 0x0A
  · rw [if_pos hfeed, if_pos hfeed, if_neg (by simp [hfeed])]
    exact s.newline_atStart.symm
  · rw [if_neg hfeed, if_neg hfeed, if_pos (by simp [hfeed])]
    exact (printChar_filled h c color interactable).symm

/-- A character that comes first fills the line up to the cursor, a line break leaves it empty. -/
def StartsInLine (s : Screen) (calls : List TextCall) : Prop :=
  if writesFirst calls then
    calls.foldl TextCall.run s = calls.foldl TextCall.run s.filled
  else ∃ x, calls.foldl TextCall.run s = { calls.foldl TextCall.run s.atStart with cursorAtX := x }

/-- Carriage returns leave it to the calls behind them. -/
theorem startsInLine_printChars {s : Screen} (h : s.Printing) (text : CString) (color : Color)
    (interactable : Bool) {calls : List TextCall} (hcalls : s.StartsInLine calls) :
    s.StartsInLine (.printChars text color interactable :: calls) := by
  unfold StartsInLine writesFirst
  rw [List.foldl_cons, List.foldl_cons, List.foldl_cons]
  cases htext : text.dropWhile (· == 0x0D) with
  | nil =>
    have hskip : ∀ s' : Screen, s'.printChars text color interactable = s' := fun s' => by
      rw [printChars_dropCarriageReturns, htext]
      rfl
    simp only [TextCall.run, hskip]
    exact hcalls
  | cons c rest =>
    have hstart := printChars_start h htext color interactable
    simp only [TextCall.run]
    split
    · rename_i hc
      rw [hstart, if_pos hc]
    · rename_i hc
      rw [hstart, if_neg hc]
      exact ⟨_, rfl⟩

theorem startsInLine {s : Screen} (h : s.Printing) (calls : List TextCall) :
    s.StartsInLine calls := by
  have hnewline : ∀ calls, s.StartsInLine (.newline :: calls) := fun _ => ⟨_, rfl⟩
  induction calls with
  | nil => exact ⟨s.cursorAtX, rfl⟩
  | cons call calls ih =>
    cases call with
    | printChar c color interactable =>
      exact congrArg (calls.foldl TextCall.run) (printChar_filled h c color interactable).symm
    | printChars text color interactable => exact startsInLine_printChars h text color interactable ih
    | print text color =>
      -- `print` is `print_chars` and a line break.
      exact startsInLine_printChars h text color false (hnewline calls)
    | newline => exact hnewline calls

theorem initScreenBuffer_empty (s : Screen) {y : Int} (hy : 0 ≤ y)
    (hlt : y < s.maxLines + scrollHistoryLines) :
    s.initScreenBuffer.amountOfCells y = 0 ∧
      ∀ x, 0 ≤ x → x < s.maxChars → s.initScreenBuffer.cell y x = Cell.zero := by
  refine ⟨if_pos ⟨hy, hlt⟩, fun x h0 hx => if_pos ?_⟩
  have hpos : 0 ≤ y * s.maxChars := Int.mul_nonneg hy (by omega)
  have hend : (y + 1) * s.maxChars ≤ (s.maxLines + scrollHistoryLines) * s.maxChars :=
    Int.mul_le_mul_of_nonneg_right (by omega) (by omega)
  rw [Int.add_mul, Int.one_mul] at hend
  show 0 ≤ y * s.maxChars + x ∧
    y * s.maxChars + x < (s.maxLines + scrollHistoryLines) * s.maxChars
  omega

theorem Early.above {s : Screen} (h : s.Early) :
    s.initScreenBuffer.rowsTo s.cursorAtY.toNat = (emptyTranscript s.cursorAtY).finished.rtake
      (s.maxLines + scrollHistoryLines - 1).toNat := by
  have hY := h.cursorAtY_nonneg
  have hlt := h.cursorAtY_lt
  refine Eq.trans (List.eq_replicate_iff.mpr ⟨?_, fun l hl => ?_⟩)
    (List.rtake_of_length_le ?_).symm
  · rw [rowsTo, List.length_map, List.length_range]
  · obtain ⟨y, hy, rfl⟩ := List.mem_map.mp hl
    rw [List.mem_range] at hy
    exact row_of_empty (s.initScreenBuffer_empty (by omega) (by omega)).1
  · show (List.replicate s.cursorAtY.toNat []).length ≤ _
    rw [List.length_replicate]
    omega

/-- Before a line break. -/
theorem Early.mirrors_atStart {s : Screen} (h : s.Early) :
    s.initScreenBuffer.atStart.Mirrors s.maxChars (s.maxLines + scrollHistoryLines)
      (emptyTranscript s.cursorAtY) := by
  have hempty := (s.initScreenBuffer_empty h.cursorAtY_nonneg h.cursorAtY_lt).1
  have hlines := h.printing.toInLines
  exact ⟨⟨⟨hlines.amount_nonneg, hlines.amount_le, hlines.written⟩, rfl, h.notRedrawing,
    hlines.maxChars_pos, rfl, hlines.cursorAtY_nonneg, hlines.cursorAtY_lt, hlines.below⟩,
    hempty.symm, rfl, rfl, h.above, row_of_empty hempty⟩

/-- Before a character. -/
theorem Early.mirrors_filled {s : Screen} (h : s.Early) :
    s.initScreenBuffer.filled.Mirrors s.maxChars (s.maxLines + scrollHistoryLines)
      { emptyTranscript s.cursorAtY with
        current := List.replicate s.cursorAtX.toNat Cell.zero } := by
  have hX := h.cursorAtX_nonneg
  have hXlt := h.cursorAtX_lt
  have hprint := h.printing
  have hempty := fun y => s.initScreenBuffer_empty (y := y)
  have hamount : ∀ y, s.initScreenBuffer.filled.amountOfCells y =
      if y = s.cursorAtY then s.cursorAtX else s.initScreenBuffer.amountOfCells y := fun _ => rfl
  have hcurrent : s.initScreenBuffer.filled.amountOfCells s.cursorAtY = s.cursorAtX := if_pos rfl
  have hlines : s.initScreenBuffer.filled.InLines := by
    refine ⟨⟨fun y h0 hy => ?_, fun y h0 hy => ?_, hprint.written⟩, rfl, h.notRedrawing,
      hprint.maxChars_pos, rfl, h.cursorAtY_nonneg, h.cursorAtY_lt, fun y hlt hy => ?_⟩
    · rw [hamount, (hempty y h0 hy).1]
      split <;> omega
    · rw [hamount, (hempty y h0 hy).1]
      show (if y = s.cursorAtY then s.cursorAtX else 0) ≤ s.maxChars
      split <;> omega
    · have hlt' : s.cursorAtY < y := hlt
      rw [hamount, if_neg (by omega)]
      exact hprint.below y hlt hy
  refine ⟨hlines, hcurrent.symm, rfl, rfl, ?_, ?_⟩
  · refine Eq.trans (rowsTo_congr fun y h0 hy => ?_) h.above
    have hne : y ≠ s.cursorAtY := by
      have hlt : y < (s.cursorAtY.toNat : Int) := hy
      omega
    exact row_congr (if_neg hne) fun _ _ _ => rfl
  · refine List.eq_replicate_iff.mpr ⟨?_, fun c hc => ?_⟩
    · rw [length_row]
      exact congrArg Int.toNat hcurrent
    · obtain ⟨i, hi, rfl⟩ := List.mem_map.mp hc
      rw [List.mem_range] at hi
      have hi' : i < (s.initScreenBuffer.filled.amountOfCells s.cursorAtY).toNat := hi
      rw [hcurrent] at hi'
      exact (hempty _ h.cursorAtY_nonneg h.cursorAtY_lt).2 _ (by omega) (by omega)

/-- The lines of the buffer are the last of the transcript, and all of them as long as there are no
more than the buffer holds. -/
theorem Mirrors.rows {W N : Int} {s : Screen} {t : Transcript Cell} (h : s.Mirrors W N t) :
    s.rowsTo (s.cursorAtY.toNat + 1) = t.lines.rtake (s.cursorAtY.toNat + 1) ∧
      s.cursorAtY + 1 = min (t.lines.length : Int) s.maxStoredLines := by
  have hY := h.inLines.cursorAtY_nonneg
  have hlt := h.inLines.cursorAtY_lt
  have hstored := h.stored
  have hlength := h.length_above
  constructor
  · rw [h.rowsTo_cursor, Transcript.lines_rtake, List.length_rtake, ← hlength]
  · rw [Transcript.lines, List.length_append, List.length_singleton]
    omega

/-- From an empty buffer on, with the cursor anywhere, the lines up to the cursor's are the last of the
transcript, and all of them as long as there are no more than the buffer holds. -/
theorem calls_mirror {s : Screen} (h : s.Early) (calls : List TextCall) :
    let s' := calls.foldl TextCall.run s.initScreenBuffer
    let t := calls.foldl (write s.maxChars.toNat) (startTranscript s.cursorAtX s.cursorAtY calls)
    s'.rowsTo (s'.cursorAtY.toNat + 1) = t.lines.rtake (s'.cursorAtY.toNat + 1) ∧
      s'.cursorAtY + 1 = min (t.lines.length : Int) s'.maxStoredLines := by
  intro s' t
  have hstart := startsInLine h.printing calls
  unfold StartsInLine at hstart
  split at hstart
  · rename_i hfirst
    have ht : t = calls.foldl (write s.maxChars.toNat) { emptyTranscript s.cursorAtY with
        current := List.replicate s.cursorAtX.toNat Cell.zero } := by
      show calls.foldl _ (startTranscript _ _ _) = _
      rw [startTranscript, if_pos hfirst]
    have hprint : s.initScreenBuffer.filled.Printing :=
      ⟨h.mirrors_filled.inLines, Int.le_of_eq (if_pos rfl), h.cursorAtX_lt⟩
    rw [show s' = _ from hstart, ht]
    exact (h.mirrors_filled.runs hprint calls).rows
  · rename_i hfirst
    obtain ⟨x, hx⟩ := hstart
    have ht : t = calls.foldl (write s.maxChars.toNat) (emptyTranscript s.cursorAtY) := by
      show calls.foldl _ (startTranscript _ _ _) = _
      rw [startTranscript, if_neg hfirst]
    have hprint : s.initScreenBuffer.atStart.Printing :=
      ⟨h.mirrors_atStart.inLines, Int.le_of_eq h.mirrors_atStart.atEnd.symm,
        h.printing.maxChars_pos⟩
    rw [show s' = _ from hx, ht]
    exact (h.mirrors_atStart.runs hprint calls).rows

/-- From the kernel's own start on: `init_screen_buffer` is called behind the 27 characters that
`printLoadingStart` prints in the second line. -/
theorem calls_mirror_80x25 :
    let calls := [TextCall.printChars (literal " [OK]") .white false, .newline,
      .print (literal "ESZ") .white, .print (literal "OS") .white]
    let s' := calls.foldl TextCall.run
      { Screen.initPrint 80 25 with cursorAtX := 27, cursorAtY := 1 }.initScreenBuffer
    let t := calls.foldl (write 80) (startTranscript 27 1 calls)
    s'.rowsTo (s'.cursorAtY.toNat + 1) = t.lines.rtake (s'.cursorAtY.toNat + 1) ∧
      s'.cursorAtY + 1 = min (t.lines.length : Int) s'.maxStoredLines :=
  calls_mirror (s := { Screen.initPrint 80 25 with cursorAtX := 27, cursorAtY := 1 })
    ⟨rfl, by decide, by decide, by decide, by decide, rfl⟩ _

/-- What a call writes if `print_char` reads its character like one of a text. -/
def writeAsText (width : Nat) (t : Transcript Cell) : TextCall → Transcript Cell
  | .printChar c color interactable => writeTextChar width color interactable t c
  | call => write width t call

/-- A line feed that `print_char` is given is a cell of its line. -/
theorem printChar_lineFeed :
    let s' := [TextCall.printChar 0x0A .white false].foldl TextCall.run
      (Screen.initPrint 80 25).initScreenBuffer
    let t := [TextCall.printChar 0x0A .white false].foldl (writeAsText 80) (emptyTranscript 0)
    s'.rowsTo (s'.cursorAtY.toNat + 1) ≠ t.lines.rtake (s'.cursorAtY.toNat + 1) := by
  decide

end Screen

end EszOs
