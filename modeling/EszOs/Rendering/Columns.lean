import EszOs.Rendering.Print

/-!
# Printing stays in the lines

`Screen.InLines` says that every stored cell so far lies in its line of the buffer, that no line has
more cells than columns, and that the lines below the cursor are empty. `Screen.Printing` adds that
the cursor is in a column and not before the end of its line, where the next character goes.

* `runAll_printing`: every sequence of printing calls keeps both.
* `runAll_atEnd`: it keeps the cursor right at the end of its line.
-/

namespace EszOs

namespace Screen

/-! ## Invariants -/

/-- A column of line `p.1` of the buffer. -/
def InLine (s : Screen) (p : Int × Int) : Prop :=
  0 ≤ p.1 ∧ p.1 < s.maxStoredLines ∧ 0 ≤ p.2 ∧ p.2 < s.maxChars

/-- The lines and the stores so far. -/
structure CellsOk (s : Screen) : Prop where
  amount_nonneg : ∀ y, 0 ≤ y → y < s.maxStoredLines → 0 ≤ s.amountOfCells y
  amount_le : ∀ y, 0 ≤ y → y < s.maxStoredLines → s.amountOfCells y ≤ s.maxChars
  written : ∀ p ∈ s.written, s.InLine p

structure InLines (s : Screen) : Prop extends CellsOk s where
  buffered : s.useScreenBuffer = true
  notRedrawing : s.isRedrawing = false
  maxChars_pos : 0 < s.maxChars
  stored : s.maxStoredLines = s.maxLines + scrollHistoryLines
  cursorAtY_nonneg : 0 ≤ s.cursorAtY
  cursorAtY_lt : s.cursorAtY < s.maxStoredLines
  below : ∀ y, s.cursorAtY < y → y < s.maxStoredLines → s.amountOfCells y = 0

/-- The next character does not overwrite one of the line. -/
structure Printing (s : Screen) : Prop extends InLines s where
  amount_le_cursorAtX : s.amountOfCells s.cursorAtY ≤ s.cursorAtX
  cursorAtX_lt : s.cursorAtX < s.maxChars

/-- The next character goes right behind the last one. -/
def AtEnd (s : Screen) : Prop := s.cursorAtX = s.amountOfCells s.cursorAtY

theorem InLines.amount_cursor_nonneg {s : Screen} (h : s.InLines) :
    0 ≤ s.amountOfCells s.cursorAtY := h.amount_nonneg _ h.cursorAtY_nonneg h.cursorAtY_lt

theorem InLines.amount_cursor_le {s : Screen} (h : s.InLines) :
    s.amountOfCells s.cursorAtY ≤ s.maxChars := h.amount_le _ h.cursorAtY_nonneg h.cursorAtY_lt

theorem Printing.cursorAtX_nonneg {s : Screen} (h : s.Printing) : 0 ≤ s.cursorAtX :=
  Int.le_trans h.amount_cursor_nonneg h.amount_le_cursorAtX

/-! ## Stores and drawing -/

theorem CellsOk.setCell {s : Screen} (h : s.CellsOk) {y x : Int} (hin : s.InLine (y, x))
    (c : Cell) : (s.setCell y x c).CellsOk where
  amount_nonneg := h.amount_nonneg
  amount_le := h.amount_le
  written := List.forall_mem_cons.mpr ⟨hin, h.written⟩

theorem CellsOk.setAmountOfCells {s : Screen} (h : s.CellsOk) {n : Int} (y : Int) (hn : 0 ≤ n)
    (hle : n ≤ s.maxChars) : (s.setAmountOfCells y n).CellsOk where
  amount_nonneg := fun y' h1 h2 => by
    rw [amountOfCells_setAmountOfCells]
    split
    · exact hn
    · exact h.amount_nonneg y' h1 h2
  amount_le := fun y' h1 h2 => by
    rw [amountOfCells_setAmountOfCells]
    split
    · exact hle
    · exact h.amount_le y' h1 h2
  written := h.written

theorem Redrawn.cursorAtX {s s' : Screen} (h : Redrawn s s') : s'.cursorAtX = s.cursorAtX := by
  obtain ⟨x, y, d, rfl⟩ := h
  rfl

theorem Redrawn.cursorAtY {s s' : Screen} (h : Redrawn s s') : s'.cursorAtY = s.cursorAtY := by
  obtain ⟨x, y, d, rfl⟩ := h
  rfl

theorem Redrawn.row {s s' : Screen} (h : Redrawn s s') (y : Int) : s'.row y = s.row y := by
  obtain ⟨x, y', d, rfl⟩ := h
  rfl

theorem Redrawn.maxChars {s s' : Screen} (h : Redrawn s s') : s'.maxChars = s.maxChars := by
  obtain ⟨x, y, d, rfl⟩ := h
  rfl

theorem Redrawn.inLines {s s' : Screen} (h : Redrawn s s') (hs : s.InLines) : s'.InLines := by
  obtain ⟨x, y, d, rfl⟩ := h
  exact ⟨⟨hs.amount_nonneg, hs.amount_le, hs.written⟩, hs.buffered, hs.notRedrawing,
    hs.maxChars_pos, hs.stored, hs.cursorAtY_nonneg, hs.cursorAtY_lt, hs.below⟩

theorem Redrawn.printing {s s' : Screen} (h : Redrawn s s') (hs : s.Printing) : s'.Printing := by
  refine ⟨h.inLines hs.toInLines, ?_, ?_⟩
  · obtain ⟨x, y, d, rfl⟩ := h
    exact hs.amount_le_cursorAtX
  · obtain ⟨x, y, d, rfl⟩ := h
    exact hs.cursorAtX_lt

theorem Redrawn.atEnd {s s' : Screen} (h : Redrawn s s') (hs : s.AtEnd) : s'.AtEnd := by
  obtain ⟨x, y, d, rfl⟩ := h
  exact hs

/-! ## Line breaks -/

/-- Copying lines up changes cells only, inside their lines. -/
theorem copyLines_spec {s : Screen} (h : s.CellsOk) {n : Nat} (hn : n + 1 ≤ s.maxStoredLines) :
    ∃ cells amounts written,
      Loop.upTo copyNextLine n s =
        { s with cellBlock := cells, amountOfCells := amounts, written := written } ∧
      (Loop.upTo copyNextLine n s).CellsOk := by
  refine Loop.upTo_induct (P := fun s' => ∃ cells amounts written,
      s' = { s with cellBlock := cells, amountOfCells := amounts, written := written } ∧
      s'.CellsOk) (fun line s' hline hs' => ?_) ⟨_, _, _, rfl, h⟩
  obtain ⟨cells, amounts, written, heq, hok⟩ := hs'
  have hstored : s'.maxStoredLines = s.maxStoredLines := by rw [heq]
  have hamount := hok.amount_le (line + 1) (by omega) (by omega)
  have hnonneg := hok.amount_nonneg (line + 1) (by omega) (by omega)
  refine Loop.upTo_induct (P := fun t => ∃ cells amounts written,
      t = { s with cellBlock := cells, amountOfCells := amounts, written := written } ∧
      t.CellsOk) (fun i t hi ht => ?_) ?_
  · obtain ⟨cells', amounts', written', rfl, hok'⟩ := ht
    refine ⟨_, _, _, rfl, hok'.setCell ⟨by omega, ?_, by omega, ?_⟩ _⟩
    · show (line : Int) < s.maxStoredLines
      omega
    · show (i : Int) < s.maxChars
      rw [heq] at hamount
      dsimp only at hamount
      rw [heq] at hi
      dsimp only at hi
      omega
  · subst heq
    exact ⟨_, _, _, rfl, hok.setAmountOfCells line hnonneg hamount⟩

/-- After the drop, the cursor is in a stored line, and this line and those below are empty. -/
theorem dropOldLine_spec {s : Screen} (h : s.CellsOk) (hY : 0 ≤ s.cursorAtY)
    (hle : s.cursorAtY ≤ s.maxStoredLines) (hpos : 0 < s.maxStoredLines)
    (hbelow : ∀ y, s.cursorAtY ≤ y → y < s.maxStoredLines → s.amountOfCells y = 0) :
    ∃ y cells amounts written lines start,
      s.dropOldLine = { s with
        cursorAtY := y, cellBlock := cells, amountOfCells := amounts, written := written,
        amountOfLines := lines, startRenderLine := start } ∧
      s.dropOldLine.CellsOk ∧ 0 ≤ y ∧ y < s.maxStoredLines ∧
      ∀ y', y ≤ y' → y' < s.maxStoredLines → amounts y' = 0 := by
  unfold dropOldLine
  by_cases hlast : s.cursorAtY ≥ s.maxStoredLines
  · rw [if_pos hlast]
    obtain ⟨cells, amounts, written, heq, hok⟩ :=
      copyLines_spec h (n := (s.maxStoredLines - 1).toNat) (by omega)
    have hok' := hok.setAmountOfCells (s.cursorAtY - 1) (Int.le_refl 0)
      (by have := h.amount_le 0 (Int.le_refl 0) hpos
          have := h.amount_nonneg 0 (Int.le_refl 0) hpos
          rw [heq]; dsimp only; omega)
    rw [heq] at hok' ⊢
    refine ⟨s.cursorAtY - 1, cells, _, written, _, _, rfl,
      ⟨hok'.amount_nonneg, hok'.amount_le, hok'.written⟩, by omega, by omega, fun y' h1 h2 => ?_⟩
    exact if_pos (by omega)
  · rw [if_neg hlast]
    exact ⟨_, _, _, _, _, _, rfl, h, hY, by omega, hbelow⟩

theorem scrollUp_eq {s : Screen} (h : s.isRedrawing = false) :
    ∃ start, Redrawn { s with startRenderLine := start } s.scrollUp := by
  unfold scrollUp
  split
  · exact ⟨_, redraw_redrawn (s := { s with startRenderLine := s.startRenderLine + 1 }) h⟩
  · exact ⟨_, Redrawn.refl s⟩

/-- The cursor at the start of the next line. -/
def nextLine (s : Screen) : Screen :=
  { s with
    amountOfLines :=
      if s.useScreenBuffer && !s.isRedrawing then s.amountOfLines + 1 else s.amountOfLines
    cursorAtX := 0
    cursorAtY := s.cursorAtY + 1 }

theorem newline_of_buffered {s : Screen} (h : s.InLines) :
    s.newline = s.nextLine.dropOldLine.scrollUp.updateCursorRender := by
  show handleScroll s.nextLine = _
  rw [handleScroll, if_neg (by simp [nextLine, h.buffered, h.notRedrawing])]

/-- The line of the cursor and those below it are empty after the first part of `handle_scroll`. -/
theorem nextLine_dropOldLine {s : Screen} (h : s.InLines) :
    ∃ y cells amounts written lines start,
      s.nextLine.dropOldLine = { s.nextLine with
        cursorAtY := y, cellBlock := cells, amountOfCells := amounts, written := written,
        amountOfLines := lines, startRenderLine := start } ∧
      s.nextLine.dropOldLine.CellsOk ∧ 0 ≤ y ∧ y < s.maxStoredLines ∧
      ∀ y', y ≤ y' → y' < s.maxStoredLines → amounts y' = 0 := by
  have hY := h.cursorAtY_nonneg
  have hlt := h.cursorAtY_lt
  exact dropOldLine_spec (s := s.nextLine) ⟨h.amount_nonneg, h.amount_le, h.written⟩
    (by show 0 ≤ s.cursorAtY + 1; omega)
    (by show s.cursorAtY + 1 ≤ s.maxStoredLines; omega)
    (by show 0 < s.maxStoredLines; omega)
    (fun y' h1 h2 => h.below y' (by change s.cursorAtY + 1 ≤ y' at h1; omega) h2)

/-- A line break from anywhere in a line: the cursor is at the start of an empty line. -/
theorem newline_eq {s : Screen} (h : s.InLines) :
    ∃ y cells amounts written lines start, 0 ≤ y ∧ y < s.maxStoredLines ∧
      (∀ y', y ≤ y' → y' < s.maxStoredLines → amounts y' = 0) ∧
      CellsOk { s with cellBlock := cells, amountOfCells := amounts, written := written } ∧
      Redrawn { s with
        cursorAtX := 0, cursorAtY := y, cellBlock := cells, amountOfCells := amounts
        written := written, amountOfLines := lines, startRenderLine := start } s.newline := by
  obtain ⟨y, cells, amounts, written, lines, start, heq, hok, hy, hylt, hempty⟩ :=
    nextLine_dropOldLine h
  rw [heq] at hok
  obtain ⟨start', hscroll⟩ := scrollUp_eq (s := s.nextLine.dropOldLine) (by
    rw [heq]
    exact h.notRedrawing)
  have hredrawn := hscroll.trans (updateCursorRender_redrawn _)
  rw [← newline_of_buffered h, heq] at hredrawn
  exact ⟨y, cells, amounts, written, lines, start', hy, hylt, hempty,
    ⟨hok.amount_nonneg, hok.amount_le, hok.written⟩, hredrawn⟩

theorem newline_spec {s : Screen} (h : s.InLines) : s.newline.Printing ∧ s.newline.AtEnd := by
  obtain ⟨y, cells, amounts, written, lines, start, hy, hylt, hempty, hok, hredrawn⟩ := newline_eq h
  refine ⟨hredrawn.printing ⟨⟨⟨hok.amount_nonneg, hok.amount_le, hok.written⟩, h.buffered,
    h.notRedrawing, h.maxChars_pos, h.stored, hy, hylt, fun y' h1 h2 =>
    hempty y' (Int.le_of_lt h1) h2⟩, ?_, h.maxChars_pos⟩, hredrawn.atEnd ?_⟩
  · exact Int.le_of_eq (hempty y (Int.le_refl y) hylt)
  · exact (hempty y (Int.le_refl y) hylt).symm

theorem maxChars_newline {s : Screen} (h : s.InLines) : s.newline.maxChars = s.maxChars := by
  obtain ⟨y, cells, amounts, written, lines, start, -, -, -, -, hredrawn⟩ := newline_eq h
  exact hredrawn.maxChars

/-! ## Characters -/

theorem putCell_of_le {s : Screen} (h : s.amountOfCells s.cursorAtY ≤ s.cursorAtX) (c : Cell) :
    s.putCell c =
      (s.setCell s.cursorAtY s.cursorAtX c).setAmountOfCells s.cursorAtY (s.cursorAtX + 1) :=
  if_pos (by omega)

theorem typed_inLines {s : Screen} (h : s.Printing) (c : Cell) :
    (s.typed c).InLines ∧ (s.typed c).AtEnd := by
  have hX := h.cursorAtX_nonneg
  have hlt := h.cursorAtX_lt
  rw [typed, putCell_of_le h.amount_le_cursorAtX]
  have hok := (h.setCell ⟨h.cursorAtY_nonneg, h.cursorAtY_lt, hX, hlt⟩ c).setAmountOfCells
    (n := s.cursorAtX + 1) s.cursorAtY (by omega) (by show _ ≤ s.maxChars; omega)
  refine ⟨⟨⟨hok.amount_nonneg, hok.amount_le, hok.written⟩, h.buffered, h.notRedrawing,
    h.maxChars_pos, h.stored, h.cursorAtY_nonneg, h.cursorAtY_lt, fun y h1 h2 => ?_⟩, ?_⟩
  · exact (if_neg (by change s.cursorAtY < y at h1; omega)).trans (h.below y h1 h2)
  · exact (if_pos rfl).symm

theorem printChar_spec {s : Screen} (h : s.Printing) (c : UInt8) (color : Color)
    (interactable : Bool) :
    (s.printChar c color interactable).Printing ∧ (s.printChar c color interactable).AtEnd := by
  obtain ⟨t, ht, heq⟩ := printChar_eq h.buffered h.notRedrawing c color interactable
  obtain ⟨htyped, hend⟩ := typed_inLines h ⟨color, c, interactable⟩
  have hin := ht.inLines htyped
  have hend' := ht.atEnd hend
  rw [heq, handleAutomaticNewline]
  split
  · exact newline_spec hin
  · exact ⟨⟨hin, Int.le_of_eq hend'.symm, by omega⟩, hend'⟩

theorem maxChars_printChar {s : Screen} (h : s.Printing) (c : UInt8) (color : Color)
    (interactable : Bool) : (s.printChar c color interactable).maxChars = s.maxChars := by
  obtain ⟨t, ht, heq⟩ := printChar_eq h.buffered h.notRedrawing c color interactable
  have hmax : t.maxChars = s.maxChars := by
    rw [ht.maxChars, typed, putCell_of_le h.amount_le_cursorAtX]
    rfl
  rw [heq, handleAutomaticNewline]
  split
  · rw [maxChars_newline (ht.inLines (typed_inLines h _).1), hmax]
  · exact hmax

theorem printTextChar_printing {s : Screen} (h : s.Printing) (color : Color) (interactable : Bool)
    (c : UInt8) : (s.printTextChar color interactable c).Printing := by
  unfold printTextChar
  split
  · exact h
  · split
    · exact (newline_spec h.toInLines).1
    · exact (printChar_spec h c color interactable).1

theorem printTextChar_atEnd {s : Screen} (h : s.Printing) (hend : s.AtEnd) (color : Color)
    (interactable : Bool) (c : UInt8) : (s.printTextChar color interactable c).AtEnd := by
  unfold printTextChar
  split
  · exact hend
  · split
    · exact (newline_spec h.toInLines).2
    · exact (printChar_spec h c color interactable).2

theorem printChars_printing {s : Screen} (h : s.Printing) (text : CString) (color : Color)
    (interactable : Bool) : (s.printChars text color interactable).Printing := by
  induction text generalizing s with
  | nil => exact h
  | cons c text ih => exact ih (printTextChar_printing h color interactable c)

theorem printChars_atEnd {s : Screen} (h : s.Printing) (hend : s.AtEnd) (text : CString)
    (color : Color) (interactable : Bool) : (s.printChars text color interactable).AtEnd := by
  induction text generalizing s with
  | nil => exact hend
  | cons c text ih =>
    exact ih (printTextChar_printing h color interactable c)
      (printTextChar_atEnd h hend color interactable c)

theorem maxChars_printChars {s : Screen} (h : s.Printing) (text : CString) (color : Color)
    (interactable : Bool) : (s.printChars text color interactable).maxChars = s.maxChars := by
  induction text generalizing s with
  | nil => rfl
  | cons c text ih =>
    refine (ih (printTextChar_printing h color interactable c)).trans ?_
    unfold printTextChar
    split
    · rfl
    · split
      · exact maxChars_newline h.toInLines
      · exact maxChars_printChar h c color interactable

/-! ## What a line shows -/

theorem length_row (s : Screen) (y : Int) : (s.row y).length = (s.amountOfCells y).toNat :=
  View.length_read _ _ _

/-- The cells of a line depend on the block only. -/
theorem read_edited (s : Screen) (y y' a x lo : Int) (n : Nat) :
    (line y).read { s.setAmountOfCells y' a with cursorAtX := x } lo n = (line y).read s lo n := rfl

theorem row_eq_read {s : Screen} {y n : Int} (h : s.amountOfCells y = n) :
    s.row y = (line y).read s 0 n.toNat := by
  rw [row, h]

theorem row_of_empty {s : Screen} {y : Int} (h : s.amountOfCells y = 0) : s.row y = [] :=
  List.length_eq_zero_iff.mp (by rw [length_row, h, Int.toNat_zero])

theorem newline_empty {s : Screen} (h : s.InLines) :
    s.newline.amountOfCells s.newline.cursorAtY = 0 := by
  obtain ⟨y, cells, amounts, written, lines, start, -, hylt, hempty, -, hredrawn⟩ := newline_eq h
  obtain ⟨rx, ry, d, heq⟩ := hredrawn
  rw [heq]
  exact hempty y (Int.le_refl y) hylt

/-- A character right behind the last one. -/
theorem row_typed {s : Screen} (h : s.Printing) (hend : s.AtEnd) (c : Cell) :
    (s.typed c).row s.cursorAtY = s.row s.cursorAtY ++ [c] := by
  have hX := h.cursorAtX_nonneg
  obtain ⟨n, hn⟩ := Int.eq_ofNat_of_zero_le hX
  have hconcat := View.read_concat (A := line s.cursorAtY) s 0 n c
  rw [Int.zero_add] at hconcat
  have hamount : (s.typed c).amountOfCells s.cursorAtY = (n + 1 : Nat) := by
    rw [typed, putCell_of_le h.amount_le_cursorAtX, hn]
    exact if_pos rfl
  rw [row_eq_read hamount, Int.toNat_natCast, typed, putCell_of_le h.amount_le_cursorAtX, hn,
    row_eq_read (hend.symm.trans hn), Int.toNat_natCast, ← hconcat]
  rfl

/-! ## Clearing -/

theorem initEmptyScreenBuffer_cellsOk {s : Screen} (hpos : 0 ≤ s.maxChars)
    (hw : ∀ p ∈ s.written, s.initEmptyScreenBuffer.InLine p) :
    s.initEmptyScreenBuffer.CellsOk where
  amount_nonneg := fun _ h1 h2 => Int.le_of_eq (if_pos ⟨h1, h2⟩).symm
  amount_le := fun _ h1 h2 => Int.le_trans (Int.le_of_eq (if_pos ⟨h1, h2⟩)) hpos
  written := hw

theorem clear_spec {s : Screen} (h : s.InLines) :
    (PrintCall.clear.run s).Printing ∧ (PrintCall.clear.run s).AtEnd := by
  have hY := h.cursorAtY_nonneg
  have hlt := h.cursorAtY_lt
  have hstored := h.stored
  have hok : s.initEmptyScreenBuffer.CellsOk :=
    initEmptyScreenBuffer_cellsOk (Int.le_of_lt h.maxChars_pos) fun p hp => by
      obtain ⟨h1, h2, h3, h4⟩ := h.written p hp
      exact ⟨h1, Int.lt_of_lt_of_le h2 (Int.le_of_eq hstored), h3, h4⟩
  have hzero : ∀ y, 0 ≤ y → y < s.maxLines + scrollHistoryLines →
      s.initEmptyScreenBuffer.amountOfCells y = 0 := fun y h1 h2 => if_pos ⟨h1, h2⟩
  have hpos : 0 < s.maxLines + scrollHistoryLines := by omega
  have hrun : PrintCall.clear.run s = { draw .black s.initEmptyScreenBuffer with
      cursorAtX := 0, cursorAtY := 0, cursorRenderedX := 0, cursorRenderedY := 0 } := by
    rw [PrintCall.run, clearScreen, if_pos h.buffered]
  rw [hrun]
  refine ⟨⟨⟨⟨hok.amount_nonneg, hok.amount_le, hok.written⟩, h.buffered, h.notRedrawing,
    h.maxChars_pos, rfl, Int.le_refl 0, hpos, fun y h1 h2 => hzero y (Int.le_of_lt h1) h2⟩,
    Int.le_of_eq (hzero 0 (Int.le_refl 0) hpos), h.maxChars_pos⟩, ?_⟩
  exact (hzero 0 (Int.le_refl 0) hpos).symm

/-- A screen before `init_screen_buffer`, with the cursor in its place. -/
structure Early (s : Screen) : Prop where
  notRedrawing : s.isRedrawing = false
  cursorAtX_nonneg : 0 ≤ s.cursorAtX
  cursorAtX_lt : s.cursorAtX < s.maxChars
  cursorAtY_nonneg : 0 ≤ s.cursorAtY
  cursorAtY_lt : s.cursorAtY < s.maxLines + scrollHistoryLines
  written : s.written = []

theorem Early.printing {s : Screen} (h : s.Early) : s.initScreenBuffer.Printing := by
  have hX := h.cursorAtX_nonneg
  have hlt := h.cursorAtX_lt
  have hok : s.initEmptyScreenBuffer.CellsOk :=
    initEmptyScreenBuffer_cellsOk (by omega) fun p hp => by rw [h.written] at hp; cases hp
  refine ⟨⟨⟨hok.amount_nonneg, hok.amount_le, hok.written⟩, rfl, h.notRedrawing,
    by show 0 < s.maxChars; omega, rfl, h.cursorAtY_nonneg, h.cursorAtY_lt,
    fun y h1 h2 => if_pos ⟨Int.le_trans h.cursorAtY_nonneg (Int.le_of_lt h1), h2⟩⟩, ?_, hlt⟩
  exact Int.le_trans (Int.le_of_eq (if_pos ⟨h.cursorAtY_nonneg, h.cursorAtY_lt⟩)) hX

/-! ## Sequences of calls -/

theorem run_printing {s : Screen} (h : s.Printing) (call : PrintCall) :
    (call.run s).Printing := by
  cases call with
  | chars text color => exact printChars_printing h text color false
  | newline => exact (newline_spec h.toInLines).1
  | clear => exact (clear_spec h.toInLines).1

theorem run_atEnd {s : Screen} (h : s.Printing) (hend : s.AtEnd) (call : PrintCall) :
    (call.run s).AtEnd := by
  cases call with
  | chars text color => exact printChars_atEnd h hend text color false
  | newline => exact (newline_spec h.toInLines).2
  | clear => exact (clear_spec h.toInLines).2

theorem runAll_printing {s : Screen} (h : s.Printing) (calls : List PrintCall) :
    (PrintCall.runAll calls s).Printing := by
  induction calls generalizing s with
  | nil => exact h
  | cons call calls ih => exact ih (run_printing h call)

theorem runAll_atEnd {s : Screen} (h : s.Printing) (hend : s.AtEnd) (calls : List PrintCall) :
    (PrintCall.runAll calls s).AtEnd := by
  induction calls generalizing s with
  | nil => exact hend
  | cons call calls ih => exact ih (run_printing h call) (run_atEnd h hend call)

theorem maxChars_run {s : Screen} (h : s.Printing) (call : PrintCall) :
    (call.run s).maxChars = s.maxChars := by
  cases call with
  | chars text color => exact maxChars_printChars h text color false
  | newline => exact maxChars_newline h.toInLines
  | clear =>
    rw [PrintCall.run, clearScreen]
    split <;> rfl

theorem maxChars_runAll {s : Screen} (h : s.Printing) (calls : List PrintCall) :
    (PrintCall.runAll calls s).maxChars = s.maxChars := by
  induction calls generalizing s with
  | nil => rfl
  | cons call calls ih => exact (ih (run_printing h call)).trans (maxChars_run h call)

end Screen

end EszOs
