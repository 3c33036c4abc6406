import EszOs.Terminal.Keys

/-!
# The input line stays in its line of the screen

`Terminal.OnScreen` is what each key keeps as long as the characters it inserts find room in the
current line of the screen: `Screen.InLines`, and the cursor is as far from the end of the line on
the screen as `lineInputCursorPos` is from the end of the input.

* `keys_onScreen_iff`: no cell behind a line's last column is ever stored, exactly if every key of the
  run inserts its characters in a column of the line and finds room for them.
* `keys_pastEdge`: the insertion does not wrap at the right edge.
-/

namespace EszOs

namespace Terminal

/-- The invariant. -/
structure OnScreen (t : Terminal) : Prop where
  lines : t.screen.InLines
  cursor_le : t.lineInputCursorPos ≤ t.lineInputLength
  aligned : t.screen.cursorAtX + t.lineInputLength =
    t.screen.amountOfCells t.screen.cursorAtY + t.lineInputCursorPos
  start_nonneg : 0 ≤ t.lineInputStartX
  start_lt : t.lineInputStartX < t.screen.maxChars

/-- The cursor is in a column, and there is room for the characters in the current line. -/
def RoomInLine (t : Terminal) (chars : CString) : Prop :=
  0 ≤ t.screen.cursorAtX ∧
    t.screen.amountOfCells t.screen.cursorAtY + chars.length ≤ t.screen.maxChars

/-- A command runs in a line of its own. -/
theorem executeCommand_prints {sh : Shell} {args : CString} {t t' : Terminal}
    (hrun : t.executeCommand sh args = some t') :
    ∃ calls : List PrintCall, t'.screen = PrintCall.runAll (.newline :: calls) t.screen ∧
      t'.goThroughHistoryCount = t.goThroughHistoryCount := by
  obtain ⟨cmd, -, rfl⟩ := Option.map_eq_some_iff.mp hrun
  exact ⟨(cmd.execute args (t.prints [.newline])).prints, rfl, rfl⟩

theorem displayTerminalError_prints (text : CString) (t : Terminal) :
    ∃ (calls : List PrintCall) (u : Terminal), t.displayTerminalError text = u.resetLineInput ∧
      u.screen = PrintCall.runAll (.newline :: calls) t.screen ∧
      u.goThroughHistoryCount = t.goThroughHistoryCount :=
  ⟨PrintCall.error text, t.prints (.newline :: PrintCall.error text), rfl, rfl, rfl⟩

/-- A submitted line breaks the line of the screen, prints and is reset. -/
theorem processLineInputBuffer_prints (sh : Shell) (t : Terminal) :
    ∃ (calls : List PrintCall) (u : Terminal), t.processLineInputBuffer sh = u.resetLineInput ∧
      u.screen = PrintCall.runAll (.newline :: calls) t.screen ∧
      u.goThroughHistoryCount = t.goThroughHistoryCount := by
  have hadd : ∀ cmd, (t.addCommandToHistory cmd).screen = t.screen ∧
      (t.addCommandToHistory cmd).goThroughHistoryCount = t.goThroughHistoryCount := fun cmd => by
    unfold addCommandToHistory
    dsimp only
    split <;> exact ⟨rfl, rfl⟩
  obtain ⟨hscreen, hcount⟩ := hadd (t.stringFrom 0)
  unfold Terminal.processLineInputBuffer
  split
  · exact ⟨[], _, rfl, rfl, rfl⟩
  · split
    · exact displayTerminalError_prints _ t
    · dsimp only
      split
      · rename_i done hdone
        obtain ⟨calls, hdone, hcount'⟩ := executeCommand_prints hdone
        exact ⟨calls, done, rfl, hdone.trans (congrArg (PrintCall.runAll _) hscreen),
          hcount'.trans hcount⟩
      · obtain ⟨calls, u, heq, hu, hcount'⟩ := displayTerminalError_prints (_ ++ _)
          { t.addCommandToHistory (t.stringFrom 0) with
            toLineInput := (t.addCommandToHistory (t.stringFrom 0)).getInputArgs.1 }
        exact ⟨calls, u, heq, hu.trans (congrArg (PrintCall.runAll _) hscreen), hcount'.trans hcount⟩

namespace OnScreen

variable {t : Terminal}

theorem notRedrawing (h : t.OnScreen) : t.screen.isRedrawing = false := h.lines.notRedrawing

theorem cursorAtX_le (h : t.OnScreen) :
    t.screen.cursorAtX ≤ t.screen.amountOfCells t.screen.cursorAtY := by
  have := h.aligned
  have := h.cursor_le
  omega

/-- An edit of the screen and of the line that keep step. -/
theorem edited (h : t.OnScreen) {s' : Screen} {n x : Int} (hedit : t.screen.Edited n x s')
    (hlines : s'.InLines) {l : LineInput} (hle : l.lineInputCursorPos ≤ l.lineInputLength)
    (haligned : x + l.lineInputLength = n + l.lineInputCursorPos) :
    OnScreen { t with toLineInput := l, screen := s' } where
  lines := hlines
  cursor_le := hle
  aligned := by
    show s'.cursorAtX + l.lineInputLength = s'.amountOfCells s'.cursorAtY + l.lineInputCursorPos
    rw [hedit.cursorAtX, hedit.cursorAtY, hedit.amountOfCells, haligned]
  start_nonneg := h.start_nonneg
  start_lt := by
    show t.lineInputStartX < s'.maxChars
    rw [hedit.maxChars]
    exact h.start_lt

/-! ## Edits -/

theorem cursorMoveInline (h : t.OnScreen) (moveRight : Bool) :
    (t.cursorMoveInline moveRight).OnScreen := by
  have hle := h.cursor_le
  have haligned := h.aligned
  have hlines := Screen.moveCursor_inLines h.lines
  unfold Terminal.cursorMoveInline
  split
  · split
    · exact h
    · exact h.edited (Screen.moveCursor_edited 1 t.screen) (hlines 1)
        (l := { t.toLineInput with lineInputCursorPos := t.lineInputCursorPos + 1 })
        (by show t.lineInputCursorPos + 1 ≤ t.lineInputLength; omega)
        (by show t.screen.cursorAtX + 1 + t.lineInputLength =
              _ + ((t.lineInputCursorPos + 1 : Nat) : Int)
            omega)
  · split
    · exact h
    · exact h.edited (Screen.moveCursor_edited (-1) t.screen) (hlines (-1))
        (l := { t.toLineInput with lineInputCursorPos := t.lineInputCursorPos - 1 })
        (by show t.lineInputCursorPos - 1 ≤ t.lineInputLength; omega)
        (by show t.screen.cursorAtX + -1 + t.lineInputLength =
              _ + ((t.lineInputCursorPos - 1 : Nat) : Int)
            omega)

theorem handleInputBufferDeletion (h : t.OnScreen) : t.handleInputBufferDeletion.OnScreen := by
  have hle := h.cursor_le
  have haligned := h.aligned
  have hX := h.cursorAtX_le
  unfold Terminal.handleInputBufferDeletion
  split
  · exact h
  · split
    · exact h
    · split
      · exact h
      · split
        · exact h
        · refine h.edited (Screen.deleteCell_edited h.notRedrawing) ?_ ?_ ?_
          · exact (Screen.deleteCell_redrawn h.notRedrawing).inLines
              (Screen.shiftOutCell_inLines h.lines (by omega) hX)
          · show t.lineInputCursorPos - 1 ≤ t.lineInputLength - 1
            omega
          · show t.screen.cursorAtX - 1 + ((t.lineInputLength - 1 : Nat) : Int) =
              _ - 1 + ((t.lineInputCursorPos - 1 : Nat) : Int)
            omega

theorem moveToTokenEnd (h : t.OnScreen) (n : Nat) : (t.moveToTokenEnd n).OnScreen := by
  induction n generalizing t with
  | zero => exact h
  | succ n ih =>
    rw [Terminal.moveToTokenEnd]
    split
    · exact ih (h.cursorMoveInline true)
    · exact h

theorem removeToken (h : t.OnScreen) (oldToken : CString) : (t.removeToken oldToken).OnScreen :=
  Loop.upTo_induct (fun _ _ _ ht => ht.handleInputBufferDeletion) (h.moveToTokenEnd _)

theorem insertCharAtCursor (h : t.OnScreen) (h0 : 0 ≤ t.screen.cursorAtX)
    (hfree : t.screen.amountOfCells t.screen.cursorAtY < t.screen.maxChars) (c : UInt8) :
    (t.insertCharAtCursor c).OnScreen := by
  have hle := h.cursor_le
  have haligned := h.aligned
  refine h.edited (Screen.insertCell_edited h.notRedrawing c) ?_ ?_ ?_
  · exact (Screen.insertCell_redrawn h.notRedrawing c).inLines
      (Screen.shiftInCell_inLines h.lines h0 h.cursorAtX_le hfree c)
  · exact Nat.succ_le_succ hle
  · show t.screen.cursorAtX + 1 + ((t.lineInputLength + 1 : Nat) : Int) =
      _ + 1 + ((t.lineInputCursorPos + 1 : Nat) : Int)
    omega

theorem insertChars (h : t.OnScreen) {chars : CString}
    (hfits : chars ≠ [] → t.RoomInLine chars) : (t.insertChars chars).OnScreen := by
  induction chars generalizing t with
  | nil => exact h
  | cons c chars ih =>
    obtain ⟨h0, hroom⟩ := hfits (List.cons_ne_nil _ _)
    rw [List.length_cons] at hroom
    have hedit := Screen.insertCell_edited h.notRedrawing c
    refine ih (h.insertCharAtCursor h0 (by omega) c) fun _ => ?_
    show 0 ≤ (t.screen.insertCell c).cursorAtX ∧ (t.screen.insertCell c).amountOfCells
      (t.screen.insertCell c).cursorAtY + chars.length ≤ (t.screen.insertCell c).maxChars
    rw [hedit.cursorAtX, hedit.cursorAtY, hedit.amountOfCells, hedit.maxChars]
    omega

/-! ## Printing -/

/-- Right behind what was printed, with the cursor at the end of the input. -/
theorem of_atEnd (hprint : t.screen.Printing) (hend : t.screen.AtEnd)
    (hpos : t.lineInputCursorPos = t.lineInputLength) (h0 : 0 ≤ t.lineInputStartX)
    (hlt : t.lineInputStartX < t.screen.maxChars) : t.OnScreen where
  lines := hprint.toInLines
  cursor_le := Nat.le_of_eq hpos
  aligned := by rw [hend, hpos]
  start_nonneg := h0
  start_lt := hlt

theorem newTerminalInputLine (hprint : t.screen.Printing) (hend : t.screen.AtEnd)
    (hpos : t.lineInputCursorPos = t.lineInputLength) : t.newTerminalInputLine.OnScreen := by
  have hprint' := Screen.runAll_printing hprint [.chars (t.currentPath ++ literal " >> ") .white]
  have hend' := Screen.runAll_atEnd hprint hend [.chars (t.currentPath ++ literal " >> ") .white]
  exact of_atEnd (t := t.newTerminalInputLine) hprint' hend' hpos hprint'.cursorAtX_nonneg
    hprint'.cursorAtX_lt

/-- The line is printed in its place, with the cursor behind it. -/
theorem printLine (hprint : t.screen.Printing) (hend : t.screen.AtEnd)
    (hpos : t.lineInputCursorPos = t.lineInputLength) (h0 : 0 ≤ t.lineInputStartX)
    (hlt : t.lineInputStartX < t.screen.maxChars) : t.printLine.OnScreen :=
  of_atEnd (t := t.printLine) (Screen.printChars_printing hprint (t.stringFrom 0) .white true)
    (Screen.printChars_atEnd hprint hend (t.stringFrom 0) .white true) hpos h0
    (Int.lt_of_lt_of_le hlt (Int.le_of_eq (Screen.maxChars_printChars hprint _ _ _).symm))

/-! ## History and commands -/

/-- An emptied input: the cursor is at its start and at the end of the line. -/
theorem clearInput_spec (h : t.OnScreen) :
    (t.screen.clearInput t.lineInputStartX).Printing ∧
      (t.screen.clearInput t.lineInputStartX).AtEnd ∧
      (t.screen.clearInput t.lineInputStartX).maxChars = t.screen.maxChars := by
  have hedit := Screen.clearInput_edited h.notRedrawing t.lineInputStartX
  have hlines := (Screen.clearInput_redrawn h.notRedrawing t.lineInputStartX).inLines
    (Screen.blankInput_inLines h.lines h.start_nonneg h.start_lt)
  have hend : (t.screen.clearInput t.lineInputStartX).AtEnd := by
    rw [Screen.AtEnd, hedit.cursorAtX, hedit.cursorAtY, hedit.amountOfCells]
  refine ⟨⟨hlines, Int.le_of_eq hend.symm, ?_⟩, hend, hedit.maxChars⟩
  rw [hedit.cursorAtX, hedit.maxChars]
  exact h.start_lt

theorem handleShowHistory (h : t.OnScreen) : t.handleShowHistory.OnScreen := by
  obtain ⟨hprint, hend, hmax⟩ := h.clearInput_spec
  exact printLine (t := { t.clearInputOnScreen with
      toLineInput := t.clearInputOnScreen.toLineInput.recallLine _ })
    hprint hend rfl h.start_nonneg (Int.lt_of_lt_of_le h.start_lt (Int.le_of_eq hmax.symm))

/-- After a submitted line: at the start of a line of the screen, with an empty input. -/
structure Submitted (t : Terminal) : Prop where
  printing : t.screen.Printing
  atEnd : t.screen.AtEnd
  cursor_eq : t.lineInputCursorPos = t.lineInputLength

theorem processLineInputBuffer (h : t.screen.InLines) (sh : Shell) :
    Submitted (t.processLineInputBuffer sh) := by
  obtain ⟨calls, u, heq, hscreen, -⟩ := processLineInputBuffer_prints sh t
  obtain ⟨hprint, hend⟩ := Screen.newline_spec h
  rw [heq]
  exact ⟨hscreen ▸ Screen.runAll_printing hprint calls,
    hscreen ▸ Screen.runAll_atEnd hprint hend calls, rfl⟩

theorem listCandidates (h : t.OnScreen) (names : List CString) :
    (t.listCandidates names).OnScreen := by
  obtain ⟨hprint, hend⟩ := Screen.newline_spec h.lines
  let rest := (names.map fun name => PrintCall.chars name .white).intersperse
    (.chars (literal " | ") .white) ++ [.newline]
  have hshown : (t.prints (showCandidates names)).screen =
      PrintCall.runAll rest t.screen.newline := rfl
  let shown := t.prints (showCandidates names)
  have hprompt := newTerminalInputLine (t := { shown with lineInputCursorPos := t.lineInputLength })
    (hshown ▸ Screen.runAll_printing hprint rest) (hshown ▸ Screen.runAll_atEnd hprint hend rest) rfl
  have hpromptPrint : shown.newTerminalInputLine.screen.Printing :=
    Screen.printChars_printing (hshown ▸ Screen.runAll_printing hprint rest) _ _ _
  have hpromptEnd : shown.newTerminalInputLine.screen.AtEnd :=
    Screen.printChars_atEnd (hshown ▸ Screen.runAll_printing hprint rest)
      (hshown ▸ Screen.runAll_atEnd hprint hend rest) _ _ _
  exact printLine (t := { shown.newTerminalInputLine with lineInputCursorPos := t.lineInputLength })
    hpromptPrint hpromptEnd rfl hprompt.start_nonneg hprompt.start_lt

theorem onExtendedKey (h : t.OnScreen) (scancode : UInt8) :
    (t.onExtendedKey scancode).OnScreen := by
  have hcount : ∀ n, OnScreen { t with goThroughHistoryCount := n } := fun n =>
    ⟨h.lines, h.cursor_le, h.aligned, h.start_nonneg, h.start_lt⟩
  unfold Terminal.onExtendedKey
  split
  · split
    · exact h
    · split
      · exact (hcount (t.goThroughHistoryCount + 1)).handleShowHistory
      · exact h
  · split
    · split
      · exact h
      · dsimp only
        split
        · obtain ⟨hprint, hend, hmax⟩ := (hcount (t.goThroughHistoryCount - 1)).clearInput_spec
          exact of_atEnd hprint hend rfl h.start_nonneg
            (Int.lt_of_lt_of_le h.start_lt (Int.le_of_eq hmax.symm))
        · exact (hcount (t.goThroughHistoryCount - 1)).handleShowHistory
    · split
      · exact h.cursorMoveInline false
      · split
        · exact h.cursorMoveInline true
        · exact h

end OnScreen

/-! ## Runs -/

theorem kept_onScreen : Kept OnScreen RoomInLine where
  keyboard _ _ _ h := ⟨h.lines, h.cursor_le, h.aligned, h.start_nonneg, h.start_lt⟩
  extended _ scancode h := h.onExtendedKey scancode
  enter sh t h := by
    have hdone := OnScreen.processLineInputBuffer (t := { t with goThroughHistoryCount := 0 })
      h.lines sh
    exact OnScreen.newTerminalInputLine hdone.printing hdone.atEnd hdone.cursor_eq
  delete _ h := h.handleInputBufferDeletion
  list _ names h := h.listCandidates names
  remove _ oldToken h := h.removeToken oldToken
  insert _ _ h hfits := h.insertChars hfits

/-- What an insertion leaves alone, and how long the line gets. -/
theorem insertChars_screen {t : Terminal} (h : t.screen.isRedrawing = false) (chars : CString) :
    (t.insertChars chars).screen.maxChars = t.screen.maxChars ∧
      (t.insertChars chars).screen.maxStoredLines = t.screen.maxStoredLines ∧
      (t.insertChars chars).screen.amountOfCells t.screen.cursorAtY =
        t.screen.amountOfCells t.screen.cursorAtY + chars.length ∧
      ∀ p ∈ t.screen.written, p ∈ (t.insertChars chars).screen.written := by
  induction chars generalizing t with
  | nil => exact ⟨rfl, rfl, (Int.add_zero _).symm, fun _ hp => hp⟩
  | cons c chars ih =>
    have hedit := Screen.insertCell_edited h c
    obtain ⟨hmax, hstored, hamount, hwritten⟩ := ih (t := t.insertCharAtCursor c)
      (hedit.isRedrawing.trans h)
    rw [show (t.insertCharAtCursor c).screen.cursorAtY = t.screen.cursorAtY from hedit.cursorAtY,
      show (t.insertCharAtCursor c).screen.amountOfCells t.screen.cursorAtY = _
        from hedit.amountOfCells] at hamount
    refine ⟨hmax.trans hedit.maxChars, hstored.trans hedit.maxStoredLines, hamount.trans ?_,
      fun p hp => hwritten p (Screen.written_insertCell h c p (List.mem_cons_of_mem _ hp))⟩
    rw [List.length_cons]
    omega

/-- An insertion that leaves every store in its line had room in the line. -/
theorem roomInLine_of_cellsOk {t : Terminal} (h : t.OnScreen) {chars : CString} (hne : chars ≠ [])
    (hok : (t.insertChars chars).screen.CellsOk) : t.RoomInLine chars := by
  obtain ⟨hmax, hstored, hamount, -⟩ := insertChars_screen h.notRedrawing chars
  constructor
  · obtain ⟨c, rest, rfl⟩ := List.exists_cons_of_ne_nil hne
    have hedit := Screen.insertCell_edited h.notRedrawing c
    obtain ⟨-, -, -, hwritten⟩ := insertChars_screen (t := t.insertCharAtCursor c)
      (hedit.isRedrawing.trans h.notRedrawing) rest
    have hstore := Screen.written_insertCell h.notRedrawing c _ List.mem_cons_self
    exact (hok.written _ (hwritten _ hstore)).2.2.1
  · have hle := hok.amount_le t.screen.cursorAtY h.lines.cursorAtY_nonneg
      (hstored ▸ h.lines.cursorAtY_lt)
    rw [hamount, hmax] at hle
    exact hle

/-- After `terminal_init` the prompt is in its place. -/
theorem terminalInit_onScreen {screen : Screen} (h : screen.Printing) :
    (boot screen).terminalInit.OnScreen := by
  obtain ⟨hprint, hend⟩ := Screen.newline_spec
    (Screen.printChars_printing h (List.replicate (screen.maxChars / 2).toNat 0x2D) .darkGray
      false).toInLines
  let rest := (PrintCall.terminalHeader screen.maxChars).drop 2
  exact OnScreen.newTerminalInputLine
    (t := (boot screen).prints (PrintCall.terminalHeader screen.maxChars))
    (Screen.runAll_printing hprint rest) (Screen.runAll_atEnd hprint hend rest) rfl

theorem maxChars_terminalInit {screen : Screen} (h : screen.Printing) :
    (boot screen).terminalInit.screen.maxChars = screen.maxChars :=
  (Screen.maxChars_runAll (Screen.runAll_printing h _) _).trans (Screen.maxChars_runAll h _)

/-- In a run from the terminal's start, on a screen of any width and height and after any messages,
every stored cell lies in its line and no line gets longer than the screen is wide, exactly if every
key of the run inserts only where there is room. -/
theorem keys_onScreen_iff (sh : Shell) {s : Screen} (hs : s.Early) (messages : List PrintCall)
    (keys : List Key) :
    (∀ t ∈ keyStates sh (boot (PrintCall.runAll messages s.initScreenBuffer)).terminalInit keys,
      t.screen.CellsOk) ↔
      ∀ c ∈ keyCalls sh (boot (PrintCall.runAll messages s.initScreenBuffer)).terminalInit keys,
        c.1.InsertionFits RoomInLine c.2 := by
  refine Runs.forall_states_iff_of_inv (I := OnScreen) (P := fun t => t.screen.CellsOk)
    (C := InsertionFits RoomInLine) (fun t ht => ht.lines.toCellsOk)
    (fun t k t' ht hk hstep => by cases hstep; exact kept_onScreen.press sh ht hk)
    (fun t k t' ht hstep hok hne => ?_)
    (terminalInit_onScreen (Screen.runAll_printing hs.printing messages))
  cases hstep
  rw [press_of_insertion hne] at hok
  exact roomInLine_of_cellsOk
    (kept_onScreen.insertion (kept_onScreen.keyboard t _ _ ht) k.scancode) hne hok

/-- On a screen of 80 columns and 25 lines, after a message, for one key. -/
theorem keys_onScreen_80x25 :
    let screen := PrintCall.runAll [.newline] (Screen.initPrint 80 25).initScreenBuffer
    (∀ t ∈ keyStates (fun _ _ _ => []) (boot screen).terminalInit [keyA], t.screen.CellsOk) ↔
      ∀ c ∈ keyCalls (fun _ _ _ => []) (boot screen).terminalInit [keyA],
        c.1.InsertionFits RoomInLine c.2 :=
  keys_onScreen_iff (fun _ _ _ => []) ⟨rfl, by decide, by decide, by decide, by decide, rfl⟩
    [.newline] [keyA]

/-- Each character that is typed makes the current line of the screen longer, full or not. -/
theorem amountOfCells_keyA (sh : Shell) (n : Nat) {t : Terminal} (h : t.screen.isRedrawing = false) :
    let s := ((List.replicate n keyA).foldl (press sh) t).screen
    s.maxChars = t.screen.maxChars ∧ s.maxStoredLines = t.screen.maxStoredLines ∧
      s.amountOfCells t.screen.cursorAtY = t.screen.amountOfCells t.screen.cursorAtY + n := by
  induction n generalizing t with
  | zero => exact ⟨rfl, rfl, (Int.add_zero _).symm⟩
  | succ n ih =>
    have hedit := Screen.insertCell_edited h 0x61
    have hpress : (press sh t keyA).screen = t.screen.insertCell 0x61 := rfl
    obtain ⟨hmax, hstored, hamount⟩ := ih (t := press sh t keyA) (hedit.isRedrawing.trans h)
    rw [hpress] at hmax hstored hamount
    rw [hedit.cursorAtY, hedit.amountOfCells] at hamount
    refine ⟨hmax.trans hedit.maxChars, hstored.trans hedit.maxStoredLines, hamount.trans ?_⟩
    omega

/-- More characters than the screen has columns do not fit its lines. -/
theorem not_cellsOk_keyA {t : Terminal} (h : t.OnScreen) (sh : Shell) {n : Nat}
    (hn : t.screen.maxChars < n) :
    ¬ ((List.replicate n keyA).foldl (press sh) t).screen.CellsOk := by
  intro hok
  obtain ⟨hmax, hstored, hamount⟩ := amountOfCells_keyA sh n h.notRedrawing
  have hle := hok.amount_le t.screen.cursorAtY h.lines.cursorAtY_nonneg
    (hstored ▸ h.lines.cursorAtY_lt)
  have hnonneg := h.lines.amount_cursor_nonneg
  omega

/-- 81 characters on a screen of 80 columns are stored in one line. -/
theorem keys_pastEdge :
    ¬ ∀ t ∈ keyStates (fun _ _ _ => []) (boot (Screen.initPrint 80 25).initScreenBuffer).terminalInit
        (List.replicate 81 keyA), t.screen.CellsOk := by
  intro h
  have hprint : (Screen.initPrint 80 25).initScreenBuffer.Printing :=
    Screen.Early.printing ⟨rfl, by decide, by decide, by decide, by decide, rfl⟩
  refine not_cellsOk_keyA (terminalInit_onScreen hprint) _ ?_ (h _ (Runs.foldl_mem_states _ _))
  rw [maxChars_terminalInit hprint]
  decide

end Terminal

end EszOs
