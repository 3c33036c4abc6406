import EszOs.Rendering.Framebuffer
import EszOs.Terminal.Columns

/-!
# The terminal on the screen

An edit of the input line stores cells of the current line only and then redraws it
(`Screen.ChangesLine`), so the screen goes on showing the window of the buffer.

* `redrawCurrentLine_displayed`: the redrawn line is all that such an edit makes wrong.
* `kept_onDisplay`: every key keeps that.
* `keys_displayed`: from a `clear` on, after any keys and ticks of the timer, the framebuffer shows the
  visible part of the buffer and the cursor.
-/

namespace EszOs

namespace Screen

/-! ## Edits of the current line -/

/-- Only cells of the current line, its length and the column of the cursor differ. -/
def ChangesLine (s s' : Screen) : Prop :=
  (∃ cells w n x, s' = { s.setAmountOfCells s.cursorAtY n with
      cellBlock := cells, written := w, cursorAtX := x }) ∧
    ∀ y x, y ≠ s.cursorAtY → 0 ≤ x → x < s.maxChars → s'.cell y x = s.cell y x

/-- Stores to cells of the current line. -/
def StoresLine (s s' : Screen) : Prop :=
  SameLines s s' ∧ ∀ y x, y ≠ s.cursorAtY → 0 ≤ x → x < s.maxChars → s'.cell y x = s.cell y x

theorem StoresLine.refl (s : Screen) : StoresLine s s := ⟨SameLines.refl s, fun _ _ _ _ _ => rfl⟩

theorem StoresLine.setCell {s s' : Screen} (h : StoresLine s s') {i : Int} (h0 : 0 ≤ i)
    (hlt : i < s.maxChars) (c : Cell) : StoresLine s (s'.setCell s.cursorAtY i c) := by
  refine ⟨h.1.setCell _ _ _, fun y x hy hx hxlt => ?_⟩
  have hmax : s'.maxChars = s.maxChars := by
    obtain ⟨cells, w, rfl⟩ := h.1
    rfl
  rw [cell_setCell h0 (hmax ▸ hlt) hx (hmax ▸ hxlt), if_neg fun h => hy h.1]
  exact h.2 y x hy hx hxlt

theorem StoresLine.changesLine {s s' : Screen} (h : StoresLine s s') (n x : Int) :
    ChangesLine s { s'.setAmountOfCells s.cursorAtY n with cursorAtX := x } := by
  obtain ⟨⟨cells, w, rfl⟩, hother⟩ := h
  exact ⟨⟨cells, w, n, x, rfl⟩, hother⟩

theorem shiftInCell_changesLine {s : Screen} (h0 : 0 ≤ s.cursorAtX)
    (hle : s.cursorAtX ≤ s.amountOfCells s.cursorAtY)
    (hfree : s.amountOfCells s.cursorAtY < s.maxChars) (c : UInt8) :
    ChangesLine s (s.shiftInCell c) := by
  have hshift : StoresLine s ((line s.cursorAtY).shiftUp s.cursorAtX
      (s.amountOfCells s.cursorAtY - s.cursorAtX).toNat s) :=
    View.shiftUp_induct (fun s' i c hlo hhi hs' => hs'.setCell (by omega) (by omega) c)
      (StoresLine.refl s)
  exact (hshift.setCell h0 (by omega) _).changesLine _ _

theorem shiftOutCell_changesLine {s : Screen} (h0 : 0 < s.cursorAtX)
    (hle : s.cursorAtX ≤ s.amountOfCells s.cursorAtY)
    (hmax : s.amountOfCells s.cursorAtY ≤ s.maxChars) : ChangesLine s s.shiftOutCell := by
  have hshift : StoresLine s ((line s.cursorAtY).shiftDown (s.cursorAtX - 1)
      (s.amountOfCells s.cursorAtY - 1 - (s.cursorAtX - 1)).toNat s) :=
    View.shiftDown_induct (fun s' i c hlo hhi hs' => hs'.setCell (by omega) (by omega) c)
      (StoresLine.refl s)
  exact (hshift.setCell (by omega) (by omega) _).changesLine _ _

theorem blankInput_changesLine {s : Screen} {start : Int} (h0 : 0 ≤ start) :
    ChangesLine s (s.blankInput start) := by
  have hstore : StoresLine s ((line s.cursorAtY).store start
      (List.replicate (min (s.amountOfCells s.cursorAtY) s.maxChars - start).toNat
        ⟨.white, 0, false⟩) s) :=
    View.store_induct (fun s' i c hlo hhi hs' => by
      rw [List.length_replicate] at hhi
      exact hs'.setCell (by omega) (by omega) c) (StoresLine.refl s)
  exact hstore.changesLine _ _

/-- The lines around `redraw_line(cursorAt_Y)` draw the one line that has changed. -/
theorem redrawCurrentLine_displayed {s s' : Screen} (h : s.Displayed) (hlines : s.InLines)
    (hedit : ChangesLine s s') : s'.redrawCurrentLine.Displayed := by
  obtain ⟨⟨cells, w, n, x₀, rfl⟩, hother⟩ := hedit
  obtain ⟨bar, -, hold⟩ := h.shows
  obtain ⟨t, ht⟩ : ∃ t : Screen, t = { s.setAmountOfCells s.cursorAtY n with
    cellBlock := cells, written := w, cursorAtX := x₀ } := ⟨_, rfl⟩
  rw [← ht] at hother ⊢
  have hbuf : t.useScreenBuffer = true := ht ▸ hlines.buffered
  have hredraw : t.isRedrawing = false := ht ▸ hlines.notRedrawing
  obtain ⟨X, d, hline, hd⟩ := redrawLine_spec (s := { t with isRedrawing := true }) hbuf rfl t.cursorAtY
  have heq : t.redrawCurrentLine = updateCursorRender { t with drawn := d } := by
    rw [redrawCurrentLine, hline, ← hredraw]
  have hY : t.cursorAtY = s.cursorAtY := ht ▸ rfl
  have hmax : t.maxChars = s.maxChars := ht ▸ rfl
  have hshown : ∀ y x, y ≠ t.cursorAtY → 0 ≤ x → x < t.maxChars → t.shown y x = s.shown y x := by
    intro y x hy hx hxlt
    have hamount : t.amountOfCells y = s.amountOfCells y := by
      rw [ht] at hy ⊢
      exact if_neg hy
    have hcell : t.cell y x = s.cell y x := hother y x (hY ▸ hy) hx (hmax ▸ hxlt)
    rw [shown, shown, hamount, hcell]
  have hwindow : Window { t with drawn := d } := by
    rw [ht]
    exact ⟨h.visible, h.start_nonneg, h.end_le, h.inView⟩
  rw [heq]
  suffices hshows : Shows false { t with drawn := d } from
    (hwindow.updateCursorRender hbuf hredraw hshows).1
  refine shows_false.mpr fun x y hx hxlt hy hylt => (hd x y hx hxlt hy hylt).trans ?_
  show (if t.startRenderLine + y = t.cursorAtY then (⟨t.shown t.cursorAtY x, none⟩ : Place)
    else placeAt t.drawn x y) = ⟨t.shown (t.startRenderLine + y) x, none⟩
  by_cases hcurrent : t.startRenderLine + y = t.cursorAtY
  · rw [if_pos hcurrent, hcurrent]
  · -- the bar was in the current line
    rw [if_neg hcurrent, hshown _ x hcurrent hx hxlt]
    rw [ht] at hcurrent hxlt hylt ⊢
    refine (hold x y hx hxlt hy hylt).trans ?_
    rw [if_neg fun hbar => hcurrent (hbar.2.2.trans h.renderedY)]
    rfl

/-- The cursor in another column. -/
theorem moveCursor_displayed {s : Screen} (h : s.Displayed) (hlines : s.InLines) (dx : Int) :
    (s.moveCursor dx).Displayed := by
  obtain ⟨bar, -, hshows⟩ := h.shows
  exact (Window.updateCursorRender (s := { s with cursorAtX := s.cursorAtX + dx })
    ⟨h.visible, h.start_nonneg, h.end_le, h.inView⟩ hlines.buffered hlines.notRedrawing hshows).1

end Screen

namespace Terminal

/-! ## What the keys keep -/

/-- The invariant: the input line is on the screen, and the screen shows the window of the buffer. -/
structure OnDisplay (t : Terminal) : Prop extends OnScreen t where
  displayed : t.screen.Displayed

namespace OnDisplay

variable {t : Terminal}

theorem cursorMoveInline (h : t.OnDisplay) (moveRight : Bool) :
    (t.cursorMoveInline moveRight).OnDisplay := by
  refine ⟨h.toOnScreen.cursorMoveInline moveRight, ?_⟩
  unfold Terminal.cursorMoveInline
  split <;> split
  · exact h.displayed
  · exact Screen.moveCursor_displayed h.displayed h.lines 1
  · exact h.displayed
  · exact Screen.moveCursor_displayed h.displayed h.lines (-1)

theorem handleInputBufferDeletion (h : t.OnDisplay) : t.handleInputBufferDeletion.OnDisplay := by
  refine ⟨h.toOnScreen.handleInputBufferDeletion, ?_⟩
  unfold Terminal.handleInputBufferDeletion
  split
  · exact h.displayed
  · split
    · exact h.displayed
    · split
      · exact h.displayed
      · split
        · exact h.displayed
        · exact Screen.redrawCurrentLine_displayed h.displayed h.lines
            (Screen.shiftOutCell_changesLine (by omega) h.cursorAtX_le h.lines.amount_cursor_le)

theorem moveToTokenEnd (h : t.OnDisplay) (n : Nat) : (t.moveToTokenEnd n).OnDisplay := by
  induction n generalizing t with
  | zero => exact h
  | succ n ih =>
    rw [Terminal.moveToTokenEnd]
    split
    · exact ih (h.cursorMoveInline true)
    · exact h

theorem removeToken (h : t.OnDisplay) (oldToken : CString) : (t.removeToken oldToken).OnDisplay :=
  Loop.upTo_induct (fun _ _ _ ht => ht.handleInputBufferDeletion) (h.moveToTokenEnd _)

theorem insertCharAtCursor (h : t.OnDisplay) (h0 : 0 ≤ t.screen.cursorAtX)
    (hfree : t.screen.amountOfCells t.screen.cursorAtY < t.screen.maxChars) (c : UInt8) :
    (t.insertCharAtCursor c).OnDisplay :=
  ⟨h.toOnScreen.insertCharAtCursor h0 hfree c,
    Screen.redrawCurrentLine_displayed h.displayed h.lines
      (Screen.shiftInCell_changesLine h0 h.cursorAtX_le hfree c)⟩

theorem insertChars (h : t.OnDisplay) {chars : CString}
    (hfits : chars ≠ [] → t.RoomInLine chars) : (t.insertChars chars).OnDisplay := by
  induction chars generalizing t with
  | nil => exact h
  | cons c chars ih =>
    obtain ⟨h0, hroom⟩ := hfits (List.cons_ne_nil _ _)
    rw [List.length_cons] at hroom
    have hedit := Screen.insertCell_edited h.notRedrawing c
    refine ih (h.insertCharAtCursor h0 (by omega) c) fun _ => ?_
    show 0 ≤ (t.screen.insertCell c).cursorAtX ∧ (t.screen.insertCell c).amountOfCells
      (t.screen.insertCell c).cursorAtY + chars.length ≤ (t.screen.insertCell c).maxChars
    rw [hedit.cursorAtX, hedit.cursorAtY, hedit.amountOfCells, hedit.maxChars]
    omega

/-- An emptied input line. -/
theorem clearInput_showing (h : t.OnDisplay) : (t.screen.clearInput t.lineInputStartX).Showing := by
  obtain ⟨hprint, hend, -⟩ := h.toOnScreen.clearInput_spec
  exact ⟨hprint, Screen.redrawCurrentLine_displayed h.displayed h.lines
    (Screen.blankInput_changesLine h.start_nonneg), hend⟩

theorem handleShowHistory (h : t.OnDisplay) : t.handleShowHistory.OnDisplay :=
  ⟨h.toOnScreen.handleShowHistory, (h.clearInput_showing.printChars _ .white true).toDisplayed⟩

/-- A submitted line breaks the line of the screen and prints. -/
theorem processLineInputBuffer_showing (h : t.OnDisplay) (sh : Shell) :
    (t.processLineInputBuffer sh).screen.Showing := by
  obtain ⟨calls, u, heq, hscreen, -⟩ := processLineInputBuffer_prints sh t
  have hshowing := (Screen.Showing.of_newline h.lines h.displayed).runAll calls
  rw [heq]
  exact (congrArg Screen.Showing hscreen).mpr hshowing

theorem newTerminalInputLine (h : t.screen.Showing) (hpos : t.lineInputCursorPos = t.lineInputLength) :
    t.newTerminalInputLine.OnDisplay :=
  ⟨OnScreen.newTerminalInputLine h.toPrinting h.atEnd hpos, (h.printChars _ .white false).toDisplayed⟩

theorem listCandidates (h : t.OnDisplay) (names : List CString) : (t.listCandidates names).OnDisplay := by
  refine ⟨h.toOnScreen.listCandidates names, ?_⟩
  have hshown : (t.prints (showCandidates names)).screen.Showing :=
    (Screen.Showing.of_newline h.lines h.displayed).runAll _
  exact ((hshown.printChars _ .white false).printChars _ .white true).toDisplayed

theorem onExtendedKey (h : t.OnDisplay) (scancode : UInt8) : (t.onExtendedKey scancode).OnDisplay := by
  have hcount : ∀ n, OnDisplay { t with goThroughHistoryCount := n } := fun n =>
    ⟨⟨h.lines, h.cursor_le, h.aligned, h.start_nonneg, h.start_lt⟩, h.displayed⟩
  refine ⟨h.toOnScreen.onExtendedKey scancode, ?_⟩
  unfold Terminal.onExtendedKey
  split
  · split
    · exact h.displayed
    · split
      · exact (hcount (t.goThroughHistoryCount + 1)).handleShowHistory.displayed
      · exact h.displayed
  · split
    · split
      · exact h.displayed
      · dsimp only
        split
        · exact h.clearInput_showing.toDisplayed
        · exact (hcount (t.goThroughHistoryCount - 1)).handleShowHistory.displayed
    · split
      · exact (h.cursorMoveInline false).displayed
      · split
        · exact (h.cursorMoveInline true).displayed
        · exact h.displayed

end OnDisplay

theorem kept_onDisplay : Kept OnDisplay RoomInLine where
  keyboard _ _ _ h := ⟨⟨h.lines, h.cursor_le, h.aligned, h.start_nonneg, h.start_lt⟩, h.displayed⟩
  extended _ scancode h := h.onExtendedKey scancode
  enter sh t h := by
    have hcount : OnDisplay { t with goThroughHistoryCount := 0 } :=
      ⟨⟨h.lines, h.cursor_le, h.aligned, h.start_nonneg, h.start_lt⟩, h.displayed⟩
    exact OnDisplay.newTerminalInputLine (hcount.processLineInputBuffer_showing sh)
      (OnScreen.processLineInputBuffer hcount.lines sh).cursor_eq
  delete _ h := h.handleInputBufferDeletion
  list _ names h := h.listCandidates names
  remove _ oldToken h := h.removeToken oldToken
  insert _ _ h hfits := h.insertChars hfits

/-! ## From `clear` on -/

theorem addCommandToHistory_kept (cmd : CString) (t : Terminal) :
    (t.addCommandToHistory cmd).toLineInput = t.toLineInput ∧
      (t.addCommandToHistory cmd).screen = t.screen ∧
      (t.addCommandToHistory cmd).currentPath = t.currentPath := by
  unfold addCommandToHistory
  dsimp only
  split <;> exact ⟨rfl, rfl, rfl⟩

/-- The command `clear`, in the line as `executeCommand` reads it. -/
theorem executeCommand_clear (sh : Shell) (args : CString) {t : Terminal}
    (h : t.stringFrom 0 = literal "clear") :
    t.executeCommand sh args = some (t.prints [.newline, .clear]) := by
  have hfind : commandNames.find? (strEqual (literal "clear")) = some (literal "clear") := by decide
  have hnone : ∀ name ∈ [literal "help", literal "history", literal "echo"],
      literal "clear" ≠ name := by decide
  have hexecute : ∀ t : Terminal, (command sh (literal "clear")).execute args t =
      ⟨[.clear], t.currentPath⟩ := fun t => by
    simp [command, hnone]
  rw [executeCommand, h, commands, List.find?_map]
  show ((commandNames.find? (strEqual (literal "clear"))).map (command sh)).map _ = _
  rw [hfind, Option.map_some, Option.map_some]
  dsimp only
  rw [hexecute]
  rfl

/-- Enter, behind `clear`: the screen is black but for the prompt. -/
theorem press_clear (sh : Shell) {t : Terminal} (h : t.OnScreen) (hpos : 0 < t.screen.maxLines)
    {k : Key} (henter : k.IsEnter) (hclear : t.text = literal "clear") : (t.press sh k).OnDisplay := by
  obtain ⟨u, hu⟩ : ∃ u : Terminal, u = { t.arrive k with goThroughHistoryCount := 0 } := ⟨_, rfl⟩
  have hline : u.toLineInput = t.toLineInput := hu ▸ rfl
  have htext : u.text = literal "clear" := (congrArg LineInput.text hline).trans hclear
  have hlength : u.lineInputLength = 5 := by
    rw [← LineInput.length_text, htext]
    decide
  have hnonzero : (literal "clear").all (· != 0) = true := by decide
  have hstring : u.stringFrom 0 = literal "clear" := by
    refine (LineInput.stringFrom_zero fun c hc => ?_).trans htext
    rw [htext] at hc
    exact bne_iff_ne.mp (List.all_eq_true.mp hnonzero c hc)
  obtain ⟨hsame, hscreen, -⟩ := addCommandToHistory_kept (u.stringFrom 0) u
  have hargs : (u.addCommandToHistory (u.stringFrom 0)).getInputArgs = (u.toLineInput, []) := by
    rw [LineInput.getInputArgs, hsame, htext]
    rfl
  have hrun := executeCommand_clear sh [] (t := { u.addCommandToHistory (u.stringFrom 0) with
    toLineInput := u.toLineInput }) hstring
  obtain ⟨v, hv, hvscreen⟩ : ∃ v : Terminal, u.processLineInputBuffer sh = v.resetLineInput ∧
      v.screen = PrintCall.clear.run t.screen.newline := by
    unfold processLineInputBuffer
    rw [if_neg (by omega), if_neg (by rw [hlength]; decide)]
    dsimp only
    rw [hargs]
    dsimp only
    rw [hrun]
    refine ⟨_, rfl, ?_⟩
    show PrintCall.clear.run (u.addCommandToHistory (u.stringFrom 0)).screen.newline = _
    rw [hscreen, hu]
    rfl
  obtain ⟨hbreak, -⟩ := Screen.newline_spec h.lines
  have hmaxLines : 0 < t.screen.newline.maxLines := by
    obtain ⟨_, _, _, _, _, _, -, -, -, -, _, _, _, heq⟩ := Screen.newline_eq h.lines
    rw [heq]
    exact hpos
  rw [press_enter sh t henter, ← hu, hv]
  refine OnDisplay.newTerminalInputLine ?_ rfl
  show v.screen.Showing
  rw [hvscreen]
  exact Screen.clear_showing hbreak.toInLines hmaxLines

/-! ## Runs -/

theorem OnDisplay.blink {t : Terminal} (h : t.OnDisplay) (visible : Bool) :
    OnDisplay { t with screen := t.screen.blink visible } := by
  have hredrawn := Screen.blink_redrawn visible t.screen
  have hlines := h.lines.blink visible
  have hdisplayed := h.displayed.blink h.lines visible
  obtain ⟨x, y, d, heq⟩ := hredrawn
  rw [heq] at hlines hdisplayed ⊢
  exact ⟨⟨hlines, h.cursor_le, h.aligned, h.start_nonneg, h.start_lt⟩, hdisplayed⟩

/-- What interrupts the idle processor. -/
inductive Interrupt where
  | key (k : Key)
  | tick

/-- The terminal, and the counter of the timer. -/
structure Machine where
  ticks : Nat
  terminal : Terminal

def Machine.interrupt (sh : Shell) (machine : Machine) : Interrupt → Machine
  | .key k => { machine with terminal := machine.terminal.press sh k }
  | .tick =>
    let console := Console.timerHandler ⟨machine.ticks, machine.terminal.screen⟩
    ⟨console.ticks, { machine.terminal with screen := console.screen }⟩

/-- Before, between and after the interrupts. -/
abbrev Machine.states (sh : Shell) (machine : Machine) (interrupts : List Interrupt) : List Machine :=
  Runs.states (fun machine i => some (machine.interrupt sh i)) machine interrupts

/-- The interrupts, each with the state before it. -/
abbrev Machine.calls (sh : Shell) (machine : Machine) (interrupts : List Interrupt) :
    List (Machine × Interrupt) :=
  Runs.calls (fun machine i => some (machine.interrupt sh i)) machine interrupts

/-- The characters of a key find room in the current line. -/
def Machine.Fits (machine : Machine) : Interrupt → Prop
  | .key k => machine.terminal.InsertionFits RoomInLine k
  | .tick => True

theorem OnDisplay.interrupt {machine : Machine} (h : machine.terminal.OnDisplay) (sh : Shell)
    {i : Interrupt} (hfits : machine.Fits i) : (machine.interrupt sh i).terminal.OnDisplay := by
  cases i with
  | key k => exact kept_onDisplay.press sh h hfits
  | tick =>
    unfold Machine.interrupt Console.timerHandler
    dsimp only
    split
    · exact h.blink _
    · exact h

/-- From a `clear` on, in every state of a run of keys and ticks of the timer whose insertions find
room in the line, each pixel of the screen is that of the visible part of the buffer, or of the bar,
which is at the cursor and only while it is visible. -/
theorem keys_displayed {font : Font} (hspace : ∀ row, font space row = 0) (sh : Shell) {t : Terminal}
    (h : t.OnScreen) (hpos : 0 < t.screen.maxLines) {k : Key} (henter : k.IsEnter)
    (hclear : t.text = literal "clear") (ticks : Nat) (interrupts : List Interrupt)
    (hfits : ∀ c ∈ Machine.calls sh ⟨ticks, t.press sh k⟩ interrupts, c.1.Fits c.2) :
    ∀ machine ∈ Machine.states sh ⟨ticks, t.press sh k⟩ interrupts,
      let s := machine.terminal.screen
      ∃ bar : Bool, (bar = true → s.cursorVisible = true) ∧
        ∀ row col, 0 ≤ row → row < s.maxLines * fontH → 0 ≤ col → col < s.maxChars * fontW →
          pixelAt font s.drawn row col = s.windowPixel font bar row col := by
  have hrun : ∀ machine ∈ Machine.states sh ⟨ticks, t.press sh k⟩ interrupts,
      machine.terminal.OnDisplay :=
    Runs.forall_states (C := Machine.Fits)
      (fun machine i machine' hs hi hstep => by
        cases hstep
        exact hs.interrupt sh hi)
      (press_clear sh h hpos henter hclear) hfits
  intro machine hmachine s
  have hdisplayed := (hrun machine hmachine).displayed
  obtain ⟨bar, hbar, hshows⟩ := hdisplayed.shows
  exact ⟨bar, hbar, fun row col => hdisplayed.pixelAt_eq hspace hshows⟩

set_option maxRecDepth 8192 in
/-- On a screen of 80 columns and 25 lines, where Up has brought back an earlier `clear`: Enter, Up and
a tick. -/
theorem keys_displayed_80x25 :
    let t := handleShowHistory { (boot (Screen.initPrint 80 25).initScreenBuffer).terminalInit with
      commandHistory := fun _ => literal "clear", cmdHistCount := 1, goThroughHistoryCount := 1 }
    let font : Font := fun c _ => if c = space then 0 else 0xFF
    ∀ machine ∈ Machine.states (fun _ _ _ => []) ⟨39, t.press (fun _ _ _ => []) ⟨false, false, 0x1C⟩⟩
        [.key ⟨false, true, 0x48⟩, .tick],
      let s := machine.terminal.screen
      ∃ bar : Bool, (bar = true → s.cursorVisible = true) ∧
        ∀ row col, 0 ≤ row → row < s.maxLines * fontH → 0 ≤ col → col < s.maxChars * fontW →
          pixelAt font s.drawn row col = s.windowPixel font bar row col := by
  have hprint : (Screen.initPrint 80 25).initScreenBuffer.Printing :=
    Screen.Early.printing ⟨rfl, by decide, by decide, by decide, by decide, rfl⟩
  have hrecalled : ∀ u : Terminal, u.OnScreen → OnScreen { u with
      commandHistory := fun _ => literal "clear", cmdHistCount := 1, goThroughHistoryCount := 1 } :=
    fun u h => ⟨h.lines, h.cursor_le, h.aligned, h.start_nonneg, h.start_lt⟩
  intro t font
  have honScreen : t.OnScreen := (hrecalled _ (terminalInit_onScreen hprint)).handleShowHistory
  have hpos : 0 < t.screen.maxLines := by decide +kernel
  have htext : t.text = literal "clear" := (LineInput.read_recall _ _).1
  clear_value t
  refine keys_displayed (fun _ => if_pos rfl) _ honScreen hpos (by decide) htext 39 _ fun c hc => ?_
  have hmem := Runs.mem_of_mem_calls hc
  obtain ⟨machine, i⟩ := c
  cases i with
  | tick => trivial
  | key k =>
    obtain rfl : k = ⟨false, true, 0x48⟩ := by simpa using hmem
    exact fun hne => absurd rfl hne

end Terminal

end EszOs
