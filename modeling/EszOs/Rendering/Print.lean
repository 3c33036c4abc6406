import EszOs.Rendering.ScreenBuffer
import EszOs.Types.String

/-!
# Printing (`rendering/print/print.cpp`, `helper/print_helper`, `helper/info_text`)

With a screen buffer, `draw_char` stores the character in the cell at the cursor and draws it;
while `isRedrawing` is set it only draws. The cursor moves on after each character and to the next
line behind the last column; at the bottom the visible part scrolls, and behind the last stored line
the oldest line is dropped.

`Redrawn s s'`: `s'` differs from `s` in what has been drawn and where the cursor was drawn last.
-/

namespace EszOs

namespace Screen

/-! ## Drawing -/

def draw (d : Drawn) (s : Screen) : Screen := { s with drawn := d :: s.drawn }

/-- The store of `draw_char` at the cursor. -/
def putCell (c : Cell) (s : Screen) : Screen :=
  let s' := s.setCell s.cursorAtY s.cursorAtX c
  if s.cursorAtX + 1 > s.amountOfCells s.cursorAtY then
    s'.setAmountOfCells s.cursorAtY (s.cursorAtX + 1)
  else s'

/-- The part of `draw_char` that draws. -/
def drawGlyph (c : UInt8) (printAtX printAtY : Int) (color : Color) (s : Screen) : Screen :=
  let renderY := if s.useScreenBuffer then printAtY - s.startRenderLine else printAtY
  if renderY < 0 ∨ renderY ≥ s.maxLines then s
  else if printAtX ≥ s.maxChars then s
  else s.draw (.glyph c printAtX renderY color)

def drawChar (c : UInt8) (printAtX printAtY : Int) (color : Color) (interactable : Bool)
    (s : Screen) : Screen :=
  drawGlyph c printAtX printAtY color
    (if s.useScreenBuffer && !s.isRedrawing then s.putCell ⟨color, c, interactable⟩ else s)

/-- The body of the loop of `redraw_line`. -/
def redrawCell (line cellAmount : Int) (i : Nat) (s : Screen) : Screen :=
  let s' :=
    if i < cellAmount then
      let cell := s.cell line i
      s.drawChar cell.text s.cursorAtX s.cursorAtY cell.color cell.interactable
    else s.drawChar space s.cursorAtX s.cursorAtY .white false
  { s' with cursorAtX := s'.cursorAtX + 1 }

def redrawLine (line : Int) (s : Screen) : Screen :=
  Loop.upTo (redrawCell line (s.amountOfCells line)) s.maxChars.toNat
    { s with cursorAtX := 0, cursorAtY := line }

def redraw (s : Screen) : Screen :=
  let s' := Loop.upTo (fun i => redrawLine (s.startRenderLine + i)) s.visibleLines.toNat
    { s with isRedrawing := true }
  { s' with
    cursorAtX := s.cursorAtX
    cursorAtY := s.cursorAtY
    isRedrawing := false
    cursorRenderedX := s.cursorAtX
    cursorRenderedY := s.cursorAtY }

def renderCursor (printAtX printAtY : Int) (color : Color) (s : Screen) : Screen :=
  if printAtX ≥ s.maxChars then s
  else s.draw (.cursor printAtX (printAtY - s.startRenderLine) color)

def updateCursorRender (s : Screen) : Screen :=
  if !s.useScreenBuffer then s
  else if s.isRedrawing then s
  else
    let cell := s.cell s.cursorRenderedY s.cursorRenderedX
    let restoreChar :=
      if s.cursorRenderedX < s.amountOfCells s.cursorRenderedY then cell.text else space
    let s₁ := drawChar restoreChar s.cursorRenderedX s.cursorRenderedY cell.color cell.interactable
      { s with isRedrawing := true }
    let s₂ := if s.cursorVisible then s₁.renderCursor s.cursorAtX s.cursorAtY .white else s₁
    { s₂ with
      isRedrawing := false
      cursorRenderedX := s.cursorAtX
      cursorRenderedY := s.cursorAtY }

/-- The lines around `redraw_line(cursorAt_Y)` in `terminal.cpp`: the current line is redrawn and
the cursor goes back to its column. -/
def redrawCurrentLine (s : Screen) : Screen :=
  let s' := redrawLine s.cursorAtY { s with isRedrawing := true }
  updateCursorRender { s' with isRedrawing := false, cursorAtX := s.cursorAtX }

/-! ## Lines -/

/-- The body of the loop of `handle_scroll`: line `line + 1` is copied to line `line`. -/
def copyNextLine (line : Nat) (s : Screen) : Screen :=
  let cellAmount := s.amountOfCells (line + 1)
  Loop.upTo (fun i s => s.setCell line i (s.cell (line + 1) i)) cellAmount.toNat
    (s.setAmountOfCells line cellAmount)

/-- The first part of `handle_scroll`. -/
def dropOldLine (s : Screen) : Screen :=
  if s.cursorAtY ≥ s.maxStoredLines then
    let s' := Loop.upTo copyNextLine (s.maxStoredLines - 1).toNat s
    { s' with
      amountOfLines := s.amountOfLines - 1
      startRenderLine := if s.startRenderLine > 0 then s.startRenderLine - 1 else s.startRenderLine
      cursorAtY := s.cursorAtY - 1 }.setAmountOfCells (s.cursorAtY - 1) 0
  else s

/-- The second part of `handle_scroll`. -/
def scrollUp (s : Screen) : Screen :=
  if s.cursorAtY ≥ s.startRenderLine + s.visibleLines then
    redraw { s with startRenderLine := s.startRenderLine + 1 }
  else s

def handleScroll (s : Screen) : Screen :=
  if !s.useScreenBuffer || s.isRedrawing then s else s.dropOldLine.scrollUp.updateCursorRender

def newline (s : Screen) : Screen :=
  handleScroll
    { s with
      amountOfLines :=
        if s.useScreenBuffer && !s.isRedrawing then s.amountOfLines + 1 else s.amountOfLines
      cursorAtX := 0
      cursorAtY := s.cursorAtY + 1 }

def handleAutomaticNewline (s : Screen) : Screen :=
  if s.cursorAtX ≥ s.maxChars then s.newline else s

/-! ## Text -/

/-- `print_char`, and what `print_chars` does for a character that is no line break. -/
def printChar (c : UInt8) (color : Color) (interactable : Bool) (s : Screen) : Screen :=
  let s' := s.drawChar c s.cursorAtX s.cursorAtY color interactable
  handleAutomaticNewline (updateCursorRender { s' with cursorAtX := s'.cursorAtX + 1 })

/-- The body of the loop of `print_chars`. -/
def printTextChar (color : Color) (interactable : Bool) (s : Screen) (c : UInt8) : Screen :=
  if c = 0x0D then s else if c = 0x0A then s.newline else s.printChar c color interactable

def printChars (text : CString) (color : Color) (interactable : Bool) (s : Screen) : Screen :=
  text.foldl (printTextChar color interactable) s

def printInline (text : CString) (color : Color) (s : Screen) : Screen :=
  s.printChars text color false

def print (text : CString) (color : Color) (s : Screen) : Screen :=
  (s.printChars text color false).newline

/-- `clearScreen` -/
def clearScreen (s : Screen) : Screen :=
  draw .black (if s.useScreenBuffer then s.initEmptyScreenBuffer else s)

end Screen

/-- A call that prints: of `print_chars` (which `print_inline` and, with a line break, `print` are)
for text that is not interactable, of `newline`, or `cmd_clear`. -/
inductive PrintCall where
  | chars (text : CString) (color : Color)
  | newline
  | clear

namespace PrintCall

def run (s : Screen) : PrintCall → Screen
  | chars text color => s.printChars text color false
  | newline => s.newline
  | clear => { s.clearScreen with
      cursorAtX := 0, cursorAtY := 0, cursorRenderedX := 0, cursorRenderedY := 0 }

def runAll (calls : List PrintCall) (s : Screen) : Screen := calls.foldl run s

/-- `print` -/
def line (text : CString) (color : Color) : List PrintCall := [chars text color, newline]

/-- `printInfoLine`, with the tag and its color. -/
def infoLine (tag : CString) (color : Color) (text : CString) : List PrintCall :=
  [chars tag color, chars text .white, newline]

/-- `printInfoLine(InfoTextType::Info, …)` -/
def info (text : CString) : List PrintCall := infoLine (literal "[INFO]: ") .lightCyan text

/-- `printInfoLine(InfoTextType::Error, …)` -/
def error (text : CString) : List PrintCall := infoLine (literal "[ERROR]: ") .red text

/-- `print_separator`, on a screen with `maxChars` columns. -/
def separator (maxChars : Int) : List PrintCall :=
  [chars (List.replicate (maxChars / 2).toNat 0x2D) .darkGray, newline]

/-- `printSysinfo` -/
def sysinfo : List PrintCall :=
  info (literal "ESZ-OS - x86_64 - (v0.4.5) by Jonas Paprotka")

/-- `printTerminalHeader` -/
def terminalHeader (maxChars : Int) : List PrintCall :=
  separator maxChars ++ line (literal "   #####  #####  #####") .white ++
    line (literal "   ##     ##        ##") .white ++
    line (literal "   #####  #####   ##  ") .white ++
    line (literal "   ##        ##  ##   ") .white ++
    line (literal "   #####  #####  #####") .white ++ [newline] ++ sysinfo ++ separator maxChars

end PrintCall

/-! ## What drawing leaves alone -/

namespace Screen

/-- `s'` is `s` up to what has been drawn and where the cursor was drawn last. -/
def Redrawn (s s' : Screen) : Prop :=
  ∃ x y d, s' = { s with cursorRenderedX := x, cursorRenderedY := y, drawn := d }

theorem Redrawn.refl (s : Screen) : Redrawn s s := ⟨_, _, _, rfl⟩

theorem Redrawn.trans {s s' s'' : Screen} (h : Redrawn s s') (h' : Redrawn s' s'') :
    Redrawn s s'' := by
  obtain ⟨x, y, d, rfl⟩ := h
  obtain ⟨x', y', d', rfl⟩ := h'
  exact ⟨x', y', d', rfl⟩

theorem drawGlyph_eq (c : UInt8) (x y : Int) (color : Color) (s : Screen) :
    ∃ d, s.drawGlyph c x y color = { s with drawn := d } := by
  unfold drawGlyph
  dsimp only
  generalize (if s.useScreenBuffer = true then y - s.startRenderLine else y) = renderY
  split
  · exact ⟨_, rfl⟩
  · split
    · exact ⟨_, rfl⟩
    · exact ⟨_, rfl⟩

theorem drawChar_of_redrawing {s : Screen} (h : s.isRedrawing = true) (c : UInt8) (x y : Int)
    (color : Color) (interactable : Bool) :
    ∃ d, s.drawChar c x y color interactable = { s with drawn := d } := by
  have heq : s.drawChar c x y color interactable = s.drawGlyph c x y color := by
    rw [drawChar, if_neg (by simp [h])]
  rw [heq]
  exact drawGlyph_eq c x y color s

theorem redrawLine_eq {s : Screen} (h : s.isRedrawing = true) (line : Int) :
    ∃ x d, s.redrawLine line = { s with cursorAtX := x, cursorAtY := line, drawn := d } := by
  refine Loop.upTo_induct
    (P := fun s' => ∃ x d, s' = { s with cursorAtX := x, cursorAtY := line, drawn := d })
    (fun i s' _ hs' => ?_) ⟨0, s.drawn, rfl⟩
  obtain ⟨x, d, rfl⟩ := hs'
  unfold redrawCell
  dsimp only
  split
  · obtain ⟨d', hd⟩ := drawChar_of_redrawing
      (s := { s with cursorAtX := x, cursorAtY := line, drawn := d }) h (s.cell line i).text x line
      (s.cell line i).color (s.cell line i).interactable
    exact ⟨x + 1, d', congrArg (fun t : Screen => { t with cursorAtX := t.cursorAtX + 1 }) hd⟩
  · obtain ⟨d', hd⟩ := drawChar_of_redrawing
      (s := { s with cursorAtX := x, cursorAtY := line, drawn := d }) h space x line .white false
    exact ⟨x + 1, d', congrArg (fun t : Screen => { t with cursorAtX := t.cursorAtX + 1 }) hd⟩

theorem redraw_redrawn {s : Screen} (h : s.isRedrawing = false) : Redrawn s s.redraw := by
  have hloop : ∃ x y d, Loop.upTo (fun i => redrawLine (s.startRenderLine + i)) s.visibleLines.toNat
      { s with isRedrawing := true } =
      { s with cursorAtX := x, cursorAtY := y, drawn := d, isRedrawing := true } := by
    refine Loop.upTo_induct
      (P := fun s' => ∃ x y d,
        s' = { s with cursorAtX := x, cursorAtY := y, drawn := d, isRedrawing := true })
      (fun i s' _ hs' => ?_) ⟨s.cursorAtX, s.cursorAtY, s.drawn, rfl⟩
    obtain ⟨x, y, d, rfl⟩ := hs'
    obtain ⟨x', d', hx⟩ := redrawLine_eq
      (s := { s with cursorAtX := x, cursorAtY := y, drawn := d, isRedrawing := true }) rfl
      (s.startRenderLine + i)
    exact ⟨x', _, d', hx⟩
  obtain ⟨x, y, d, hs⟩ := hloop
  refine ⟨s.cursorAtX, s.cursorAtY, d, ?_⟩
  rw [redraw, hs, ← h]

theorem renderCursor_eq (x y : Int) (color : Color) (s : Screen) :
    ∃ d, s.renderCursor x y color = { s with drawn := d } := by
  unfold renderCursor
  split
  · exact ⟨_, rfl⟩
  · exact ⟨_, rfl⟩

theorem updateCursorRender_redrawn (s : Screen) : Redrawn s s.updateCursorRender := by
  unfold updateCursorRender
  split
  · exact Redrawn.refl s
  · split
    · exact Redrawn.refl s
    · rename_i hredrawing
      have hfalse := Bool.eq_false_iff.mpr hredrawing
      dsimp only
      obtain ⟨d, hd⟩ := drawChar_of_redrawing (s := { s with isRedrawing := true }) rfl
        (if s.cursorRenderedX < s.amountOfCells s.cursorRenderedY then
          (s.cell s.cursorRenderedY s.cursorRenderedX).text else space)
        s.cursorRenderedX s.cursorRenderedY (s.cell s.cursorRenderedY s.cursorRenderedX).color
        (s.cell s.cursorRenderedY s.cursorRenderedX).interactable
      rw [hd]
      split
      · obtain ⟨d', hd'⟩ := renderCursor_eq s.cursorAtX s.cursorAtY .white
          { s with isRedrawing := true, drawn := d }
        rw [hd']
        exact ⟨s.cursorAtX, s.cursorAtY, d', by rw [← hfalse]⟩
      · exact ⟨s.cursorAtX, s.cursorAtY, d, by rw [← hfalse]⟩

theorem redrawCurrentLine_redrawn {s : Screen} (h : s.isRedrawing = false) :
    Redrawn s s.redrawCurrentLine := by
  obtain ⟨x, d, hs⟩ := redrawLine_eq (s := { s with isRedrawing := true }) rfl s.cursorAtY
  unfold redrawCurrentLine
  rw [hs]
  refine Redrawn.trans ?_ (updateCursorRender_redrawn _)
  exact ⟨s.cursorRenderedX, s.cursorRenderedY, d, by rw [← h]⟩

/-- A cell at the cursor, and the cursor moved on. -/
def typed (c : Cell) (s : Screen) : Screen :=
  { s.putCell c with cursorAtX := s.cursorAtX + 1 }

/-- `print_char` up to the line break. -/
def printed (c : UInt8) (color : Color) (interactable : Bool) (s : Screen) : Screen :=
  let s' := s.drawChar c s.cursorAtX s.cursorAtY color interactable
  updateCursorRender { s' with cursorAtX := s'.cursorAtX + 1 }

/-- With a screen buffer, `draw_char` stores the cell at the cursor. -/
theorem drawChar_of_buffered {s : Screen} (hbuf : s.useScreenBuffer = true)
    (h : s.isRedrawing = false) (c : UInt8) (x y : Int) (color : Color) (interactable : Bool) :
    ∃ d, s.drawChar c x y color interactable =
      { s.putCell ⟨color, c, interactable⟩ with drawn := d } := by
  rw [drawChar, if_pos (by simp [hbuf, h])]
  exact drawGlyph_eq c x y color _

/-- With a screen buffer, `print_char` stores one cell. -/
theorem printed_redrawn {s : Screen} (hbuf : s.useScreenBuffer = true) (h : s.isRedrawing = false)
    (c : UInt8) (color : Color) (interactable : Bool) :
    Redrawn (s.typed ⟨color, c, interactable⟩) (s.printed c color interactable) := by
  obtain ⟨d, hd⟩ := drawChar_of_buffered hbuf h c s.cursorAtX s.cursorAtY color interactable
  have hX : (s.putCell ⟨color, c, interactable⟩).cursorAtX = s.cursorAtX := by
    unfold putCell
    dsimp only
    split <;> rfl
  unfold printed
  rw [hd]
  refine Redrawn.trans ?_ (updateCursorRender_redrawn _)
  exact ⟨_, _, d, by dsimp only [typed]; rw [hX]⟩

/-- It stores one cell and then breaks the line if it is full. -/
theorem printChar_eq {s : Screen} (hbuf : s.useScreenBuffer = true) (h : s.isRedrawing = false)
    (c : UInt8) (color : Color) (interactable : Bool) :
    ∃ t, Redrawn (s.typed ⟨color, c, interactable⟩) t ∧
      s.printChar c color interactable = t.handleAutomaticNewline :=
  ⟨s.printed c color interactable, printed_redrawn hbuf h c color interactable, rfl⟩

end Screen

end EszOs
