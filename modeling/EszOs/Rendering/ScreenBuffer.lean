import EszOs.Config
import EszOs.Lib.Views

/-!
# The screen buffer (`rendering/screenBuffer/screenBuffer.cpp`)

The lines of the buffer are slices of one block of cells: cell `x` of line `y` is entry
`y * MAX_CHARS + x` of the block, whatever `x` is. A store to a column at or behind `MAX_CHARS`
therefore lands in the next line.

The `int`s and `unsigned int`s of the screen are `Int`s. None of them comes near the end of its
range: they are coordinates of the screen and numbers of its lines and cells.
-/

namespace EszOs

/-- A value of `enum class Color : uint32_t`. -/
structure Color where
  value : UInt32
deriving DecidableEq, Repr

namespace Color

def darkGray : Color := ⟨0x004A4A4A⟩

def green : Color := ⟨0x0027AE60⟩

def red : Color := ⟨0x00C0392B⟩

def white : Color := ⟨0x00E5E7E9⟩

def lightCyan : Color := ⟨0x00AED6F1⟩

def deepOrange : Color := ⟨0x00D35400⟩

end Color

structure Cell where
  color : Color
  text : UInt8
  interactable : Bool
deriving DecidableEq, Repr

/-- A cell of zero bytes. -/
def Cell.zero : Cell := ⟨⟨0⟩, 0, false⟩

/-- What is drawn into the framebuffer: a glyph or the cursor's bar in a character's place, or the
whole screen in black. -/
inductive Drawn where
  | glyph (c : UInt8) (x y : Int) (color : Color)
  | cursor (x y : Int) (color : Color)
  | black
deriving DecidableEq, Repr

/-- The globals of `print.cpp` and the buffer behind `screenBufferPtr`. `written` records the line
and column of each store to a cell, `drawn` what went to the framebuffer, latest first. -/
structure Screen where
  cursorAtX : Int
  cursorAtY : Int
  cursorRenderedX : Int
  cursorRenderedY : Int
  cursorVisible : Bool
  useScreenBuffer : Bool
  isRedrawing : Bool
  maxChars : Int
  maxLines : Int
  cellBlock : Int → Cell
  amountOfCells : Int → Int
  amountOfLines : Int
  visibleLines : Int
  startRenderLine : Int
  maxStoredLines : Int
  written : List (Int × Int)
  drawn : List Drawn

namespace Screen

/-- `get_screen_buffer_cell` -/
def cell (s : Screen) (y x : Int) : Cell := s.cellBlock (y * s.maxChars + x)

/-- A store to `lines[y].cells[x]`. -/
def setCell (s : Screen) (y x : Int) (c : Cell) : Screen :=
  { s with
    cellBlock := fun k => if k = y * s.maxChars + x then c else s.cellBlock k
    written := (y, x) :: s.written }

/-- A store to `lines[y].amountOfCells`. -/
def setAmountOfCells (s : Screen) (y n : Int) : Screen :=
  { s with amountOfCells := fun k => if k = y then n else s.amountOfCells k }

/-- The cells of line `y`, as an array. -/
def line (y : Int) : View Screen Cell where
  get s x := s.cell y x
  set s x c := s.setCell y x c
  get_set s i c j := by
    have hiff : y * s.maxChars + j = y * s.maxChars + i ↔ j = i := by omega
    simp only [cell, setCell, hiff]

/-- What line `y` shows. -/
def row (s : Screen) (y : Int) : List Cell := (line y).read s 0 (s.amountOfCells y).toNat

/-- After `init_print`, on a screen of that many columns and lines: nothing is printed yet. -/
def initPrint (maxChars maxLines : Int) : Screen where
  cursorAtX := 0
  cursorAtY := 0
  cursorRenderedX := 0
  cursorRenderedY := 0
  cursorVisible := false
  useScreenBuffer := false
  isRedrawing := false
  maxChars := maxChars
  maxLines := maxLines
  cellBlock := fun _ => Cell.zero
  amountOfCells := fun _ => 0
  amountOfLines := 0
  visibleLines := 0
  startRenderLine := 0
  maxStoredLines := 0
  written := []
  drawn := []

/-- `init_empty_screen_buffer`, whose `malloc` succeeds. -/
def initEmptyScreenBuffer (s : Screen) : Screen :=
  let storedRenderLineHistory : Int := scrollHistoryLines
  let allLines := s.maxLines + storedRenderLineHistory
  { s with
    amountOfLines := s.cursorAtY
    visibleLines := s.maxLines
    startRenderLine := 0
    maxStoredLines := allLines
    cellBlock := fun k => if 0 ≤ k ∧ k < allLines * s.maxChars then Cell.zero else s.cellBlock k
    amountOfCells := fun y => if 0 ≤ y ∧ y < allLines then 0 else s.amountOfCells y }

/-- `init_screen_buffer` -/
def initScreenBuffer (s : Screen) : Screen :=
  { s.initEmptyScreenBuffer with
    useScreenBuffer := true
    cursorRenderedX := s.cursorAtX
    cursorRenderedY := s.cursorAtY }

/-! ## Stores -/

theorem amountOfCells_setAmountOfCells (s : Screen) (y n y' : Int) :
    (s.setAmountOfCells y n).amountOfCells y' = if y' = y then n else s.amountOfCells y' := rfl

end Screen

end EszOs
