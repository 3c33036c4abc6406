import EszOs.Io.Keymap
import EszOs.Storage.Filesystem
import EszOs.Terminal.LineInput
import EszOs.Terminal.ScreenLine

/-!
# The terminal (`terminal/terminal.cpp`, `cmd_history.cpp`, `shell`)

A key edits the input line twice: in `lineInputBuffer` (`LineInput`) and in the cells of the current
line of the screen (`ScreenLine`). Enter hands the line to a command, and Tab completes the word at the cursor to
the name of one.

What a command prints that reports on another subsystem (the disks, the memory, the PCI devices, the
time) is a parameter, `Shell`: any sequence of printing calls.
-/

namespace EszOs

/-! ## State -/

/-- The globals of the keyboard, the terminal, the command history and the working directory. -/
structure Terminal extends LineInput where
  screen : Screen
  shift : Bool
  isExtendedScancode : Bool
  lineInputStartX : Int
  commandHistory : Nat → CString
  cmdHistCount : Nat
  goThroughHistoryCount : Nat
  currentPath : CString

/-- What a command does: it prints, and `cd` changes the working directory. -/
structure Effect where
  prints : List PrintCall
  currentPath : CString

structure Command where
  name : CString
  execute : CString → Terminal → Effect

/-- What the commands print that report on another subsystem, by name and arguments. -/
abbrev Shell := CString → CString → Terminal → List PrintCall

namespace Terminal

/-- Before `terminal_init`, after `init_filesystem`. -/
def boot (screen : Screen) : Terminal where
  lineInputLength := 0
  lineInputBuffer := fun _ => 0
  lineInputCursorPos := 0
  stored := []
  screen := screen
  shift := false
  isExtendedScancode := false
  lineInputStartX := 0
  commandHistory := fun _ => []
  cmdHistCount := 0
  goThroughHistoryCount := 0
  currentPath := rootPath

/-- Printing changes the screen. -/
def prints (calls : List PrintCall) (t : Terminal) : Terminal :=
  { t with screen := PrintCall.runAll calls t.screen }

/-! ## Commands -/

def commandNames : List CString :=
  ["help", "history", "echo", "clear", "sysinfo", "reboot", "meminfo", "uptime", "pciinfo", "read",
    "driveinfo", "dumpsector", "cd", "ls", "pwd"].map literal

def cmdHelp : List PrintCall :=
  commandNames.flatMap (fun name => [.chars name .white, .chars (literal "; ") .white])
    ++ [.newline]

def cmdHistory (t : Terminal) : List PrintCall :=
  (List.range t.cmdHistCount).flatMap fun i => PrintCall.line (t.commandHistory i) .white

/-- `cmd_cd`. A path with more sections than `pathSections` has entries leaves the directory as it
is here. -/
def cmdCd (args : CString) (t : Terminal) : CString :=
  (filesystemChangeDirectory t.currentPath args).getD t.currentPath

/-- The entry of `commands[]` with that name. -/
def command (sh : Shell) (name : CString) : Command where
  name := name
  execute args t :=
    if name = literal "help" then ⟨cmdHelp, t.currentPath⟩
    else if name = literal "history" then ⟨cmdHistory t, t.currentPath⟩
    else if name = literal "echo" then ⟨PrintCall.line args .white, t.currentPath⟩
    else if name = literal "clear" then ⟨[.clear], t.currentPath⟩
    else if name = literal "sysinfo" then ⟨PrintCall.sysinfo, t.currentPath⟩
    else if name = literal "reboot" then ⟨[], t.currentPath⟩
    else if name = literal "cd" then ⟨[], cmdCd args t⟩
    else if name = literal "pwd" then ⟨PrintCall.line t.currentPath .white, t.currentPath⟩
    else ⟨sh name args t, t.currentPath⟩

def commands (sh : Shell) : List Command := commandNames.map (command sh)

/-- `executeCommand`; `none` where it returns `false`. -/
def executeCommand (sh : Shell) (args : CString) (t : Terminal) : Option Terminal :=
  ((commands sh).find? fun cmd => strEqual (t.stringFrom 0) cmd.name).map fun cmd =>
    let t' := t.prints [.newline]
    let effect := cmd.execute args t'
    { t'.prints effect.prints with currentPath := effect.currentPath }

/-! ## History -/

/-- The lines of the history, oldest first. -/
def historyLines (t : Terminal) : List CString := (List.range t.cmdHistCount).map t.commandHistory

def addCommandToHistory (cmd : CString) (t : Terminal) : Terminal :=
  let store (h : Nat → CString) (i : Nat) (text : CString) : Nat → CString :=
    fun k => if k = i then text else h k
  let t' :=
    if t.cmdHistCount ≥ maxCommandHistory then
      let shifted := Loop.upTo (fun i h => store h i (h (i + 1))) (t.cmdHistCount - 1)
        t.commandHistory
      { t with
        commandHistory := store shifted (t.cmdHistCount - 1) []
        cmdHistCount := t.cmdHistCount - 1 }
    else t
  { t' with
    commandHistory := store t'.commandHistory t'.cmdHistCount cmd
    cmdHistCount := t'.cmdHistCount + 1 }

def clearInputOnScreen (t : Terminal) : Terminal :=
  { t with screen := t.screen.clearInput t.lineInputStartX, lineInputCursorPos := 0 }

/-- `print_chars(lineInputBuffer, true)` -/
def printLine (t : Terminal) : Terminal :=
  { t with screen := t.screen.printChars (t.stringFrom 0) .white true }

def handleShowHistory (t : Terminal) : Terminal :=
  let t' := t.clearInputOnScreen
  let entry := t'.commandHistory (t'.cmdHistCount - t'.goThroughHistoryCount)
  printLine { t' with toLineInput := t'.toLineInput.recallLine entry }

/-! ## Editing -/

def resetLineInput (t : Terminal) : Terminal := { t with toLineInput := t.toLineInput.reset }

def insertCharAtCursor (c : UInt8) (t : Terminal) : Terminal :=
  { t with toLineInput := t.toLineInput.insertChar c, screen := t.screen.insertCell c }

def handleInputBufferInsertion (scancode : UInt8) (t : Terminal) : Terminal :=
  let c := (scancodeToKeycode t.shift scancode).toUInt8
  if c = 0 then t else t.insertCharAtCursor c

def cursorMoveInline (moveRight : Bool) (t : Terminal) : Terminal :=
  if moveRight then
    if t.lineInputCursorPos ≥ t.lineInputLength then t
    else { t with
      screen := t.screen.moveCursor 1
      lineInputCursorPos := t.lineInputCursorPos + 1 }
  else
    if t.lineInputCursorPos = 0 then t
    else { t with
      screen := t.screen.moveCursor (-1)
      lineInputCursorPos := t.lineInputCursorPos - 1 }

def handleInputBufferDeletion (t : Terminal) : Terminal :=
  if t.lineInputLength = 0 then t
  else if t.lineInputCursorPos = 0 then t
  else if t.screen.cursorAtX ≤ 0 then t
  else if !(t.screen.cell t.screen.cursorAtY (t.screen.cursorAtX - 1)).interactable then t
  else { t with toLineInput := t.toLineInput.deleteChar, screen := t.screen.deleteCell }

/-- The `while` loop of `replaceCurrentToken`, for at most `n` more characters. -/
def moveToTokenEnd : Nat → Terminal → Terminal
  | 0, t => t
  | n + 1, t =>
    if t.lineInputCursorPos < t.lineInputLength ∧
        t.lineInputBuffer t.lineInputCursorPos ≠ space then
      moveToTokenEnd n (t.cursorMoveInline true)
    else t

/-- The first two loops of `replaceCurrentToken`: behind the token, and back over it. -/
def removeToken (oldToken : CString) (t : Terminal) : Terminal :=
  Loop.upTo (fun _ => handleInputBufferDeletion) oldToken.length
    (t.moveToTokenEnd (t.lineInputLength - t.lineInputCursorPos))

/-- The last loop of `replaceCurrentToken`. -/
def insertChars (chars : CString) (t : Terminal) : Terminal :=
  chars.foldl (fun t c => t.insertCharAtCursor c) t

def replaceCurrentToken (oldToken newToken : CString) (t : Terminal) : Terminal :=
  (t.removeToken oldToken).insertChars newToken

/-! ## Keys -/

def newTerminalInputLine (t : Terminal) : Terminal :=
  let t' := t.prints [.chars (t.currentPath ++ literal " >> ") .white]
  { t' with lineInputStartX := t'.screen.cursorAtX }

def displayTerminalError (text : CString) (t : Terminal) : Terminal :=
  (t.prints (.newline :: PrintCall.error text)).resetLineInput

def processLineInputBuffer (sh : Shell) (t : Terminal) : Terminal :=
  if t.lineInputLength = 0 then (t.prints [.newline]).resetLineInput
  else if t.lineInputLength ≥ terminalBufferSize then
    t.displayTerminalError (literal "Command exceeds 256 chars")
  else
    let t' := t.addCommandToHistory (t.stringFrom 0)
    let (line, args) := t'.getInputArgs
    let t'' := { t' with toLineInput := line }
    match t''.executeCommand sh args with
    | some done => done.resetLineInput
    | none =>
      t''.displayTerminalError (literal "Unknown Command: '" ++ t''.stringFrom 0 ++ literal "'")

/-- The commands that start with the token at the cursor. -/
def candidates (t : Terminal) : List CString :=
  commandNames.filter fun name => strStartsWith name t.getCurrTokenFromBuffer

/-- The printing calls of `handleTabAutoCompletion` that show several candidates. -/
def showCandidates (names : List CString) : List PrintCall :=
  let shown := names.map fun name => PrintCall.chars name .white
  PrintCall.newline :: shown.intersperse (.chars (literal " | ") .white) ++ [.newline]

/-- The last branch of `handleTabAutoCompletion`. -/
def listCandidates (names : List CString) (t : Terminal) : Terminal :=
  let t' := (t.prints (showCandidates names)).newTerminalInputLine.printLine
  { t' with lineInputCursorPos := t'.lineInputLength }

def handleTabAutoCompletion (t : Terminal) : Terminal :=
  if t.lineInputLength = 0 then t
  else if t.getCurrTokenFromBuffer = [] then t
  else match t.candidates with
    | [] => t
    | [name] => t.replaceCurrentToken t.getCurrTokenFromBuffer name
    | names => t.listCandidates names

/-- `terminal_on_key`, for an extended scancode. -/
def onExtendedKey (scancode : UInt8) (t : Terminal) : Terminal :=
  if scancode = 0x48 then
    if t.cmdHistCount = 0 then t
    else if t.goThroughHistoryCount < t.cmdHistCount then
      handleShowHistory { t with goThroughHistoryCount := t.goThroughHistoryCount + 1 }
    else t
  else if scancode = 0x50 then
    if t.goThroughHistoryCount = 0 then t
    else
      let t' := { t with goThroughHistoryCount := t.goThroughHistoryCount - 1 }
      if t'.goThroughHistoryCount = 0 then t'.clearInputOnScreen.resetLineInput
      else t'.handleShowHistory
  else if scancode = 0x4B then t.cursorMoveInline false
  else if scancode = 0x4D then t.cursorMoveInline true
  else t

/-- `terminal_on_key`, for any other scancode. -/
def onPlainKey (sh : Shell) (scancode : UInt8) (t : Terminal) : Terminal :=
  let key := scancodeToKeycode t.shift scancode
  if key = .enter then
    (processLineInputBuffer sh { t with goThroughHistoryCount := 0 }).newTerminalInputLine
  else if key = .backspace then t.handleInputBufferDeletion
  else if key = .tab then t.handleTabAutoCompletion
  else t.handleInputBufferInsertion scancode

def terminalOnKey (sh : Shell) (scancode : UInt8) (t : Terminal) : Terminal :=
  if t.isExtendedScancode then { t.onExtendedKey scancode with isExtendedScancode := false }
  else t.onPlainKey sh scancode

def terminalInit (t : Terminal) : Terminal :=
  (t.prints (PrintCall.terminalHeader t.screen.maxChars)).newTerminalInputLine

end Terminal

end EszOs
