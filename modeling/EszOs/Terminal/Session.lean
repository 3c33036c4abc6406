import EszOs.Rendering.Transcript
import EszOs.Terminal.Refinement
import EszOs.Terminal.Token
import Mathlib.Data.List.DropRight

/-!
# A session

What a user sees is a transcript of lines: those above, and the current one with the prompt and what is
typed behind it. `Session` is that transcript with the line editor, the history and the working
directory, and `Session.step` is all that a key does to it.

* `respond`: what a submitted line prints, and the working directory after it.
* `tokenAt_iff`: the word at the cursor.
-/

namespace EszOs

/-! ## Responses -/

/-- What the commands print that report on another subsystem, by name, arguments and working
directory. -/
abbrev Report := CString → CString → CString → List PrintCall

def Report.shell (report : Report) : Shell := fun name args t => report name args t.currentPath

/-- What a call writes. -/
def writeCall (width : Nat) (t : Transcript Cell) : PrintCall → Transcript Cell
  | .chars text color => text.foldl (Screen.writeTextChar width color false) t
  | .newline => t.breakLine
  | .clear => ⟨[], []⟩

def writeCalls (width : Nat) (t : Transcript Cell) (calls : List PrintCall) : Transcript Cell :=
  calls.foldl (writeCall width) t

/-- What the command with that name does. -/
def answer (report : Report) (history : List CString) (path name args : CString) : Effect :=
  if name = literal "help" then ⟨Terminal.cmdHelp, path⟩
  else if name = literal "history" then ⟨history.flatMap fun line => PrintCall.line line .white, path⟩
  else if name = literal "echo" then ⟨PrintCall.line args .white, path⟩
  else if name = literal "clear" then ⟨[.clear], path⟩
  else if name = literal "sysinfo" then ⟨PrintCall.sysinfo, path⟩
  else if name = literal "reboot" then ⟨[], path⟩
  else if name = literal "cd" then ⟨[], (filesystemChangeDirectory path args).getD path⟩
  else if name = literal "pwd" then ⟨PrintCall.line path .white, path⟩
  else ⟨report name args path, path⟩

/-- A line is its first word, and the arguments behind a space. -/
def commandName (line : CString) : CString := line.takeWhile (· != space)

def commandArgs (line : CString) : CString := (line.dropWhile (· != space)).drop 1

/-- What a submitted line does, on a line of its own. -/
def respond (report : Report) (history : List CString) (path line : CString) : Effect :=
  if line = [] then ⟨[], path⟩
  else if commandName line ∈ Terminal.commandNames then
    answer report history path (commandName line) (commandArgs line)
  else
    ⟨PrintCall.error (literal "Unknown Command: '" ++ commandName line ++ literal "'"), path⟩

/-- The history after a line was submitted. -/
def record (history : List CString) (line : CString) : List CString :=
  if line = [] then history else (history ++ [line]).rtake maxCommandHistory

theorem length_record_le {history : List CString} (h : history.length ≤ maxCommandHistory)
    (line : CString) : (record history line).length ≤ maxCommandHistory := by
  unfold record
  split
  · exact h
  · rw [List.length_rtake]
    exact Nat.min_le_left _ _

/-! ## Words -/

/-- The word at the cursor, with what is in front of it and behind. -/
def wordAt (text : CString) (cursor : Nat) : CString × CString × CString :=
  ((text.take cursor).rdropWhile (· != space),
    (text.take cursor).rtakeWhile (· != space) ++ (text.drop cursor).takeWhile (· != space),
    (text.drop cursor).dropWhile (· != space))

/-- Only the next spaces matter. -/
theorem wordAt_append {a v w b : CString} (ha : ∀ c ∈ a.getLast?, c = space) (hv : space ∉ v)
    (hw : space ∉ w) (hb : ∀ c ∈ b.head?, c = space) :
    wordAt (a ++ v ++ (w ++ b)) (a ++ v).length = (a, v ++ w, b) := by
  have hword : ∀ {l : CString}, space ∉ l → ∀ c ∈ l, (c != space) = true :=
    fun h c hc => bne_iff_ne.mpr fun heq => h (heq ▸ hc)
  have hdrop : ∀ {l : CString}, (∀ c ∈ l.head?, c = space) → l.dropWhile (· != space) = l ∧
      l.takeWhile (· != space) = [] := by
    rintro (_ | ⟨c, l⟩) h
    · exact ⟨rfl, rfl⟩
    · simp [h c rfl]
  obtain ⟨hadrop, hatake⟩ := hdrop (l := a.reverse) (by rw [List.head?_reverse]; exact ha)
  obtain ⟨hbdrop, hbtake⟩ := hdrop hb
  have hv' := hword (l := v.reverse) (by rw [List.mem_reverse]; exact hv)
  rw [wordAt, List.take_left, List.drop_left, List.rdropWhile, List.rtakeWhile, List.reverse_append,
    List.dropWhile_append_of_pos hv', List.takeWhile_append_of_pos hv',
    List.dropWhile_append_of_pos (hword hw), List.takeWhile_append_of_pos (hword hw), hadrop, hatake,
    hbdrop, hbtake, List.append_nil, List.append_nil, List.reverse_reverse, List.reverse_reverse]

theorem tokenAt_iff {text : CString} {cursor : Nat} (hle : cursor ≤ text.length) {a token b : CString} :
    TokenAt text cursor a token b ↔ wordAt text cursor = (a, token, b) ∧ token ≠ [] := by
  constructor
  · intro h
    obtain ⟨k, hk⟩ := Nat.exists_eq_add_of_le h.cursor_ge
    have hcursor := h.cursor_le
    have hnot : ∀ {l : CString}, l ⊆ token → space ∉ l := fun hl hspace => h.word (hl hspace)
    have hsplit : text = a ++ token.take k ++ (token.drop k ++ b) := by
      rw [h.split, List.append_assoc, List.append_assoc, ← List.append_assoc (token.take k),
        List.take_append_drop]
    have hlength : cursor = (a ++ token.take k).length := by
      rw [List.length_append, List.length_take]
      omega
    have hword := wordAt_append h.starts (hnot (List.take_subset k token))
      (hnot (List.drop_subset k token)) h.ends
    rw [← hsplit, ← hlength, List.take_append_drop] at hword
    exact ⟨hword, h.ne_nil⟩
  · rintro ⟨hword, hne⟩
    obtain ⟨rfl, rfl, rfl⟩ : _ ∧ _ ∧ _ := by simpa [wordAt] using hword
    have hfront := List.rdropWhile_append_rtakeWhile (p := (· != space)) (l := text.take cursor)
    have hbehind := List.takeWhile_append_dropWhile (p := (· != space)) (l := text.drop cursor)
    have hlength := congrArg List.length hfront
    rw [List.length_append, List.length_take] at hlength
    refine ⟨?_, hne, ?_, ?_, ?_, by omega, ?_⟩
    · rw [← List.append_assoc, hfront, List.append_assoc, hbehind, List.take_append_drop]
    · rw [List.mem_append, not_or]
      exact ⟨fun h => absurd (List.mem_rtakeWhile_imp h) (by simp),
        fun h => absurd (List.mem_takeWhile_imp h) (by simp)⟩
    · intro c hc
      obtain ⟨hl, rfl⟩ := List.mem_getLast?_eq_getLast hc
      simpa using List.rdropWhile_last_not (· != space) _ hl
    · intro c hc
      have hstop := List.head?_dropWhile_not (· != space) (text.drop cursor)
      rw [Option.mem_def.mp hc] at hstop
      simpa using hstop
    · rw [List.length_append]
      omega

/-! ## Sessions -/

/-- The lines so far, of which the current one is the prompt. -/
structure Session where
  lines : Transcript Cell
  editor : LineEditor UInt8
  path : CString

/-- The Tab key, which completes the word at the cursor. -/
def Key.IsTab (k : Key) : Prop :=
  k.isExtendedScancode = false ∧ scancodeToKeycode k.shift k.scancode = .tab

instance (k : Key) : Decidable k.IsTab := inferInstanceAs (Decidable (_ ∧ _))

namespace Session

/-- The lines as they are on the screen. -/
def visible (s : Session) : Transcript Cell :=
  { s.lines with current := s.lines.current ++ s.editor.text.map Terminal.typedCell }

/-- The prompt for the next line, behind what was written. -/
def prompted (width : Nat) (lines : Transcript Cell) (history : List CString) (path : CString) :
    Session where
  lines := writeCall width lines (.chars (path ++ literal " >> ") .white)
  editor := LineEditor.fresh history
  path := path

/-- The session that starts after `lines` were written. -/
def start (width : Nat) (lines : Transcript Cell) : Session :=
  prompted width (writeCalls width lines (PrintCall.terminalHeader width)) [] rootPath

/-- Enter. -/
def enter (width : Nat) (report : Report) (s : Session) : Session :=
  let history := record s.editor.history s.editor.text
  let response := respond report history s.path s.editor.text
  prompted width (writeCalls width s.visible.breakLine response.prints) history response.currentPath

/-- The word at the cursor becomes `name`. -/
def replaceWord (name : CString) (s : Session) : Session :=
  let (a, _, b) := wordAt s.editor.text s.editor.cursor
  { s with
    editor := { s.editor with
      text := a ++ name ++ b
      cursor := a.length + name.length
      cursor_le := by simp } }

/-- The names are shown, and the line stands behind a new prompt. -/
def listNames (width : Nat) (names : List CString) (s : Session) : Session :=
  { prompted width (writeCalls width s.visible (Terminal.showCandidates names)) s.editor.history s.path with
    editor := { s.editor with cursor := s.editor.text.length, cursor_le := Nat.le_refl _ } }

/-- Tab. A word with nothing but one space in front of it is not completed. -/
def complete (width : Nat) (s : Session) : Session :=
  let (a, token, _) := wordAt s.editor.text s.editor.cursor
  if a = [space] ∨ token = [] then s
  else match Terminal.commandNames.filter fun name => token.isPrefixOf name with
    | [] => s
    | [name] => s.replaceWord name
    | names => s.listNames width names

/-- A key, and what the commands report when it is pressed. -/
def step (width : Nat) (s : Session) (input : Report × Key) : Session :=
  if input.2.IsEnter then s.enter width input.1
  else if input.2.IsTab then s.complete width
  else match input.2.edit with
    | some edit => { s with editor := s.editor.step edit }
    | none => s

/-- Before, between and after the keys. -/
abbrev states (width : Nat) (s : Session) (inputs : List (Report × Key)) : List Session :=
  Runs.states (fun s input => some (s.step width input)) s inputs

/-- The prompt and the input fit the line of the screen, and the input its buffer. -/
def Fits (width : Nat) (s : Session) : Prop := Terminal.Fits s.lines.current width s.editor

instance (width : Nat) (s : Session) : Decidable (s.Fits width) :=
  inferInstanceAs (Decidable (Terminal.Fits _ _ _))

end Session

end EszOs
