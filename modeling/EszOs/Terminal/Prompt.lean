import EszOs.Terminal.Columns

/-!
# Prompts

The screen's cells that printing calls store are not interactable, so neither is a prompt.

* `FreshPrompt`: the terminal shows a prompt, and no input behind it.
* `terminalInit_freshPrompt`, `enter_freshPrompt`: it does at the start and after every Enter.
-/

namespace EszOs

namespace Screen

/-! ## Printed cells -/

/-- No cell of the current line is interactable. -/
def Plain (s : Screen) : Prop := ∀ c ∈ s.row s.cursorAtY, c.interactable = false

theorem plain_of_empty {s : Screen} (h : s.amountOfCells s.cursorAtY = 0) : s.Plain := by
  intro c hc
  rw [row_of_empty h] at hc
  cases hc

theorem newline_plain {s : Screen} (h : s.InLines) : s.newline.Plain :=
  plain_of_empty (newline_empty h)

theorem printChar_plain {s : Screen} (h : s.Printing) (hend : s.AtEnd) (hplain : s.Plain)
    (c : UInt8) (color : Color) : (s.printChar c color false).Plain := by
  obtain ⟨t, ht, heq⟩ := printChar_eq h.buffered h.notRedrawing c color false
  rw [heq, handleAutomaticNewline]
  split
  · exact newline_plain (ht.inLines (typed_inLines h _).1)
  · have hY : t.cursorAtY = s.cursorAtY := by
      rw [ht.cursorAtY, typed, putCell_of_le h.amount_le_cursorAtX]
      rfl
    intro cell hcell
    rw [hY, ht.row, row_typed h hend, List.mem_append, List.mem_singleton] at hcell
    obtain hcell | rfl := hcell
    · exact hplain cell hcell
    · rfl

theorem printChars_plain {s : Screen} (h : s.Printing) (hend : s.AtEnd) (hplain : s.Plain)
    (text : CString) (color : Color) : (s.printChars text color false).Plain := by
  induction text generalizing s with
  | nil => exact hplain
  | cons c text ih =>
    refine ih (printTextChar_printing h color false c) (printTextChar_atEnd h hend color false c) ?_
    unfold printTextChar
    split
    · exact hplain
    · split
      · exact newline_plain h.toInLines
      · exact printChar_plain h hend hplain c color

theorem clear_plain {s : Screen} (h : s.InLines) : (PrintCall.clear.run s).Plain := by
  have hrun : PrintCall.clear.run s = { draw .black s.initEmptyScreenBuffer with
      cursorAtX := 0, cursorAtY := 0, cursorRenderedX := 0, cursorRenderedY := 0 } := by
    rw [PrintCall.run, clearScreen, if_pos h.buffered]
  have hpos : 0 < s.maxLines + scrollHistoryLines := by
    have := h.stored
    have := h.cursorAtY_nonneg
    have := h.cursorAtY_lt
    omega
  rw [hrun]
  exact plain_of_empty (if_pos ⟨Int.le_refl 0, hpos⟩)

theorem run_plain {s : Screen} (h : s.Printing) (hend : s.AtEnd) (hplain : s.Plain)
    (call : PrintCall) : (call.run s).Plain := by
  cases call with
  | chars text color => exact printChars_plain h hend hplain text color
  | newline => exact newline_plain h.toInLines
  | clear => exact clear_plain h.toInLines

theorem runAll_plain {s : Screen} (h : s.Printing) (hend : s.AtEnd) (hplain : s.Plain)
    (calls : List PrintCall) : (PrintCall.runAll calls s).Plain := by
  induction calls generalizing s with
  | nil => exact hplain
  | cons call calls ih =>
    exact ih (run_printing h call) (run_atEnd h hend call) (run_plain h hend hplain call)

end Screen

namespace Terminal

/-! ## Fresh prompts -/

/-- The current line shows a prompt, with nothing typed behind it. -/
structure FreshPrompt (prompt : List Cell) (t : Terminal) : Prop where
  lines : t.screen.InLines
  row : t.screen.row t.screen.cursorAtY = prompt
  plain : ∀ c ∈ prompt, c.interactable = false
  column : t.screen.cursorAtX = prompt.length
  start : t.lineInputStartX = prompt.length
  empty : t.lineInputLength = 0
  cursor : t.lineInputCursorPos = 0
  recalled : t.goThroughHistoryCount = 0

/-- The prompt that the current line shows. -/
def prompt (t : Terminal) : List Cell := t.screen.row t.screen.cursorAtY

theorem newTerminalInputLine_freshPrompt {t : Terminal} (hprint : t.screen.Printing)
    (hend : t.screen.AtEnd) (hplain : t.screen.Plain) (hempty : t.lineInputLength = 0)
    (hcursor : t.lineInputCursorPos = 0) (hrecalled : t.goThroughHistoryCount = 0) :
    FreshPrompt t.newTerminalInputLine.prompt t.newTerminalInputLine := by
  let calls := [PrintCall.chars (t.currentPath ++ literal " >> ") .white]
  have hprint' := Screen.runAll_printing hprint calls
  have hend' := Screen.runAll_atEnd hprint hend calls
  have hX : (PrintCall.runAll calls t.screen).cursorAtX =
      ((PrintCall.runAll calls t.screen).row
        (PrintCall.runAll calls t.screen).cursorAtY).length := by
    rw [Screen.length_row, ← hend', Int.toNat_of_nonneg hprint'.cursorAtX_nonneg]
  exact ⟨hprint'.toInLines, rfl, Screen.runAll_plain hprint hend hplain calls, hX, hX, hempty,
    hcursor, hrecalled⟩

/-- The prompt of `terminal_init`. -/
theorem terminalInit_freshPrompt {screen : Screen} (h : screen.Printing) :
    FreshPrompt (boot screen).terminalInit.prompt (boot screen).terminalInit := by
  have hlines := (Screen.printChars_printing h (List.replicate (screen.maxChars / 2).toNat 0x2D)
    .darkGray false).toInLines
  obtain ⟨hprint, hend⟩ := Screen.newline_spec hlines
  let rest := (PrintCall.terminalHeader screen.maxChars).drop 2
  exact newTerminalInputLine_freshPrompt
    (t := (boot screen).prints (PrintCall.terminalHeader screen.maxChars))
    (Screen.runAll_printing hprint rest) (Screen.runAll_atEnd hprint hend rest)
    (Screen.runAll_plain hprint hend (Screen.newline_plain hlines) rest) rfl rfl rfl

/-- In an empty line of the screen, the prompt is that of the working directory. -/
theorem newTerminalInputLine_prompt {t : Terminal} (hprint : t.screen.Printing)
    (hend : t.screen.AtEnd) (hempty : t.screen.amountOfCells t.screen.cursorAtY = 0)
    {text : CString} (htext : t.currentPath ++ literal " >> " = text)
    (hbreaks : ∀ c ∈ text, c ≠ 0x0A ∧ c ≠ 0x0D) (hfits : text.length < t.screen.maxChars) :
    t.newTerminalInputLine.prompt = text.map fun c => ⟨.white, c, false⟩ := by
  obtain ⟨hY, -, hrow⟩ := Screen.printChars_row hprint hend hbreaks
    (by rw [hend, hempty]; omega) .white false
  subst htext
  show (Screen.printChars _ _ _ _).row (Screen.printChars _ _ _ _).cursorAtY = _
  rw [hY, hrow, Screen.row_of_empty hempty, List.nil_append]

/-- On a screen that it fits, the first prompt is the root directory's. -/
theorem terminalInit_prompt {screen : Screen} (h : screen.Printing) (hwide : 5 < screen.maxChars) :
    (boot screen).terminalInit.prompt = (literal "/ >> ").map fun c => ⟨.white, c, false⟩ := by
  have hseparator : ∀ calls, calls ++ PrintCall.separator screen.maxChars =
      (calls ++ [.chars (List.replicate (screen.maxChars / 2).toNat 0x2D) .darkGray]) ++
        [.newline] := fun calls => (List.append_assoc calls [_] [_]).symm
  obtain ⟨calls, hcalls⟩ : ∃ calls, PrintCall.terminalHeader screen.maxChars =
      calls ++ [.newline] := ⟨_, hseparator _⟩
  have hbefore := (Screen.runAll_printing h calls).toInLines
  have hscreen : ((boot screen).prints (PrintCall.terminalHeader screen.maxChars)).screen =
      (PrintCall.runAll calls screen).newline := by
    rw [hcalls]
    exact List.foldl_append
  obtain ⟨hprint, hend⟩ := Screen.newline_spec hbefore
  have hempty := Screen.newline_empty hbefore
  have hmax : (PrintCall.runAll calls screen).newline.maxChars = screen.maxChars :=
    (Screen.maxChars_newline hbefore).trans (Screen.maxChars_runAll h calls)
  rw [← hscreen] at hprint hend hempty hmax
  have hpath : rootPath ++ literal " >> " = literal "/ >> " := rfl
  exact newTerminalInputLine_prompt hprint hend hempty hpath (by decide +kernel) (by rw [hmax]; exact hwide)

/-- The prompt after Enter, whatever was typed and whatever the command did. -/
theorem enter_freshPrompt {t : Terminal} (h : t.OnScreen) (sh : Shell) {scancode : UInt8}
    (henter : scancodeToKeycode t.shift scancode = .enter) :
    FreshPrompt (t.onPlainKey sh scancode).prompt (t.onPlainKey sh scancode) := by
  obtain ⟨calls, u, heq, hscreen, hcount⟩ :=
    processLineInputBuffer_prints sh { t with goThroughHistoryCount := 0 }
  have hrun : t.onPlainKey sh scancode = u.resetLineInput.newTerminalInputLine := by
    unfold onPlainKey
    dsimp only
    rw [if_pos henter, heq]
  obtain ⟨hprint, hend⟩ := Screen.newline_spec h.lines
  have hplain := Screen.newline_plain h.lines
  rw [hrun]
  refine newTerminalInputLine_freshPrompt ?_ ?_ ?_ rfl rfl hcount
  · exact hscreen ▸ Screen.runAll_printing hprint calls
  · exact hscreen ▸ Screen.runAll_atEnd hprint hend calls
  · exact hscreen ▸ Screen.runAll_plain hprint hend hplain calls

end Terminal

end EszOs
