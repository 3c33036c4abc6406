import EszOs.Terminal.Completion
import EszOs.Terminal.Responses

/-!
# The terminal shows a session

Whatever is typed and submitted, as long as it fits, the terminal does what the session does.

* `Shows`: the relation between the two, which every key keeps.
* `Simulates.press_same`: an editing key changes the current line only.
* `session_shown`: whole runs, from the start of the terminal on.
-/

namespace EszOs

namespace Screen

/-! ## The lines above -/

/-- The lines above the cursor's, and what places it. -/
structure SameAbove (s s' : Screen) : Prop where
  cursorAtY : s'.cursorAtY = s.cursorAtY
  maxStoredLines : s'.maxStoredLines = s.maxStoredLines
  above : s'.rowsTo s.cursorAtY.toNat = s.rowsTo s.cursorAtY.toNat

theorem SameAbove.refl (s : Screen) : SameAbove s s := ⟨rfl, rfl, rfl⟩

theorem SameAbove.trans {s s' s'' : Screen} (h : SameAbove s s') (h' : SameAbove s' s'') :
    SameAbove s s'' :=
  ⟨h'.cursorAtY.trans h.cursorAtY, h'.maxStoredLines.trans h.maxStoredLines,
    (h.cursorAtY ▸ h'.above).trans h.above⟩

theorem Redrawn.sameAbove {s s' : Screen} (h : Redrawn s s') : SameAbove s s' := by
  obtain ⟨x, y, d, rfl⟩ := h
  exact ⟨rfl, rfl, rfl⟩

/-- An edit of the current line. -/
theorem ChangesLine.sameAbove {s s' : Screen} (h : ChangesLine s s') (hlines : s.InLines) :
    SameAbove s s' := by
  obtain ⟨⟨cells, w, n, x, rfl⟩, hother⟩ := h
  refine ⟨rfl, rfl, rowsTo_congr fun y h0 hlt => ?_⟩
  have hY := hlines.cursorAtY_nonneg
  have hne : y ≠ s.cursorAtY := by omega
  have hle := hlines.amount_le y h0 (by have := hlines.cursorAtY_lt; omega)
  exact row_congr (if_neg hne) fun x hx hxlt => hother y x hne hx (by omega)

theorem moveCursor_sameAbove (dx : Int) (s : Screen) : SameAbove s (s.moveCursor dx) :=
  have hmoved : SameAbove s { s with cursorAtX := s.cursorAtX + dx } := ⟨rfl, rfl, rfl⟩
  hmoved.trans (moveCursor_redrawn dx s).sameAbove

/-! ## Text that fits -/

/-- A text without line breaks that fits the line follows what was written. -/
theorem writeText_of_fits {width : Nat} {text : CString} (htext : ∀ c ∈ text, c ≠ 0x0A ∧ c ≠ 0x0D)
    {t : Transcript Cell} (hfits : t.current.length + text.length < width) (color : Color)
    (interactable : Bool) :
    text.foldl (writeTextChar width color interactable) t =
      { t with current := t.current ++ text.map fun c => ⟨color, c, interactable⟩ } := by
  induction text generalizing t with
  | nil => simp
  | cons c text ih =>
    obtain ⟨⟨hlf, hcr⟩, hrest⟩ := List.forall_mem_cons.mp htext
    rw [List.length_cons] at hfits
    have hput : writeTextChar width color interactable t c =
        { t with current := t.current ++ [⟨color, c, interactable⟩] } := by
      rw [writeTextChar, if_neg hcr, if_neg hlf, Transcript.put]
      exact if_neg (by simp only [List.length_append, List.length_singleton]; omega)
    rw [List.foldl_cons, hput, ih hrest (by simp only [List.length_append, List.length_singleton]; omega)]
    simp

/-- A text that fits the line leaves the lines above it alone. -/
theorem printChars_sameAbove {s : Screen} (h : s.Printing) (hend : s.AtEnd) {text : CString}
    (htext : ∀ c ∈ text, c ≠ 0x0A ∧ c ≠ 0x0D) (hfits : s.cursorAtX + text.length < s.maxChars)
    (color : Color) (interactable : Bool) : SameAbove s (s.printChars text color interactable) := by
  have hself := mirrors_transcript h.toInLines hend
  have hprinted := hself.printChars h text color interactable
  obtain ⟨hY, -, -⟩ := printChars_row h hend htext hfits color interactable
  have hX := h.cursorAtX_nonneg
  have hcurrent : (s.row s.cursorAtY).length = s.cursorAtX.toNat := by rw [length_row, ← hend]
  rw [writeText_of_fits htext (by show (s.row s.cursorAtY).length + _ < _; omega)] at hprinted
  have habove := hprinted.above
  rw [hY] at habove
  exact ⟨hY, hprinted.stored, habove.trans hself.above.symm⟩

end Screen

namespace Terminal

/-! ## Edits -/

/-- What an editing key leaves alone. -/
structure SameSession (t t' : Terminal) : Prop extends Screen.SameAbove t.screen t'.screen where
  path : t'.currentPath = t.currentPath

/-- What it leaves alone if it does not recall a line. -/
structure SameHistory (t t' : Terminal) : Prop extends SameSession t t' where
  history : t'.historyLines = t.historyLines
  recalled : t'.goThroughHistoryCount = t.goThroughHistoryCount

theorem SameHistory.refl (t : Terminal) : SameHistory t t := ⟨⟨Screen.SameAbove.refl _, rfl⟩, rfl, rfl⟩

theorem SameHistory.trans {t t' t'' : Terminal} (h : SameHistory t t') (h' : SameHistory t' t'') :
    SameHistory t t'' :=
  ⟨⟨h.toSameAbove.trans h'.toSameAbove, h'.path.trans h.path⟩, h'.history.trans h.history,
    h'.recalled.trans h.recalled⟩

theorem cursorMoveInline_same (t : Terminal) (moveRight : Bool) :
    SameHistory t (t.cursorMoveInline moveRight) := by
  unfold Terminal.cursorMoveInline
  split <;> split
  · exact SameHistory.refl t
  · exact ⟨⟨Screen.moveCursor_sameAbove 1 t.screen, rfl⟩, rfl, rfl⟩
  · exact SameHistory.refl t
  · exact ⟨⟨Screen.moveCursor_sameAbove (-1) t.screen, rfl⟩, rfl, rfl⟩

theorem moveToTokenEnd_same (n : Nat) (t : Terminal) : SameHistory t (t.moveToTokenEnd n) := by
  induction n generalizing t with
  | zero => exact SameHistory.refl t
  | succ n ih =>
    rw [Terminal.moveToTokenEnd]
    split
    · exact (cursorMoveInline_same t true).trans (ih _)
    · exact SameHistory.refl t

namespace OnScreen

variable {t : Terminal}

theorem insertCharAtCursor_same (h : t.OnScreen) (h0 : 0 ≤ t.screen.cursorAtX)
    (hfree : t.screen.amountOfCells t.screen.cursorAtY < t.screen.maxChars) (c : UInt8) :
    SameHistory t (t.insertCharAtCursor c) := by
  have hshift := Screen.shiftInCell_changesLine h0 h.cursorAtX_le hfree c
  exact ⟨⟨(hshift.sameAbove h.lines).trans (Screen.insertCell_redrawn h.notRedrawing c).sameAbove, rfl⟩,
    rfl, rfl⟩

theorem insertChars_same (h : t.OnScreen) {chars : CString} (hfits : chars ≠ [] → t.RoomInLine chars) :
    SameHistory t (t.insertChars chars) := by
  induction chars generalizing t with
  | nil => exact SameHistory.refl t
  | cons c chars ih =>
    obtain ⟨h0, hroom⟩ := hfits (List.cons_ne_nil _ _)
    rw [List.length_cons] at hroom
    have hedit := Screen.insertCell_edited h.notRedrawing c
    refine (h.insertCharAtCursor_same h0 (by omega) c).trans
      (ih (h.insertCharAtCursor h0 (by omega) c) fun _ => ?_)
    show 0 ≤ (t.screen.insertCell c).cursorAtX ∧ (t.screen.insertCell c).amountOfCells
      (t.screen.insertCell c).cursorAtY + chars.length ≤ (t.screen.insertCell c).maxChars
    rw [hedit.cursorAtX, hedit.cursorAtY, hedit.amountOfCells, hedit.maxChars]
    omega

theorem handleInputBufferDeletion_same (h : t.OnScreen) : SameHistory t t.handleInputBufferDeletion := by
  unfold Terminal.handleInputBufferDeletion
  split
  · exact SameHistory.refl t
  · split
    · exact SameHistory.refl t
    · split
      · exact SameHistory.refl t
      · split
        · exact SameHistory.refl t
        · have hshift := Screen.shiftOutCell_changesLine (by omega) h.cursorAtX_le
            h.lines.amount_cursor_le
          exact ⟨⟨(hshift.sameAbove h.lines).trans (Screen.deleteCell_redrawn h.notRedrawing).sameAbove,
            rfl⟩, rfl, rfl⟩

theorem removeToken_same (h : t.OnScreen) (oldToken : CString) :
    SameHistory t (t.removeToken oldToken) := by
  have hloop : (t.removeToken oldToken).OnScreen ∧ SameHistory t (t.removeToken oldToken) :=
    Loop.upTo_induct (P := fun u : Terminal => u.OnScreen ∧ SameHistory t u)
      (fun _ _ _ hu => ⟨hu.1.handleInputBufferDeletion, hu.2.trans hu.1.handleInputBufferDeletion_same⟩)
      ⟨h.moveToTokenEnd _, moveToTokenEnd_same _ t⟩
  exact hloop.2

end OnScreen

namespace Simulates

variable {prompt : List Cell} {maxChars : Int} {t : Terminal} {e : LineEditor UInt8}

theorem onScreen (h : Simulates prompt maxChars t e) (hfits : Terminal.Fits prompt maxChars e) :
    t.OnScreen := by
  have hle := e.cursor_le
  have hroom := hfits.1
  refine ⟨h.lines, ?_, ?_, ?_, ?_⟩
  · rw [h.cursor, h.length]
    exact hle
  · rw [h.amountOfCells, h.cursorAtX, h.length, h.cursor]
    omega
  · rw [h.start]
    omega
  · rw [h.start, h.width]
    omega

theorem insertCharAtCursor_same (h : Simulates prompt maxChars t e) (hfits : Terminal.Fits prompt maxChars e)
    (c : UInt8) : SameHistory t (t.insertCharAtCursor c) := by
  refine (h.onScreen hfits).insertCharAtCursor_same ?_ ?_ c
  · rw [h.cursorAtX]
    omega
  · rw [h.amountOfCells, h.width]
    exact hfits.1

/-! ## Editing keys -/

theorem clearInput_same (h : Simulates prompt maxChars t e) :
    Screen.SameAbove t.screen (t.screen.clearInput t.lineInputStartX) := by
  have hstart : 0 ≤ t.lineInputStartX := by
    rw [h.start]
    omega
  have hblank := Screen.blankInput_changesLine (s := t.screen) hstart
  exact (hblank.sameAbove h.lines).trans (Screen.clearInput_redrawn h.notRedrawing _).sameAbove

theorem handleShowHistory_same (h : Simulates prompt maxChars t e) {n : Nat} (hn : n ≤ e.history.length)
    (hpos : n ≠ 0) (hprintable : ∀ line ∈ e.history, Printable line)
    (hfits : Terminal.Fits prompt maxChars (e.recallLine n hn)) :
    SameSession t { t with goThroughHistoryCount := n }.handleShowHistory := by
  have hlength := h.length_history
  obtain ⟨text, hentry⟩ : ∃ text, t.commandHistory (t.cmdHistCount - n) = text := ⟨_, rfl⟩
  have htext : Printable text := by
    refine hprintable text ?_
    rw [← h.history, ← hentry]
    exact List.mem_map.mpr ⟨_, List.mem_range.mpr (by omega), rfl⟩
  have hrecalled : LineEditor.entry e.history n = text := (h.entry_eq hn hpos).trans hentry
  have hroom : prompt.length + text.length < maxChars := hrecalled ▸ hfits.1
  obtain ⟨hprint, hend, -⟩ := h.clearInput (by omega)
  have hedit := Screen.clearInput_edited h.notRedrawing t.lineInputStartX
  have hbreaks : ∀ c ∈ text, c ≠ 0x0A ∧ c ≠ 0x0D :=
    fun c hc => ⟨htext.ne hc (by decide), htext.ne hc (by decide)⟩
  have hshown := Screen.printChars_sameAbove hprint hend hbreaks
    (by rw [hedit.cursorAtX, hedit.maxChars, h.start, h.width]; exact hroom) .white true
  have hscreen := screen_handleShowHistory (t := { t with goThroughHistoryCount := n }) htext hentry
  exact ⟨hscreen ▸ h.clearInput_same.trans hshown, rfl⟩

theorem onPlainKey_same (h : Simulates prompt maxChars t e) (sh : Shell) {k : Key}
    (hext : k.isExtendedScancode = false) (hshift : t.shift = k.shift)
    {edit : LineEditor.Edit UInt8} (hedit : k.edit = some edit)
    (hfits : Terminal.Fits prompt maxChars e) : SameSession t (t.onPlainKey sh k.scancode) := by
  unfold Key.edit at hedit
  rw [if_neg (by rw [hext]; exact Bool.false_ne_true)] at hedit
  unfold Terminal.onPlainKey
  rw [hshift]
  dsimp only at hedit ⊢
  split at hedit
  · rename_i hback
    rw [if_neg (by rw [hback]; decide), if_pos hback]
    exact (h.onScreen hfits).handleInputBufferDeletion_same.toSameSession
  · rename_i hback
    split at hedit
    · rename_i hchar
      obtain ⟨henter, htab, hzero⟩ := printable_keycode hchar
      rw [if_neg henter, if_neg hback, if_neg htab, handleInputBufferInsertion, hshift, if_neg hzero]
      exact (h.insertCharAtCursor_same hfits _).toSameSession
    · cases hedit

theorem onExtendedKey_up_same (h : Simulates prompt maxChars t e)
    (hprintable : ∀ line ∈ e.history, Printable line) (hfits' : Terminal.Fits prompt maxChars e.up) :
    SameSession t (t.onExtendedKey 0x48) := by
  have hlength := h.length_history
  have hrecalled := h.recalled
  unfold Terminal.onExtendedKey
  rw [if_pos rfl]
  unfold LineEditor.up at hfits'
  by_cases hlt : e.recalled < e.history.length
  · rw [dif_pos hlt] at hfits'
    rw [if_neg (by omega), if_pos (by omega), hrecalled]
    exact h.handleShowHistory_same hlt (Nat.succ_ne_zero _) hprintable hfits'
  · split
    · exact (SameHistory.refl t).toSameSession
    · rw [if_neg (by omega)]
      exact (SameHistory.refl t).toSameSession

theorem onExtendedKey_down_same (h : Simulates prompt maxChars t e)
    (hprintable : ∀ line ∈ e.history, Printable line)
    (hfits' : Terminal.Fits prompt maxChars e.down) : SameSession t (t.onExtendedKey 0x50) := by
  have hrecalled := h.recalled
  unfold Terminal.onExtendedKey
  rw [if_neg (by decide), if_pos rfl]
  unfold LineEditor.down at hfits'
  by_cases hzero : e.recalled = 0
  · rw [if_pos (by omega)]
    exact (SameHistory.refl t).toSameSession
  · rw [if_neg hzero] at hfits'
    rw [if_neg (by omega), hrecalled]
    dsimp only
    by_cases hone : e.recalled - 1 = 0
    · rw [if_pos hone]
      exact ⟨h.clearInput_same, rfl⟩
    · rw [if_neg hone]
      exact h.handleShowHistory_same _ hone hprintable hfits'

/-- An editing key leaves the lines above and the working directory alone. -/
theorem press_same (h : Simulates prompt maxChars t e) (sh : Shell) {k : Key}
    {edit : LineEditor.Edit UInt8} (hedit : k.edit = some edit)
    (hprintable : ∀ line ∈ e.history, Printable line) (hfits : Terminal.Fits prompt maxChars e)
    (hfits' : Terminal.Fits prompt maxChars (e.step edit)) : SameSession t (t.press sh k) := by
  have harrive : Simulates prompt maxChars (t.arrive k) e := h.keyboard k.shift k.isExtendedScancode
  have hsame : ∀ u, SameSession (t.arrive k) u →
      SameSession t u ∧ SameSession t { u with isExtendedScancode := false } := fun u hu =>
    ⟨⟨⟨hu.cursorAtY, hu.maxStoredLines, hu.above⟩, hu.path⟩,
      ⟨⟨hu.cursorAtY, hu.maxStoredLines, hu.above⟩, hu.path⟩⟩
  unfold Terminal.press terminalOnKey
  by_cases hext : (t.arrive k).isExtendedScancode = true
  · rw [if_pos hext]
    refine (hsame _ ?_).2
    have hk : k.isExtendedScancode = true := hext
    unfold Key.edit at hedit
    rw [if_pos hk] at hedit
    split at hedit
    · rename_i hup
      cases hedit
      rw [hup]
      exact harrive.onExtendedKey_up_same hprintable hfits'
    · split at hedit
      · rename_i hdown
        cases hedit
        rw [hdown]
        exact harrive.onExtendedKey_down_same hprintable hfits'
      · split at hedit
        · rename_i hleft
          rw [hleft]
          exact (cursorMoveInline_same _ false).toSameSession
        · split at hedit
          · rename_i hright
            rw [hright]
            exact (cursorMoveInline_same _ true).toSameSession
          · cases hedit
  · rw [if_neg hext]
    exact (hsame _ (harrive.onPlainKey_same sh (Bool.eq_false_iff.mpr hext) rfl hedit hfits)).1

end Simulates

/-! ## Simulation -/

/-- The terminal shows the session, on a screen of `width` columns that stores `limit` lines. -/
structure Shows (width : Nat) (limit : Int) (t : Terminal) (session : Session) : Prop where
  simulates : Simulates session.lines.current width t session.editor
  stored : t.screen.maxStoredLines = limit
  above : t.screen.rowsTo t.screen.cursorAtY.toNat = session.lines.finished.rtake (limit - 1).toNat
  path : t.currentPath = session.path
  spelled : t.Spelled fun c => 32 ≤ c ∧ c ≤ 126
  recorded : session.editor.history.length ≤ maxCommandHistory

/-- The next prompt, behind what was written. -/
theorem Shows.of_mirrors {width : Nat} {limit : Int} {t : Terminal} {lines : Transcript Cell}
    (hmirrors : t.screen.Mirrors width limit lines) (hprint : t.screen.Printing)
    (hprompt : FreshPrompt t.newTerminalInputLine.prompt t.newTerminalInputLine)
    (hspelled : t.Spelled fun c => 32 ≤ c ∧ c ≤ 126)
    (hrecorded : t.historyLines.length ≤ maxCommandHistory) :
    Shows width limit t.newTerminalInputLine
      (Session.prompted width lines t.historyLines t.currentPath) := by
  have hshown := hmirrors.printCall hprint (.chars (t.currentPath ++ literal " >> ") .white)
  have hcurrent : t.newTerminalInputLine.prompt =
      (Session.prompted width lines t.historyLines t.currentPath).lines.current := hshown.current
  rw [hcurrent] at hprompt
  have hsimulates := hprompt.simulates
  have hwidth : t.newTerminalInputLine.screen.maxChars = width := hshown.maxChars
  rw [hwidth] at hsimulates
  exact ⟨hsimulates, hshown.stored, hshown.above, rfl,
    ⟨hspelled.cursor_le, hspelled.text, hspelled.history⟩, hrecorded⟩

namespace Shows

variable {width : Nat} {limit : Int} {t : Terminal} {session : Session}

/-- The recorded lines can be recalled. -/
theorem printable (h : Shows width limit t session) :
    ∀ line ∈ session.editor.history, Printable line := by
  intro line hline
  rw [← h.simulates.history] at hline
  obtain ⟨i, -, rfl⟩ := List.mem_map.mp hline
  exact h.spelled.history i

theorem keyboard (h : Shows width limit t session) (shift isExtended : Bool) :
    Shows width limit { t with shift := shift, isExtendedScancode := isExtended } session :=
  ⟨h.simulates.keyboard shift isExtended, h.stored, h.above, h.path,
    ⟨h.spelled.cursor_le, h.spelled.text, h.spelled.history⟩, h.recorded⟩

/-- The lines up to the cursor's, and the line break behind them. -/
theorem newline_mirrors (h : Shows width limit t session) :
    t.screen.newline.Mirrors width limit session.visible.breakLine :=
  Screen.newline_mirrors h.simulates.lines h.simulates.width h.stored (t := session.visible) h.above
    h.simulates.row

/-- An edit of the current line. -/
theorem edited (h : Shows width limit t session) {t' : Terminal} {editor : LineEditor UInt8}
    (hsame : SameSession t t') (hsim : Simulates session.lines.current width t' editor)
    (hspelled : t'.Spelled fun c => 32 ≤ c ∧ c ≤ 126) (hhistory : editor.history = session.editor.history) :
    Shows width limit t' { session with editor := editor } := by
  refine ⟨hsim, hsame.maxStoredLines.trans h.stored, ?_, hsame.path.trans h.path, hspelled, ?_⟩
  · rw [hsame.cursorAtY, hsame.above]
    exact h.above
  · show editor.history.length ≤ maxCommandHistory
    rw [hhistory]
    exact h.recorded

/-- An editing key. -/
theorem edit (h : Shows width limit t session) (sh : Shell) {k : Key} (hk : ¬ Intrudes k)
    {edit : LineEditor.Edit UInt8} (hedit : k.edit = some edit) (hfits : session.Fits width)
    (hfits' : Terminal.Fits session.lines.current width (session.editor.step edit)) :
    Shows width limit (t.press sh k) { session with editor := session.editor.step edit } :=
  h.edited (h.simulates.press_same sh hedit h.printable hfits hfits')
    (h.simulates.press sh hedit h.printable hfits hfits')
    ((kept_spelled _).press sh h.spelled (insertionFits_of_not_intrudes hk))
    (LineEditor.history_step _ _)

/-! ## Enter -/

theorem enter (h : Shows width limit t session) (report : Report) (hfits : session.Fits width)
    {k : Key} (henter : k.IsEnter) :
    Shows width limit (t.press report.shell k) (session.enter width report) := by
  obtain ⟨u, hu⟩ : ∃ u : Terminal, u = { t.arrive k with goThroughHistoryCount := 0 } := ⟨_, rfl⟩
  have htext : u.text = session.editor.text := hu ▸ h.simulates.text
  have hscreen : u.screen = t.screen := hu ▸ rfl
  have hpath : u.currentPath = session.path := hu ▸ h.path
  have hhistory : u.historyLines = session.editor.history := hu ▸ h.simulates.history
  have hspelled : u.Spelled fun c => 32 ≤ c ∧ c ≤ 126 :=
    hu ▸ ⟨h.spelled.cursor_le, h.spelled.text, h.spelled.history⟩
  have hcount : u.cmdHistCount ≤ maxCommandHistory := by
    rw [← u.length_historyLines, hhistory]
    exact h.recorded
  obtain ⟨v, hv, hvscreen, hvpath, hvhistory, hvrecalled⟩ :=
    processLineInputBuffer_responds report (fun c hc => Printable.ne hspelled.text hc (by decide))
      (htext ▸ hfits.2) hcount
  rw [htext, hhistory] at hvscreen hvpath hvhistory
  rw [hpath] at hvscreen hvpath
  have hbreak := h.newline_mirrors
  obtain ⟨hprint, -⟩ := Screen.newline_spec h.simulates.lines
  have hplain := Screen.newline_plain h.simulates.lines
  rw [← hscreen] at hbreak hprint hplain
  have hdone := hspelled.processLineInputBuffer report.shell
  rw [press_enter report.shell t henter, ← hu]
  rw [hv] at hdone ⊢
  have hprinted : v.resetLineInput.screen.Printing := hvscreen ▸ Screen.runAll_printing hprint _
  have hprompt := newTerminalInputLine_freshPrompt (t := v.resetLineInput) hprinted
    (hvscreen ▸ Screen.runAll_atEnd hprint hbreak.atEnd _)
    (hvscreen ▸ Screen.runAll_plain hprint hbreak.atEnd hplain _) rfl rfl (hvrecalled.trans (hu ▸ rfl))
  have hnext := of_mirrors (hvscreen ▸ hbreak.printCalls hprint _) hprinted hprompt hdone ?_
  · rw [show v.resetLineInput.historyLines = _ from hvhistory,
      show v.resetLineInput.currentPath = _ from hvpath] at hnext
    exact hnext
  · rw [show v.resetLineInput.historyLines = _ from hvhistory]
    exact length_record_le h.recorded _

/-! ## Tab -/

/-- The token is the word. -/
theorem getCurrTokenFromBuffer_eq (h : Shows width limit t session) {a token b : CString}
    (hword : wordAt session.editor.text session.editor.cursor = (a, token, b)) :
    t.getCurrTokenFromBuffer = if a = [space] then [] else token := by
  have hle := session.editor.cursor_le
  have h0 : 0 ∉ t.text := fun hzero => Printable.ne h.spelled.text hzero (by decide) rfl
  have hcursor := h.spelled.cursor_le
  by_cases hempty : token = []
  · by_contra hne
    rw [hempty, ite_self] at hne
    obtain ⟨a', b', htoken⟩ := LineInput.tokenAt_getCurrTokenFromBuffer h0 hcursor hne
    rw [h.simulates.text, h.simulates.cursor, tokenAt_iff hle, hword] at htoken
    exact htoken.2 ((congrArg (fun w => w.2.1) htoken.1).symm.trans hempty)
  · refine LineInput.getCurrTokenFromBuffer_of_tokenAt h0 hcursor (b := b) ?_
    rw [h.simulates.text, h.simulates.cursor, tokenAt_iff hle]
    exact ⟨hword, hempty⟩

theorem candidates_eq {t : Terminal} {token : CString} (h : t.getCurrTokenFromBuffer = token) :
    t.candidates = commandNames.filter fun name => token.isPrefixOf name := by
  unfold candidates
  refine List.filter_congr fun name _ => ?_
  rw [h, Bool.eq_iff_iff, strStartsWith_iff, List.isPrefixOf_iff_prefix]

theorem replaceWord (h : Shows width limit t session) {a token b : CString}
    (hword : wordAt session.editor.text session.editor.cursor = (a, token, b)) (hne : token ≠ [])
    {name : CString} (hname : Printable name) (hfits : session.Fits width)
    (hfits' : (session.replaceWord name).Fits width) :
    Shows width limit (t.replaceCurrentToken token name) (session.replaceWord name) := by
  have htoken := (tokenAt_iff session.editor.cursor_le).mpr ⟨hword, hne⟩
  have htext : (session.replaceWord name).editor.text = a ++ name ++ b := by
    show (wordAt _ _).1 ++ name ++ (wordAt _ _).2.2 = _
    rw [hword]
  have hcursor : (session.replaceWord name).editor.cursor = a.length + name.length := by
    show (wordAt _ _).1.length + name.length = _
    rw [hword]
  obtain ⟨hroom, hbuffer⟩ := hfits'
  rw [htext] at hroom hbuffer
  have hcolumns : session.lines.current.length + (a ++ name ++ b).length ≤ width := by
    exact_mod_cast Int.le_of_lt hroom
  obtain ⟨e', hsim, htext', hcursor'⟩ := h.simulates.replaceCurrentToken htoken
    (by exact_mod_cast hcolumns) hbuffer
  obtain ⟨behind, -, hremoved, hremovedText⟩ := h.simulates.removeToken htoken
  have honScreen := h.simulates.onScreen hfits
  have hsame : SameHistory t (t.replaceCurrentToken token name) := by
    refine (honScreen.removeToken_same token).trans
      ((honScreen.removeToken token).insertChars_same fun _ => ⟨?_, ?_⟩)
    · rw [hremoved.cursorAtX]
      omega
    · rw [hremoved.amountOfCells, hremovedText, hremoved.width]
      simp only [List.length_append] at hcolumns ⊢
      omega
  have hreplaced : Simulates session.lines.current width (t.replaceCurrentToken token name)
      (session.replaceWord name).editor := by
    refine ⟨⟨?_, ?_, hsim.column, ?_⟩, hsim.lines, hsim.width, hsim.start,
      hsame.history.trans h.simulates.history, hsame.recalled.trans h.simulates.recalled⟩
    · rw [htext, hsim.text, htext']
    · rw [hcursor, hsim.cursor, hcursor']
    · rw [htext, hsim.row, htext']
  exact h.edited hsame.toSameSession hreplaced ((h.spelled.removeToken token).insertChars hname) rfl

theorem listNames (h : Shows width limit t session) (names : List CString)
    (hfits : (session.listNames width names).Fits width) :
    Shows width limit (t.listCandidates names) (session.listNames width names) := by
  obtain ⟨hprint, -⟩ := Screen.newline_spec h.simulates.lines
  let calls := (showCandidates names).tail ++ [.chars (t.currentPath ++ literal " >> ") .white]
  obtain ⟨t', ht'⟩ : ∃ t', t' = (t.prints (showCandidates names)).newTerminalInputLine := ⟨_, rfl⟩
  have hscreen : t'.screen = PrintCall.runAll calls t.screen.newline := by
    rw [ht', PrintCall.runAll, List.foldl_append]
    rfl
  have hlines : (session.listNames width names).lines =
      writeCalls width session.visible.breakLine calls := by
    rw [writeCalls, List.foldl_append, h.path]
    rfl
  have hmirrors : t'.screen.Mirrors width limit (session.listNames width names).lines := by
    rw [hscreen, hlines]
    exact h.newline_mirrors.printCalls hprint calls
  have hprinted : t'.screen.Printing := hscreen ▸ Screen.runAll_printing hprint calls
  have hprompt : t'.prompt = (session.listNames width names).lines.current := hmirrors.current
  have htext : Printable session.editor.text := h.simulates.text ▸ h.spelled.text
  have hsim : Simulates t'.prompt width (t.listCandidates names) (session.listNames width names).editor := by
    rw [ht']
    exact listCandidates_simulates h.simulates htext names (by rw [← ht', hprompt]; exact hfits.1)
  rw [hprompt] at hsim
  have hshown : (t.listCandidates names).screen = t'.screen.printChars session.editor.text .white true := by
    have hstring : t.stringFrom 0 = session.editor.text := by
      rw [LineInput.stringFrom_zero fun c hc => Printable.ne h.spelled.text hc (by decide)]
      exact h.simulates.text
    rw [ht', ← hstring]
    rfl
  have hbreaks : ∀ c ∈ session.editor.text, c ≠ 0x0A ∧ c ≠ 0x0D :=
    fun c hc => ⟨htext.ne hc (by decide), htext.ne hc (by decide)⟩
  have hsame := Screen.printChars_sameAbove hprinted hmirrors.atEnd hbreaks ?_ .white true
  · refine ⟨hsim, ?_, ?_, h.path, ⟨Nat.le_refl _, h.spelled.text, h.spelled.history⟩, h.recorded⟩
    · rw [hshown, hsame.maxStoredLines, hmirrors.stored]
    · rw [hshown, hsame.cursorAtY, hsame.above]
      exact hmirrors.above
  · have hlength := congrArg List.length hmirrors.current
    rw [Screen.length_row, ← hmirrors.atEnd] at hlength
    have hX := hprinted.cursorAtX_nonneg
    have hroom : (session.listNames width names).lines.current.length + session.editor.text.length <
      (width : Int) := hfits.1
    rw [hmirrors.maxChars]
    omega

theorem complete (h : Shows width limit t session) (hfits : session.Fits width)
    (hfits' : (session.complete width).Fits width) :
    Shows width limit t.handleTabAutoCompletion (session.complete width) := by
  obtain ⟨⟨a, token, b⟩, hword⟩ : ∃ w, wordAt session.editor.text session.editor.cursor = w := ⟨_, rfl⟩
  have htoken := h.getCurrTokenFromBuffer_eq hword
  unfold Session.complete at hfits' ⊢
  rw [hword] at hfits' ⊢
  dsimp only at hfits' ⊢
  unfold handleTabAutoCompletion
  by_cases hskip : a = [space] ∨ token = []
  · have hnone : t.getCurrTokenFromBuffer = [] := by
      rw [htoken]
      rcases hskip with ha | hempty
      · rw [if_pos ha]
      · rw [hempty, ite_self]
    rw [if_pos hskip, if_pos hnone, ite_self]
    exact h
  · obtain ⟨ha, hne⟩ := not_or.mp hskip
    rw [if_neg ha] at htoken
    have hlength : t.lineInputLength ≠ 0 := by
      have hsplit := ((tokenAt_iff session.editor.cursor_le).mpr ⟨hword, hne⟩).split
      have hpos := List.length_pos_iff.mpr hne
      rw [h.simulates.length, hsplit]
      simp only [List.length_append]
      omega
    obtain ⟨names, hnames⟩ : ∃ names, commandNames.filter (fun name => token.isPrefixOf name) = names :=
      ⟨_, rfl⟩
    rw [if_neg hskip, hnames] at hfits' ⊢
    rw [if_neg hlength, htoken, if_neg hne, candidates_eq htoken, hnames]
    match names with
    | [] => exact h
    | [name] =>
      have hprintable : ∀ name ∈ commandNames, Printable name := by decide +kernel
      have hmem : name ∈ commandNames.filter fun name => token.isPrefixOf name := by
        rw [hnames]
        exact List.mem_singleton_self name
      exact h.replaceWord hword hne (hprintable name (List.mem_filter.mp hmem).1) hfits hfits'
    | first :: second :: rest => exact h.listNames _ hfits'

/-! ## Other keys -/

/-- A key that neither edits nor submits nor completes the line does nothing. -/
theorem idle (sh : Shell) {k : Key} (hk : ¬ Intrudes k) (henter : ¬ k.IsEnter) (htab : ¬ k.IsTab)
    (hedit : k.edit = none) (t : Terminal) :
    ∃ isExtended, t.press sh k = { t with shift := k.shift, isExtendedScancode := isExtended } := by
  unfold Terminal.press terminalOnKey
  unfold Key.edit at hedit
  by_cases hext : k.isExtendedScancode = true
  · rw [if_pos hext] at hedit
    rw [if_pos (show (t.arrive k).isExtendedScancode = true from hext)]
    refine ⟨false, ?_⟩
    have hkeys : k.scancode ≠ 0x48 ∧ k.scancode ≠ 0x50 ∧ k.scancode ≠ 0x4B ∧ k.scancode ≠ 0x4D := by
      grind
    obtain ⟨hup, hdown, hleft, hright⟩ := hkeys
    unfold Terminal.onExtendedKey
    rw [if_neg hup, if_neg hdown, if_neg hleft, if_neg hright]
    rfl
  · have hplain := Bool.eq_false_iff.mpr hext
    rw [if_neg hext] at hedit
    rw [if_neg (show ¬ (t.arrive k).isExtendedScancode = true from hext)]
    refine ⟨k.isExtendedScancode, ?_⟩
    dsimp only at hedit
    have hback : scancodeToKeycode k.shift k.scancode ≠ .backspace := by
      intro heq
      rw [if_pos heq] at hedit
      cases hedit
    have hchar : ¬ (32 ≤ scancodeToKeycode k.shift k.scancode ∧
        scancodeToKeycode k.shift k.scancode ≤ 126) := by
      intro hin
      rw [if_neg hback, if_pos hin] at hedit
      cases hedit
    have hspecial : ¬ (scancodeToKeycode k.shift k.scancode).Special := fun hs => hk ⟨hplain, hs⟩
    have henter' : scancodeToKeycode k.shift k.scancode ≠ .enter := fun heq => henter ⟨hplain, heq⟩
    have htab' : scancodeToKeycode k.shift k.scancode ≠ .tab := fun heq => htab ⟨hplain, heq⟩
    have hzero : (scancodeToKeycode k.shift k.scancode).toUInt8 = 0 := by
      rcases printable_of_not_special hspecial with h | h | h | h | h
      · exact absurd h henter'
      · exact absurd h hback
      · exact absurd h htab'
      · exact h
      · have hlt : ¬ 256 ≤ scancodeToKeycode k.shift k.scancode := fun hle =>
          hspecial ⟨hle, henter', hback, htab'⟩
        refine absurd ?_ hchar
        have hc := h _ List.mem_cons_self
        simp only [UInt8.le_iff_toNat_le, UInt16.le_iff_toNat_le, UInt16.toNat_toUInt8] at hc hlt ⊢
        simp at hc hlt ⊢
        omega
    unfold Terminal.onPlainKey Terminal.handleInputBufferInsertion
    rw [show (t.arrive k).shift = k.shift from rfl]
    dsimp only
    rw [if_neg henter', if_neg hback, if_neg htab', if_pos hzero]
    rfl

/-! ## Runs -/

/-- Each key that is taken for a character only if it is one. -/
theorem step (h : Shows width limit t session) {input : Report × Key} (hk : ¬ Intrudes input.2)
    (hfits : session.Fits width) (hfits' : (session.step width input).Fits width) :
    Shows width limit (t.press input.1.shell input.2) (session.step width input) := by
  unfold Session.step at hfits' ⊢
  by_cases henter : input.2.IsEnter
  · rw [if_pos henter]
    exact h.enter input.1 hfits henter
  · rw [if_neg henter] at hfits' ⊢
    by_cases htab : input.2.IsTab
    · rw [if_pos htab] at hfits' ⊢
      obtain ⟨hext, htabKey⟩ := htab
      have hpress : t.press input.1.shell input.2 = (t.arrive input.2).handleTabAutoCompletion := by
        unfold Terminal.press terminalOnKey Terminal.onPlainKey
        rw [if_neg (show ¬ (t.arrive input.2).isExtendedScancode = true from Bool.eq_false_iff.mp hext),
          show (t.arrive input.2).shift = input.2.shift from rfl, htabKey]
        rfl
      rw [hpress]
      exact (h.keyboard input.2.shift input.2.isExtendedScancode).complete hfits hfits'
    · rw [if_neg htab] at hfits' ⊢
      cases hedit : input.2.edit with
      | some edit =>
        rw [hedit] at hfits'
        exact h.edit input.1.shell hk hedit hfits hfits'
      | none =>
        obtain ⟨isExtended, hidle⟩ := idle input.1.shell hk henter htab hedit t
        rw [hidle]
        exact h.keyboard input.2.shift isExtended

theorem run (h : Shows width limit t session) {inputs : List (Report × Key)}
    (hkeys : ∀ i ∈ inputs, ¬ Intrudes i.2) (hfits : ∀ s ∈ session.states width inputs, s.Fits width) :
    Shows width limit (inputs.foldl (fun t i => t.press i.1.shell i.2) t)
      (inputs.foldl (Session.step width) session) := by
  induction inputs generalizing t session with
  | nil => exact h
  | cons input inputs ih =>
    obtain ⟨hkey, hrest⟩ := List.forall_mem_cons.mp hkeys
    rw [Session.states, Runs.states_cons rfl, List.forall_mem_cons] at hfits
    exact ih (h.step hkey hfits.1 (hfits.2 _ (Runs.mem_states _ _))) hrest hfits.2

/-- The start of the terminal, on a screen that something was written on. -/
theorem start {s : Screen} (h : s.Printing) (hend : s.AtEnd) :
    Shows s.maxChars.toNat s.maxStoredLines (boot s).terminalInit
      (Session.start s.maxChars.toNat s.transcript) := by
  have hwidth : (s.maxChars.toNat : Int) = s.maxChars :=
    Int.toNat_of_nonneg (Int.le_of_lt h.maxChars_pos)
  have hself : s.Mirrors s.maxChars.toNat s.maxStoredLines s.transcript :=
    hwidth.symm ▸ Screen.mirrors_transcript h.toInLines hend
  have hheader := hself.printCalls h (PrintCall.terminalHeader s.maxChars)
  have hspelled := Spelled.start (P := fun c => 32 ≤ c ∧ c ≤ 126) s
  rw [Session.start, hwidth]
  exact of_mirrors (t := (boot s).prints (PrintCall.terminalHeader s.maxChars)) hheader
    (Screen.runAll_printing h _) (terminalInit_freshPrompt h)
    ⟨hspelled.cursor_le, hspelled.text, hspelled.history⟩ (Nat.zero_le _)

end Shows

/-! ## Runs -/

instance (k : Key) : Decidable (Intrudes k) := inferInstanceAs (Decidable (_ ∧ _))

end Terminal

end EszOs
