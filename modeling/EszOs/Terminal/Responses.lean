import EszOs.Terminal.Display
import EszOs.Terminal.Session
import EszOs.Types.Text

/-!
# What Enter does

A submitted line is recorded, split at its first space and handed to a command, which prints behind a
line break.

* `Mirrors.printCalls`: the printing calls write what the transcript says.
* `LineInput.getInputArgs_spec`: the name of the command, and its arguments.
* `processLineInputBuffer_responds`: what is printed is the session's response.
-/

namespace EszOs

namespace Screen

/-! ## Printing -/

/-- The lines up to the cursor's. -/
def transcript (s : Screen) : Transcript Cell := ⟨s.rowsTo s.cursorAtY.toNat, s.row s.cursorAtY⟩

theorem mirrors_transcript {s : Screen} (h : s.InLines) (hend : s.AtEnd) :
    s.Mirrors s.maxChars s.maxStoredLines s.transcript := by
  have hY := h.cursorAtY_nonneg
  have hlt := h.cursorAtY_lt
  refine ⟨h, hend, rfl, rfl, (List.rtake_of_length_le ?_).symm, rfl⟩
  rw [rowsTo, List.length_map, List.length_range]
  omega

theorem Mirrors.printCall {W N : Int} {s : Screen} {t : Transcript Cell} (h : s.Mirrors W N t)
    (hprint : s.Printing) (call : PrintCall) :
    (call.run s).Mirrors W N (writeCall W.toNat t call) := by
  cases call with
  | chars text color => exact h.printChars hprint text color false
  | newline => exact h.newline
  | clear =>
    have hstored := h.inLines.stored
    have hY := h.inLines.cursorAtY_nonneg
    have hlt := h.inLines.cursorAtY_lt
    obtain ⟨hclear, hend⟩ := clear_spec h.inLines
    have hrun : PrintCall.clear.run s = { draw .black s.initEmptyScreenBuffer with
        cursorAtX := 0, cursorAtY := 0, cursorRenderedX := 0, cursorRenderedY := 0 } := by
      rw [PrintCall.run, clearScreen, if_pos h.inLines.buffered]
    have hempty : s.initEmptyScreenBuffer.amountOfCells 0 = 0 := if_pos ⟨Int.le_refl 0, by omega⟩
    refine ⟨hclear.toInLines, hend, ?_, ?_, ?_, ?_⟩ <;> rw [hrun]
    · exact h.maxChars
    · exact hstored.symm.trans h.stored
    · exact (List.rtake_of_length_le (Nat.zero_le _)).symm
    · exact row_of_empty hempty

theorem Mirrors.printCalls {W N : Int} {s : Screen} {t : Transcript Cell} (h : s.Mirrors W N t)
    (hprint : s.Printing) (calls : List PrintCall) :
    (PrintCall.runAll calls s).Mirrors W N (writeCalls W.toNat t calls) := by
  induction calls generalizing s t with
  | nil => exact h
  | cons call calls ih => exact ih (h.printCall hprint call) (run_printing hprint call)

/-- A line break from anywhere in the current line. -/
theorem newline_mirrors {W N : Int} {s : Screen} (h : s.InLines) (hW : s.maxChars = W)
    (hN : s.maxStoredLines = N) {t : Transcript Cell}
    (habove : s.rowsTo s.cursorAtY.toNat = t.finished.rtake (N - 1).toNat)
    (hcurrent : s.row s.cursorAtY = t.current) : s.newline.Mirrors W N t.breakLine := by
  have hend : ({ s with cursorAtX := s.amountOfCells s.cursorAtY } : Screen).Mirrors W N t :=
    ⟨⟨⟨h.amount_nonneg, h.amount_le, h.written⟩, h.buffered, h.notRedrawing, h.maxChars_pos, h.stored,
      h.cursorAtY_nonneg, h.cursorAtY_lt, h.below⟩, rfl, hW, hN, habove, hcurrent⟩
  exact hend.newline

end Screen

/-! ## Commands -/

/-- The first space ends the name of the command and is dropped. -/
theorem LineInput.getInputArgs_spec {t : LineInput} (htext : ∀ c ∈ t.text, c ≠ 0) :
    t.getInputArgs.1.stringFrom 0 = commandName t.text ∧ t.getInputArgs.2 = commandArgs t.text := by
  have hspace : (fun c : UInt8 => !(c != space)) = (· == space) := by
    funext c
    rw [bne, Bool.not_not]
  have hname : commandName t.text = t.text.take (t.text.findIdx (· == space)) := by
    rw [commandName, List.takeWhile_eq_take_findIdx_not, hspace]
  have hargs : commandArgs t.text = t.text.drop (t.text.findIdx (· == space) + 1) := by
    rw [commandArgs, List.dropWhile_eq_drop_findIdx_not, hspace, List.drop_drop]
  rw [hname, hargs, getInputArgs]
  split
  · rename_i i hi
    obtain ⟨hlt, hfind⟩ := List.findIdx?_eq_some_iff_findIdx_eq.mp hi
    rw [hfind]
    have hset : buffer.read (buffer.set t (i : Nat) 0) 0 t.lineInputLength = t.text.set i 0 := by
      have h := View.read_set (A := buffer) t 0 t.lineInputLength i 0
      rwa [Int.zero_add] at h
    constructor
    · show (buffer.read (buffer.set t (i : Nat) 0) 0 t.lineInputLength).takeWhile (· != 0) = _
      rw [hset, List.set_eq_take_append_cons_drop, if_pos hlt, List.takeWhile_append_of_pos,
        List.takeWhile_cons_of_neg (by simp), List.append_nil]
      exact fun c hc => bne_iff_ne.mpr (htext c (List.mem_of_mem_take hc))
    · show (buffer.read (buffer.set t (i : Nat) 0) (i + 1 : Nat)
        (t.lineInputLength - (i + 1))).takeWhile (· != 0) = _
      have hbehind : buffer.read (buffer.set t (i : Nat) 0) (i + 1 : Nat)
          (t.lineInputLength - (i + 1)) = t.text.drop (i + 1) := by
        rw [text, View.drop_read, Int.zero_add]
        exact View.read_congr fun j hj _ => View.get_set_of_ne (A := buffer) (by omega)
      rw [hbehind]
      exact List.takeWhile_eq_self_iff.mpr fun c hc =>
        bne_iff_ne.mpr (htext c (List.mem_of_mem_drop hc))
  · rename_i hnone
    have hfind := List.findIdx?_eq_none_iff_findIdx_eq.mp hnone
    rw [hfind, List.take_length, List.drop_eq_nil_of_le (Nat.le_succ _)]
    exact ⟨stringFrom_zero htext, rfl⟩

namespace Terminal

/-- A command reads the history and the working directory only. -/
theorem execute_command (report : Report) (name args : CString) (t : Terminal) :
    (command report.shell name).execute args t =
      answer report t.historyLines t.currentPath name args := by
  have hhistory : cmdHistory t = t.historyLines.flatMap fun line => PrintCall.line line .white := by
    rw [cmdHistory, historyLines, List.flatMap_map]
  unfold answer
  rw [← hhistory]
  rfl

theorem executeCommand_eq (report : Report) (args : CString) {t : Terminal} {name : CString}
    (h : t.stringFrom 0 = name) :
    t.executeCommand report.shell args =
      if name ∈ commandNames then
        let effect := answer report t.historyLines t.currentPath name args
        some { t.prints (.newline :: effect.prints) with currentPath := effect.currentPath }
      else none := by
  have hequal : ∀ other, strEqual name other = true ↔ name = other := fun other => by
    rw [strEqual_eq, decide_eq_true_iff]
  rw [executeCommand, h, commands, List.find?_map]
  show ((commandNames.find? (strEqual name)).map (command report.shell)).map _ = _
  by_cases hmem : name ∈ commandNames
  · have hfind : commandNames.find? (strEqual name) = some name := by
      obtain ⟨found, hfound⟩ := Option.isSome_iff_exists.mp
        (List.find?_isSome.mpr ⟨name, hmem, (hequal name).mpr rfl⟩)
      rw [hfound, ← (hequal found).mp (List.find?_some hfound)]
    rw [if_pos hmem, hfind, Option.map_some, Option.map_some]
    dsimp only
    rw [execute_command]
    rfl
  · have hfind : commandNames.find? (strEqual name) = none :=
      List.find?_eq_none.mpr fun other hother heq => hmem ((hequal other).mp heq ▸ hother)
    rw [if_neg hmem, hfind]
    rfl

/-- What Enter does, up to the next prompt. -/
theorem processLineInputBuffer_responds (report : Report) {t : Terminal} (htext : ∀ c ∈ t.text, c ≠ 0)
    (hfits : t.text.length < terminalBufferSize) (hcount : t.cmdHistCount ≤ maxCommandHistory) :
    let history := record t.historyLines t.text
    let response := respond report history t.currentPath t.text
    ∃ u : Terminal, t.processLineInputBuffer report.shell = u.resetLineInput ∧
      u.screen = PrintCall.runAll response.prints t.screen.newline ∧
      u.currentPath = response.currentPath ∧ u.historyLines = history ∧
      u.goThroughHistoryCount = t.goThroughHistoryCount := by
  intro history response
  have hlength := t.length_text
  unfold processLineInputBuffer
  by_cases hempty : t.text = []
  · have hzero : t.lineInputLength = 0 := by
      rw [← hlength, hempty]
      rfl
    have hresponse : response = ⟨[], t.currentPath⟩ := if_pos hempty
    have hhistory : history = t.historyLines := if_pos hempty
    rw [if_pos hzero, hresponse, hhistory]
    exact ⟨t.prints [.newline], rfl, rfl, rfl, rfl, rfl⟩
  · have hpos : t.lineInputLength ≠ 0 := fun hzero =>
      hempty (List.length_eq_zero_iff.mp (hlength.trans hzero))
    rw [if_neg hpos, if_neg (by omega), LineInput.stringFrom_zero htext]
    have hrecalled := goThroughHistoryCount_addCommandToHistory t.text t
    have hhistory : (t.addCommandToHistory t.text).historyLines = history := by
      rw [historyLines_addCommandToHistory hcount]
      exact (if_neg hempty).symm
    obtain ⟨hline, hscreen, hpath⟩ := addCommandToHistory_kept t.text t
    obtain ⟨hname, hargs⟩ := LineInput.getInputArgs_spec htext
    have hrun := executeCommand_eq report (commandArgs t.text)
      (t := { t.addCommandToHistory t.text with toLineInput := t.getInputArgs.1 }) hname
    dsimp only
    rw [hline, hargs, hrun]
    have hresponse : response = if commandName t.text ∈ commandNames then
        answer report history t.currentPath (commandName t.text) (commandArgs t.text)
      else ⟨PrintCall.error (literal "Unknown Command: '" ++ commandName t.text ++ literal "'"),
        t.currentPath⟩ := if_neg hempty
    by_cases hmem : commandName t.text ∈ commandNames
    · rw [if_pos hmem] at hresponse ⊢
      have heffect : answer report (t.addCommandToHistory t.text).historyLines
          (t.addCommandToHistory t.text).currentPath (commandName t.text) (commandArgs t.text) =
          response := by
        rw [hresponse, hhistory, hpath]
      refine ⟨_, rfl, ?_, ?_, hhistory, hrecalled⟩
      · show PrintCall.runAll (answer _ _ _ _ _).prints (t.addCommandToHistory t.text).screen.newline = _
        rw [hscreen]
        exact congrArg (fun r : Effect => PrintCall.runAll r.prints t.screen.newline) heffect
      · exact congrArg Effect.currentPath heffect
    · rw [if_neg hmem] at hresponse ⊢
      rw [hresponse]
      refine ⟨_, rfl, ?_, hpath, hhistory, hrecalled⟩
      dsimp only
      rw [hname]
      show PrintCall.runAll _ (t.addCommandToHistory t.text).screen.newline = _
      rw [hscreen]

end Terminal

end EszOs
