import EszOs.Terminal.Keys

/-!
# The input line stays in its buffer

`Terminal.Bounded` is what each key keeps as long as the characters it inserts find room: the line
with its terminator lies in `lineInputBuffer`, the cursor in the line, every store was in the buffer,
and each line of the history fits it.

* `keys_inBuffer_iff`: this holds in every state of a run exactly if its keys only insert what fits.
* `keys_256`: 256 characters do not fit.
-/

namespace EszOs

namespace Terminal

/-- The invariant. -/
structure Bounded (t : Terminal) : Prop where
  line : t.toLineInput.InBuffer
  history : ∀ i, (t.commandHistory i).length < terminalBufferSize

/-- There is room for the characters in `lineInputBuffer`. -/
def RoomInBuffer (t : Terminal) (chars : CString) : Prop :=
  t.lineInputLength + chars.length < terminalBufferSize

theorem boot_bounded (screen : Screen) : (boot screen).Bounded where
  line := ⟨Nat.le_refl 0, Nat.zero_lt_succ 255, rfl, fun _ h => by cases h⟩
  history := fun _ => Nat.zero_lt_succ 255

namespace Bounded

variable {t : Terminal}

/-! ## Edits -/

theorem prints (h : t.Bounded) (calls : List PrintCall) : (t.prints calls).Bounded :=
  ⟨h.line, h.history⟩

theorem resetLineInput (h : t.Bounded) : t.resetLineInput.Bounded := ⟨h.line.reset, h.history⟩

theorem cursorMoveInline (h : t.Bounded) (moveRight : Bool) :
    (t.cursorMoveInline moveRight).Bounded := by
  have hle := h.line.cursor_le
  unfold Terminal.cursorMoveInline
  split
  · split
    · exact h
    · exact ⟨⟨by show t.lineInputCursorPos + 1 ≤ t.lineInputLength; omega, h.line.length_lt,
        h.line.terminated, h.line.storesIn⟩, h.history⟩
  · split
    · exact h
    · exact ⟨⟨by show t.lineInputCursorPos - 1 ≤ t.lineInputLength; omega, h.line.length_lt,
        h.line.terminated, h.line.storesIn⟩, h.history⟩

theorem handleInputBufferDeletion (h : t.Bounded) : t.handleInputBufferDeletion.Bounded := by
  unfold Terminal.handleInputBufferDeletion
  split
  · exact h
  · split
    · exact h
    · rename_i hpos
      split
      · exact h
      · split
        · exact h
        · exact ⟨h.line.deleteChar (Nat.pos_of_ne_zero hpos), h.history⟩

theorem moveToTokenEnd (h : t.Bounded) (n : Nat) : (t.moveToTokenEnd n).Bounded := by
  induction n generalizing t with
  | zero => exact h
  | succ n ih =>
    rw [Terminal.moveToTokenEnd]
    split
    · exact ih (h.cursorMoveInline true)
    · exact h

theorem removeToken (h : t.Bounded) (oldToken : CString) : (t.removeToken oldToken).Bounded :=
  Loop.upTo_induct (fun _ _ _ ht => ht.handleInputBufferDeletion) (h.moveToTokenEnd _)

theorem insertChars (h : t.Bounded) {chars : CString}
    (hfits : chars ≠ [] → t.RoomInBuffer chars) : (t.insertChars chars).Bounded := by
  induction chars generalizing t with
  | nil => exact h
  | cons c chars ih =>
    have hroom := hfits (List.cons_ne_nil _ _)
    rw [RoomInBuffer, List.length_cons] at hroom
    have hinsert : (t.insertCharAtCursor c).Bounded := ⟨h.line.insertChar (by omega) c, h.history⟩
    exact ih hinsert fun _ => by show t.lineInputLength + 1 + chars.length < _; omega

/-! ## History and commands -/

theorem handleShowHistory (h : t.Bounded) : t.handleShowHistory.Bounded := by
  have hclear : t.clearInputOnScreen.Bounded :=
    ⟨⟨Nat.zero_le _, h.line.length_lt, h.line.terminated, h.line.storesIn⟩, h.history⟩
  exact ⟨hclear.line.recallLine (hclear.history _), hclear.history⟩

theorem addCommandToHistory (h : t.Bounded) {cmd : CString} (hcmd : cmd.length < terminalBufferSize) :
    (t.addCommandToHistory cmd).Bounded := by
  have hstore : ∀ (f : Nat → CString) (i : Nat) (text : CString),
      (∀ k, (f k).length < terminalBufferSize) → text.length < terminalBufferSize →
      ∀ k, (if k = i then text else f k).length < terminalBufferSize := by
    intro f i text hf htext k
    split
    · exact htext
    · exact hf k
  unfold Terminal.addCommandToHistory
  dsimp only
  split
  · refine ⟨h.line, hstore _ _ _ (hstore _ _ _ ?_ (by decide)) hcmd⟩
    exact Loop.upTo_induct (fun i f _ hf => hstore f i _ hf (hf _)) h.history
  · exact ⟨h.line, hstore _ _ _ h.history hcmd⟩

theorem executeCommand {sh : Shell} {args : CString} {t t' : Terminal}
    (h : t.executeCommand sh args = some t') :
    t'.toLineInput = t.toLineInput ∧ t'.commandHistory = t.commandHistory := by
  obtain ⟨cmd, -, rfl⟩ := Option.map_eq_some_iff.mp h
  exact ⟨by simp only [Terminal.prints], by simp only [Terminal.prints]⟩

theorem newTerminalInputLine (h : t.Bounded) : t.newTerminalInputLine.Bounded :=
  ⟨h.line, h.history⟩

theorem displayTerminalError (h : t.Bounded) (text : CString) :
    (t.displayTerminalError text).Bounded :=
  (h.prints _).resetLineInput

theorem processLineInputBuffer (h : t.Bounded) (sh : Shell) :
    (t.processLineInputBuffer sh).Bounded := by
  unfold Terminal.processLineInputBuffer
  split
  · exact (h.prints _).resetLineInput
  · split
    · exact h.displayTerminalError _
    · have hadd := h.addCommandToHistory
        (Nat.lt_of_le_of_lt (t.length_stringFrom_le 0) h.line.length_lt)
      have hargs : Bounded { t.addCommandToHistory (t.stringFrom 0) with
          toLineInput := (t.addCommandToHistory (t.stringFrom 0)).getInputArgs.1 } :=
        ⟨hadd.line.getInputArgs, hadd.history⟩
      dsimp only
      split
      · rename_i done hdone
        obtain ⟨hline, hhistory⟩ := executeCommand hdone
        have hbounded : done.Bounded := ⟨hline ▸ hargs.line, hhistory ▸ hargs.history⟩
        exact hbounded.resetLineInput
      · exact hargs.displayTerminalError _

theorem listCandidates (h : t.Bounded) (names : List CString) : (t.listCandidates names).Bounded :=
  have hlist := (h.prints (showCandidates names)).newTerminalInputLine
  ⟨⟨Nat.le_refl _, hlist.line.length_lt, hlist.line.terminated, hlist.line.storesIn⟩, hlist.history⟩

theorem onExtendedKey (h : t.Bounded) (scancode : UInt8) : (t.onExtendedKey scancode).Bounded := by
  unfold Terminal.onExtendedKey
  split
  · split
    · exact h
    · split
      · exact handleShowHistory (t := { t with
          goThroughHistoryCount := t.goThroughHistoryCount + 1 }) ⟨h.line, h.history⟩
      · exact h
  · split
    · split
      · exact h
      · have hcount : Bounded { t with goThroughHistoryCount := t.goThroughHistoryCount - 1 } :=
          ⟨h.line, h.history⟩
        dsimp only
        split
        · exact ⟨LineInput.InBuffer.reset (t := { t.toLineInput with lineInputCursorPos := 0 })
            ⟨Nat.zero_le _, h.line.length_lt, h.line.terminated, h.line.storesIn⟩, h.history⟩
        · exact hcount.handleShowHistory
    · split
      · exact h.cursorMoveInline false
      · split
        · exact h.cursorMoveInline true
        · exact h

end Bounded

/-! ## Runs -/

theorem kept_bounded : Kept Bounded RoomInBuffer where
  keyboard _ _ _ h := ⟨h.line, h.history⟩
  extended _ scancode h := h.onExtendedKey scancode
  enter sh t h := (Bounded.processLineInputBuffer (t := { t with goThroughHistoryCount := 0 })
    ⟨h.line, h.history⟩ sh).newTerminalInputLine
  delete _ h := h.handleInputBufferDeletion
  list _ names h := h.listCandidates names
  remove _ oldToken h := h.removeToken oldToken
  insert _ _ h hfits := h.insertChars hfits

/-- In every state of a run the line, its terminator, the cursor and every store lie in the buffer,
exactly if every key of the run inserts only what fits. -/
theorem keys_inBuffer_iff (sh : Shell) (screen : Screen) (keys : List Key) :
    (∀ t ∈ keyStates sh (boot screen).terminalInit keys, t.InBuffer) ↔
      ∀ c ∈ keyCalls sh (boot screen).terminalInit keys, c.1.InsertionFits RoomInBuffer c.2 := by
  refine Runs.forall_states_iff_of_inv (I := Bounded) (P := fun t => t.InBuffer)
    (C := InsertionFits RoomInBuffer) (fun t ht => ht.line)
    (fun t k t' ht hk hstep => by cases hstep; exact kept_bounded.press sh ht hk)
    (fun t k t' _ hstep hline hne => ?_)
    ((boot_bounded screen).prints _).newTerminalInputLine
  cases hstep
  have hlt := hline.length_lt
  rw [press_of_insertion hne, lineInputLength_insertChars] at hlt
  exact hlt

theorem lineInputLength_keyA (sh : Shell) (n : Nat) (t : Terminal) :
    ((List.replicate n keyA).foldl (press sh) t).lineInputLength = t.lineInputLength + n := by
  induction n generalizing t with
  | zero => rfl
  | succ n ih =>
    rw [List.replicate_succ, List.foldl_cons, ih]
    show t.lineInputLength + 1 + n = _
    omega

/-- 256 characters are one too many. -/
theorem keys_256 :
    ¬ ∀ t ∈ keyStates (fun _ _ _ => []) (boot (Screen.initPrint 80 25).initScreenBuffer).terminalInit
        (List.replicate 256 keyA), t.InBuffer := by
  intro h
  have hlast := (h _ (Runs.foldl_mem_states _ _)).length_lt
  rw [lineInputLength_keyA] at hlast
  exact absurd hlast (by decide)

end Terminal

end EszOs
