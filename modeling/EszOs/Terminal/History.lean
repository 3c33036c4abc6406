import EszOs.Lib.LineEditor
import EszOs.Lib.Transcript
import EszOs.Terminal.PlainText

/-!
# The command history

`commandHistory` keeps the last `MAX_COMMAND_HISTORY` lines that were submitted, and Up goes back
through them.

* `historyLines_addCommandToHistory`: one more line, and the oldest is dropped when there are too many.
* `press_history`: a key other than Enter keeps the history, and Enter records the line.
* `keys_history`: the history after any sequence of keys, and what Up recalls from it.
-/

namespace EszOs

/-- Up, with Shift or without. -/
def keyUp (shift : Bool) : Key := ⟨shift, true, 0x48⟩

def keyEnter (shift : Bool) : Key := ⟨shift, false, 0x1C⟩

namespace Terminal

/-! ## One more line -/

/-- The first `n` lines of a history. -/
theorem map_range_update (f : Nat → CString) (n : Nat) (cmd : CString) :
    (List.range (n + 1)).map (fun k => if k = n then cmd else f k) = (List.range n).map f ++ [cmd] := by
  rw [List.range_succ, List.map_append, List.map_singleton, if_pos rfl]
  congr 1
  refine List.map_congr_left fun k hk => if_neg ?_
  rw [List.mem_range] at hk
  exact Nat.ne_of_lt hk

/-- The loop of `add_command_to_history` moves each line down by one. -/
theorem shiftHistory (f : Nat → CString) (n : Nat) :
    Loop.upTo (fun i (h : Nat → CString) k => if k = i then h (i + 1) else h k) n f =
      fun k => if k < n then f (k + 1) else f k := by
  induction n with
  | zero => rfl
  | succ n ih =>
    rw [Loop.upTo, ih]
    funext k
    dsimp only
    rw [if_neg (Nat.not_lt.mpr (Nat.le_succ n))]
    by_cases hk : k = n
    · rw [if_pos hk, if_pos (by omega), hk]
    · rw [if_neg hk]
      exact if_congr (by omega) rfl rfl

theorem length_historyLines (t : Terminal) : t.historyLines.length = t.cmdHistCount := by
  rw [historyLines, List.length_map, List.length_range]

theorem historyLines_addCommandToHistory {t : Terminal} (h : t.cmdHistCount ≤ maxCommandHistory)
    (cmd : CString) :
    (t.addCommandToHistory cmd).historyLines = (t.historyLines ++ [cmd]).rtake maxCommandHistory := by
  have hlength := t.length_historyLines
  unfold addCommandToHistory
  dsimp only
  split
  · rename_i hfull
    obtain ⟨n, hn⟩ : ∃ n, t.cmdHistCount = n + 1 := Nat.exists_eq_succ_of_ne_zero (by
      have : 0 < maxCommandHistory := by decide
      omega)
    have hsame : t.historyLines.rtake maxCommandHistory = t.historyLines :=
      List.rtake_of_length_le (by omega)
    rw [List.rtake_concat_of_full (by omega), hsame]
    show (List.range (t.cmdHistCount - 1 + 1)).map _ = _
    rw [hn, Nat.add_sub_cancel, map_range_update, shiftHistory, historyLines, hn,
      List.range_succ_eq_map, List.map_cons, List.cons_append, List.tail_cons, List.map_map]
    refine congrArg (· ++ [cmd]) (List.map_congr_left fun k hk => ?_)
    change k ∈ List.range n at hk
    rw [List.mem_range] at hk
    show (if k = n then [] else if k < n then t.commandHistory (k + 1) else t.commandHistory k) =
      t.commandHistory (k + 1)
    rw [if_neg (Nat.ne_of_lt hk), if_pos hk]
  · rename_i hroom
    rw [List.rtake_of_length_le (by rw [List.length_append, List.length_singleton]; omega)]
    exact map_range_update t.commandHistory t.cmdHistCount cmd

/-! ## Keys -/

/-- The `n` lines `h` are recorded, and no more have been gone back. -/
structure Recorded (h : Nat → CString) (n : Nat) (t : Terminal) : Prop where
  history : t.commandHistory = h
  count : t.cmdHistCount = n
  recalled_le : t.goThroughHistoryCount ≤ n

namespace Recorded

variable {h : Nat → CString} {n : Nat} {t : Terminal}

theorem cursorMoveInline (ht : t.Recorded h n) (moveRight : Bool) :
    (t.cursorMoveInline moveRight).Recorded h n := by
  unfold Terminal.cursorMoveInline
  split
  · split
    · exact ht
    · exact ⟨ht.history, ht.count, ht.recalled_le⟩
  · split
    · exact ht
    · exact ⟨ht.history, ht.count, ht.recalled_le⟩

theorem handleInputBufferDeletion (ht : t.Recorded h n) :
    t.handleInputBufferDeletion.Recorded h n := by
  unfold Terminal.handleInputBufferDeletion
  split
  · exact ht
  · split
    · exact ht
    · split
      · exact ht
      · split
        · exact ht
        · exact ⟨ht.history, ht.count, ht.recalled_le⟩

theorem removeToken (ht : t.Recorded h n) (oldToken : CString) :
    (t.removeToken oldToken).Recorded h n := by
  have hmove : ∀ k, ∀ {t : Terminal}, t.Recorded h n → (t.moveToTokenEnd k).Recorded h n := by
    intro k
    induction k with
    | zero => exact fun ht => ht
    | succ k ih =>
      intro t ht
      rw [Terminal.moveToTokenEnd]
      split
      · exact ih (ht.cursorMoveInline true)
      · exact ht
  exact Loop.upTo_induct (fun _ _ _ ht => ht.handleInputBufferDeletion) (hmove _ ht)

theorem insertChars (ht : t.Recorded h n) (chars : CString) :
    (t.insertChars chars).Recorded h n := by
  induction chars generalizing t with
  | nil => exact ht
  | cons c chars ih =>
    exact ih (t := t.insertCharAtCursor c) ⟨ht.history, ht.count, ht.recalled_le⟩

theorem handleShowHistory (ht : t.Recorded h n) : t.handleShowHistory.Recorded h n :=
  ⟨ht.history, ht.count, ht.recalled_le⟩

theorem onExtendedKey (ht : t.Recorded h n) (scancode : UInt8) :
    (t.onExtendedKey scancode).Recorded h n := by
  have hcount := ht.count
  have hrecalled := ht.recalled_le
  unfold Terminal.onExtendedKey
  split
  · split
    · exact ht
    · split
      · exact handleShowHistory (t := { t with goThroughHistoryCount := t.goThroughHistoryCount + 1 })
          ⟨ht.history, ht.count, by show t.goThroughHistoryCount + 1 ≤ n; omega⟩
      · exact ht
  · split
    · split
      · exact ht
      · dsimp only
        have hdown : t.goThroughHistoryCount - 1 ≤ n := by omega
        split
        · exact ⟨ht.history, ht.count, hdown⟩
        · exact ⟨ht.history, ht.count, hdown⟩
    · split
      · exact ht.cursorMoveInline false
      · split
        · exact ht.cursorMoveInline true
        · exact ht

end Recorded

theorem editsKeep_recorded (h : Nat → CString) (n : Nat) :
    EditsKeep (Recorded h n) fun _ _ => True where
  keyboard _ _ _ ht := ⟨ht.history, ht.count, ht.recalled_le⟩
  extended _ scancode ht := ht.onExtendedKey scancode
  delete _ ht := ht.handleInputBufferDeletion
  list _ _ ht := ⟨ht.history, ht.count, ht.recalled_le⟩
  remove _ oldToken ht := ht.removeToken oldToken
  insert _ chars ht _ := ht.insertChars chars

/-- The lines that an Enter records: one that is not empty and fits the buffer. -/
def submits (t : Terminal) (k : Key) : List CString :=
  if k.IsEnter ∧ t.text ≠ [] ∧ t.text.length < terminalBufferSize then [t.text] else []

/-- The lines that are submitted in a run, the first one first. -/
def submitted (sh : Shell) (t : Terminal) (keys : List Key) : List CString :=
  (keyCalls sh t keys).flatMap fun c => c.1.submits c.2

/-- `lines` were submitted: the history holds the last of them. -/
structure Remembers (lines : List CString) (t : Terminal) : Prop where
  historyLines : t.historyLines = lines.rtake maxCommandHistory
  recalled_le : t.goThroughHistoryCount ≤ t.cmdHistCount

/-- The lines depend on the store and their number only. -/
theorem historyLines_congr {t t' : Terminal} (hhistory : t'.commandHistory = t.commandHistory)
    (hcount : t'.cmdHistCount = t.cmdHistCount) : t'.historyLines = t.historyLines := by
  rw [historyLines, hhistory, hcount]
  rfl

theorem Remembers.of_eq {lines : List CString} {t t' : Terminal} (h : t.Remembers lines)
    (hhistory : t'.commandHistory = t.commandHistory) (hcount : t'.cmdHistCount = t.cmdHistCount)
    (hrecalled : t'.goThroughHistoryCount ≤ t.cmdHistCount) : t'.Remembers lines := by
  refine ⟨?_, by rw [hcount]; exact hrecalled⟩
  rw [historyLines_congr hhistory hcount]
  exact h.historyLines

theorem Remembers.count_le {lines : List CString} {t : Terminal} (h : t.Remembers lines) :
    t.cmdHistCount ≤ maxCommandHistory := by
  rw [← length_historyLines, h.historyLines, List.length_rtake]
  exact Nat.min_le_left _ _

/-! ## Enter -/

theorem goThroughHistoryCount_addCommandToHistory (cmd : CString) (t : Terminal) :
    (t.addCommandToHistory cmd).goThroughHistoryCount = t.goThroughHistoryCount := by
  unfold addCommandToHistory
  dsimp only
  split <;> rfl

theorem displayTerminalError_history (text : CString) (t : Terminal) :
    (t.displayTerminalError text).text = [] ∧
      (t.displayTerminalError text).goThroughHistoryCount = t.goThroughHistoryCount ∧
      (t.displayTerminalError text).commandHistory = t.commandHistory ∧
      (t.displayTerminalError text).cmdHistCount = t.cmdHistCount := ⟨rfl, rfl, rfl, rfl⟩

theorem newTerminalInputLine_history (t : Terminal) :
    t.newTerminalInputLine.text = t.text ∧
      t.newTerminalInputLine.goThroughHistoryCount = t.goThroughHistoryCount ∧
      t.newTerminalInputLine.commandHistory = t.commandHistory ∧
      t.newTerminalInputLine.cmdHistCount = t.cmdHistCount := ⟨rfl, rfl, rfl, rfl⟩

/-- The line is recorded if it is not empty and fits the buffer, and then it is empty. -/
theorem processLineInputBuffer_history (sh : Shell) {t : Terminal} (htext : ∀ c ∈ t.text, c ≠ 0) :
    ∃ u, u = (if t.text ≠ [] ∧ t.text.length < terminalBufferSize then t.addCommandToHistory t.text
        else t) ∧
      (processLineInputBuffer sh t).text = [] ∧
      (processLineInputBuffer sh t).goThroughHistoryCount = t.goThroughHistoryCount ∧
      (processLineInputBuffer sh t).commandHistory = u.commandHistory ∧
      (processLineInputBuffer sh t).cmdHistCount = u.cmdHistCount := by
  have hlength := t.length_text
  refine ⟨_, rfl, ?_⟩
  unfold Terminal.processLineInputBuffer
  split
  · rename_i hzero
    have hempty : t.text = [] := List.length_eq_zero_iff.mp (hlength.trans hzero)
    rw [if_neg fun h => h.1 hempty]
    exact ⟨rfl, rfl, rfl, rfl⟩
  · rename_i hzero
    have hne : t.text ≠ [] := fun h => hzero (by rw [← hlength, h, List.length_nil])
    split
    · rename_i hlong
      rw [if_neg (by rw [hlength]; exact fun h => absurd hlong (Nat.not_le.mpr h.2))]
      exact displayTerminalError_history _ t
    · rename_i hfits
      rw [if_pos ⟨hne, by rw [hlength]; exact Nat.not_le.mp hfits⟩, LineInput.stringFrom_zero htext]
      have hrecalled := goThroughHistoryCount_addCommandToHistory t.text t
      dsimp only
      split
      · rename_i done hdone
        obtain ⟨cmd, -, rfl⟩ := Option.map_eq_some_iff.mp hdone
        exact ⟨rfl, hrecalled, rfl, rfl⟩
      · obtain ⟨h1, h2, h3, h4⟩ := displayTerminalError_history _ _
        exact ⟨h1, h2.trans hrecalled, h3, h4⟩

/-- Enter records the line. -/
theorem Remembers.enter {lines : List CString} {t : Terminal} (h : t.Remembers lines) (sh : Shell)
    (htext : ∀ c ∈ t.text, c ≠ 0) {k : Key} (hk : k.IsEnter) :
    (t.press sh k).Remembers (lines ++ t.submits k) ∧ (t.press sh k).goThroughHistoryCount = 0 ∧
      (t.press sh k).text = [] := by
  obtain ⟨u, hu, hempty, hrecalled, hhistory, hcount⟩ := processLineInputBuffer_history sh
    (t := { t.arrive k with goThroughHistoryCount := 0 }) htext
  obtain ⟨hnew, hnewRecalled, hnewHistory, hnewCount⟩ := newTerminalInputLine_history
    (processLineInputBuffer sh { t.arrive k with goThroughHistoryCount := 0 })
  rw [press_enter sh t hk]
  refine ⟨?_, hnewRecalled.trans hrecalled, hnew.trans hempty⟩
  have hle := h.count_le
  have hu' : u.historyLines = (lines ++ t.submits k).rtake maxCommandHistory := by
    change u = (if t.text ≠ [] ∧ t.text.length < terminalBufferSize then _ else _) at hu
    rw [hu, submits]
    split
    · rename_i hsubmit
      rw [if_pos ⟨hk, hsubmit⟩]
      refine (historyLines_addCommandToHistory (t := { t.arrive k with goThroughHistoryCount := 0 })
        hle t.text).trans ?_
      show (t.historyLines ++ [t.text]).rtake maxCommandHistory = _
      rw [h.historyLines, List.rtake_concat_rtake]
    · rename_i hsubmit
      rw [if_neg fun h => hsubmit h.2, List.append_nil]
      exact h.historyLines
  refine ⟨?_, (hnewRecalled.trans hrecalled).trans_le (Nat.zero_le _)⟩
  rw [← hu']
  exact historyLines_congr (hnewHistory.trans hhistory) (hnewCount.trans hcount)

/-- Every other key keeps the history. -/
theorem Remembers.other {lines : List CString} {t : Terminal} (h : t.Remembers lines) (sh : Shell)
    {k : Key} (hk : ¬ k.IsEnter) : (t.press sh k).Remembers (lines ++ t.submits k) := by
  have hpress := (editsKeep_recorded t.commandHistory t.cmdHistCount).press sh
    ⟨rfl, rfl, h.recalled_le⟩ (fun _ => trivial) hk
  rw [submits, if_neg fun hsubmit => hk hsubmit.1, List.append_nil]
  exact h.of_eq hpress.history hpress.count hpress.recalled_le

/-- No key inserts a zero byte. -/
theorem insertion_ne_zero (t : Terminal) (k : Key) :
    t.InsertionFits (fun _ chars => ∀ c ∈ chars, c ≠ 0) k := by
  have hnames : commandNames.all fun name => name.all fun c => c != 0 := by decide +kernel
  unfold InsertionFits insertion
  dsimp only
  intro _
  split
  · exact fun c hc => absurd hc List.not_mem_nil
  · split
    · split
      · exact fun c hc => absurd hc List.not_mem_nil
      · split
        · rename_i name hname
          have hmem : name ∈ (t.arrive k).candidates := hname ▸ List.mem_cons_self
          have hname := List.all_eq_true.mp hnames name (List.mem_filter.mp hmem).1
          exact fun c hc => bne_iff_ne.mp (List.all_eq_true.mp hname c hc)
        · exact fun c hc => absurd hc List.not_mem_nil
    · split
      · exact fun c hc => absurd hc List.not_mem_nil
      · rename_i hc
        exact List.forall_mem_singleton.mpr hc

/-- The history over a run. -/
theorem Remembers.run {lines : List CString} {t : Terminal} (h : t.Remembers lines) (sh : Shell)
    (ht : t.Spelled (· ≠ 0)) (keys : List Key) :
    (keys.foldl (press sh) t).Remembers (lines ++ submitted sh t keys) ∧
      (keys.foldl (press sh) t).Spelled (· ≠ 0) := by
  induction keys generalizing lines t with
  | nil =>
    have hnone : submitted sh t [] = [] := rfl
    rw [hnone, List.append_nil]
    exact ⟨h, ht⟩
  | cons k keys ih =>
    have hnext : (press sh t k).Remembers (lines ++ t.submits k) := by
      by_cases hk : k.IsEnter
      · exact (h.enter sh ht.text hk).1
      · exact h.other sh hk
    have hsubmitted : submitted sh t (k :: keys) = t.submits k ++ submitted sh (press sh t k) keys := rfl
    rw [hsubmitted, ← List.append_assoc]
    exact ih hnext ((kept_spelled _).press sh ht (insertion_ne_zero t k))

/-! ## Up -/

/-- The line `n` back in the history. -/
theorem entry_historyLines {t : Terminal} {n : Nat} (hn : n ≤ t.cmdHistCount) (hpos : n ≠ 0) :
    LineEditor.entry t.historyLines n = t.commandHistory (t.cmdHistCount - n) := by
  rw [LineEditor.entry, if_neg hpos, length_historyLines, historyLines, List.getD_eq_getElem?_getD,
    List.getElem?_map, List.getElem?_range (by omega)]
  rfl

/-- The line is the one `n` back in the history `lines`. -/
structure GoneBack (lines : List CString) (n : Nat) (t : Terminal) : Prop where
  history : t.historyLines = lines
  recalled : t.goThroughHistoryCount = n
  le : n ≤ lines.length
  text : t.text = LineEditor.entry lines n

/-- Up goes back by one, as far as there are lines. -/
theorem GoneBack.up {lines : List CString} {n : Nat} {t : Terminal} (h : t.GoneBack lines n)
    (sh : Shell) (shift : Bool) :
    (t.press sh (keyUp shift)).GoneBack lines (min (n + 1) lines.length) := by
  have hle := h.le
  have hcount : lines.length = t.cmdHistCount := by rw [← h.history, length_historyLines]
  have hrecalled := h.recalled
  have hpress : t.press sh (keyUp shift) =
      { (t.arrive (keyUp shift)).onExtendedKey 0x48 with isExtendedScancode := false } := rfl
  have hup : (t.arrive (keyUp shift)).onExtendedKey 0x48 =
      if t.cmdHistCount = 0 then t.arrive (keyUp shift)
      else if t.goThroughHistoryCount < t.cmdHistCount then
        handleShowHistory { t.arrive (keyUp shift) with
          goThroughHistoryCount := t.goThroughHistoryCount + 1 }
      else t.arrive (keyUp shift) := rfl
  rw [hpress, hup]
  by_cases hlt : n < lines.length
  · rw [if_neg (by omega), if_pos (by omega), Nat.min_eq_left hlt, hrecalled]
    refine ⟨(historyLines_congr (t := t) rfl rfl).trans h.history, rfl, hlt, ?_⟩
    rw [← h.history, entry_historyLines (by omega) (Nat.succ_ne_zero n)]
    exact (LineInput.read_recall _ _).1
  · have hsame : min (n + 1) lines.length = n := by omega
    rw [hsame]
    split
    · exact ⟨(historyLines_congr (t := t) rfl rfl).trans h.history, h.recalled, h.le, h.text⟩
    · rw [if_neg (by omega)]
      exact ⟨(historyLines_congr (t := t) rfl rfl).trans h.history, h.recalled, h.le, h.text⟩

theorem GoneBack.ups {lines : List CString} {n : Nat} {t : Terminal} (h : t.GoneBack lines n)
    (sh : Shell) (shifts : List Bool) :
    ((shifts.map keyUp).foldl (press sh) t).GoneBack lines (min (n + shifts.length) lines.length) := by
  induction shifts generalizing n t with
  | nil =>
    rw [List.length_nil, Nat.add_zero, Nat.min_eq_left h.le]
    exact h
  | cons shift shifts ih =>
    have hnext := ih (h.up sh shift)
    have hmin : min (min (n + 1) lines.length + shifts.length) lines.length =
        min (n + (shift :: shifts).length) lines.length := by
      rw [List.length_cons]
      omega
    rw [hmin] at hnext
    exact hnext

/-- After any sequence of keys the history holds the last lines that were submitted, no more of them
have been gone back than there are, and after an Enter each Up recalls the line before, down to the
oldest. -/
theorem keys_history (sh : Shell) (screen : Screen) (keys : List Key) :
    let t₀ := (boot screen).terminalInit
    let t := keys.foldl (press sh) t₀
    (t.historyLines = (submitted sh t₀ keys).rtake maxCommandHistory ∧
      t.goThroughHistoryCount ≤ t.cmdHistCount) ∧
    ∀ (shift : Bool) (shifts : List Bool),
      let lines := (submitted sh t₀ (keys ++ [keyEnter shift])).rtake maxCommandHistory
      ((shifts.map keyUp).foldl (press sh) (t.press sh (keyEnter shift))).text =
        LineEditor.entry lines (min shifts.length lines.length) := by
  intro t₀ t
  have hstart : t₀.Remembers [] := ⟨rfl, Nat.le_refl 0⟩
  obtain ⟨hremembers, hspelled⟩ := hstart.run sh (Spelled.start screen) keys
  rw [List.nil_append] at hremembers
  refine ⟨⟨hremembers.historyLines, hremembers.recalled_le⟩, fun shift shifts => ?_⟩
  intro lines
  have henter : (keyEnter shift).IsEnter := by
    cases shift <;> exact ⟨rfl, by decide⟩
  obtain ⟨hentered, hrecalled, hempty⟩ := hremembers.enter sh hspelled.text henter
  have hlines : (t.press sh (keyEnter shift)).historyLines = lines := by
    obtain ⟨hall, -⟩ := hstart.run sh (Spelled.start screen) (keys ++ [keyEnter shift])
    rw [List.nil_append, List.foldl_append] at hall
    exact hall.historyLines
  have hback : (t.press sh (keyEnter shift)).GoneBack lines 0 :=
    ⟨hlines, hrecalled, Nat.zero_le _, hempty⟩
  have hups := (hback.ups sh shifts).text
  rw [Nat.zero_add] at hups
  exact hups

/-- Two lines on a screen of 80 columns and 25 lines; the second Up brings the first one back. -/
theorem keys_history_80x25 :
    let t := [keyA, keyEnter false, keyA, keyA].foldl (press fun _ _ _ => [])
      (boot (Screen.initPrint 80 25).initScreenBuffer).terminalInit
    (([false, false].map keyUp).foldl (press fun _ _ _ => [])
      (t.press (fun _ _ _ => []) (keyEnter false))).text = literal "a" := by
  intro t
  have hlines : submitted (fun _ _ _ => []) (boot (Screen.initPrint 80 25).initScreenBuffer).terminalInit
      ([keyA, keyEnter false, keyA, keyA] ++ [keyEnter false]) = [literal "a", literal "aa"] := by
    decide +kernel
  have hups := (keys_history (fun _ _ _ => []) (Screen.initPrint 80 25).initScreenBuffer
    [keyA, keyEnter false, keyA, keyA]).2 false [false, false]
  rw [hlines] at hups
  exact hups.trans (by decide)

end Terminal

end EszOs
