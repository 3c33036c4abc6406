import EszOs.Terminal.Deletions
import EszOs.Types.Search

/-!
# Completing a token (`shell/autocomplete/autocomplete.cpp`)

Tab completes the token at the cursor by the edits of single keys: the cursor goes to the end of the
token, deletes it and inserts the name. The screen has a say in it: the token goes only if the cells in
front of the screen's cursor may be deleted.

* `handleTabAutoCompletion_completes_iff`: when Tab replaces the token.
* `Simulates.deletesFrom`: where the terminal shows the line behind its prompt, it does.
* `handleTabAutoCompletion_wrapped`: behind a line that fills its row, it does not.
* `listCandidates_simulates`: the line behind a new prompt, after several candidates.
-/

namespace EszOs

namespace Terminal

/-- The only command that starts with the token at the cursor. -/
def OnlyCandidate (t : Terminal) (name : CString) : Prop :=
  name ∈ commandNames ∧ t.getCurrTokenFromBuffer <+: name ∧
    ∀ other ∈ commandNames, t.getCurrTokenFromBuffer <+: other → other = name

theorem mem_candidates {t : Terminal} {name : CString} :
    name ∈ t.candidates ↔ name ∈ commandNames ∧ t.getCurrTokenFromBuffer <+: name := by
  unfold candidates
  rw [List.mem_filter, strStartsWith_iff]

theorem candidates_eq_singleton_iff {t : Terminal} {name : CString} :
    t.candidates = [name] ↔ t.OnlyCandidate name := by
  have hnodup : t.candidates.Nodup := List.Nodup.filter _ (by decide)
  constructor
  · intro h
    have hmem : ∀ other, other ∈ t.candidates ↔ other = name := by
      intro other
      rw [h, List.mem_singleton]
    obtain ⟨hname, hprefix⟩ := mem_candidates.mp ((hmem name).mpr rfl)
    exact ⟨hname, hprefix, fun other h h' => (hmem other).mp (mem_candidates.mpr ⟨h, h'⟩)⟩
  · rintro ⟨hname, hprefix, honly⟩
    apply List.perm_singleton.mp
    rw [List.perm_ext_iff_of_nodup hnodup (List.nodup_singleton name)]
    intro other
    rw [mem_candidates, List.mem_singleton]
    constructor
    · rintro ⟨h, h'⟩
      exact honly other h h'
    · rintro rfl
      exact ⟨hname, hprefix⟩

/-! ## The token in the buffer -/

namespace HasLine

variable {t : Terminal} {e : LineEditor UInt8} {a token b : CString}

/-- The cursor goes behind the token. -/
theorem moveToToken (h : HasLine t e) (htoken : TokenAt e.text e.cursor a token b) :
    ∃ behind, e.cursor + behind = a.length + token.length ∧
      t.moveToTokenEnd (t.lineInputLength - t.lineInputCursorPos) =
        (Terminal.cursorMoveInline true)^[behind] t := by
  have hlength : e.text.length = a.length + token.length + b.length := by
    rw [htoken.split, List.length_append, List.length_append]
  have hge := htoken.cursor_ge
  have hle := htoken.cursor_le
  obtain ⟨behind, hbehind⟩ := Nat.exists_eq_add_of_le hle
  have hend : ∀ c ∈ e.text[e.cursor + behind]?, c = space := by
    rw [← hbehind, htoken.split, ← List.length_append, List.getElem?_append_right (Nat.le_refl _),
      Nat.sub_self, ← List.head?_eq_getElem?]
    exact htoken.ends
  refine ⟨behind, hbehind.symm, h.moveToTokenEnd ?_ (fun j hj hlt => ⟨by omega, ?_⟩) hend⟩
  · rw [h.length, h.cursor]
    omega
  · exact htoken.getElem?_ne (by omega) (by omega)

theorem lineInputLength_insertChars (t : Terminal) (chars : CString) :
    (t.insertChars chars).lineInputLength = t.lineInputLength + chars.length := by
  induction chars generalizing t with
  | nil => rfl
  | cons c chars ih =>
    have hstep : (t.insertCharAtCursor c).lineInputLength = t.lineInputLength + 1 := rfl
    show ((t.insertCharAtCursor c).insertChars chars).lineInputLength = _
    rw [ih, hstep, List.length_cons]
    omega

end HasLine

/-- The token is replaced exactly if the screen lets go of the cells in front of its end. -/
theorem replaceCurrentToken_iff {t : Terminal} {a token b : CString}
    (hle : t.lineInputCursorPos ≤ t.lineInputLength)
    (htoken : TokenAt t.text t.lineInputCursorPos a token b) (name : CString) :
    (t.replaceCurrentToken token name).text = a ++ name ++ b ∧
        (t.replaceCurrentToken token name).lineInputCursorPos = a.length + name.length ↔
      DeletesFrom t.screen
        (t.screen.cursorAtX + (a.length + token.length - t.lineInputCursorPos : Nat)) token.length := by
  obtain ⟨e, h⟩ := exists_hasLine hle
  rw [h.text, h.cursor] at htoken
  rw [h.cursor]
  obtain ⟨behind, hbehind, hmove⟩ := h.moveToToken htoken
  have hlength : e.text.length = a.length + token.length + b.length := by
    rw [htoken.split, List.length_append, List.length_append]
  obtain ⟨hline, hmoved⟩ := iterate_right h (n := behind) (by omega)
  obtain ⟨htext, hcursor⟩ := LineEditor.rights_of_le (n := behind) (e := e) (by omega)
  have hfrom : DeletesFrom t.screen (t.screen.cursorAtX + (a.length + token.length - e.cursor : Nat))
      token.length ↔ DeletesFrom ((Terminal.cursorMoveInline true)^[behind] t).screen
        ((Terminal.cursorMoveInline true)^[behind] t).screen.cursorAtX token.length := by
    rw [show a.length + token.length - e.cursor = behind from by omega, hmoved.cursorAtX]
    unfold DeletesFrom DeletesAt
    rw [hmoved.cursorAtY, hmoved.amountOfCells, hmoved.cell]
  have hpos : token.length ≤ (e.rights behind).cursor := by
    rw [hcursor]
    omega
  rw [hfrom, replaceCurrentToken, removeToken, hmove]
  change (((Terminal.cursorMoveInline true)^[behind] t).deletions token.length |>.insertChars name).text =
    _ ∧ (((Terminal.cursorMoveInline true)^[behind] t).deletions token.length
      |>.insertChars name).lineInputCursorPos = _ ↔ _
  constructor
  · rintro ⟨hreplaced, -⟩
    refine (deletions_length hline hpos).2 ?_
    have hlengths := congrArg List.length hreplaced
    rw [LineInput.length_text, lineInputLength_insertChars, List.length_append, List.length_append]
      at hlengths
    rw [hline.length, htext]
    omega
  · intro hdeletes
    have hinserted := ((deletions_iff hline hpos).mpr hdeletes).insertChars name
    obtain ⟨hreplaced, hbehind'⟩ := LineEditor.replaceWord_eq htoken.split hbehind name
    exact ⟨hinserted.text.trans hreplaced, hinserted.cursor.trans hbehind'⟩

namespace Simulates

variable {prompt : List Cell} {maxChars : Int} {t : Terminal} {e : LineEditor UInt8}

/-! ## The edits -/

theorem rights (h : Simulates prompt maxChars t e) (n : Nat) :
    Simulates prompt maxChars ((Terminal.cursorMoveInline true)^[n] t) (e.rights n) := by
  induction n generalizing t e with
  | zero => exact h
  | succ n ih => exact ih h.cursorMoveInline_right

theorem deletions (h : Simulates prompt maxChars t e) (n : Nat) :
    Simulates prompt maxChars (Terminal.deletions n t) (e.backspaces n) := by
  induction n with
  | zero => exact h
  | succ n ih => exact ih.handleInputBufferDeletion

theorem insertChars (h : Simulates prompt maxChars t e) {chars : CString}
    (hcolumns : (prompt.length + e.text.length + chars.length : Nat) ≤ maxChars)
    (hbuffer : e.text.length + chars.length ≤ terminalBufferSize) :
    Simulates prompt maxChars (t.insertChars chars) (e.inserts chars) := by
  induction chars generalizing t e with
  | nil => exact h
  | cons c chars ih =>
    rw [List.length_cons] at hcolumns hbuffer
    have hlength : (e.insert c).text.length = e.text.length + 1 :=
      List.length_insertIdx_of_le_length e.cursor_le c
    have hstep := h.insertCharAtCursor ⟨by omega, by omega⟩ c
    exact ih hstep (by rw [hlength]; omega) (by rw [hlength]; omega)

/-- The cursor goes behind the token and deletes it. -/
theorem removeToken (h : Simulates prompt maxChars t e) {a token b : CString}
    (htoken : TokenAt e.text e.cursor a token b) :
    ∃ behind, e.cursor + behind = a.length + token.length ∧
      Simulates prompt maxChars (t.removeToken token) ((e.rights behind).backspaces token.length) ∧
      ((e.rights behind).backspaces token.length).text = a ++ b := by
  obtain ⟨behind, hbehind, hmove⟩ := h.hasLine.moveToToken htoken
  have hlength : a.length + token.length ≤ e.text.length := by
    rw [htoken.split, List.length_append, List.length_append]
    omega
  obtain ⟨htext, hcursor⟩ := LineEditor.rights_of_le (n := behind) (e := e) (by omega)
  obtain ⟨hremoved, -⟩ := LineEditor.backspaces_word (htext.trans htoken.split) (hcursor.trans hbehind)
  refine ⟨behind, hbehind, ?_, hremoved⟩
  rw [Terminal.removeToken, hmove]
  exact (h.rights behind).deletions token.length

/-- The token is replaced, and nothing else. -/
theorem replaceCurrentToken (h : Simulates prompt maxChars t e) {a token b : CString}
    (htoken : TokenAt e.text e.cursor a token b) {name : CString}
    (hcolumns : (prompt.length + (a ++ name ++ b).length : Nat) ≤ maxChars)
    (hbuffer : (a ++ name ++ b).length < terminalBufferSize) :
    ∃ e', Simulates prompt maxChars (t.replaceCurrentToken token name) e' ∧
      e'.text = a ++ name ++ b ∧ e'.cursor = a.length + name.length := by
  obtain ⟨behind, hbehind, hsim, hremoved⟩ := h.removeToken htoken
  refine ⟨e.replaceWord behind token.length name, hsim.insertChars ?_ ?_,
    LineEditor.replaceWord_eq htoken.split hbehind name⟩ <;>
    rw [hremoved] <;> simp only [List.length_append] at hcolumns hbuffer ⊢ <;> omega

/-- The cells of the line may be deleted. -/
theorem deletesFrom (h : Simulates prompt maxChars t e) {x n : Nat} (hcursor : e.cursor ≤ x)
    (hx : x ≤ e.text.length) (hn : n ≤ x) :
    DeletesFrom t.screen (t.screen.cursorAtX + (x - e.cursor : Nat)) n := by
  intro i hi
  have hX := h.cursorAtX
  have hamount := h.amountOfCells
  have hcolumn : t.screen.cursorAtX + (x - e.cursor : Nat) - 1 - i =
      (prompt.length + (x - 1 - i) : Nat) := by omega
  have htyped : (t.screen.row t.screen.cursorAtY)[prompt.length + (x - 1 - i)]? =
      some (typedCell e.text[x - 1 - i]) := by
    rw [h.row, List.getElem?_append_right (Nat.le_add_right _ _), Nat.add_sub_cancel_left,
      List.getElem?_map, List.getElem?_eq_getElem (by omega)]
    rfl
  refine ⟨by omega, ?_, .inl (by omega)⟩
  rw [hcolumn, Screen.cell_of_row htyped]
  rfl

end Simulates

/-! ## Tab -/

section Tab

variable {prompt : List Cell} {maxChars : Int} {t : Terminal} {e : LineEditor UInt8}

/-- Printing leaves the line as it is. -/
theorem text_listCandidates (names : List CString) (t : Terminal) :
    (t.listCandidates names).text = t.text := rfl

theorem handleTabAutoCompletion_unchanged (h : ∀ name, ¬ t.OnlyCandidate name) :
    t.handleTabAutoCompletion.text = t.text := by
  unfold handleTabAutoCompletion
  split
  · rfl
  · split
    · rfl
    · split
      · rfl
      · rename_i name hname
        exact absurd (candidates_eq_singleton_iff.mp hname) (h name)
      · exact text_listCandidates _ t

/-- The prompt behind several candidates. -/
theorem listCandidates_prompt (h : Simulates prompt maxChars t e) (names : List CString) :
    let t' := (t.prints (showCandidates names)).newTerminalInputLine
    t'.screen.Printing ∧ t'.screen.AtEnd ∧ t'.screen.cursorAtX = t'.prompt.length ∧
      t'.screen.maxChars = maxChars := by
  intro t'
  obtain ⟨hprint, hend⟩ := Screen.newline_spec h.lines
  let rest := (showCandidates names).tail
  let calls := [PrintCall.chars (t.currentPath ++ literal " >> ") .white]
  have hprint' : t'.screen.Printing :=
    Screen.runAll_printing (Screen.runAll_printing hprint rest) calls
  have hend' : t'.screen.AtEnd :=
    Screen.runAll_atEnd (Screen.runAll_printing hprint rest) (Screen.runAll_atEnd hprint hend rest) calls
  have hmax₁ := Screen.maxChars_runAll (Screen.runAll_printing hprint rest) calls
  have hmax₂ := Screen.maxChars_runAll hprint rest
  refine ⟨hprint', hend', ?_, hmax₁.trans (hmax₂.trans ((Screen.maxChars_newline h.lines).trans h.width))⟩
  unfold Terminal.prompt
  rw [Screen.length_row, ← hend', Int.toNat_of_nonneg hprint'.cursorAtX_nonneg]

/-- The line is printed behind it. -/
theorem listCandidates_screen (h : Simulates prompt maxChars t e) (htext : Printable e.text)
    (names : List CString) :
    (t.listCandidates names).screen =
      (t.prints (showCandidates names)).newTerminalInputLine.screen.printChars e.text .white true := by
  let t' := (t.prints (showCandidates names)).newTerminalInputLine
  have hline : t'.text = e.text := h.text
  have hstring : t'.stringFrom 0 = e.text := by
    rw [LineInput.stringFrom_zero, hline]
    rw [hline]
    exact fun c hc => htext.ne hc (by decide)
  exact congrArg (fun text => t'.screen.printChars text .white true) hstring

/-- Where there are several candidates, the line stands behind a new prompt afterwards, with the cursor
at its end. -/
theorem listCandidates_simulates (h : Simulates prompt maxChars t e) (htext : Printable e.text)
    (names : List CString) :
    let t' := (t.prints (showCandidates names)).newTerminalInputLine
    t'.prompt.length + e.text.length < maxChars →
      Simulates t'.prompt maxChars (t.listCandidates names)
        { e with cursor := e.text.length, cursor_le := Nat.le_refl _ } := by
  intro t' hfits
  obtain ⟨hprint, hend, hX, hmax⟩ := listCandidates_prompt h names
  have hscreen := listCandidates_screen h htext names
  have hbreaks : ∀ c ∈ e.text, c ≠ 0x0A ∧ c ≠ 0x0D :=
    fun c hc => ⟨htext.ne hc (by decide), htext.ne hc (by decide)⟩
  obtain ⟨hY, hX', hrow⟩ := Screen.printChars_row hprint hend hbreaks (by rw [hX, hmax]; exact hfits)
    .white true
  refine ⟨⟨h.text, h.length, ?_, ?_⟩, ?_, ?_, hX, h.history, h.recalled⟩
  · rw [hscreen, hX']
    show _ = t'.screen.cursorAtX + t.lineInputLength
    rw [h.length]
  · rw [hscreen, hY]
    exact hrow
  · rw [hscreen]
    exact (Screen.printChars_printing hprint e.text .white true).toInLines
  · rw [hscreen, Screen.maxChars_printChars hprint, hmax]

/-- Where the line fills its row behind the new prompt, the cursor of the screen is in column 0
afterwards. -/
theorem listCandidates_full (h : Simulates prompt maxChars t e) (htext : Printable e.text)
    (names : List CString) (hne : e.text ≠ [])
    (hfull : (t.prints (showCandidates names)).newTerminalInputLine.prompt.length +
      e.text.length = maxChars) : (t.listCandidates names).screen.cursorAtX = 0 := by
  obtain ⟨hprint, hend, hX, hmax⟩ := listCandidates_prompt h names
  obtain ⟨text, c, hsplit⟩ := (List.eq_nil_or_concat' e.text).resolve_left hne
  rw [listCandidates_screen h htext names, hsplit]
  refine Screen.printChars_full hprint hend ?_ ?_ .white true
  · rw [← hsplit]
    exact fun c hc => ⟨htext.ne hc (by decide), htext.ne hc (by decide)⟩
  · rw [hsplit, List.length_append, List.length_singleton] at hfull
    omega

/-- The key Left. -/
def keyLeft : Key := ⟨false, true, 0x4B⟩

theorem press_left (sh : Shell) (t : Terminal) : press sh t keyLeft =
    { (t.arrive keyLeft).cursorMoveInline false with isExtendedScancode := false } := rfl

/-- Left, as often as there are characters in front of the cursor: the cursors stay together, in
whatever column the screen's is. -/
theorem foldl_left (sh : Shell) {n : Nat} (hn : n ≤ t.lineInputCursorPos) :
    let t' := (List.replicate n keyLeft).foldl (press sh) t
    t'.text = t.text ∧ t'.lineInputCursorPos = t.lineInputCursorPos - n ∧
      t'.screen.cursorAtX = t.screen.cursorAtX - n ∧ t'.screen.maxChars = t.screen.maxChars ∧
      t'.lineInputStartX = t.lineInputStartX := by
  induction n generalizing t with
  | zero => exact ⟨rfl, rfl, (Int.sub_zero _).symm, rfl, rfl⟩
  | succ n ih =>
    have hpos : (t.arrive keyLeft).lineInputCursorPos ≠ 0 := by
      show t.lineInputCursorPos ≠ 0
      omega
    have hstep : (t.arrive keyLeft).cursorMoveInline false = { t.arrive keyLeft with
        screen := t.screen.moveCursor (-1), lineInputCursorPos := t.lineInputCursorPos - 1 } := by
      rw [cursorMoveInline, if_neg Bool.false_ne_true, if_neg hpos]
      rfl
    have hedit := Screen.moveCursor_edited (-1) t.screen
    rw [List.replicate_succ, List.foldl_cons, press_left, hstep]
    obtain ⟨htext, hcursor, hX, hmax, hstart⟩ := @ih { t.arrive keyLeft with
      screen := t.screen.moveCursor (-1), lineInputCursorPos := t.lineInputCursorPos - 1
      isExtendedScancode := false } (by show n ≤ t.lineInputCursorPos - 1; omega)
    refine ⟨htext, hcursor.trans ?_, hX.trans ?_, hmax.trans hedit.maxChars, hstart⟩
    · show t.lineInputCursorPos - 1 - n = _
      omega
    · show (t.screen.moveCursor (-1)).cursorAtX - n = _
      rw [hedit.cursorAtX]
      omega

theorem lineInputLength_ne_zero {a token b : CString}
    (htoken : TokenAt t.text t.lineInputCursorPos a token b) : t.lineInputLength ≠ 0 := by
  have hpos := List.length_pos_iff.mpr htoken.ne_nil
  rw [← t.length_text, htoken.split, List.length_append, List.length_append]
  omega

theorem handleTabAutoCompletion_one {a b name : CString}
    (htoken : TokenAt t.text t.lineInputCursorPos a t.getCurrTokenFromBuffer b)
    (hname : t.OnlyCandidate name) :
    t.handleTabAutoCompletion = t.replaceCurrentToken t.getCurrTokenFromBuffer name := by
  unfold handleTabAutoCompletion
  rw [if_neg (lineInputLength_ne_zero htoken), if_neg htoken.ne_nil,
    candidates_eq_singleton_iff.mpr hname]

theorem handleTabAutoCompletion_several {a b name₁ name₂ : CString} {names : List CString}
    (htoken : TokenAt t.text t.lineInputCursorPos a t.getCurrTokenFromBuffer b)
    (hnames : t.candidates = name₁ :: name₂ :: names) :
    t.handleTabAutoCompletion = t.listCandidates (name₁ :: name₂ :: names) := by
  unfold handleTabAutoCompletion
  rw [if_neg (lineInputLength_ne_zero htoken), if_neg htoken.ne_nil, hnames]

/-- Where there is one candidate, Tab puts it in the place of the token at the cursor, with the cursor
behind it, exactly if the screen lets go of the cells in front of the token's end. Where there is none
or several, it leaves the line as it is. -/
theorem handleTabAutoCompletion_completes_iff (hcursor : t.lineInputCursorPos ≤ t.lineInputLength)
    (h0 : 0 ∉ t.text) (hne : t.getCurrTokenFromBuffer ≠ []) :
    (∃ a b, TokenAt t.text t.lineInputCursorPos a t.getCurrTokenFromBuffer b) ∧
    (∀ a b name, TokenAt t.text t.lineInputCursorPos a t.getCurrTokenFromBuffer b →
      t.OnlyCandidate name →
        let t' := t.handleTabAutoCompletion
        let behind := a.length + t.getCurrTokenFromBuffer.length - t.lineInputCursorPos
        (t'.text = a ++ name ++ b ∧ t'.lineInputCursorPos = a.length + name.length ↔
          DeletesFrom t.screen (t.screen.cursorAtX + behind) t.getCurrTokenFromBuffer.length)) ∧
    ((∀ name, ¬ t.OnlyCandidate name) → t.handleTabAutoCompletion.text = t.text) := by
  refine ⟨LineInput.tokenAt_getCurrTokenFromBuffer h0 hcursor hne, fun a b name htoken hname => ?_,
    handleTabAutoCompletion_unchanged⟩
  rw [handleTabAutoCompletion_one htoken hname]
  exact replaceCurrentToken_iff hcursor htoken name

/-- On a screen of 80 columns, after the keys H and E. -/
theorem handleTabAutoCompletion_help :
    let t := [⟨false, false, 0x23⟩, ⟨false, false, 0x12⟩].foldl (press fun _ _ _ => [])
      (boot (Screen.initPrint 80 25).initScreenBuffer).terminalInit
    t.handleTabAutoCompletion.text = literal "help" ∧ t.handleTabAutoCompletion.lineInputCursorPos = 4 := by
  intro t
  have hprint : (Screen.initPrint 80 25).initScreenBuffer.Printing :=
    Screen.Early.printing ⟨rfl, by decide, by decide, by decide, by decide, rfl⟩
  have hprompt := terminalInit_prompt hprint (by decide)
  have hmax := maxChars_terminalInit hprint
  let edits : List (LineEditor.Edit UInt8) := [.char 0x68, .char 0x65]
  have hkeys : [⟨false, false, 0x23⟩, ⟨false, false, 0x12⟩].map Key.edit = edits.map some := by decide
  have hsim := (terminalInit_freshPrompt hprint).simulates.foldl_press (fun _ _ _ => []) hkeys
    (fun line hline => by cases hline) (by rw [hmax, hprompt]; decide)
  rw [hmax, hprompt] at hsim
  change Simulates _ _ t _ at hsim
  clear_value t
  have htext : t.text = literal "he" := hsim.text
  have hcursor : t.lineInputCursorPos = 2 := hsim.cursor
  have hlength : t.lineInputLength = 2 := hsim.length
  have hword : TokenAt t.text t.lineInputCursorPos [] (literal "he") [] := by
    rw [htext, hcursor]
    refine ⟨by decide, by decide, by decide, ?_, ?_, by decide, by decide⟩ <;> simp
  have h0 : 0 ∉ t.text := by rw [htext]; decide
  have hle : t.lineInputCursorPos ≤ t.lineInputLength := by rw [hcursor, hlength]
  have htoken : t.getCurrTokenFromBuffer = literal "he" :=
    LineInput.getCurrTokenFromBuffer_of_tokenAt h0 hle hword
  have honly : t.OnlyCandidate (literal "help") := by
    unfold OnlyCandidate
    rw [htoken]
    decide
  have htokenNe : t.getCurrTokenFromBuffer ≠ [] := by
    rw [htoken]
    decide
  obtain ⟨-, hiff, -⟩ := handleTabAutoCompletion_completes_iff hle h0 htokenNe
  refine (hiff [] [] (literal "help") (by rw [htoken]; exact hword) honly).mpr ?_
  rw [htoken, hcursor]
  exact hsim.deletesFrom (by decide) (by decide) (by decide)

/-- The line "echo aa… r", which fills its row behind the prompt. -/
def wrappedLine : CString := literal "echo " ++ List.replicate 68 0x61 ++ literal " r"

/-- The keys of the line but for its last character. -/
def wrappedKeys : List Key :=
  let scancodes : List UInt8 := [0x12, 0x2E, 0x23, 0x18, 0x39] ++ List.replicate 68 0x1E ++ [0x39]
  scancodes.map fun scancode => ⟨false, false, scancode⟩

/-- The key r. -/
def keyR : Key := ⟨false, false, 0x13⟩

/-- The line typed, on a screen of 80 columns. -/
theorem wrappedKeys_simulates :
    let t := (wrappedKeys ++ [keyR]).foldl (press fun _ _ _ => [])
      (boot (Screen.initPrint 80 25).initScreenBuffer).terminalInit
    ∃ e, Simulates ((literal "/ >> ").map fun c => ⟨.white, c, false⟩) 80 t e ∧
      e.text = wrappedLine ∧ e.cursor = 75 ∧ t.currentPath = rootPath := by
  intro t
  have hprint : (Screen.initPrint 80 25).initScreenBuffer.Printing :=
    Screen.Early.printing ⟨rfl, by decide, by decide, by decide, by decide, rfl⟩
  have hprompt := terminalInit_prompt hprint (by decide)
  have hmax := maxChars_terminalInit hprint
  let edits : List (LineEditor.Edit UInt8) :=
    (literal "echo " ++ List.replicate 68 0x61 ++ literal " ").map .char
  have hkeys : wrappedKeys.map Key.edit = edits.map some := by decide +kernel
  have hsim := (terminalInit_freshPrompt hprint).simulates.foldl_press (fun _ _ _ => []) hkeys
    (fun line hline => by cases hline) (by rw [hmax, hprompt]; decide +kernel)
  rw [hmax, hprompt] at hsim
  have hedit : keyR.edit = some (.char 0x72) := by decide
  have hlast := (hsim.keyboard false false).onPlainKey (fun _ _ _ => []) (k := keyR) rfl rfl hedit
    (by decide +kernel)
  have ht : t = (arrive keyR (wrappedKeys.foldl (press fun _ _ _ => [])
      (boot (Screen.initPrint 80 25).initScreenBuffer).terminalInit)).onPlainKey (fun _ _ _ => []) 0x13 := by
    show List.foldl _ _ _ = _
    rw [List.foldl_append]
    rfl
  rw [ht]
  exact ⟨_, hlast, by decide +kernel, by decide +kernel, by decide +kernel⟩

/-- The prompt behind several candidates is that of the working directory. -/
theorem listCandidates_path (h : Simulates prompt maxChars t e) (names : List CString) {text : CString}
    (htext : t.currentPath ++ literal " >> " = text) (hbreaks : ∀ c ∈ text, c ≠ 0x0A ∧ c ≠ 0x0D)
    (hfits : text.length < maxChars) :
    (t.prints (showCandidates names)).newTerminalInputLine.prompt =
      text.map fun c => ⟨.white, c, false⟩ := by
  obtain ⟨hprint, hend⟩ := Screen.newline_spec h.lines
  let shown := (names.map fun name => PrintCall.chars name .white).intersperse
    (.chars (literal " | ") .white)
  have hlines := (Screen.runAll_printing hprint shown).toInLines
  have hscreen : (t.prints (showCandidates names)).screen =
      (PrintCall.runAll shown t.screen.newline).newline := by
    show PrintCall.runAll (shown ++ [.newline]) t.screen.newline = _
    exact List.foldl_append
  have hmax : (t.prints (showCandidates names)).screen.maxChars = maxChars := by
    rw [hscreen, Screen.maxChars_newline hlines, Screen.maxChars_runAll hprint shown,
      Screen.maxChars_newline h.lines, h.width]
  refine newTerminalInputLine_prompt ?_ ?_ ?_ htext hbreaks (by rw [hmax]; exact hfits) <;> rw [hscreen]
  · exact (Screen.newline_spec hlines).1
  · exact (Screen.newline_spec hlines).2
  · exact Screen.newline_empty hlines

/-- The candidates of its last word are listed, and Left goes back to its first: there the cursor of the
screen is in front of the row. -/
theorem wrappedLine_left
    (h : Simulates ((literal "/ >> ").map fun c => ⟨.white, c, false⟩) 80 t e)
    (htext : e.text = wrappedLine) (hcursor : e.cursor = 75) (hpath : t.currentPath = rootPath) :
    let t' := (List.replicate 71 keyLeft).foldl (press fun _ _ _ => []) t.handleTabAutoCompletion
    t'.text = wrappedLine ∧ t'.lineInputCursorPos = 4 ∧ t'.screen.cursorAtX = -71 ∧
      t'.screen.maxChars = 80 ∧ t'.lineInputStartX = 5 := by
  have hline : t.text = wrappedLine := h.text.trans htext
  have hpos : t.lineInputCursorPos = 75 := h.cursor.trans hcursor
  have hlength : t.lineInputLength = 75 := by
    rw [← t.length_text, hline]
    decide +kernel
  have hword : TokenAt t.text t.lineInputCursorPos
      (literal "echo " ++ List.replicate 68 0x61 ++ [space]) (literal "r") [] := by
    rw [hline, hpos]
    refine ⟨by decide +kernel, by decide, by decide, ?_, ?_, by decide, by decide⟩ <;> simp
  have htoken : t.getCurrTokenFromBuffer = literal "r" :=
    LineInput.getCurrTokenFromBuffer_of_tokenAt (by rw [hline]; decide +kernel)
      (by rw [hpos, hlength]) hword
  have hcandidates : t.candidates = [literal "reboot", literal "read"] := by
    unfold candidates
    rw [htoken]
    decide
  have hprintable : Printable e.text := by
    rw [htext]
    decide +kernel
  obtain ⟨names, hnames⟩ : ∃ names, names = [literal "reboot", literal "read"] := ⟨_, rfl⟩
  have hlisted : t.handleTabAutoCompletion = t.listCandidates names := by
    rw [hnames]
    exact handleTabAutoCompletion_several (by rw [htoken]; exact hword) hcandidates
  have htitle : t.currentPath ++ literal " >> " = literal "/ >> " := by
    rw [hpath]
    decide
  have hprompt := listCandidates_path h names htitle (by decide +kernel) (by decide)
  obtain ⟨hprint, -, hstart, hmax⟩ := listCandidates_prompt h names
  have hcolumn := listCandidates_full h hprintable names (by rw [htext]; decide)
    (by rw [hprompt, htext]; decide +kernel)
  have hwidth : (t.listCandidates names).screen.maxChars = 80 := by
    rw [listCandidates_screen h hprintable, Screen.maxChars_printChars hprint, hmax]
  obtain ⟨hl₁, hl₂, hl₃, hl₄, hl₅⟩ := foldl_left (fun _ _ _ => []) (t := t.listCandidates names) (n := 71)
    (by show 71 ≤ t.lineInputLength; omega)
  rw [hlisted]
  refine ⟨hl₁.trans hline, hl₂.trans ?_, hl₃.trans ?_, hl₄.trans hwidth, hl₅.trans ?_⟩
  · show t.lineInputLength - 71 = 4
    omega
  · rw [hcolumn]
    rfl
  · show (t.prints (showCandidates names)).newTerminalInputLine.screen.cursorAtX = 5
    rw [hstart, hprompt]
    rfl

/-- There Tab does not delete the word. -/
theorem wrappedLine_kept (hline : t.text = wrappedLine) (hpos : t.lineInputCursorPos = 4)
    (hcolumn : t.screen.cursorAtX = -71) :
    TokenAt t.text t.lineInputCursorPos [] t.getCurrTokenFromBuffer (wrappedLine.drop 4) ∧
      t.OnlyCandidate (literal "echo") ∧
      ¬ (t.handleTabAutoCompletion.text = [] ++ literal "echo" ++ wrappedLine.drop 4 ∧
        t.handleTabAutoCompletion.lineInputCursorPos =
          ([] : CString).length + (literal "echo").length) := by
  have hword : TokenAt t.text t.lineInputCursorPos [] (literal "echo") (wrappedLine.drop 4) := by
    rw [hline, hpos]
    refine ⟨by decide +kernel, by decide, by decide, ?_, ?_, by decide, by decide⟩ <;> decide +kernel
  have hle : t.lineInputCursorPos ≤ t.lineInputLength := by
    rw [← t.length_text, hline, hpos]
    decide +kernel
  have htoken : t.getCurrTokenFromBuffer = literal "echo" :=
    LineInput.getCurrTokenFromBuffer_of_tokenAt (by rw [hline]; decide +kernel) hle hword
  have honly : t.OnlyCandidate (literal "echo") := by
    unfold OnlyCandidate
    rw [htoken]
    decide
  rw [← htoken] at hword
  refine ⟨hword, honly, fun hcompleted => ?_⟩
  rw [handleTabAutoCompletion_one hword honly] at hcompleted
  have hdeletes := (replaceCurrentToken_iff hle hword _).mp hcompleted
  rw [htoken] at hdeletes
  have hfirst := (hdeletes 0 (by decide)).1
  rw [hcolumn] at hfirst
  change 0 ≤ -71 + (((literal "echo").length - t.lineInputCursorPos : Nat) : Int) - 1 - 0 at hfirst
  rw [hpos] at hfirst
  exact absurd hfirst (by decide)

def keyTab : Key := ⟨false, false, 0x0F⟩

theorem foldl_press_tab (sh : Shell) (keys keys' : List Key) (t : Terminal) :
    (keys ++ [keyTab] ++ keys').foldl (press sh) t =
      keys'.foldl (press sh) ((keys.foldl (press sh) t).arrive keyTab).handleTabAutoCompletion := by
  rw [List.foldl_append, List.foldl_append]
  rfl

/-- From the typed line to its first word: Tab, and 71 times Left. -/
theorem wrappedLine_reached {start : Terminal} {keys : List Key}
    (h : Simulates ((literal "/ >> ").map fun c => ⟨.white, c, false⟩) 80
      (keys.foldl (press fun _ _ _ => []) start) e)
    (htext : e.text = wrappedLine) (hcursor : e.cursor = 75)
    (hpath : (keys.foldl (press fun _ _ _ => []) start).currentPath = rootPath) :
    ∃ keys', let t' := (keys ++ keys').foldl (press fun _ _ _ => []) start
      t'.text = wrappedLine ∧ t'.lineInputCursorPos = 4 ∧ t'.screen.cursorAtX = -71 ∧
        t'.screen.maxChars = 80 ∧ t'.lineInputStartX = 5 := by
  refine ⟨[keyTab] ++ List.replicate 71 keyLeft, ?_⟩
  rw [← List.append_assoc, foldl_press_tab]
  exact wrappedLine_left (t := arrive keyTab _) (h.keyboard keyTab.shift keyTab.isExtendedScancode)
    htext hcursor hpath

/-- Behind the prompt the line fits its row, and "echo" would stay as it is. After the listing its cells
are not where the cursor of the screen says. -/
theorem handleTabAutoCompletion_wrapped :
    ¬ ∀ (keys : List Key) (a b name : CString),
      let t := keys.foldl (press fun _ _ _ => [])
        (boot (Screen.initPrint 80 25).initScreenBuffer).terminalInit
      TokenAt t.text t.lineInputCursorPos a t.getCurrTokenFromBuffer b → t.OnlyCandidate name →
        t.lineInputStartX + (a ++ name ++ b).length ≤ t.screen.maxChars →
        (a ++ name ++ b).length < terminalBufferSize →
          t.handleTabAutoCompletion.text = a ++ name ++ b ∧
            t.handleTabAutoCompletion.lineInputCursorPos = a.length + name.length := by
  intro hall
  obtain ⟨e, hsim, htext, hcursor, hpath⟩ := wrappedKeys_simulates
  obtain ⟨keys, hline, hpos, hcolumn, hmax, hstart⟩ := wrappedLine_reached hsim htext hcursor hpath
  obtain ⟨hword, honly, hkept⟩ := wrappedLine_kept hline hpos hcolumn
  exact hkept (hall _ _ _ _ hword honly (by rw [hstart, hmax]; decide +kernel) (by decide +kernel))

end Tab

end Terminal

end EszOs
