import EszOs.Lib.Runs
import EszOs.Terminal.Terminal

/-!
# The keyboard (`io/keyboard/keyboard.cpp`)

`keyboard_handler` takes one byte of the scancode stream. `0xE0` sets `isExtendedScancode` for the
byte behind it, and `terminal_on_key` or the release of a key takes it back.

* `isExtendedScancode_keyboardHandler`, `shift_keyboardHandler`: what one byte does to the flags.
* `extended_iff`: the flag says exactly whether the last byte was `0xE0`, if and only if no `0xE0` is
  followed by a shift code or a zero byte: their branches leave the flag as it is.
* `shift_iff`: `shift` says exactly whether a Shift key is down, if and only if none is released
  while the other one is down: the two keys share the flag.
-/

namespace EszOs

namespace Terminal

def keyboardHandler (sh : Shell) (scancode : UInt8) (t : Terminal) : Terminal :=
  if scancode = 0x2A ∨ scancode = 0x36 then { t with shift := true }
  else if scancode = 0xAA ∨ scancode = 0xB6 then { t with shift := false }
  else if scancode = 0xE0 then { t with isExtendedScancode := true }
  else if scancode &&& 0x80 ≠ 0 then { t with isExtendedScancode := false }
  else if scancode ≠ 0 then t.terminalOnKey sh scancode
  else t

/-- A stream of bytes, one after the other. -/
def keyboardRun (sh : Shell) (t : Terminal) (stream : List UInt8) : Terminal :=
  stream.foldl (fun t b => t.keyboardHandler sh b) t

/-! ## What the terminal leaves alone -/

/-- The globals of `keyboard.cpp` are the same. -/
structure SameKeyboard (t t' : Terminal) : Prop where
  shift : t'.shift = t.shift
  isExtendedScancode : t'.isExtendedScancode = t.isExtendedScancode

namespace SameKeyboard

theorem refl (t : Terminal) : SameKeyboard t t := ⟨rfl, rfl⟩

theorem trans {t t' t'' : Terminal} (h : SameKeyboard t t') (h' : SameKeyboard t' t'') :
    SameKeyboard t t'' :=
  ⟨h'.shift.trans h.shift, h'.isExtendedScancode.trans h.isExtendedScancode⟩

theorem setLineInput (line : LineInput) (t : Terminal) :
    SameKeyboard t { t with toLineInput := line } := ⟨rfl, rfl⟩

theorem prints (calls : List PrintCall) (t : Terminal) : SameKeyboard t (t.prints calls) :=
  ⟨rfl, rfl⟩

theorem newTerminalInputLine (t : Terminal) : SameKeyboard t t.newTerminalInputLine := ⟨rfl, rfl⟩

theorem resetLineInput (t : Terminal) : SameKeyboard t t.resetLineInput := ⟨rfl, rfl⟩

theorem insertCharAtCursor (c : UInt8) (t : Terminal) : SameKeyboard t (t.insertCharAtCursor c) :=
  ⟨rfl, rfl⟩

theorem displayTerminalError (text : CString) (t : Terminal) :
    SameKeyboard t (t.displayTerminalError text) := (prints _ t).trans (resetLineInput _)

theorem cursorMoveInline (moveRight : Bool) (t : Terminal) :
    SameKeyboard t (t.cursorMoveInline moveRight) := by
  unfold Terminal.cursorMoveInline
  split
  · split
    · exact refl t
    · exact ⟨rfl, rfl⟩
  · split
    · exact refl t
    · exact ⟨rfl, rfl⟩

theorem handleInputBufferDeletion (t : Terminal) : SameKeyboard t t.handleInputBufferDeletion := by
  unfold Terminal.handleInputBufferDeletion
  repeat' split
  all_goals exact ⟨rfl, rfl⟩

theorem moveToTokenEnd (n : Nat) (t : Terminal) : SameKeyboard t (t.moveToTokenEnd n) := by
  induction n generalizing t with
  | zero => exact refl t
  | succ n ih =>
    rw [Terminal.moveToTokenEnd]
    split
    · exact (cursorMoveInline true t).trans (ih _)
    · exact refl t

theorem insertChars (chars : CString) (t : Terminal) : SameKeyboard t (t.insertChars chars) := by
  induction chars generalizing t with
  | nil => exact refl t
  | cons c chars ih => exact (insertCharAtCursor c t).trans (ih _)

theorem replaceCurrentToken (oldToken newToken : CString) (t : Terminal) :
    SameKeyboard t (t.replaceCurrentToken oldToken newToken) := by
  have hdel : SameKeyboard t (t.removeToken oldToken) :=
    Loop.upTo_induct (fun _ s _ h => h.trans (handleInputBufferDeletion s)) (moveToTokenEnd _ t)
  exact hdel.trans (insertChars newToken _)

theorem listCandidates (names : List CString) (t : Terminal) :
    SameKeyboard t (t.listCandidates names) := by
  constructor <;> simp only [Terminal.listCandidates, printLine, Terminal.newTerminalInputLine,
    Terminal.prints]

theorem handleTabAutoCompletion (t : Terminal) : SameKeyboard t t.handleTabAutoCompletion := by
  unfold Terminal.handleTabAutoCompletion
  split
  · exact refl t
  · split
    · exact refl t
    · split
      · exact refl t
      · exact replaceCurrentToken _ _ t
      · exact listCandidates _ t

theorem handleShowHistory (t : Terminal) : SameKeyboard t t.handleShowHistory := by
  constructor <;> simp only [Terminal.handleShowHistory, printLine, clearInputOnScreen]

theorem addCommandToHistory (cmd : CString) (t : Terminal) :
    SameKeyboard t (t.addCommandToHistory cmd) := by
  unfold Terminal.addCommandToHistory
  dsimp only
  split
  · exact ⟨rfl, rfl⟩
  · exact ⟨rfl, rfl⟩

theorem executeCommand {sh : Shell} {args : CString} {t t' : Terminal}
    (h : t.executeCommand sh args = some t') : SameKeyboard t t' := by
  obtain ⟨cmd, -, rfl⟩ := Option.map_eq_some_iff.mp h
  constructor <;> simp only [Terminal.prints]

theorem processLineInputBuffer (sh : Shell) (t : Terminal) :
    SameKeyboard t (t.processLineInputBuffer sh) := by
  unfold Terminal.processLineInputBuffer
  split
  · exact (prints _ t).trans (resetLineInput _)
  · split
    · exact displayTerminalError _ t
    · have hadd := addCommandToHistory (t.stringFrom 0) t
      dsimp only
      split
      · rename_i done hdone
        exact (hadd.trans ((setLineInput _ _).trans (executeCommand hdone))).trans
          (resetLineInput done)
      · exact hadd.trans ((setLineInput _ _).trans (displayTerminalError _ _))

theorem onPlainKey (sh : Shell) (scancode : UInt8) (t : Terminal) :
    SameKeyboard t (t.onPlainKey sh scancode) := by
  unfold Terminal.onPlainKey
  dsimp only
  split
  · have hprocess := processLineInputBuffer sh { t with goThroughHistoryCount := 0 }
    have hcount : SameKeyboard t { t with goThroughHistoryCount := 0 } := ⟨rfl, rfl⟩
    exact hcount.trans (hprocess.trans (newTerminalInputLine _))
  · split
    · exact handleInputBufferDeletion t
    · split
      · exact handleTabAutoCompletion t
      · unfold handleInputBufferInsertion
        dsimp only
        split
        · exact refl t
        · exact insertCharAtCursor _ t

theorem onExtendedKey (scancode : UInt8) (t : Terminal) :
    SameKeyboard t (t.onExtendedKey scancode) := by
  have hcount : ∀ n, SameKeyboard t { t with goThroughHistoryCount := n } := fun n => ⟨rfl, rfl⟩
  unfold Terminal.onExtendedKey
  split
  · split
    · exact refl t
    · split
      · exact (hcount _).trans (handleShowHistory _)
      · exact refl t
  · split
    · split
      · exact refl t
      · dsimp only
        split
        · exact ⟨rfl, rfl⟩
        · exact (hcount _).trans (handleShowHistory _)
    · split
      · exact cursorMoveInline false t
      · split
        · exact cursorMoveInline true t
        · exact refl t

end SameKeyboard

/-! ## The extended flag -/

/-- The bytes whose branch of `keyboard_handler` leaves `isExtendedScancode` as it is: Shift down,
Shift up and zero. -/
def keepsExtended : List UInt8 := [0x2A, 0x36, 0xAA, 0xB6, 0x00]

theorem isExtendedScancode_terminalOnKey {sh : Shell} {scancode : UInt8} {t : Terminal} :
    (t.terminalOnKey sh scancode).isExtendedScancode = false := by
  unfold terminalOnKey
  split
  · rfl
  · rename_i h
    rw [(SameKeyboard.onPlainKey sh scancode t).isExtendedScancode]
    exact Bool.eq_false_iff.mpr h

/-- One byte. -/
theorem isExtendedScancode_keyboardHandler (sh : Shell) (b : UInt8) (t : Terminal) :
    (t.keyboardHandler sh b).isExtendedScancode =
      if b = 0xE0 then true else if b ∈ keepsExtended then t.isExtendedScancode else false := by
  unfold keyboardHandler
  by_cases hdown : b = 0x2A ∨ b = 0x36
  · rw [if_pos hdown]
    rcases hdown with rfl | rfl <;> rfl
  rw [if_neg hdown]
  by_cases hup : b = 0xAA ∨ b = 0xB6
  · rw [if_pos hup]
    rcases hup with rfl | rfl <;> rfl
  rw [if_neg hup]
  by_cases hext : b = 0xE0
  · rw [if_pos hext, if_pos hext]
  rw [if_neg hext, if_neg hext]
  by_cases hzero : b = 0
  · rw [hzero]
    rfl
  have hkeeps : b ∉ keepsExtended := by
    simp only [keepsExtended, List.mem_cons, List.not_mem_nil, or_false]
    tauto
  rw [if_neg hkeeps]
  split
  · rfl
  · exact isExtendedScancode_terminalOnKey

theorem keyboardRun_concat (sh : Shell) (t : Terminal) (pre : List UInt8) (b : UInt8) :
    keyboardRun sh t (pre ++ [b]) = (keyboardRun sh t pre).keyboardHandler sh b := by
  rw [keyboardRun, List.foldl_append]
  rfl

/-- After every byte of a stream the flag says whether that byte was `0xE0`, exactly if no `0xE0`
of the stream is followed by a shift code or a zero byte. -/
theorem extended_iff (sh : Shell) (screen : Screen) (stream : List UInt8) :
    (∀ pre, pre <+: stream →
      ((keyboardRun sh (boot screen).terminalInit pre).isExtendedScancode = true ↔
        pre.getLast? = some 0xE0)) ↔
      ∀ pre b, pre ++ [0xE0, b] <+: stream → b ∉ keepsExtended := by
  rw [Runs.forall_prefix_iff (C := fun pre b => pre.getLast? = some 0xE0 → b ∉ keepsExtended)
    (iff_of_false (by simp [keyboardRun, terminalInit, newTerminalInputLine, prints, boot])
      (by simp)) fun pre b hpre => ?_]
  · constructor
    · intro h pre b hprefix
      have hcons : pre ++ [0xE0, b] = (pre ++ [0xE0]) ++ [b] := by simp
      exact h (pre ++ [0xE0]) b (hcons ▸ hprefix) List.getLast?_concat
    · intro h pre b hprefix hlast
      obtain ⟨q, rfl⟩ := List.getLast?_eq_some_iff.mp hlast
      exact h q b (by simpa using hprefix)
  · rw [keyboardRun_concat, isExtendedScancode_keyboardHandler, List.getLast?_concat,
      Option.some_inj, ← hpre]
    by_cases hE0 : b = 0xE0
    · rw [if_pos hE0, hE0]
      exact iff_of_true (iff_of_true rfl rfl) fun _ => by decide
    · rw [if_neg hE0]
      by_cases hkeeps : b ∈ keepsExtended
      · rw [if_pos hkeeps]
        exact ⟨fun h hflag => absurd (h.mp hflag) hE0, fun h =>
          iff_of_false (fun hflag => h hflag hkeeps) hE0⟩
      · rw [if_neg hkeeps]
        exact iff_of_true (iff_of_false Bool.false_ne_true hE0) fun _ => hkeeps

/-- `0xE0` and then Shift down, as a keyboard sends before an arrow key with NumLock on: the flag
is still set. -/
theorem extended_fakeShift :
    ¬ ∀ pre, pre <+: [0xE0, 0x2A] →
      ((keyboardRun (fun _ _ _ => [])
          (boot (Screen.initPrint 80 25).initScreenBuffer).terminalInit pre).isExtendedScancode =
            true ↔ pre.getLast? = some 0xE0) := by
  intro h
  have hlast := h [0xE0, 0x2A] (List.prefix_refl _)
  rw [show ([0xE0, 0x2A] : List UInt8) = [0xE0] ++ [0x2A] from rfl, keyboardRun_concat,
    isExtendedScancode_keyboardHandler, ← List.nil_append [0xE0], keyboardRun_concat,
    isExtendedScancode_keyboardHandler] at hlast
  exact absurd (hlast.mp (by decide)) (by decide)

/-! ## The shift flag -/

/-- The keys that are down after a stream, by their make codes: a break code is the make code with
the top bit set. -/
def heldKeys (stream : List UInt8) : UInt8 → Bool :=
  stream.foldl (fun held b k => if k = b &&& 0x7F then b &&& 0x80 == 0 else held k) fun _ => false

theorem heldKeys_concat (stream : List UInt8) (b k : UInt8) :
    heldKeys (stream ++ [b]) k = if k = b &&& 0x7F then b &&& 0x80 == 0 else heldKeys stream k := by
  rw [heldKeys, List.foldl_append]
  rfl

theorem shift_terminalOnKey {sh : Shell} {scancode : UInt8} {t : Terminal} :
    (t.terminalOnKey sh scancode).shift = t.shift := by
  unfold terminalOnKey
  split
  · exact (SameKeyboard.onExtendedKey scancode t).shift
  · exact (SameKeyboard.onPlainKey sh scancode t).shift

/-- One byte. -/
theorem shift_keyboardHandler (sh : Shell) (b : UInt8) (t : Terminal) :
    (t.keyboardHandler sh b).shift =
      if b = 0x2A ∨ b = 0x36 then true else if b = 0xAA ∨ b = 0xB6 then false else t.shift := by
  unfold keyboardHandler
  split
  · rfl
  · split
    · rfl
    · split
      · rfl
      · split
        · rfl
        · split
          · exact shift_terminalOnKey
          · rfl

/-- The bytes of the two Shift keys, and no others, make or break one of them. -/
theorem shift_codes (b : UInt8) :
    (0x2A = b &&& 0x7F ↔ b = 0x2A ∨ b = 0xAA) ∧ (0x36 = b &&& 0x7F ↔ b = 0x36 ∨ b = 0xB6) := by
  have hcodes : ∀ n : Fin 256,
      (0x2A = UInt8.ofFin n &&& 0x7F ↔ UInt8.ofFin n = 0x2A ∨ UInt8.ofFin n = 0xAA) ∧
        (0x36 = UInt8.ofFin n &&& 0x7F ↔ UInt8.ofFin n = 0x36 ∨ UInt8.ofFin n = 0xB6) := by
    decide +kernel
  have hb := hcodes b.toFin
  rwa [UInt8.ofFin_toFin] at hb

/-- After every beginning of a stream `shift` says whether a Shift key is down, exactly if neither of
them is released while the other one is down. -/
theorem shift_iff (sh : Shell) (screen : Screen) (stream : List UInt8) :
    (∀ pre, pre <+: stream →
      ((keyboardRun sh (boot screen).terminalInit pre).shift = true ↔
        heldKeys pre 0x2A = true ∨ heldKeys pre 0x36 = true)) ↔
      ∀ pre b, pre ++ [b] <+: stream →
        (b = 0xAA → heldKeys pre 0x36 = false) ∧ (b = 0xB6 → heldKeys pre 0x2A = false) := by
  refine Runs.forall_prefix_iff (iff_of_false ?_ ?_) fun pre b hpre => ?_
  · simp [keyboardRun, terminalInit, newTerminalInputLine, prints, boot]
  · simp [heldKeys]
  · obtain ⟨hleft, hright⟩ := shift_codes b
    rw [keyboardRun_concat, shift_keyboardHandler, heldKeys_concat, heldKeys_concat]
    by_cases hl : b = 0x2A
    · subst hl
      exact iff_of_true (iff_of_true rfl (.inl rfl)) ⟨fun h => absurd h (by decide),
        fun h => absurd h (by decide)⟩
    by_cases hr : b = 0x36
    · subst hr
      exact iff_of_true (iff_of_true rfl (.inr rfl)) ⟨fun h => absurd h (by decide),
        fun h => absurd h (by decide)⟩
    rw [if_neg (not_or.mpr ⟨hl, hr⟩)]
    by_cases hlup : b = 0xAA
    · subst hlup
      have hbreak : ((0xAA : UInt8) &&& 0x80 == 0) = false := by decide
      rw [if_pos (.inl rfl), if_pos (by decide), if_neg (by decide), hbreak]
      simp
    by_cases hrup : b = 0xB6
    · subst hrup
      have hbreak : ((0xB6 : UInt8) &&& 0x80 == 0) = false := by decide
      rw [if_pos (.inr rfl), if_neg (by decide), if_pos (by decide), hbreak]
      simp
    rw [if_neg (not_or.mpr ⟨hlup, hrup⟩), if_neg (fun h => (hleft.mp h).elim hl hlup),
      if_neg (fun h => (hright.mp h).elim hr hrup)]
    exact iff_of_true hpre ⟨fun h => absurd h hlup, fun h => absurd h hrup⟩

/-- Left Shift down, right Shift down, left Shift up: the right one is still down. -/
theorem shift_bothReleased :
    ¬ ∀ pre, pre <+: [0x2A, 0x36, 0xAA] →
      ((keyboardRun (fun _ _ _ => [])
          (boot (Screen.initPrint 80 25).initScreenBuffer).terminalInit pre).shift = true ↔
        heldKeys pre 0x2A = true ∨ heldKeys pre 0x36 = true) := by
  intro h
  have hlast := (h [0x2A, 0x36, 0xAA] (List.prefix_refl _)).mpr (.inr (by decide))
  rw [show ([0x2A, 0x36, 0xAA] : List UInt8) = [0x2A, 0x36] ++ [0xAA] from rfl, keyboardRun_concat,
    shift_keyboardHandler] at hlast
  exact absurd hlast (by decide)

end Terminal

end EszOs
