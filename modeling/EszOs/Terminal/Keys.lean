import EszOs.Terminal.Terminal

/-!
# Keys

A `Key` is a scancode with the globals of the keyboard it arrives with, so a sequence of keys is
whatever `keyboard_handler` can hand to `terminal_on_key`, and more. `insertion` tells which
characters a key inserts.

* `EditsKeep.press`, `Kept.press`: what every edit keeps, and an insertion of characters that fit,
  every key keeps, Enter apart or not.
* `lineInputLength_press`: an insertion makes the line that much longer.
-/

namespace EszOs

/-- A scancode that `keyboard_handler` passes to `terminal_on_key`, with the globals it sets. -/
structure Key where
  shift : Bool
  isExtendedScancode : Bool
  scancode : UInt8
deriving DecidableEq, Repr

/-- The key `a`. -/
def keyA : Key := ⟨false, false, 0x1E⟩

/-- The key is Enter. -/
def Key.IsEnter (k : Key) : Prop :=
  k.isExtendedScancode = false ∧ scancodeToKeycode k.shift k.scancode = .enter

instance (k : Key) : Decidable k.IsEnter := inferInstanceAs (Decidable (_ ∧ _))

namespace Terminal

/-- The globals of the keyboard are set as they are when the key arrives. -/
def arrive (k : Key) (t : Terminal) : Terminal :=
  { t with shift := k.shift, isExtendedScancode := k.isExtendedScancode }

def press (sh : Shell) (t : Terminal) (k : Key) : Terminal :=
  (t.arrive k).terminalOnKey sh k.scancode

/-- The terminal before, between and after the keys. -/
abbrev keyStates (sh : Shell) (t : Terminal) (keys : List Key) : List Terminal :=
  Runs.states (fun t k => some (press sh t k)) t keys

/-- The keys, each with the terminal before it. -/
abbrev keyCalls (sh : Shell) (t : Terminal) (keys : List Key) : List (Terminal × Key) :=
  Runs.calls (fun t k => some (press sh t k)) t keys

/-! ## What a key inserts -/

/-- The characters that `terminal_on_key` inserts, and the terminal in which it starts to: for a Tab
that completes a token, the one from which the token has been removed. -/
def insertion (scancode : UInt8) (t : Terminal) : Terminal × CString :=
  let key := scancodeToKeycode t.shift scancode
  if t.isExtendedScancode = true ∨ key = .enter ∨ key = .backspace then (t, [])
  else if key = .tab then
    if t.lineInputLength = 0 ∨ t.getCurrTokenFromBuffer = [] then (t, [])
    else match t.candidates with
      | [name] => (t.removeToken t.getCurrTokenFromBuffer, name)
      | _ => (t, [])
  else (t, if key.toUInt8 = 0 then [] else [key.toUInt8])

theorem insertion_tab {t : Terminal} {scancode : UInt8} {name : CString}
    (hext : t.isExtendedScancode = false) (htab : scancodeToKeycode t.shift scancode = .tab)
    (hlength : t.lineInputLength ≠ 0) (htoken : t.getCurrTokenFromBuffer ≠ [])
    (hname : t.candidates = [name]) :
    t.insertion scancode = (t.removeToken t.getCurrTokenFromBuffer, name) := by
  have hplain : ¬ (t.isExtendedScancode = true ∨ scancodeToKeycode t.shift scancode = .enter ∨
      scancodeToKeycode t.shift scancode = .backspace) := by
    rw [hext, htab]
    decide
  unfold insertion
  dsimp only
  rw [if_neg hplain, if_pos htab, if_neg (not_or.mpr ⟨hlength, htoken⟩), hname]

theorem insertion_plain {t : Terminal} {scancode : UInt8} (hext : t.isExtendedScancode = false)
    (henter : scancodeToKeycode t.shift scancode ≠ .enter)
    (hback : scancodeToKeycode t.shift scancode ≠ .backspace)
    (htab : scancodeToKeycode t.shift scancode ≠ .tab)
    (hc : (scancodeToKeycode t.shift scancode).toUInt8 ≠ 0) :
    t.insertion scancode = (t, [(scancodeToKeycode t.shift scancode).toUInt8]) := by
  have hplain : ¬ (t.isExtendedScancode = true ∨ scancodeToKeycode t.shift scancode = .enter ∨
      scancodeToKeycode t.shift scancode = .backspace) :=
    not_or.mpr ⟨by rw [hext]; exact Bool.false_ne_true, not_or.mpr ⟨henter, hback⟩⟩
  unfold insertion
  dsimp only
  rw [if_neg hplain, if_neg htab, if_neg hc]

/-! ## What a key keeps -/

/-- The edits keep `I`; an insertion does if its characters fit. -/
structure EditsKeep (I : Terminal → Prop) (Fits : Terminal → CString → Prop) : Prop where
  keyboard : ∀ t a b, I t → I { t with shift := a, isExtendedScancode := b }
  extended : ∀ t scancode, I t → I (t.onExtendedKey scancode)
  delete : ∀ t, I t → I t.handleInputBufferDeletion
  list : ∀ t names, I t → I (t.listCandidates names)
  remove : ∀ t oldToken, I t → I (t.removeToken oldToken)
  insert : ∀ t chars, I t → (chars ≠ [] → Fits t chars) → I (t.insertChars chars)

/-- So does Enter. -/
structure Kept (I : Terminal → Prop) (Fits : Terminal → CString → Prop) : Prop
    extends EditsKeep I Fits where
  enter : ∀ sh t, I t →
    I (processLineInputBuffer sh { t with goThroughHistoryCount := 0 }).newTerminalInputLine

/-- The characters a key inserts fit. -/
def InsertionFits (Fits : Terminal → CString → Prop) (t : Terminal) (k : Key) : Prop :=
  let ins := (t.arrive k).insertion k.scancode
  ins.2 ≠ [] → Fits ins.1 ins.2

namespace EditsKeep

variable {I : Terminal → Prop} {Fits : Terminal → CString → Prop}

/-- What the edits keep holds where a key starts to insert. -/
theorem insertion (hkept : EditsKeep I Fits) {t : Terminal} (h : I t) (scancode : UInt8) :
    I (t.insertion scancode).1 := by
  unfold Terminal.insertion
  dsimp only
  split
  · exact h
  · split
    · split
      · exact h
      · split
        · exact hkept.remove _ _ h
        · exact h
    · exact h

theorem handleTabAutoCompletion (hkept : EditsKeep I Fits) {t : Terminal} (h : I t)
    (hfits : ∀ name, t.lineInputLength ≠ 0 → t.getCurrTokenFromBuffer ≠ [] → t.candidates = [name] →
      name ≠ [] → Fits (t.removeToken t.getCurrTokenFromBuffer) name) :
    I t.handleTabAutoCompletion := by
  unfold Terminal.handleTabAutoCompletion
  split
  · exact h
  · rename_i hlength
    split
    · exact h
    · rename_i htoken
      split
      · exact h
      · rename_i name hname
        exact hkept.insert _ name (hkept.remove _ _ h) (hfits name hlength htoken hname)
      · exact hkept.list t t.candidates h

/-- Every key but Enter. -/
theorem press (hkept : EditsKeep I Fits) (sh : Shell) {t : Terminal} {k : Key} (h : I t)
    (hfits : t.InsertionFits Fits k) (hother : ¬ k.IsEnter) : I (t.press sh k) := by
  have harrive : I (t.arrive k) := hkept.keyboard t _ _ h
  unfold Terminal.press terminalOnKey
  split
  · exact hkept.keyboard _ _ false (hkept.extended _ k.scancode harrive)
  · rename_i hext
    have hplain := Bool.eq_false_iff.mpr hext
    unfold InsertionFits at hfits
    unfold onPlainKey
    dsimp only
    split
    · rename_i henter
      exact absurd ⟨hplain, henter⟩ hother
    · rename_i henter
      split
      · exact hkept.delete _ harrive
      · rename_i hback
        split
        · rename_i htab
          refine hkept.handleTabAutoCompletion harrive fun name hlength htoken hname hne => ?_
          rw [insertion_tab hplain htab hlength htoken hname] at hfits
          exact hfits hne
        · rename_i htab
          unfold handleInputBufferInsertion
          dsimp only
          split
          · exact harrive
          · rename_i hc
            rw [insertion_plain hplain henter hback htab hc] at hfits
            exact hkept.insert _ _ harrive hfits

end EditsKeep

/-- What Enter does. -/
theorem press_enter (sh : Shell) (t : Terminal) {k : Key} (h : k.IsEnter) :
    t.press sh k = (processLineInputBuffer sh
      { t.arrive k with goThroughHistoryCount := 0 }).newTerminalInputLine := by
  obtain ⟨hext, henter⟩ := h
  have hplain : ¬ (t.arrive k).isExtendedScancode = true := by
    show ¬ k.isExtendedScancode = true
    rw [hext]
    exact Bool.false_ne_true
  unfold Terminal.press terminalOnKey onPlainKey
  rw [if_neg hplain]
  exact if_pos henter

theorem Kept.press {I : Terminal → Prop} {Fits : Terminal → CString → Prop} (hkept : Kept I Fits)
    (sh : Shell) {t : Terminal} {k : Key} (h : I t) (hfits : t.InsertionFits Fits k) :
    I (t.press sh k) := by
  by_cases henter : k.IsEnter
  · rw [press_enter sh t henter]
    exact hkept.enter sh _ (hkept.keyboard t _ _ h)
  · exact hkept.toEditsKeep.press sh h hfits henter

/-! ## Insertions -/

theorem lineInputLength_insertChars (chars : CString) (t : Terminal) :
    (t.insertChars chars).lineInputLength = t.lineInputLength + chars.length := by
  induction chars generalizing t with
  | nil => rfl
  | cons c chars ih =>
    show ((t.insertCharAtCursor c).insertChars chars).lineInputLength = _
    rw [ih, List.length_cons]
    show t.lineInputLength + 1 + chars.length = _
    omega

/-- A key that inserts characters does so in the terminal of `insertion`. -/
theorem press_of_insertion {sh : Shell} {t : Terminal} {k : Key}
    (h : ((t.arrive k).insertion k.scancode).2 ≠ []) :
    t.press sh k = ((t.arrive k).insertion k.scancode).1.insertChars
      ((t.arrive k).insertion k.scancode).2 := by
  unfold Terminal.press terminalOnKey onPlainKey
  generalize t.arrive k = t at h ⊢
  unfold insertion at h ⊢
  dsimp only at h ⊢
  split at h
  · exact absurd rfl h
  · rename_i hother
    obtain ⟨hext, henter, hback⟩ := not_or.mp hother |>.imp_right not_or.mp
    rw [if_neg hother, if_neg hext, if_neg henter, if_neg hback]
    split at h
    · rename_i htab
      rw [if_pos htab, if_pos htab]
      unfold Terminal.handleTabAutoCompletion
      split at h
      · exact absurd rfl h
      · rename_i hnone
        obtain ⟨hlength, htoken⟩ := not_or.mp hnone
        rw [if_neg hnone, if_neg hlength, if_neg htoken]
        split at h
        · rename_i name hname
          rw [hname]
          rfl
        · exact absurd rfl h
    · rename_i htab
      rw [if_neg htab, if_neg htab]
      unfold handleInputBufferInsertion
      dsimp only
      split at h
      · exact absurd rfl h
      · rename_i hc
        rw [if_neg hc, if_neg hc]
        rfl

end Terminal

end EszOs
