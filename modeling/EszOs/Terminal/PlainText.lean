import EszOs.Terminal.Keys

/-!
# What gets into the input line

A keycode is a character or, from 256 on, a key that is none. `handle_input_buffer_insertion` keeps
its low byte only, so Escape, Ctrl and Alt insert a control character.

* `Spelled P`: the line and the history consist of characters with `P`. Each key keeps it that
  inserts such characters.
* `keys_printable_iff`: the line is printable in every state, and the keys that are no characters
  leave it as it is, exactly if none of these is pressed, Enter, Backspace and Tab apart.
-/

namespace EszOs

/-! ## Keycodes -/

/-- The keycode of a key that is no character, and none of those that edit. -/
def Keycode.Special (key : Keycode) : Prop :=
  256 ≤ key ∧ key ≠ .enter ∧ key ≠ .backspace ∧ key ≠ .tab

instance (key : Keycode) : Decidable key.Special := inferInstanceAs (Decidable (_ ∧ _))

theorem scancodeToKeycode_mem (shift : Bool) (scancode : UInt8) :
    scancodeToKeycode shift scancode = .unknown ∨
      scancode < 0x3A ∧ scancodeToKeycode shift scancode ∈ usKeymap shift := by
  unfold scancodeToKeycode
  split
  · exact .inl rfl
  · rename_i hlt
    have hlt : scancode < 0x3A := UInt8.not_le.mp hlt
    refine .inr ⟨hlt, ?_⟩
    have hnat := UInt8.lt_iff_toNat_lt.mp hlt
    rw [List.getD_eq_getElem?_getD, List.getElem?_eq_getElem (by rw [length_usKeymap]; exact hnat)]
    exact List.getElem_mem _

/-- A key that is not special edits, inserts nothing or inserts a printable character. -/
theorem printable_of_not_special {shift : Bool} {scancode : UInt8}
    (h : ¬ (scancodeToKeycode shift scancode).Special) :
    scancodeToKeycode shift scancode = .enter ∨ scancodeToKeycode shift scancode = .backspace ∨
      scancodeToKeycode shift scancode = .tab ∨ (scancodeToKeycode shift scancode).toUInt8 = 0 ∨
      Printable [(scancodeToKeycode shift scancode).toUInt8] := by
  have hmap : ∀ shift, (usKeymap shift).all fun key => decide (¬ key.Special → key = .enter ∨
      key = .backspace ∨ key = .tab ∨ key.toUInt8 = 0 ∨ Printable [key.toUInt8]) := by decide +kernel
  rcases scancodeToKeycode_mem shift scancode with hunknown | ⟨-, hmem⟩
  · rw [hunknown]
    exact .inr (.inr (.inr (.inl rfl)))
  · exact of_decide_eq_true (List.all_eq_true.mp (hmap shift) _ hmem) h

/-- A special key would insert a control character. -/
theorem control_of_special {shift : Bool} {scancode : UInt8}
    (h : (scancodeToKeycode shift scancode).Special) :
    scancode < 0x3A ∧ (scancodeToKeycode shift scancode).toUInt8 ≠ 0 ∧
      (scancodeToKeycode shift scancode).toUInt8 < 32 := by
  have hmap : ∀ shift, (usKeymap shift).all fun key => decide (key.Special →
      key.toUInt8 ≠ 0 ∧ key.toUInt8 < 32) := by decide +kernel
  rcases scancodeToKeycode_mem shift scancode with hunknown | ⟨hlt, hmem⟩
  · rw [hunknown] at h
    exact absurd h (by decide)
  · exact ⟨hlt, of_decide_eq_true (List.all_eq_true.mp (hmap shift) _ hmem) h⟩

namespace LineInput

/-! ## Edits of the line -/

variable {P : UInt8 → Prop}

theorem forall_stringFrom {t : LineInput} (h : ∀ c ∈ t.text, P c) : ∀ c ∈ t.stringFrom 0, P c :=
  fun c hc => h c ((List.takeWhile_prefix _).subset hc)

theorem forall_insertChar {t : LineInput} (h : ∀ c ∈ t.text, P c)
    (hle : t.lineInputCursorPos ≤ t.lineInputLength) {c : UInt8} (hc : P c) :
    ∀ d ∈ (t.insertChar c).text, P d := by
  intro d hd
  rw [text_insertChar hle] at hd
  rcases List.eq_or_mem_of_mem_insertIdx hd with rfl | hd
  · exact hc
  · exact h d hd

theorem forall_deleteChar {t : LineInput} (h : ∀ c ∈ t.text, P c)
    (hle : t.lineInputCursorPos ≤ t.lineInputLength) (hpos : 0 < t.lineInputCursorPos) :
    ∀ c ∈ t.deleteChar.text, P c := by
  rw [text_deleteChar hpos hle]
  exact fun c hc => h c (List.mem_of_mem_eraseIdx hc)

end LineInput

namespace Terminal

/-- The line and the history consist of characters with `P`. -/
structure Spelled (P : UInt8 → Prop) (t : Terminal) : Prop where
  cursor_le : t.lineInputCursorPos ≤ t.lineInputLength
  text : ∀ c ∈ t.text, P c
  history : ∀ i, ∀ c ∈ t.commandHistory i, P c

namespace Spelled

variable {P : UInt8 → Prop} {t : Terminal}

/-- An empty line. -/
theorem of_reset (h : ∀ i, ∀ c ∈ t.commandHistory i, P c) : t.resetLineInput.Spelled P where
  cursor_le := Nat.le_refl 0
  text := fun c hc => by cases hc
  history := h

theorem start (screen : Screen) : (boot screen).terminalInit.Spelled P where
  cursor_le := Nat.le_refl 0
  text := fun c hc => by cases hc
  history := fun _ c hc => by cases hc

theorem cursorMoveInline (h : t.Spelled P) (moveRight : Bool) :
    (t.cursorMoveInline moveRight).Spelled P := by
  have hle := h.cursor_le
  unfold Terminal.cursorMoveInline
  split
  · split
    · exact h
    · exact ⟨by show t.lineInputCursorPos + 1 ≤ t.lineInputLength; omega, h.text, h.history⟩
  · split
    · exact h
    · exact ⟨by show t.lineInputCursorPos - 1 ≤ t.lineInputLength; omega, h.text, h.history⟩

theorem handleInputBufferDeletion (h : t.Spelled P) : t.handleInputBufferDeletion.Spelled P := by
  have hle := h.cursor_le
  unfold Terminal.handleInputBufferDeletion
  split
  · exact h
  · split
    · exact h
    · rename_i hpos
      split
      · exact h
      · split
        · exact h
        · exact ⟨by show t.lineInputCursorPos - 1 ≤ t.lineInputLength - 1; omega,
            LineInput.forall_deleteChar h.text hle (Nat.pos_of_ne_zero hpos), h.history⟩

theorem removeToken (h : t.Spelled P) (oldToken : CString) :
    (t.removeToken oldToken).Spelled P := by
  have hmove : ∀ n, ∀ {t : Terminal}, t.Spelled P → (t.moveToTokenEnd n).Spelled P := by
    intro n
    induction n with
    | zero => exact fun h => h
    | succ n ih =>
      intro t h
      rw [Terminal.moveToTokenEnd]
      split
      · exact ih (h.cursorMoveInline true)
      · exact h
  exact Loop.upTo_induct (fun _ _ _ ht => ht.handleInputBufferDeletion) (hmove _ h)

theorem insertChars (h : t.Spelled P) {chars : CString} (hchars : ∀ c ∈ chars, P c) :
    (t.insertChars chars).Spelled P := by
  induction chars generalizing t with
  | nil => exact h
  | cons c chars ih =>
    obtain ⟨hc, hrest⟩ := List.forall_mem_cons.mp hchars
    refine ih ⟨Nat.succ_le_succ h.cursor_le, ?_, h.history⟩ hrest
    exact LineInput.forall_insertChar h.text h.cursor_le hc

/-! ## History and commands -/

theorem handleShowHistory (h : t.Spelled P) : t.handleShowHistory.Spelled P := by
  refine ⟨Nat.le_refl _, ?_, h.history⟩
  show ∀ c ∈ (LineInput.recallLine _ _).text, P c
  rw [(LineInput.read_recall _ _).1]
  exact h.history _

theorem addCommandToHistory (h : t.Spelled P) {cmd : CString} (hcmd : ∀ c ∈ cmd, P c) :
    ∀ i, ∀ c ∈ (t.addCommandToHistory cmd).commandHistory i, P c := by
  have hstore : ∀ (f : Nat → CString) (i : Nat) (text : CString), (∀ k, ∀ c ∈ f k, P c) →
      (∀ c ∈ text, P c) → ∀ k, ∀ c ∈ (if k = i then text else f k), P c := by
    intro f i text hf htext k
    split
    · exact htext
    · exact hf k
  unfold Terminal.addCommandToHistory
  dsimp only
  split
  · refine hstore _ _ _ (hstore _ _ _ ?_ (fun c hc => by cases hc)) hcmd
    exact Loop.upTo_induct (fun i f _ hf => hstore f i _ hf (hf _)) h.history
  · exact hstore _ _ _ h.history hcmd

theorem processLineInputBuffer (h : t.Spelled P) (sh : Shell) :
    (t.processLineInputBuffer sh).Spelled P := by
  unfold Terminal.processLineInputBuffer
  split
  · exact of_reset h.history
  · split
    · exact of_reset h.history
    · have hadd := h.addCommandToHistory (LineInput.forall_stringFrom h.text)
      dsimp only
      split
      · rename_i done hdone
        obtain ⟨cmd, -, rfl⟩ := Option.map_eq_some_iff.mp hdone
        exact of_reset hadd
      · exact of_reset hadd

theorem onExtendedKey (h : t.Spelled P) (scancode : UInt8) :
    (t.onExtendedKey scancode).Spelled P := by
  have hcount : ∀ n, Spelled P { t with goThroughHistoryCount := n } := fun n =>
    ⟨h.cursor_le, h.text, h.history⟩
  unfold Terminal.onExtendedKey
  split
  · split
    · exact h
    · split
      · exact (hcount _).handleShowHistory
      · exact h
  · split
    · split
      · exact h
      · dsimp only
        split
        · exact of_reset h.history
        · exact (hcount _).handleShowHistory
    · split
      · exact h.cursorMoveInline false
      · split
        · exact h.cursorMoveInline true
        · exact h

end Spelled

/-! ## Runs -/

theorem kept_spelled (P : UInt8 → Prop) : Kept (Spelled P) fun _ chars => ∀ c ∈ chars, P c where
  keyboard _ _ _ h := ⟨h.cursor_le, h.text, h.history⟩
  extended _ scancode h := h.onExtendedKey scancode
  enter sh t h := by
    have hdone := Spelled.processLineInputBuffer (t := { t with goThroughHistoryCount := 0 })
      ⟨h.cursor_le, h.text, h.history⟩ sh
    exact ⟨hdone.cursor_le, hdone.text, hdone.history⟩
  delete _ h := h.handleInputBufferDeletion
  list _ _ h := ⟨Nat.le_refl _, h.text, h.history⟩
  remove _ oldToken h := h.removeToken oldToken
  insert _ chars h hchars := h.insertChars fun c hc => hchars (List.ne_nil_of_mem hc) c hc

/-- A key that `terminal_on_key` takes for a character without its being one. -/
def Intrudes (k : Key) : Prop :=
  k.isExtendedScancode = false ∧ (scancodeToKeycode k.shift k.scancode).Special

/-- Any other key inserts printable characters. -/
theorem insertionFits_of_not_intrudes {t : Terminal} {k : Key} (h : ¬ Intrudes k) :
    t.InsertionFits (fun _ chars => Printable chars) k := by
  have hnames : ∀ name ∈ commandNames, Printable name := by decide +kernel
  unfold InsertionFits insertion
  dsimp only
  intro hne
  split at hne
  · exact absurd rfl hne
  · rename_i hother
    obtain ⟨hext, henter, hback⟩ := not_or.mp hother |>.imp_right not_or.mp
    rw [if_neg hother]
    split at hne
    · rename_i htab
      rw [if_pos htab]
      split at hne
      · exact absurd rfl hne
      · rename_i hnone
        rw [if_neg hnone]
        split at hne
        · rename_i name hname
          have hmem : name ∈ (t.arrive k).candidates := hname ▸ List.mem_cons_self
          exact hnames name (List.mem_filter.mp hmem).1
        · exact absurd rfl hne
    · rename_i htab
      rw [if_neg htab]
      split at hne
      · exact absurd rfl hne
      · rename_i hc
        have hspecial : ¬ (scancodeToKeycode k.shift k.scancode).Special := fun hs =>
          h ⟨Bool.eq_false_iff.mpr hext, hs⟩
        rw [if_neg hc]
        rcases printable_of_not_special hspecial with h | h | h | h | h
        · exact absurd h henter
        · exact absurd h hback
        · exact absurd h htab
        · exact absurd h hc
        · exact h

/-- A key that intrudes puts a control character into the line. -/
theorem not_printable_of_intrudes (sh : Shell) {t : Terminal}
    (ht : t.Spelled fun c => 32 ≤ c ∧ c ≤ 126) {k : Key} (h : Intrudes k) : ¬ Printable (press sh t k).text := by
  obtain ⟨hext, hspecial⟩ := h
  obtain ⟨-, hne, hlt⟩ := control_of_special hspecial
  obtain ⟨-, henter, hback, htab⟩ := hspecial
  have hins := insertion_plain (t := t.arrive k) hext henter hback htab hne
  have hsome : ((t.arrive k).insertion k.scancode).2 ≠ [] := by
    rw [hins]
    exact List.cons_ne_nil _ _
  have hpress : (press sh t k).text =
      (t.toLineInput.insertChar (scancodeToKeycode k.shift k.scancode).toUInt8).text := by
    rw [press_of_insertion hsome, hins]
    rfl
  have hle : t.lineInputCursorPos ≤ t.text.length := by
    rw [LineInput.length_text]
    exact ht.cursor_le
  intro hprintable
  rw [hpress, LineInput.text_insertChar ht.cursor_le] at hprintable
  exact Printable.ne hprintable ((List.mem_insertIdx hle).mpr (.inl rfl)) hlt rfl

/-- An extended key that is no character does nothing. -/
theorem text_press_of_not_intrudes (sh : Shell) (t : Terminal) {k : Key} (h : ¬ Intrudes k)
    (hspecial : (scancodeToKeycode k.shift k.scancode).Special) :
    (press sh t k).text = t.text := by
  have hext : k.isExtendedScancode = true := by
    cases hk : k.isExtendedScancode
    · exact absurd ⟨hk, hspecial⟩ h
    · rfl
  have hlt := (control_of_special hspecial).1
  have hne : ∀ {c : UInt8}, 0x3A ≤ c → k.scancode ≠ c := by
    rintro c hc rfl
    exact absurd hlt (UInt8.not_lt.mpr hc)
  unfold Terminal.press terminalOnKey
  rw [if_pos (show (t.arrive k).isExtendedScancode = true from hext)]
  unfold Terminal.onExtendedKey
  rw [if_neg (hne (by decide)), if_neg (hne (by decide)), if_neg (hne (by decide)),
    if_neg (hne (by decide))]
  rfl

/-- The line is printable in every state, and a key that is no character and does not edit leaves it
as it is, exactly if no such key is pressed without the prefix of an extended scancode. -/
theorem keys_printable_iff (sh : Shell) (screen : Screen) (keys : List Key) :
    ((∀ t ∈ keyStates sh (boot screen).terminalInit keys, Printable t.text) ∧
      ∀ c ∈ keyCalls sh (boot screen).terminalInit keys,
        (scancodeToKeycode c.2.shift c.2.scancode).Special → (press sh c.1 c.2).text = c.1.text) ↔
      ∀ k ∈ keys, ¬ Intrudes k := by
  have hruns : (∀ t ∈ keyStates sh (boot screen).terminalInit keys, Printable t.text) ↔
      ∀ c ∈ keyCalls sh (boot screen).terminalInit keys, ¬ Intrudes c.2 :=
    Runs.forall_states_iff_of_inv (I := Spelled fun c => 32 ≤ c ∧ c ≤ 126)
    (P := fun t => Printable t.text) (C := fun _ k => ¬ Intrudes k) (fun t ht => ht.text)
    (fun t k t' ht hk hstep => by
      cases hstep
      exact (kept_spelled _).press sh ht (insertionFits_of_not_intrudes hk))
    (fun t k t' ht hstep htext hk => by
      cases hstep
      exact not_printable_of_intrudes sh ht hk htext)
    (Spelled.start screen)
  have hkeys : (∀ c ∈ keyCalls sh (boot screen).terminalInit keys, ¬ Intrudes c.2) ↔
      ∀ k ∈ keys, ¬ Intrudes k := by
    have hmap := Runs.map_snd_calls (f := press sh) (boot screen).terminalInit keys
    rw [← List.forall_mem_map (f := Prod.snd) (P := fun k => ¬ Intrudes k), hmap]
  constructor
  · exact fun h => hkeys.mp (hruns.mp h.1)
  · intro h
    refine ⟨hruns.mpr (hkeys.mpr h), fun c hc => ?_⟩
    exact text_press_of_not_intrudes sh c.1 (hkeys.mpr h c hc)

/-- Escape puts a line feed into the line. -/
theorem keys_escape :
    ¬ ∀ t ∈ keyStates (fun _ _ _ => []) (boot (Screen.initPrint 80 25).initScreenBuffer).terminalInit
        [⟨false, false, 0x01⟩], Printable t.text := by
  intro h
  have hescape : Intrudes ⟨false, false, 0x01⟩ := ⟨rfl, by decide⟩
  have hlast := h _ (Runs.foldl_mem_states (f := press fun _ _ _ => []) _ [⟨false, false, 0x01⟩])
  rw [List.foldl_cons, List.foldl_nil] at hlast
  exact not_printable_of_intrudes _ (Spelled.start _) hescape hlast

end Terminal

end EszOs
