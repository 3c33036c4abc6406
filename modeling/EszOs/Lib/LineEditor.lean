import EszOs.Lib.Runs
import EszOs.Lib.Views

/-!
# A line editor

The line is a list with a cursor in it. `up` and `down` go through a history, whose latest line is
one back; going down past the latest line leaves an empty one.

* `replaceWord_eq`: a word is replaced by moving behind it, deleting it and putting in the new one.
-/

universe u

/-- A line of `α`s with a cursor, and how many lines back in the history it was recalled from. -/
structure LineEditor (α : Type u) where
  text : List α
  cursor : Nat
  history : List (List α)
  recalled : Nat
  cursor_le : cursor ≤ text.length
  recalled_le : recalled ≤ history.length

namespace LineEditor

inductive Edit (α : Type u) where
  | char (a : α)
  | backspace
  | left
  | right
  | up
  | down
deriving DecidableEq

variable {α : Type u}

/-- An empty line. -/
def fresh (history : List (List α)) : LineEditor α :=
  ⟨[], 0, history, 0, Nat.le_refl 0, Nat.zero_le _⟩

def insert (a : α) (e : LineEditor α) : LineEditor α where
  text := e.text.insertIdx e.cursor a
  cursor := e.cursor + 1
  history := e.history
  recalled := e.recalled
  cursor_le := by
    rw [List.length_insertIdx_of_le_length e.cursor_le]
    exact Nat.succ_le_succ e.cursor_le
  recalled_le := e.recalled_le

def backspace (e : LineEditor α) : LineEditor α :=
  if h : e.cursor = 0 then e
  else
    { e with
      text := e.text.eraseIdx (e.cursor - 1)
      cursor := e.cursor - 1
      cursor_le := by
        have := e.cursor_le
        rw [List.length_eraseIdx_of_lt (by omega)]
        omega }

def left (e : LineEditor α) : LineEditor α :=
  { e with cursor := e.cursor - 1, cursor_le := Nat.le_trans (Nat.sub_le _ _) e.cursor_le }

def right (e : LineEditor α) : LineEditor α :=
  if h : e.cursor < e.text.length then { e with cursor := e.cursor + 1, cursor_le := h } else e

/-- The line `n` back in the history, and the empty line for 0. -/
def entry (history : List (List α)) (n : Nat) : List α :=
  if n = 0 then [] else history.getD (history.length - n) []

/-- The cursor goes to the end of the recalled line. -/
def recallLine (e : LineEditor α) (n : Nat) (hn : n ≤ e.history.length) : LineEditor α where
  text := entry e.history n
  cursor := (entry e.history n).length
  history := e.history
  recalled := n
  cursor_le := Nat.le_refl _
  recalled_le := hn

def up (e : LineEditor α) : LineEditor α :=
  if h : e.recalled < e.history.length then e.recallLine (e.recalled + 1) h else e

def down (e : LineEditor α) : LineEditor α :=
  if e.recalled = 0 then e
  else e.recallLine (e.recalled - 1) (Nat.le_trans (Nat.sub_le _ _) e.recalled_le)

def step (e : LineEditor α) : Edit α → LineEditor α
  | .char a => e.insert a
  | .backspace => e.backspace
  | .left => e.left
  | .right => e.right
  | .up => e.up
  | .down => e.down

/-! ## Replacing a word -/

/-- `right`, `n` times. -/
def rights : Nat → LineEditor α → LineEditor α
  | 0, e => e
  | n + 1, e => rights n e.right

/-- `backspace`, `n` times. -/
def backspaces : Nat → LineEditor α → LineEditor α
  | 0, e => e
  | n + 1, e => (backspaces n e).backspace

def inserts (l : List α) (e : LineEditor α) : LineEditor α := l.foldl (fun e a => e.insert a) e

theorem right_of_lt {e : LineEditor α} (h : e.cursor < e.text.length) :
    e.right.text = e.text ∧ e.right.cursor = e.cursor + 1 := by
  unfold right
  rw [dif_pos h]
  exact ⟨rfl, rfl⟩

theorem rights_of_le {n : Nat} {e : LineEditor α} (h : e.cursor + n ≤ e.text.length) :
    (e.rights n).text = e.text ∧ (e.rights n).cursor = e.cursor + n := by
  induction n generalizing e with
  | zero => exact ⟨rfl, rfl⟩
  | succ n ih =>
    obtain ⟨htext, hcursor⟩ := right_of_lt (e := e) (by omega)
    have hend : e.right.cursor + n ≤ e.right.text.length := by
      rw [htext, hcursor]
      omega
    obtain ⟨htext', hcursor'⟩ := ih hend
    refine ⟨htext'.trans htext, hcursor'.trans ?_⟩
    rw [hcursor]
    omega

theorem backspaces_of_le {n : Nat} {e : LineEditor α} (h : n ≤ e.cursor) :
    (e.backspaces n).text.length = e.text.length - n ∧ (e.backspaces n).cursor = e.cursor - n := by
  induction n with
  | zero => exact ⟨rfl, rfl⟩
  | succ n ih =>
    obtain ⟨hlength, hcursor⟩ := ih (Nat.le_of_succ_le h)
    have hle := e.cursor_le
    rw [backspaces, backspace, dif_neg (by omega)]
    refine ⟨?_, ?_⟩
    · show ((e.backspaces n).text.eraseIdx _).length = _
      rw [List.length_eraseIdx_of_lt (by omega)]
      omega
    · show (e.backspaces n).cursor - 1 = _
      omega

/-- The word in front of the cursor goes. -/
theorem backspaces_word {a w b : List α} {e : LineEditor α} (htext : e.text = a ++ w ++ b)
    (hcursor : e.cursor = a.length + w.length) :
    (e.backspaces w.length).text = a ++ b ∧ (e.backspaces w.length).cursor = a.length := by
  induction w generalizing a with
  | nil => exact ⟨by simpa [backspaces] using htext, hcursor⟩
  | cons x w ih =>
    have hone : e.text = (a ++ [x]) ++ w ++ b := by simpa using htext
    have hone' : e.cursor = (a ++ [x]).length + w.length := by
      simp at hcursor ⊢
      omega
    obtain ⟨htext', hcursor'⟩ := ih hone hone'
    rw [List.length_append, List.length_singleton] at hcursor'
    rw [List.length_cons, backspaces, backspace, dif_neg (by omega)]
    simp [htext', hcursor', List.eraseIdx_append_of_length_le]

/-- A word is put in at the cursor. -/
theorem inserts_word {a b l : List α} {e : LineEditor α} (htext : e.text = a ++ b)
    (hcursor : e.cursor = a.length) :
    (e.inserts l).text = a ++ l ++ b ∧ (e.inserts l).cursor = a.length + l.length := by
  induction l generalizing a e with
  | nil => exact ⟨by simpa [inserts] using htext, hcursor⟩
  | cons x l ih =>
    have hone : (e.insert x).text = (a ++ [x]) ++ b := by
      have hins := List.insertIdx_append_right a b 0 x
      show e.text.insertIdx e.cursor x = _
      rw [htext, hcursor]
      simpa using hins
    have hone' : (e.insert x).cursor = (a ++ [x]).length := by
      show e.cursor + 1 = _
      simp [hcursor]
    obtain ⟨htext', hcursor'⟩ := ih hone hone'
    refine ⟨?_, ?_⟩
    · show ((e.insert x).inserts l).text = _
      simp [htext']
    · show ((e.insert x).inserts l).cursor = _
      simp [hcursor']
      omega

/-- The cursor goes `behind` the word that it is in, back over it, and another word is put in. -/
def replaceWord (behind old : Nat) (new : List α) (e : LineEditor α) : LineEditor α :=
  ((e.rights behind).backspaces old).inserts new

/-- Only the word changes. -/
theorem replaceWord_eq {a w b : List α} {e : LineEditor α} (htext : e.text = a ++ w ++ b)
    {behind : Nat} (hbehind : e.cursor + behind = a.length + w.length) (new : List α) :
    (e.replaceWord behind w.length new).text = a ++ new ++ b ∧
      (e.replaceWord behind w.length new).cursor = a.length + new.length := by
  have hend : e.cursor + behind ≤ e.text.length := by
    rw [htext, hbehind]
    simp
  obtain ⟨htext₁, hcursor₁⟩ := rights_of_le hend
  obtain ⟨htext₂, hcursor₂⟩ := backspaces_word (htext₁.trans htext) (hcursor₁.trans hbehind)
  exact inserts_word htext₂ hcursor₂

/-- The line before, between and after the edits. -/
abbrev states (e : LineEditor α) (edits : List (Edit α)) : List (LineEditor α) :=
  Runs.states (fun e edit => some (e.step edit)) e edits

theorem history_step (e : LineEditor α) (edit : Edit α) : (e.step edit).history = e.history := by
  cases edit with
  | char a => rfl
  | backspace =>
    rw [step, backspace]
    split <;> rfl
  | left => rfl
  | right =>
    rw [step, right]
    split <;> rfl
  | up =>
    rw [step, up]
    split <;> rfl
  | down =>
    rw [step, down]
    split <;> rfl

end LineEditor
