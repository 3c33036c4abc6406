import EszOs.Lib.Runs
import EszOs.Rendering.Columns

/-!
# The visible part of the buffer

`Screen.Viewed W L` says that the visible part, `L` lines of `W` columns, lies in the buffer, and
that everything drawn so far is in one of its places. A place is `FONT_W` by `FONT_H` pixels of the
framebuffer, so no pixel outside the screen was written.

* `newline_viewed`: a line break keeps this, and the cursor in the visible part.
* `calls_contained`: so does every sequence of printing calls.
-/

namespace EszOs

/-- A call of `print_char`, `print_chars`, `print` or `newline`. -/
inductive TextCall where
  | printChar (c : UInt8) (color : Color) (interactable : Bool)
  | printChars (text : CString) (color : Color) (interactable : Bool)
  | print (text : CString) (color : Color)
  | newline

namespace TextCall

def run (s : Screen) : TextCall → Screen
  | printChar c color interactable => s.printChar c color interactable
  | printChars text color interactable => s.printChars text color interactable
  | print text color => s.print text color
  | newline => s.newline

end TextCall

/-! ## Pixels -/

/-- `FONT_W` -/
def fontW : Int := 8 * fontSize

/-- `FONT_H` -/
def fontH : Int := 16 * fontSize

/-- The pixels of the framebuffer that are written: all of a glyph's, the lowest rows of the place of
the cursor, and all there are for the black screen. -/
def Drawn.Covers (row col : Int) : Drawn → Prop
  | glyph _ x y _ =>
    y * fontH ≤ row ∧ row < y * fontH + fontH ∧ x * fontW ≤ col ∧ col < x * fontW + fontW
  | cursor x y _ =>
    y * fontH + (fontH - cursorHeight * fontSize) ≤ row ∧ row < y * fontH + fontH ∧
      x * fontW ≤ col ∧ col < x * fontW + fontW
  | black => True

/-- What is drawn is in a place of a screen of `W` columns and `L` lines. -/
def Drawn.Inside (W L : Int) : Drawn → Prop
  | glyph _ x y _ | cursor x y _ => 0 ≤ x ∧ x < W ∧ 0 ≤ y ∧ y < L
  | black => False

/-- The pixels of a place. -/
theorem place_inside {n i k font : Int} (hfont : 0 < font) (hi : 0 ≤ i) (hlt : i < n)
    (hk : i * font ≤ k) (hk' : k < i * font + font) : 0 ≤ k ∧ k < n * font := by
  have hlow : 0 ≤ i * font := Int.mul_nonneg hi (Int.le_of_lt hfont)
  have hhigh : (i + 1) * font ≤ n * font := Int.mul_le_mul_of_nonneg_right hlt (Int.le_of_lt hfont)
  rw [Int.add_mul, Int.one_mul] at hhigh
  omega

theorem Drawn.Inside.pixels {W L row col : Int} {d : Drawn} (h : d.Inside W L)
    (hcovers : d.Covers row col) :
    (0 ≤ row ∧ row < L * fontH) ∧ (0 ≤ col ∧ col < W * fontW) := by
  have hW : 0 < fontW := by decide
  have hH : 0 < fontH := by decide
  have hbar : (0 : Int) ≤ fontH - cursorHeight * fontSize := by decide
  cases d with
  | glyph c x y color =>
    obtain ⟨hx, hxlt, hy, hylt⟩ := h
    obtain ⟨h1, h2, h3, h4⟩ := hcovers
    exact ⟨place_inside hH hy hylt h1 h2, place_inside hW hx hxlt h3 h4⟩
  | cursor x y color =>
    obtain ⟨hx, hxlt, hy, hylt⟩ := h
    obtain ⟨h1, h2, h3, h4⟩ := hcovers
    exact ⟨place_inside hH hy hylt (by omega) h2, place_inside hW hx hxlt h3 h4⟩
  | black => exact h.elim

namespace Screen

/-- The visible part lies in the buffer, and what was drawn in the visible part. -/
structure Viewed (W L : Int) (s : Screen) : Prop where
  maxChars : s.maxChars = W
  maxLines : s.maxLines = L
  visible : s.visibleLines = L
  start_nonneg : 0 ≤ s.startRenderLine
  end_le : s.startRenderLine + L ≤ s.maxStoredLines
  rendered : 0 ≤ s.cursorRenderedX
  drawn : ∀ d ∈ s.drawn, d.Inside W L

/-- The cursor is in the visible part. -/
def CursorInView (s : Screen) : Prop :=
  s.startRenderLine ≤ s.cursorAtY ∧ s.cursorAtY < s.startRenderLine + s.visibleLines

/-! ## Drawing -/

theorem cursorAtX_drawChar (c : UInt8) (x y : Int) (color : Color) (interactable : Bool)
    (s : Screen) : (s.drawChar c x y color interactable).cursorAtX = s.cursorAtX := by
  unfold drawChar
  split
  · obtain ⟨d, hd⟩ := drawGlyph_eq c x y color (s.putCell ⟨color, c, interactable⟩)
    rw [hd]
    unfold putCell
    dsimp only
    split <;> rfl
  · obtain ⟨d, hd⟩ := drawGlyph_eq c x y color s
    rw [hd]

namespace Viewed

variable {W L : Int} {s : Screen}

theorem draw (h : s.Viewed W L) {d : Drawn} (hd : d.Inside W L) : (s.draw d).Viewed W L :=
  ⟨h.maxChars, h.maxLines, h.visible, h.start_nonneg, h.end_le, h.rendered,
    List.forall_mem_cons.mpr ⟨hd, h.drawn⟩⟩

theorem putCell (h : s.Viewed W L) (c : Cell) : (s.putCell c).Viewed W L := by
  unfold Screen.putCell
  dsimp only
  split
  · exact ⟨h.maxChars, h.maxLines, h.visible, h.start_nonneg, h.end_le, h.rendered, h.drawn⟩
  · exact ⟨h.maxChars, h.maxLines, h.visible, h.start_nonneg, h.end_le, h.rendered, h.drawn⟩

/-- The tests of `draw_char` are enough, but for the columns left of the screen. -/
theorem drawGlyph (h : s.Viewed W L) {x : Int} (hx : 0 ≤ x) (c : UInt8) (y : Int) (color : Color) :
    (s.drawGlyph c x y color).Viewed W L := by
  have hmaxChars := h.maxChars
  have hmaxLines := h.maxLines
  unfold Screen.drawGlyph
  dsimp only
  generalize (if s.useScreenBuffer = true then y - s.startRenderLine else y) = renderY
  split
  · exact h
  · split
    · exact h
    · exact h.draw (by show 0 ≤ x ∧ x < W ∧ 0 ≤ renderY ∧ renderY < L; omega)

theorem drawChar (h : s.Viewed W L) {x : Int} (hx : 0 ≤ x) (c : UInt8) (y : Int) (color : Color)
    (interactable : Bool) : (s.drawChar c x y color interactable).Viewed W L := by
  unfold Screen.drawChar
  split
  · exact (h.putCell _).drawGlyph hx c y color
  · exact h.drawGlyph hx c y color

theorem renderCursor (h : s.Viewed W L) {x y : Int} (hx : 0 ≤ x)
    (hy : s.startRenderLine ≤ y ∧ y < s.startRenderLine + s.visibleLines) (color : Color) :
    (s.renderCursor x y color).Viewed W L := by
  have hmaxChars := h.maxChars
  have hvisible := h.visible
  unfold Screen.renderCursor
  split
  · exact h
  · exact h.draw (by
      show 0 ≤ x ∧ x < W ∧ 0 ≤ y - s.startRenderLine ∧ y - s.startRenderLine < L
      omega)

/-- A line drawn anew: the loop goes through the columns from 0 on. -/
theorem redrawLine (h : s.Viewed W L) (line : Int) : (s.redrawLine line).Viewed W L := by
  refine (Loop.upTo_induct (P := fun s' : Screen => s'.Viewed W L ∧ 0 ≤ s'.cursorAtX)
    (s := { s with cursorAtX := 0, cursorAtY := line }) (fun i s' _ hs' => ?_)
    ⟨⟨h.maxChars, h.maxLines, h.visible, h.start_nonneg, h.end_le, h.rendered, h.drawn⟩,
      Int.le_refl 0⟩).1
  obtain ⟨hs', hx⟩ := hs'
  have hnext : ∀ t : Screen, t.Viewed W L → t.cursorAtX = s'.cursorAtX →
      Viewed W L { t with cursorAtX := t.cursorAtX + 1 } ∧ 0 ≤ t.cursorAtX + 1 :=
    fun t ht htx => ⟨⟨ht.maxChars, ht.maxLines, ht.visible, ht.start_nonneg, ht.end_le, ht.rendered,
      ht.drawn⟩, by omega⟩
  unfold redrawCell
  dsimp only
  split
  · exact hnext _ (hs'.drawChar hx _ _ _ _) (cursorAtX_drawChar _ _ _ _ _ _)
  · exact hnext _ (hs'.drawChar hx _ _ _ _) (cursorAtX_drawChar _ _ _ _ _ _)

theorem redraw (h : s.Viewed W L) (hx : 0 ≤ s.cursorAtX) : s.redraw.Viewed W L := by
  have hloop : Viewed W L (Loop.upTo (fun i => Screen.redrawLine (s.startRenderLine + i))
      s.visibleLines.toNat { s with isRedrawing := true }) :=
    Loop.upTo_induct (fun i s' _ hs' => hs'.redrawLine _) ⟨h.maxChars, h.maxLines, h.visible, h.start_nonneg, h.end_le, h.rendered, h.drawn⟩
  exact ⟨hloop.maxChars, hloop.maxLines, hloop.visible, hloop.start_nonneg, hloop.end_le, hx,
    hloop.drawn⟩

theorem updateCursorRender (h : s.Viewed W L) (hx : 0 ≤ s.cursorAtX) (hview : s.CursorInView) :
    s.updateCursorRender.Viewed W L := by
  unfold Screen.updateCursorRender
  split
  · exact h
  · split
    · exact h
    · have hredrawing : Viewed W L { s with isRedrawing := true } :=
        ⟨h.maxChars, h.maxLines, h.visible, h.start_nonneg, h.end_le, h.rendered, h.drawn⟩
      dsimp only
      generalize (if s.cursorRenderedX < s.amountOfCells s.cursorRenderedY then
        (s.cell s.cursorRenderedY s.cursorRenderedX).text else space) = restoreChar
      generalize s.cell s.cursorRenderedY s.cursorRenderedX = cell
      have hrestore := hredrawing.drawChar h.rendered restoreChar s.cursorRenderedY cell.color
        cell.interactable
      obtain ⟨d, hd⟩ := drawChar_of_redrawing (s := { s with isRedrawing := true }) rfl restoreChar
        s.cursorRenderedX s.cursorRenderedY cell.color cell.interactable
      rw [hd] at hrestore ⊢
      split
      · have hcursor := hrestore.renderCursor hx hview .white
        exact ⟨hcursor.maxChars, hcursor.maxLines, hcursor.visible, hcursor.start_nonneg,
          hcursor.end_le, hx, hcursor.drawn⟩
      · exact ⟨hrestore.maxChars, hrestore.maxLines, hrestore.visible, hrestore.start_nonneg,
          hrestore.end_le, hx, hrestore.drawn⟩

/-! ## Line breaks -/

theorem copyLines (h : s.Viewed W L) (n : Nat) : (Loop.upTo copyNextLine n s).Viewed W L := by
  refine Loop.upTo_induct (fun line s' _ hs' => ?_) h
  refine Loop.upTo_induct (P := Viewed W L) (fun i t _ ht => ?_) ?_
  · exact ⟨ht.maxChars, ht.maxLines, ht.visible, ht.start_nonneg, ht.end_le, ht.rendered, ht.drawn⟩
  · exact ⟨hs'.maxChars, hs'.maxLines, hs'.visible, hs'.start_nonneg, hs'.end_le, hs'.rendered,
      hs'.drawn⟩

/-- Right behind the visible part or in it, the cursor stays so when the oldest line is dropped. -/
theorem dropOldLine (h : s.Viewed W L) (hok : s.CellsOk)
    (hstart : s.startRenderLine ≤ s.cursorAtY) (hend : s.cursorAtY ≤ s.startRenderLine + L)
    (hpos : 0 < s.cursorAtY) :
    s.dropOldLine.Viewed W L ∧ s.dropOldLine.cursorAtX = s.cursorAtX ∧
      s.dropOldLine.isRedrawing = s.isRedrawing ∧
      s.dropOldLine.startRenderLine ≤ s.dropOldLine.cursorAtY ∧
      s.dropOldLine.cursorAtY ≤ s.dropOldLine.startRenderLine + L ∧
      s.dropOldLine.cursorAtY < s.dropOldLine.maxStoredLines := by
  have hnonneg := h.start_nonneg
  have hle := h.end_le
  unfold Screen.dropOldLine
  split
  · rename_i hlast
    have hcopied := h.copyLines (s.maxStoredLines - 1).toNat
    obtain ⟨cells, amounts, written, heq, -⟩ :=
      copyLines_spec hok (n := (s.maxStoredLines - 1).toNat) (by omega)
    rw [heq] at hcopied ⊢
    have hdropped : 0 ≤ (if s.startRenderLine > 0 then s.startRenderLine - 1 else s.startRenderLine) ∧
        (if s.startRenderLine > 0 then s.startRenderLine - 1 else s.startRenderLine) + L ≤
          s.maxStoredLines ∧
        (if s.startRenderLine > 0 then s.startRenderLine - 1 else s.startRenderLine) ≤
          s.cursorAtY - 1 ∧
        s.cursorAtY - 1 ≤
          (if s.startRenderLine > 0 then s.startRenderLine - 1 else s.startRenderLine) + L ∧
        s.cursorAtY - 1 < s.maxStoredLines := by
      split <;> omega
    obtain ⟨h1, h2, h3, h4, h5⟩ := hdropped
    exact ⟨⟨hcopied.maxChars, hcopied.maxLines, hcopied.visible, h1, h2, hcopied.rendered,
      hcopied.drawn⟩, rfl, rfl, h3, h4, h5⟩
  · exact ⟨h, rfl, rfl, hstart, hend, by omega⟩

/-- The visible part follows a cursor right behind it. -/
theorem scrollUp (h : s.Viewed W L) (hL : 0 < L) (hredraw : s.isRedrawing = false)
    (hx : 0 ≤ s.cursorAtX) (hstart : s.startRenderLine ≤ s.cursorAtY)
    (hend : s.cursorAtY ≤ s.startRenderLine + L) (hlt : s.cursorAtY < s.maxStoredLines) :
    s.scrollUp.Viewed W L ∧ s.scrollUp.CursorInView ∧ s.scrollUp.cursorAtX = s.cursorAtX := by
  have hvisible := h.visible
  have hnonneg := h.start_nonneg
  unfold Screen.scrollUp
  split
  · rename_i hbehind
    have hshifted : Viewed W L { s with startRenderLine := s.startRenderLine + 1 } :=
      ⟨h.maxChars, h.maxLines, h.visible, by show 0 ≤ s.startRenderLine + 1; omega,
        by show s.startRenderLine + 1 + L ≤ s.maxStoredLines; omega, h.rendered, h.drawn⟩
    refine ⟨hshifted.redraw hx, ?_⟩
    obtain ⟨x, y, d, hd⟩ :=
      redraw_redrawn (s := { s with startRenderLine := s.startRenderLine + 1 }) hredraw
    rw [hd]
    refine ⟨?_, rfl⟩
    show s.startRenderLine + 1 ≤ s.cursorAtY ∧ s.cursorAtY < s.startRenderLine + 1 + s.visibleLines
    omega
  · exact ⟨h, ⟨hstart, by omega⟩, rfl⟩

end Viewed

/-- A line break keeps the cursor in the visible part, and what it draws. -/
theorem newline_viewed {W L : Int} {s : Screen} (h : s.InLines) (hv : s.Viewed W L)
    (hview : s.CursorInView) : s.newline.Viewed W L ∧ s.newline.CursorInView := by
  have hvisible := hv.visible
  have hnonneg := hv.start_nonneg
  obtain ⟨hstart, hend⟩ := hview
  have ht : s.nextLine.Viewed W L :=
    ⟨hv.maxChars, hv.maxLines, hv.visible, hv.start_nonneg, hv.end_le, hv.rendered, hv.drawn⟩
  have htok : s.nextLine.CellsOk := ⟨h.amount_nonneg, h.amount_le, h.written⟩
  obtain ⟨hdrop, hdropX, hdropRedraw, hdropStart, hdropEnd, hdropLt⟩ := ht.dropOldLine htok
    (by show s.startRenderLine ≤ s.cursorAtY + 1; omega)
    (by show s.cursorAtY + 1 ≤ s.startRenderLine + L; omega)
    (by show 0 < s.cursorAtY + 1; omega)
  obtain ⟨hscroll, hscrollView, hscrollX⟩ :=
    hdrop.scrollUp (by omega) (hdropRedraw.trans h.notRedrawing)
      (by rw [hdropX]; exact Int.le_refl 0) hdropStart hdropEnd hdropLt
  rw [newline_of_buffered h]
  obtain ⟨x, y, d, hd⟩ := updateCursorRender_redrawn s.nextLine.dropOldLine.scrollUp
  refine ⟨hscroll.updateCursorRender (by rw [hscrollX, hdropX]; exact Int.le_refl 0) hscrollView, ?_⟩
  rw [hd]
  exact hscrollView

/-! ## Text -/

/-- A screen that prints into its buffer, with the cursor in view. -/
structure PrintingInView (W L : Int) (s : Screen) : Prop extends Printing s, Viewed W L s where
  inView : s.CursorInView

theorem PrintingInView.newline {W L : Int} {s : Screen} (h : s.PrintingInView W L) :
    s.newline.PrintingInView W L := by
  obtain ⟨hviewed, hview⟩ := newline_viewed h.toInLines h.toViewed h.inView
  exact ⟨(newline_spec h.toInLines).1, hviewed, hview⟩

theorem PrintingInView.printChar {W L : Int} {s : Screen} (h : s.PrintingInView W L) (c : UInt8)
    (color : Color) (interactable : Bool) :
    (s.printChar c color interactable).PrintingInView W L := by
  have hX := h.cursorAtX_nonneg
  have hredrawn := printed_redrawn h.buffered h.notRedrawing c color interactable
  have hlines := hredrawn.inLines (typed_inLines h.toPrinting ⟨color, c, interactable⟩).1
  have hnext : (s.printChar c color interactable).Printing :=
    (printChar_spec h.toPrinting c color interactable).1
  have hcursor : ∀ t : Screen, Redrawn (s.typed ⟨color, c, interactable⟩) t →
      t.CursorInView ∧ 0 ≤ t.cursorAtX := by
    rintro t ⟨x, y, d, rfl⟩
    rw [typed, putCell_of_le h.amount_le_cursorAtX]
    exact ⟨h.inView, by show 0 ≤ s.cursorAtX + 1; omega⟩
  have hviewed : (s.printed c color interactable).Viewed W L := by
    have hdrawn := h.toViewed.drawChar hX c s.cursorAtY color interactable
    obtain ⟨d, hd⟩ := drawChar_of_buffered h.buffered h.notRedrawing c s.cursorAtX s.cursorAtY color
      interactable
    unfold printed
    rw [hd, putCell_of_le h.amount_le_cursorAtX] at hdrawn ⊢
    refine Viewed.updateCursorRender ?_ (by show 0 ≤ s.cursorAtX + 1; omega) h.inView
    exact ⟨hdrawn.maxChars, hdrawn.maxLines, hdrawn.visible, hdrawn.start_nonneg, hdrawn.end_le,
      hdrawn.rendered, hdrawn.drawn⟩
  show ((s.printed c color interactable).handleAutomaticNewline).PrintingInView W L
  change (s.printed c color interactable).handleAutomaticNewline.Printing at hnext
  unfold handleAutomaticNewline at hnext ⊢
  split
  · obtain ⟨hnewline, hview⟩ := newline_viewed hlines hviewed (hcursor _ hredrawn).1
    rw [if_pos (by assumption)] at hnext
    exact ⟨hnext, hnewline, hview⟩
  · rw [if_neg (by assumption)] at hnext
    exact ⟨hnext, hviewed, (hcursor _ hredrawn).1⟩

theorem PrintingInView.printChars {W L : Int} {s : Screen} (h : s.PrintingInView W L)
    (text : CString) (color : Color) (interactable : Bool) :
    (s.printChars text color interactable).PrintingInView W L := by
  induction text generalizing s with
  | nil => exact h
  | cons c text ih =>
    refine ih (s := s.printTextChar color interactable c) ?_
    unfold printTextChar
    split
    · exact h
    · split
      · exact h.newline
      · exact h.printChar c color interactable

/-! ## Sequences of calls -/

theorem PrintingInView.run {W L : Int} {s : Screen} (h : s.PrintingInView W L) (call : TextCall) :
    (call.run s).PrintingInView W L := by
  cases call with
  | printChar c color interactable => exact h.printChar c color interactable
  | printChars text color interactable => exact h.printChars text color interactable
  | print text color => exact (h.printChars text color false).newline
  | newline => exact h.newline

/-- A screen of `W` columns and `L` lines before `init_screen_buffer`, with the cursor on it. What
is stored and drawn is recorded from there on. -/
structure OnScreen (W L : Int) (s : Screen) : Prop where
  maxChars : s.maxChars = W
  maxLines : s.maxLines = L
  notRedrawing : s.isRedrawing = false
  cursorAtX_nonneg : 0 ≤ s.cursorAtX
  cursorAtX_lt : s.cursorAtX < W
  cursorAtY_nonneg : 0 ≤ s.cursorAtY
  cursorAtY_lt : s.cursorAtY < L
  written : s.written = []
  drawn : s.drawn = []

theorem OnScreen.printingInView {W L : Int} {s : Screen} (h : s.OnScreen W L) :
    s.initScreenBuffer.PrintingInView W L := by
  have hhistory : (0 : Int) ≤ scrollHistoryLines := by decide
  have hlt := h.cursorAtX_lt
  have hylt := h.cursorAtY_lt
  have hmaxLines := h.maxLines
  have hprinting : s.initScreenBuffer.Printing :=
    Early.printing ⟨h.notRedrawing, h.cursorAtX_nonneg, by rw [h.maxChars]; exact hlt,
      h.cursorAtY_nonneg, by omega, h.written⟩
  refine ⟨hprinting, ⟨h.maxChars, h.maxLines, h.maxLines, Int.le_refl 0, ?_, h.cursorAtX_nonneg,
    ?_⟩, h.cursorAtY_nonneg, ?_⟩
  · show 0 + L ≤ s.maxLines + scrollHistoryLines
    omega
  · show ∀ d ∈ s.drawn, d.Inside W L
    rw [h.drawn]
    exact fun _ hd => absurd hd List.not_mem_nil
  · show s.cursorAtY < 0 + s.maxLines
    omega

/-- On a screen of `W` columns and `L` lines: where the cursor is, how long the lines are, and which
cells and pixels were written. -/
structure Contained (W L : Int) (s : Screen) : Prop where
  cursorAtX_nonneg : 0 ≤ s.cursorAtX
  cursorAtX_lt : s.cursorAtX < W
  start_le : s.startRenderLine ≤ s.cursorAtY
  cursorAtY_lt : s.cursorAtY < s.startRenderLine + s.visibleLines
  visible_le : s.startRenderLine + s.visibleLines ≤ s.maxStoredLines
  amount_le : ∀ y, 0 ≤ y → y < s.maxStoredLines → s.amountOfCells y ≤ W
  cells : ∀ p ∈ s.written, 0 ≤ p.1 ∧ p.1 < s.maxStoredLines ∧ 0 ≤ p.2 ∧ p.2 < W
  pixels : ∀ d ∈ s.drawn, ∀ row col, d.Covers row col →
    (0 ≤ row ∧ row < L * fontH) ∧ (0 ≤ col ∧ col < W * fontW)

theorem PrintingInView.contained {W L : Int} {s : Screen} (h : s.PrintingInView W L) :
    s.Contained W L where
  cursorAtX_nonneg := h.cursorAtX_nonneg
  cursorAtX_lt := Int.lt_of_lt_of_le h.cursorAtX_lt (Int.le_of_eq h.maxChars)
  start_le := h.inView.1
  cursorAtY_lt := h.inView.2
  visible_le := by rw [h.visible]; exact h.end_le
  amount_le := fun y h1 h2 => Int.le_trans (h.amount_le y h1 h2) (Int.le_of_eq h.maxChars)
  cells := fun p hp => by
    obtain ⟨h1, h2, h3, h4⟩ := h.written p hp
    exact ⟨h1, h2, h3, Int.lt_of_lt_of_le h4 (Int.le_of_eq h.maxChars)⟩
  pixels := fun d hd _ _ hcovers => (h.drawn d hd).pixels hcovers

/-- In every state of a run the cursor is on the screen and in the visible part of the buffer, the
lines fit the screen, and so did every store to a cell and to a pixel. -/
theorem calls_contained {W L : Int} {s : Screen} (h : s.OnScreen W L) (calls : List TextCall) :
    ∀ t ∈ Runs.states (fun t call => some (TextCall.run t call)) s.initScreenBuffer calls,
      t.Contained W L := by
  have hkeep : ∀ t ∈ Runs.states (fun t call => some (TextCall.run t call)) s.initScreenBuffer calls,
      t.PrintingInView W L := Runs.forall_states (I := PrintingInView W L) (C := fun _ _ => True)
    (fun t call t' ht _ hstep => by
      cases hstep
      exact ht.run call)
    h.printingInView (fun _ _ => trivial)
  exact fun t ht => (hkeep t ht).contained

/-- A screen of 80 columns and 25 lines, after a text that is longer than a line. -/
theorem calls_contained_80x25 :
    ([TextCall.printChars (List.replicate 100 0x41) .white false, .newline].foldl TextCall.run
      (Screen.initPrint 80 25).initScreenBuffer).Contained 80 25 :=
  calls_contained (s := Screen.initPrint 80 25)
    ⟨rfl, rfl, rfl, by decide, by decide, by decide, by decide, rfl, rfl⟩ _ _
    (Runs.foldl_mem_states _ _)

end Screen

end EszOs
