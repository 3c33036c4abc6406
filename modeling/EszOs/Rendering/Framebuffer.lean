import EszOs.Rendering.Transcript

/-!
# The framebuffer shows the visible part of the buffer

What is drawn covers whole places of the screen: a glyph fills its place, the bar of the cursor the
lowest rows of it. `placeAt` is what a place shows, and `pixelAt` what is in a pixel, after all that
was drawn.

* `pixelAt_eq`: the pixels are those of the places.
* `updateCursorRender_shows`, `redraw_shows`, `newline_shows`: what restores the bar, scrolls and
  breaks lines keeps the places those of the buffer.
* `events_show`: so do all printing calls and all ticks of the timer, from a cleared screen on.
-/

namespace EszOs

/-! ## Pixels and places -/

/-- `font8x16`: the rows of a glyph, whose highest bit is the leftmost pixel. -/
abbrev Font := UInt8 → Nat → UInt8

/-- The pixel of a glyph in row `row` and column `col` of its place. -/
def glyphPixel (font : Font) (c : UInt8) (color : Color) (row col : Nat) : UInt32 :=
  if font c (row / fontSize) &&& ((0x80 : UInt8) >>> UInt8.ofNat (col / fontSize)) ≠ 0 then color.value
  else 0

/-- The store of `draw_char`, `render_cursor` or `clearScreen` to a pixel that holds `old`. -/
def Drawn.paint (font : Font) (row col : Int) (old : UInt32) : Drawn → UInt32
  | glyph c x y color =>
    if y * fontH ≤ row ∧ row < y * fontH + fontH ∧ x * fontW ≤ col ∧ col < x * fontW + fontW then
      glyphPixel font c color (row - y * fontH).toNat (col - x * fontW).toNat
    else old
  | cursor x y color =>
    if y * fontH + (fontH - cursorHeight * fontSize) ≤ row ∧ row < y * fontH + fontH ∧
        x * fontW ≤ col ∧ col < x * fontW + fontW then color.value
    else old
  | black => 0

/-- What a pixel holds, if it was black at first. -/
def pixelAt (font : Font) (drawn : List Drawn) (row col : Int) : UInt32 :=
  drawn.foldr (fun d old => d.paint font row col old) 0

/-- What a place of the screen shows: a glyph unless it is blank, and the bar of the cursor. -/
structure Place where
  glyph : Option (UInt8 × Color)
  bar : Option Color

/-- Nothing is seen of a space. -/
def ink (c : UInt8) (color : Color) : Option (UInt8 × Color) :=
  if c = space then none else some (c, color)

def Drawn.onto (x y : Int) (p : Place) : Drawn → Place
  | glyph c x' y' color => if x' = x ∧ y' = y then ⟨ink c color, none⟩ else p
  | cursor x' y' color => if x' = x ∧ y' = y then { p with bar := some color } else p
  | black => ⟨none, none⟩

/-- What a place shows, if it was black at first. -/
def placeAt (drawn : List Drawn) (x y : Int) : Place :=
  drawn.foldr (fun d p => d.onto x y p) ⟨none, none⟩

@[simp] theorem placeAt_cons (d : Drawn) (drawn : List Drawn) (x y : Int) :
    placeAt (d :: drawn) x y = d.onto x y (placeAt drawn x y) := rfl

/-- The pixel in row `row` and column `col` of a place. -/
def Place.pixel (font : Font) (p : Place) (row col : Nat) : UInt32 :=
  match p.bar with
  | some color => if 16 * fontSize - cursorHeight * fontSize ≤ row then color.value else base
  | none => base
where
  base : UInt32 := match p.glyph with
    | some (c, color) => glyphPixel font c color row col
    | none => 0

/-- The places do not overlap. -/
theorem in_place_iff {font : Int} (hfont : 0 < font) (n i : Int) :
    i * font ≤ n ∧ n < i * font + font ↔ i = n / font :=
  (Int.ediv_eq_iff_of_pos hfont).symm.trans eq_comm

theorem fontH_eq : fontH = 16 := rfl

theorem fontW_eq : fontW = 8 := rfl

section Pixels

variable {font : Font} (hspace : ∀ row, font space row = 0) (row col : Int)
include hspace

theorem glyphPixel_space (color : Color) (row col : Nat) : glyphPixel font space color row col = 0 := by
  simp [glyphPixel, hspace]

/-- A pixel of a glyph that may be blank. -/
theorem base_ink (c : UInt8) (color : Color) (bar : Option Color) (row col : Nat) :
    Place.pixel.base font ⟨ink c color, bar⟩ row col = glyphPixel font c color row col := by
  unfold Place.pixel.base ink
  by_cases hc : c = space
  · subst hc
    simp [glyphPixel_space hspace]
  · simp [hc]

/-- A store to the framebuffer is one to its place. -/
theorem paint_eq (p : Place) (d : Drawn) :
    d.paint font row col (p.pixel font (row % fontH).toNat (col % fontW).toNat) =
      (d.onto (col / fontW) (row / fontH) p).pixel font (row % fontH).toNat (col % fontW).toNat := by
  have hrow := Int.mul_ediv_add_emod row fontH
  have hcol := Int.mul_ediv_add_emod col fontW
  cases d with
  | black => rfl
  | glyph c x y color =>
    have hin : (y * fontH ≤ row ∧ row < y * fontH + fontH ∧ x * fontW ≤ col ∧
        col < x * fontW + fontW) ↔ x = col / fontW ∧ y = row / fontH := by
      rw [← in_place_iff (by decide), ← in_place_iff (by decide)]
      omega
    simp only [Drawn.paint, Drawn.onto, hin]
    split
    · rename_i h
      obtain ⟨rfl, rfl⟩ := h
      refine Eq.trans ?_ (base_ink hspace c color none _ _).symm
      congr 1 <;> rw [Int.mul_comm] <;> omega
    · rfl
  | cursor x y color =>
    by_cases hin : x = col / fontW ∧ y = row / fontH
    · obtain ⟨rfl, rfl⟩ := hin
      have hlow : (row / fontH * fontH + (fontH - cursorHeight * fontSize) ≤ row ∧
          row < row / fontH * fontH + fontH ∧ col / fontW * fontW ≤ col ∧
          col < col / fontW * fontW + fontW) ↔
            16 * fontSize - cursorHeight * fontSize ≤ (row % fontH).toNat := by
        simp only [fontH_eq, fontW_eq, cursorHeight, fontSize]
        omega
      simp only [Drawn.paint, Drawn.onto, hlow, and_self, ↓reduceIte, Place.pixel]
      by_cases h : 16 * fontSize - cursorHeight * fontSize ≤ (row % fontH).toNat
      · rw [if_pos h, if_pos h]
      · -- above the bar the place shows its glyph, whatever bar was there
        cases p.bar <;> simp only [if_neg h] <;> rfl
    · have hout : ¬ (y * fontH + (fontH - cursorHeight * fontSize) ≤ row ∧
          row < y * fontH + fontH ∧ x * fontW ≤ col ∧ col < x * fontW + fontW) := by
        rintro ⟨h1, h2, h3, h4⟩
        have hbar : (0 : Int) ≤ fontH - cursorHeight * fontSize := by decide
        exact hin ⟨(in_place_iff (by decide) col x).mp ⟨h3, h4⟩,
          (in_place_iff (by decide) row y).mp ⟨by omega, h2⟩⟩
      simp only [Drawn.paint, Drawn.onto, if_neg hin, if_neg hout]

/-- The pixels are those of the places. -/
theorem pixelAt_eq (drawn : List Drawn) :
    pixelAt font drawn row col = (placeAt drawn (col / fontW) (row / fontH)).pixel font
      (row % fontH).toNat (col % fontW).toNat := by
  induction drawn with
  | nil => rfl
  | cons d drawn ih =>
    show d.paint font row col (pixelAt font drawn row col) = _
    rw [ih]
    exact paint_eq hspace row col _ d

end Pixels

namespace Screen

/-! ## What the places show -/

/-- What column `x` of line `y` of the buffer shows. -/
def shown (s : Screen) (y x : Int) : Option (UInt8 × Color) :=
  if x < s.amountOfCells y then ink (s.cell y x).text (s.cell y x).color else none

/-- The places of the screen show the visible part of the buffer, and the bar of the cursor where it
was drawn last. -/
def Shows (bar : Bool) (s : Screen) : Prop :=
  ∀ x y, 0 ≤ x → x < s.maxChars → 0 ≤ y → y < s.maxLines →
    placeAt s.drawn x y = ⟨s.shown (s.startRenderLine + y) x,
      if bar = true ∧ x = s.cursorRenderedX ∧ s.startRenderLine + y = s.cursorRenderedY then
        some .white else none⟩

/-- Without a bar. -/
theorem shows_false {s : Screen} : s.Shows false ↔ ∀ x y, 0 ≤ x → x < s.maxChars → 0 ≤ y →
    y < s.maxLines → placeAt s.drawn x y = ⟨s.shown (s.startRenderLine + y) x, none⟩ := by
  simp [Shows]

/-- A glyph in its place; nothing is drawn outside the screen. -/
theorem placeAt_drawGlyph {s : Screen} (hbuf : s.useScreenBuffer = true) (c : UInt8) (px py : Int)
    (color : Color) {x y : Int} (hxlt : x < s.maxChars) (hy : 0 ≤ y) (hylt : y < s.maxLines) :
    placeAt (s.drawGlyph c px py color).drawn x y =
      if x = px ∧ s.startRenderLine + y = py then ⟨ink c color, none⟩ else placeAt s.drawn x y := by
  unfold drawGlyph
  simp only [hbuf, ↓reduceIte]
  split
  · rw [if_neg (by omega)]
  · split
    · rw [if_neg (by omega)]
    · simp only [draw, placeAt_cons, Drawn.onto]
      exact if_congr (by omega) rfl rfl

/-- While `isRedrawing` is set `draw_char` only draws. -/
theorem placeAt_drawChar {s : Screen} (hbuf : s.useScreenBuffer = true)
    (hredraw : s.isRedrawing = true) (c : UInt8) (px py : Int) (color : Color) (interactable : Bool)
    {x y : Int} (hxlt : x < s.maxChars) (hy : 0 ≤ y) (hylt : y < s.maxLines) :
    placeAt (s.drawChar c px py color interactable).drawn x y =
      if x = px ∧ s.startRenderLine + y = py then ⟨ink c color, none⟩ else placeAt s.drawn x y := by
  have hdraw : s.drawChar c px py color interactable = s.drawGlyph c px py color := by
    rw [drawChar, if_neg (by simp [hredraw])]
  rw [hdraw]
  exact placeAt_drawGlyph hbuf c px py color hxlt hy hylt

/-- What a cell shows is drawn as that glyph. -/
theorem ink_shown (s : Screen) (y x : Int) :
    ink (if x < s.amountOfCells y then (s.cell y x).text else space) (s.cell y x).color =
      s.shown y x := by
  unfold shown
  split
  · rfl
  · exact if_pos rfl

/-- `update_cursor_render` draws the glyph under the old place of the cursor, and then the bar. -/
theorem updateCursorRender_drawn {s : Screen} (hbuf : s.useScreenBuffer = true)
    (hredraw : s.isRedrawing = false) :
    ∃ d, s.updateCursorRender =
        { s with
          drawn := if s.cursorVisible = true ∧ s.cursorAtX < s.maxChars then
              .cursor s.cursorAtX (s.cursorAtY - s.startRenderLine) .white :: d else d
          cursorRenderedX := s.cursorAtX
          cursorRenderedY := s.cursorAtY } ∧
      ∀ x y, x < s.maxChars → 0 ≤ y → y < s.maxLines → placeAt d x y =
        if x = s.cursorRenderedX ∧ s.startRenderLine + y = s.cursorRenderedY then
          ⟨s.shown s.cursorRenderedY s.cursorRenderedX, none⟩ else placeAt s.drawn x y := by
  obtain ⟨cell, hcell⟩ : ∃ cell, cell = s.cell s.cursorRenderedY s.cursorRenderedX := ⟨_, rfl⟩
  obtain ⟨restoreChar, hchar⟩ : ∃ c, c = if s.cursorRenderedX < s.amountOfCells s.cursorRenderedY then
    cell.text else space := ⟨_, rfl⟩
  have hink : ink restoreChar cell.color = s.shown s.cursorRenderedY s.cursorRenderedX := by
    rw [hchar, hcell, ink_shown]
  obtain ⟨d, hd⟩ := drawChar_of_redrawing (s := { s with isRedrawing := true }) rfl restoreChar
    s.cursorRenderedX s.cursorRenderedY cell.color cell.interactable
  refine ⟨d, ?_, fun x y hxlt hy hylt => ?_⟩
  · rw [updateCursorRender, if_neg (by simp [hbuf]), if_neg (by simp [hredraw])]
    dsimp only
    rw [← hcell, ← hchar, hd, renderCursor]
    by_cases hlt : s.cursorAtX < s.maxChars
    · rw [if_neg (Int.not_le.mpr hlt), ← hredraw]
      cases s.cursorVisible <;> simp [draw, hlt]
    · rw [if_pos (Int.not_lt.mp hlt), ← hredraw]
      cases s.cursorVisible <;> simp [hlt]
  · rw [← hink]
    refine Eq.trans (congrArg (fun t : Screen => placeAt t.drawn x y) hd).symm ?_
    exact placeAt_drawChar (s := { s with isRedrawing := true }) hbuf rfl restoreChar
      s.cursorRenderedX s.cursorRenderedY cell.color cell.interactable hxlt hy hylt

/-- It moves the bar, if there is one, to the cursor. -/
theorem updateCursorRender_shows {s : Screen} {bar : Bool} (hbuf : s.useScreenBuffer = true)
    (hredraw : s.isRedrawing = false) (h : s.Shows bar) :
    s.updateCursorRender.Shows s.cursorVisible := by
  obtain ⟨d, hupdate, hd⟩ := updateCursorRender_drawn hbuf hredraw
  rw [hupdate]
  intro x y hx hxlt hy hylt
  have hrestored : placeAt d x y = ⟨s.shown (s.startRenderLine + y) x, none⟩ := by
    rw [hd x y hxlt hy hylt]
    split
    · rename_i heq
      rw [heq.1, heq.2]
    · rename_i hne
      rw [h x y hx hxlt hy hylt, if_neg fun hbar => hne hbar.2]
  show placeAt (if _ then _ else d) x y = ⟨s.shown (s.startRenderLine + y) x,
    if s.cursorVisible = true ∧ x = s.cursorAtX ∧ s.startRenderLine + y = s.cursorAtY then _ else _⟩
  by_cases hbar : s.cursorVisible = true ∧ s.cursorAtX < s.maxChars
  · rw [if_pos hbar, placeAt_cons, Drawn.onto, hrestored]
    by_cases hat : x = s.cursorAtX ∧ s.startRenderLine + y = s.cursorAtY
    · rw [if_pos ⟨hat.1.symm, by omega⟩, if_pos ⟨hbar.1, hat⟩]
    · rw [if_neg (fun h => hat ⟨h.1.symm, by omega⟩), if_neg (fun h => hat h.2)]
  · rw [if_neg hbar, hrestored, if_neg]
    rintro ⟨hvisible, rfl, -⟩
    exact hbar ⟨hvisible, hxlt⟩

/-! ## Redrawing -/

/-- The body of the loop of `redraw_line` draws what the cell shows. -/
theorem redrawCell_spec {s : Screen} (hbuf : s.useScreenBuffer = true) (hredraw : s.isRedrawing = true)
    {n : Nat} (hX : s.cursorAtX = n) :
    ∃ d, redrawCell s.cursorAtY (s.amountOfCells s.cursorAtY) n s =
          { s with cursorAtX := s.cursorAtX + 1, drawn := d } ∧
      ∀ x y, x < s.maxChars → 0 ≤ y → y < s.maxLines → placeAt d x y =
        if x = s.cursorAtX ∧ s.startRenderLine + y = s.cursorAtY then
          ⟨s.shown s.cursorAtY s.cursorAtX, none⟩ else placeAt s.drawn x y := by
  have hdraw : ∀ (c : UInt8) (color : Color) (interactable : Bool),
      ink c color = s.shown s.cursorAtY s.cursorAtX → ∃ d,
        { s.drawChar c s.cursorAtX s.cursorAtY color interactable with
          cursorAtX := (s.drawChar c s.cursorAtX s.cursorAtY color interactable).cursorAtX + 1 } =
          { s with cursorAtX := s.cursorAtX + 1, drawn := d } ∧
        ∀ x y, x < s.maxChars → 0 ≤ y → y < s.maxLines → placeAt d x y =
          if x = s.cursorAtX ∧ s.startRenderLine + y = s.cursorAtY then
            ⟨s.shown s.cursorAtY s.cursorAtX, none⟩ else placeAt s.drawn x y := by
    intro c color interactable hink
    obtain ⟨d, hd⟩ := drawChar_of_redrawing hredraw c s.cursorAtX s.cursorAtY color interactable
    refine ⟨d, by rw [hd], fun x y hxlt hy hylt => ?_⟩
    have hplace := placeAt_drawChar hbuf hredraw c s.cursorAtX s.cursorAtY color interactable hxlt hy hylt
    rwa [hd, hink] at hplace
  unfold redrawCell
  dsimp only
  split
  · rename_i hlt
    exact hX ▸ hdraw _ _ _ (if_pos (hX ▸ hlt)).symm
  · rename_i hle
    exact hdraw _ _ _ (((if_neg (hX ▸ hle)).trans (if_pos rfl).symm).symm)

/-- The loop of `redraw_line`: up to column `n` the places of the line show its cells. -/
theorem redrawCells_spec {s : Screen} (hbuf : s.useScreenBuffer = true) (hredraw : s.isRedrawing = true)
    (line : Int) {n : Nat} (hn : n ≤ s.maxChars) :
    ∃ d, Loop.upTo (redrawCell line (s.amountOfCells line)) n
          { s with cursorAtX := 0, cursorAtY := line } =
        { s with cursorAtX := n, cursorAtY := line, drawn := d } ∧
      ∀ x y, 0 ≤ x → x < s.maxChars → 0 ≤ y → y < s.maxLines → placeAt d x y =
        if x < n ∧ s.startRenderLine + y = line then ⟨s.shown line x, none⟩
        else placeAt s.drawn x y := by
  induction n with
  | zero => exact ⟨s.drawn, rfl, fun x y hx _ _ _ => (if_neg (by omega)).symm⟩
  | succ n ih =>
    obtain ⟨d, heq, hplace⟩ := ih (by omega)
    obtain ⟨d', hcell, hd'⟩ := redrawCell_spec
      (s := { s with cursorAtX := n, cursorAtY := line, drawn := d }) hbuf hredraw (n := n) rfl
    refine ⟨d', ?_, fun x y hx hxlt hy hylt => ?_⟩
    · rw [Loop.upTo, heq]
      exact hcell
    · have hstep : placeAt d' x y = if x = n ∧ s.startRenderLine + y = line then
          ⟨s.shown line n, none⟩ else placeAt d x y := hd' x y hxlt hy hylt
      rw [hstep, hplace x y hx hxlt hy hylt]
      by_cases hlast : x = n ∧ s.startRenderLine + y = line
      · obtain ⟨rfl, hline⟩ := hlast
        rw [if_pos ⟨rfl, hline⟩, if_pos ⟨by omega, hline⟩]
      · rw [if_neg hlast]
        exact if_congr (by omega) rfl rfl

/-- `redraw_line` draws all places of a line. -/
theorem redrawLine_spec {s : Screen} (hbuf : s.useScreenBuffer = true) (hredraw : s.isRedrawing = true)
    (line : Int) :
    ∃ X d, s.redrawLine line = { s with cursorAtX := X, cursorAtY := line, drawn := d } ∧
      ∀ x y, 0 ≤ x → x < s.maxChars → 0 ≤ y → y < s.maxLines → placeAt d x y =
        if s.startRenderLine + y = line then ⟨s.shown line x, none⟩ else placeAt s.drawn x y := by
  by_cases hpos : 0 ≤ s.maxChars
  · obtain ⟨d, heq, hplace⟩ := redrawCells_spec hbuf hredraw line (n := s.maxChars.toNat) (by omega)
    refine ⟨_, d, heq, fun x y hx hxlt hy hylt => ?_⟩
    rw [hplace x y hx hxlt hy hylt]
    exact if_congr (by omega) rfl rfl
  · obtain ⟨X, d, heq⟩ := redrawLine_eq hredraw line
    exact ⟨X, d, heq, fun x y hx hxlt _ _ => by omega⟩

/-- The loop of `redraw`: the first `n` lines of the screen show those of the buffer. -/
theorem redrawLines_spec {s : Screen} (hbuf : s.useScreenBuffer = true) (n : Nat) :
    ∃ X Y d, Loop.upTo (fun i => redrawLine (s.startRenderLine + i)) n { s with isRedrawing := true } =
        { s with isRedrawing := true, cursorAtX := X, cursorAtY := Y, drawn := d } ∧
      ∀ x y, 0 ≤ x → x < s.maxChars → 0 ≤ y → y < s.maxLines → placeAt d x y =
        if y < n then ⟨s.shown (s.startRenderLine + y) x, none⟩ else placeAt s.drawn x y := by
  induction n with
  | zero => exact ⟨s.cursorAtX, s.cursorAtY, s.drawn, rfl, fun x y _ _ hy _ => (if_neg (by omega)).symm⟩
  | succ n ih =>
    obtain ⟨X, Y, d, heq, hplace⟩ := ih
    obtain ⟨X', d', hline, hd'⟩ := redrawLine_spec
      (s := { s with isRedrawing := true, cursorAtX := X, cursorAtY := Y, drawn := d }) hbuf rfl
      (s.startRenderLine + n)
    refine ⟨X', s.startRenderLine + n, d', ?_, fun x y hx hxlt hy hylt => ?_⟩
    · rw [Loop.upTo, heq]
      exact hline
    · have hstep : placeAt d' x y = if s.startRenderLine + y = s.startRenderLine + n then
          ⟨s.shown (s.startRenderLine + n) x, none⟩ else placeAt d x y := hd' x y hx hxlt hy hylt
      rw [hstep, hplace x y hx hxlt hy hylt]
      by_cases hlast : y = n
      · subst hlast
        rw [if_pos rfl, if_pos (by omega)]
      · rw [if_neg (by omega)]
        exact if_congr (by omega) rfl rfl

/-- After `redraw` the screen shows the visible part, whatever was drawn before, and no bar. -/
theorem redraw_shows {s : Screen} (hbuf : s.useScreenBuffer = true)
    (hvisible : s.visibleLines = s.maxLines) : s.redraw.Shows false := by
  obtain ⟨X, Y, d, heq, hplace⟩ := redrawLines_spec hbuf s.visibleLines.toNat
  rw [redraw, heq]
  refine shows_false.mpr fun x y hx hxlt hy hylt => (hplace x y hx hxlt hy hylt).trans ?_
  change y < s.maxLines at hylt
  exact if_pos (by omega)

/-! ## Line breaks -/

/-- The visible part lies in the buffer and has the cursor in it. -/
structure Window (s : Screen) : Prop where
  visible : s.visibleLines = s.maxLines
  start_nonneg : 0 ≤ s.startRenderLine
  end_le : s.startRenderLine + s.maxLines ≤ s.maxStoredLines
  inView : s.CursorInView

/-- The framebuffer shows the window of the buffer, and the bar at the cursor only if it is visible. -/
structure Displayed (s : Screen) : Prop extends Window s where
  renderedX : s.cursorRenderedX = s.cursorAtX
  renderedY : s.cursorRenderedY = s.cursorAtY
  shows : ∃ bar, (bar = true → s.cursorVisible = true) ∧ s.Shows bar

theorem Redrawn.window {s s' : Screen} (h : Redrawn s s') (hs : s.Window) : s'.Window := by
  obtain ⟨x, y, d, rfl⟩ := h
  exact ⟨hs.visible, hs.start_nonneg, hs.end_le, hs.inView⟩

/-- `update_cursor_render`, once the glyphs are drawn. -/
theorem Window.updateCursorRender {s : Screen} (hw : s.Window) {bar : Bool}
    (hbuf : s.useScreenBuffer = true) (hredraw : s.isRedrawing = false) (h : s.Shows bar) :
    s.updateCursorRender.Displayed ∧ s.updateCursorRender.Shows s.cursorVisible := by
  have hshows := updateCursorRender_shows hbuf hredraw h
  obtain ⟨d, heq, -⟩ := updateCursorRender_drawn hbuf hredraw
  refine ⟨⟨(updateCursorRender_redrawn s).window hw, ?_, ?_, s.cursorVisible, ?_, hshows⟩, hshows⟩ <;>
    rw [heq]
  exact id

/-- The second part of `handle_scroll` draws nothing, or everything. -/
theorem scrollUp_shows {s : Screen} {bar : Bool} (hbuf : s.useScreenBuffer = true)
    (hredraw : s.isRedrawing = false) (hvisible : s.visibleLines = s.maxLines)
    (h : s.cursorAtY < s.startRenderLine + s.maxLines → s.Shows bar) :
    ∃ bar start, s.scrollUp.Shows bar ∧ Redrawn { s with startRenderLine := start } s.scrollUp ∧
      start = if s.cursorAtY < s.startRenderLine + s.maxLines then s.startRenderLine
        else s.startRenderLine + 1 := by
  unfold scrollUp
  by_cases hlt : s.cursorAtY < s.startRenderLine + s.maxLines
  · rw [if_neg (by omega)]
    exact ⟨bar, s.startRenderLine, h hlt, Redrawn.refl s, (if_pos hlt).symm⟩
  · rw [if_pos (by omega)]
    exact ⟨false, s.startRenderLine + 1,
      redraw_shows (s := { s with startRenderLine := s.startRenderLine + 1 }) hbuf hvisible,
      redraw_redrawn (s := { s with startRenderLine := s.startRenderLine + 1 }) hredraw,
      (if_neg hlt).symm⟩

/-- The glyphs of the window are drawn, and the bar perhaps at its old place. -/
structure Scrolled (s : Screen) : Prop extends Window s where
  buffered : s.useScreenBuffer = true
  notRedrawing : s.isRedrawing = false
  shows : ∃ bar, s.Shows bar

/-- The window follows a cursor right behind it. -/
theorem scrollUp_scrolled {s : Screen} {b : Bool} (hbuf : s.useScreenBuffer = true)
    (hredraw : s.isRedrawing = false) (hvisible : s.visibleLines = s.maxLines)
    (h0 : 0 ≤ s.startRenderLine) (hstart : s.startRenderLine ≤ s.cursorAtY)
    (hend : s.cursorAtY ≤ s.startRenderLine + s.maxLines) (hlt : s.cursorAtY < s.maxStoredLines)
    (hle : s.startRenderLine + s.maxLines ≤ s.maxStoredLines) (hpos : 0 < s.maxLines)
    (h : s.cursorAtY < s.startRenderLine + s.maxLines → s.Shows b) :
    s.scrollUp.Scrolled ∧ s.scrollUp.cursorVisible = s.cursorVisible := by
  obtain ⟨bar', start, hshows, ⟨x, y, d, heq⟩, hnew⟩ := scrollUp_shows hbuf hredraw hvisible h
  refine ⟨⟨?_, ?_, ?_, bar', hshows⟩, ?_⟩
  · rw [heq]
    refine ⟨hvisible, ?_, ?_, ?_, ?_⟩ <;> dsimp only <;> split at hnew <;> omega
  · rw [heq]
    exact hbuf
  · rw [heq]
    exact hredraw
  · rw [heq]

/-- Dropping the oldest line moves the window and the cursor up with the lines. -/
theorem dropOldLine_of_last {s : Screen} (h : s.CellsOk) (hlast : s.cursorAtY = s.maxStoredLines)
    (hpos : 0 < s.maxStoredLines) (hstart : 0 < s.startRenderLine) :
    ∃ cells amounts written, s.dropOldLine = { s with
      cursorAtY := s.cursorAtY - 1, cellBlock := cells, amountOfCells := amounts, written := written
      amountOfLines := s.amountOfLines - 1, startRenderLine := s.startRenderLine - 1 } := by
  obtain ⟨cells, amounts, written, heq, -⟩ :=
    copyLines_spec h (n := (s.maxStoredLines - 1).toNat) (by omega)
  unfold dropOldLine
  rw [if_pos (Int.le_of_eq hlast.symm), heq, if_pos hstart]
  exact ⟨cells, _, written, rfl⟩

/-- A line break, up to the bar. -/
theorem nextLine_scrolled {s : Screen} {bar : Bool} (h : s.InLines) (hw : s.Window)
    (hs : s.Shows bar) :
    s.nextLine.dropOldLine.scrollUp.Scrolled ∧
      s.nextLine.dropOldLine.scrollUp.cursorVisible = s.cursorVisible := by
  obtain ⟨hstart, hend⟩ := hw.inView
  have hvisible := hw.visible
  have hnonneg := hw.start_nonneg
  have hle := hw.end_le
  have hlt := h.cursorAtY_lt
  have hstored := h.stored
  have hhistory : (scrollHistoryLines : Int) = 100 := rfl
  by_cases hlast : s.cursorAtY + 1 = s.maxStoredLines
  · -- the window was at the end of the buffer, and is drawn anew
    obtain ⟨cells, amounts, written, heq⟩ := dropOldLine_of_last (s := s.nextLine)
      ⟨h.amount_nonneg, h.amount_le, h.written⟩ hlast (by show 0 < s.maxStoredLines; omega)
      (by show 0 < s.startRenderLine; omega)
    rw [heq]
    refine scrollUp_scrolled (b := bar) h.buffered h.notRedrawing hvisible ?_ ?_ ?_ ?_ ?_ ?_ ?_ <;>
      dsimp only [nextLine] <;> omega
  · have hkeep : s.nextLine.dropOldLine = s.nextLine :=
      if_neg (by show ¬ s.cursorAtY + 1 ≥ s.maxStoredLines; omega)
    rw [hkeep]
    refine scrollUp_scrolled h.buffered h.notRedrawing hvisible hnonneg ?_ ?_ ?_ hle ?_ fun _ => hs <;>
      dsimp only [nextLine] <;> omega

/-- After a line break the screen shows the window again. -/
theorem newline_displayed {s : Screen} {bar : Bool} (h : s.InLines) (hw : s.Window)
    (hs : s.Shows bar) : s.newline.Displayed ∧ s.newline.Shows s.cursorVisible := by
  obtain ⟨hscrolled, hvisible⟩ := nextLine_scrolled h hw hs
  obtain ⟨bar', hshows⟩ := hscrolled.shows
  rw [newline_of_buffered h, ← hvisible]
  exact hscrolled.toWindow.updateCursorRender hscrolled.buffered hscrolled.notRedrawing hshows

/-! ## Characters -/

/-- What the buffer shows with one more character at the end of a line. -/
theorem shown_putCell {s : Screen} (h : s.Printing) (hend : s.AtEnd) (c : Cell) {y x : Int}
    (hx : 0 ≤ x) (hxlt : x < s.maxChars) :
    (s.putCell c).shown y x =
      if x = s.cursorAtX ∧ y = s.cursorAtY then ink c.text c.color else s.shown y x := by
  have hcell : (s.putCell c).cell y x = if y = s.cursorAtY ∧ x = s.cursorAtX then c else s.cell y x := by
    rw [putCell_of_le h.amount_le_cursorAtX]
    exact cell_setCell h.cursorAtX_nonneg h.cursorAtX_lt hx hxlt c
  have hamount : (s.putCell c).amountOfCells y =
      if y = s.cursorAtY then s.cursorAtX + 1 else s.amountOfCells y := by
    rw [putCell_of_le h.amount_le_cursorAtX]
    rfl
  unfold shown
  rw [hcell, hamount]
  by_cases hy : y = s.cursorAtY
  · subst hy
    rw [← hend]
    grind
  · rw [if_neg hy, if_neg (c := y = _ ∧ _) fun h => hy h.1, if_neg (c := x = _ ∧ _) fun h => hy h.2]

/-- A character at the end of its line: its glyph covers the bar. -/
theorem drawChar_shows {s : Screen} (h : s.Printing) (hend : s.AtEnd) (hd : s.Displayed) (c : UInt8)
    (color : Color) (interactable : Bool) :
    ({ s.drawChar c s.cursorAtX s.cursorAtY color interactable with
      cursorAtX := s.cursorAtX + 1 } : Screen).Shows false := by
  obtain ⟨bar, -, hshows⟩ := hd.shows
  obtain ⟨t, ht⟩ : ∃ t, t = s.putCell ⟨color, c, interactable⟩ := ⟨_, rfl⟩
  have hput := putCell_of_le h.amount_le_cursorAtX ⟨color, c, interactable⟩
  have hdraw : s.drawChar c s.cursorAtX s.cursorAtY color interactable =
      t.drawGlyph c s.cursorAtX s.cursorAtY color := by
    rw [drawChar, if_pos (by simp [h.buffered, h.notRedrawing]), ht]
  obtain ⟨d, hglyph⟩ := drawGlyph_eq c s.cursorAtX s.cursorAtY color t
  rw [hdraw, hglyph]
  refine shows_false.mpr fun x y hx hxlt hy hylt => ?_
  have hkept : t.maxChars = s.maxChars ∧ t.maxLines = s.maxLines ∧
      t.startRenderLine = s.startRenderLine ∧ t.drawn = s.drawn ∧ t.useScreenBuffer = true := by
    rw [ht, hput]
    exact ⟨rfl, rfl, rfl, rfl, h.buffered⟩
  obtain ⟨hmaxChars, hmaxLines, hstart, hdrawn, hbuf⟩ := hkept
  have hplace := placeAt_drawGlyph hbuf c s.cursorAtX s.cursorAtY color hxlt hy hylt
  rw [hglyph] at hplace
  refine hplace.trans ?_
  change x < t.maxChars at hxlt
  change y < t.maxLines at hylt
  show _ = (⟨t.shown (t.startRenderLine + y) x, none⟩ : Place)
  rw [hstart, hdrawn, ht, shown_putCell h hend ⟨color, c, interactable⟩ hx (hmaxChars ▸ hxlt)]
  by_cases hat : x = s.cursorAtX ∧ s.startRenderLine + y = s.cursorAtY
  · rw [if_pos hat, if_pos hat]
  · rw [if_neg hat, if_neg hat, hshows x y hx (hmaxChars ▸ hxlt) hy (hmaxLines ▸ hylt), if_neg]
    rw [hd.renderedX, hd.renderedY]
    exact fun hbar => hat hbar.2

/-- A character, before the line break behind a full line. -/
theorem printed_shows {s : Screen} (h : s.Printing) (hend : s.AtEnd) (hd : s.Displayed) (c : UInt8)
    (color : Color) (interactable : Bool) :
    (s.printed c color interactable).Displayed ∧
      (s.printed c color interactable).Shows s.cursorVisible := by
  have hshows := drawChar_shows h hend hd c color interactable
  obtain ⟨d, hdraw⟩ := drawChar_of_buffered h.buffered h.notRedrawing c s.cursorAtX s.cursorAtY color
    interactable
  unfold printed
  dsimp only
  rw [cursorAtX_drawChar]
  rw [hdraw, putCell_of_le h.amount_le_cursorAtX] at hshows ⊢
  exact Window.updateCursorRender ⟨hd.visible, hd.start_nonneg, hd.end_le, hd.inView⟩ h.buffered
    h.notRedrawing hshows

/-- A character, and the line break behind a full line. -/
theorem printChar_displayed {s : Screen} (h : s.Printing) (hend : s.AtEnd) (hd : s.Displayed)
    (c : UInt8) (color : Color) (interactable : Bool) :
    (s.printChar c color interactable).Displayed := by
  obtain ⟨hprinted, hshows⟩ := printed_shows h hend hd c color interactable
  have hlines : (s.printed c color interactable).InLines :=
    (printed_redrawn h.buffered h.notRedrawing c color interactable).inLines
      (typed_inLines h ⟨color, c, interactable⟩).1
  show ((s.printed c color interactable).handleAutomaticNewline).Displayed
  unfold handleAutomaticNewline
  split
  · exact (newline_displayed hlines hprinted.toWindow hshows).1
  · exact hprinted

/-! ## Sequences of calls -/

/-- Text goes right behind the last character of its line, and the screen shows the window. -/
structure Showing (s : Screen) : Prop extends Printing s, Displayed s where
  atEnd : s.AtEnd

namespace Showing

variable {s : Screen}

/-- A line break from anywhere in a line. -/
theorem of_newline (h : s.InLines) (hd : s.Displayed) : s.newline.Showing := by
  obtain ⟨bar, -, hshows⟩ := hd.shows
  obtain ⟨hprint, hend⟩ := newline_spec h
  exact ⟨hprint, (newline_displayed h hd.toWindow hshows).1, hend⟩

theorem newline (h : s.Showing) : s.newline.Showing := of_newline h.toInLines h.toDisplayed

theorem printChar (h : s.Showing) (c : UInt8) (color : Color) (interactable : Bool) :
    (s.printChar c color interactable).Showing := by
  obtain ⟨hprint, hend⟩ := printChar_spec h.toPrinting c color interactable
  exact ⟨hprint, printChar_displayed h.toPrinting h.atEnd h.toDisplayed c color interactable, hend⟩

theorem printChars (h : s.Showing) (text : CString) (color : Color) (interactable : Bool) :
    (s.printChars text color interactable).Showing := by
  induction text generalizing s with
  | nil => exact h
  | cons c text ih =>
    refine ih (s := s.printTextChar color interactable c) ?_
    unfold printTextChar
    split
    · exact h
    · split
      · exact h.newline
      · exact h.printChar c color interactable

theorem run (h : s.Showing) (call : TextCall) : (call.run s).Showing := by
  cases call with
  | printChar c color interactable => exact h.printChar c color interactable
  | printChars text color interactable => exact h.printChars text color interactable
  | print text color => exact (h.printChars text color false).newline
  | newline => exact h.newline

end Showing

/-- `cmd_clear` leaves a black screen over an empty buffer. -/
theorem clear_showing {s : Screen} (h : s.InLines) (hpos : 0 < s.maxLines) :
    (PrintCall.clear.run s).Showing := by
  obtain ⟨hprint, hend⟩ := clear_spec h
  have hhistory : (scrollHistoryLines : Int) = 100 := rfl
  have hrun : PrintCall.clear.run s = { draw .black s.initEmptyScreenBuffer with
      cursorAtX := 0, cursorAtY := 0, cursorRenderedX := 0, cursorRenderedY := 0 } := by
    rw [PrintCall.run, clearScreen, if_pos h.buffered]
  refine ⟨hprint, ⟨⟨?_, ?_, ?_, ?_⟩, ?_, ?_, false, ?_, ?_⟩, hend⟩ <;> rw [hrun]
  · rfl
  · exact Int.le_refl 0
  · show 0 + s.maxLines ≤ s.maxLines + scrollHistoryLines
    omega
  · exact ⟨Int.le_refl 0, by show 0 < 0 + s.maxLines; omega⟩
  · exact fun h => absurd h Bool.false_ne_true
  · refine shows_false.mpr fun x y hx _ hy hylt => ?_
    have hempty : s.initEmptyScreenBuffer.amountOfCells (0 + y) = 0 :=
      if_pos ⟨by omega, by change y < s.maxLines at hylt; omega⟩
    show (⟨none, none⟩ : Place) = ⟨if x < s.initEmptyScreenBuffer.amountOfCells (0 + y) then _ else _, _⟩
    rw [hempty, if_neg (by omega)]

theorem Window.maxLines_pos {s : Screen} (h : s.Window) : 0 < s.maxLines := by
  obtain ⟨hstart, hend⟩ := h.inView
  have hvisible := h.visible
  omega

theorem Showing.printCall {s : Screen} (h : s.Showing) (call : PrintCall) : (call.run s).Showing := by
  cases call with
  | chars text color => exact h.printChars text color false
  | newline => exact h.newline
  | clear => exact clear_showing h.toInLines h.maxLines_pos

theorem Showing.runAll {s : Screen} (h : s.Showing) (calls : List PrintCall) :
    (PrintCall.runAll calls s).Showing := by
  induction calls generalizing s with
  | nil => exact h
  | cons call calls ih => exact ih (h.printCall call)

/-- The cursor blinks. -/
def blink (visible : Bool) (s : Screen) : Screen :=
  updateCursorRender { s with cursorVisible := visible }

theorem blink_redrawn (visible : Bool) (s : Screen) :
    Redrawn { s with cursorVisible := visible } (s.blink visible) :=
  updateCursorRender_redrawn _

theorem Displayed.blink {s : Screen} (h : s.Displayed) (hlines : s.InLines) (visible : Bool) :
    (s.blink visible).Displayed := by
  obtain ⟨bar, -, hshows⟩ := h.shows
  exact (Window.updateCursorRender (s := { s with cursorVisible := visible })
    ⟨h.visible, h.start_nonneg, h.end_le, h.inView⟩ hlines.buffered hlines.notRedrawing hshows).1

theorem InLines.blink {s : Screen} (h : s.InLines) (visible : Bool) : (s.blink visible).InLines :=
  (blink_redrawn visible s).inLines ⟨⟨h.amount_nonneg, h.amount_le, h.written⟩, h.buffered,
    h.notRedrawing, h.maxChars_pos, h.stored, h.cursorAtY_nonneg, h.cursorAtY_lt, h.below⟩

theorem Showing.blink {s : Screen} (h : s.Showing) (visible : Bool) : (s.blink visible).Showing := by
  have hredrawn := blink_redrawn visible s
  have hprint : (s.blink visible).Printing := hredrawn.printing
    ⟨⟨⟨h.amount_nonneg, h.amount_le, h.written⟩, h.buffered, h.notRedrawing, h.maxChars_pos, h.stored,
      h.cursorAtY_nonneg, h.cursorAtY_lt, h.below⟩, h.amount_le_cursorAtX, h.cursorAtX_lt⟩
  exact ⟨hprint, h.toDisplayed.blink h.toInLines visible, hredrawn.atEnd h.atEnd⟩

end Screen

/-! ## The timer -/

/-- `CURSOR_BLINK_INTERVAL`: milliseconds. -/
def cursorBlinkInterval : Nat := 400

/-- The screen, and the counter of the timer. -/
structure Console where
  ticks : Nat
  screen : Screen

/-- `timer_handler`, without the command to the interrupt controller. -/
def Console.timerHandler (c : Console) : Console :=
  let ticks := u64 (c.ticks + 1)
  if u64 (ticks * 1000) / pitTickHz % cursorBlinkInterval = 0 then
    ⟨ticks, c.screen.blink (!c.screen.cursorVisible)⟩
  else ⟨ticks, c.screen⟩

/-- What happens to the screen. -/
inductive ScreenEvent where
  | text (call : TextCall)
  | clear
  | tick

def ScreenEvent.run (c : Console) : ScreenEvent → Console
  | text call => { c with screen := call.run c.screen }
  | clear => { c with screen := PrintCall.clear.run c.screen }
  | tick => c.timerHandler

namespace Screen

/-- The pixel of the screen in row `row` and column `col`, from the buffer: white in the bar, if there
is one, and the glyph of a cell elsewhere. -/
def windowPixel (font : Font) (bar : Bool) (s : Screen) (row col : Int) : UInt32 :=
  let y := s.startRenderLine + row / fontH
  let x := col / fontW
  if bar = true ∧ x = s.cursorAtX ∧ y = s.cursorAtY ∧ fontH - cursorHeight * fontSize ≤ row % fontH then
    Color.white.value
  else if x < s.amountOfCells y then
    glyphPixel font (s.cell y x).text (s.cell y x).color (row % fontH).toNat (col % fontW).toNat
  else 0

/-- A screen that is displayed, pixel by pixel. -/
theorem Displayed.pixelAt_eq {font : Font} (hspace : ∀ row, font space row = 0) {s : Screen} {bar : Bool}
    (h : s.Displayed) (hshows : s.Shows bar) {row col : Int} (hrow : 0 ≤ row)
    (hrowlt : row < s.maxLines * fontH) (hcol : 0 ≤ col) (hcollt : col < s.maxChars * fontW) :
    pixelAt font s.drawn row col = s.windowPixel font bar row col := by
  have hplace := hshows (col / fontW) (row / fontH) (Int.ediv_nonneg hcol (by decide))
    (Int.ediv_lt_of_lt_mul (by decide) hcollt) (Int.ediv_nonneg hrow (by decide))
    (Int.ediv_lt_of_lt_mul (by decide) hrowlt)
  have hbase : ∀ bar : Option Color, Place.pixel.base font
      ⟨s.shown (s.startRenderLine + row / fontH) (col / fontW), bar⟩ (row % fontH).toNat
        (col % fontW).toNat =
      if col / fontW < s.amountOfCells (s.startRenderLine + row / fontH) then
        glyphPixel font (s.cell (s.startRenderLine + row / fontH) (col / fontW)).text
          (s.cell (s.startRenderLine + row / fontH) (col / fontW)).color (row % fontH).toNat
          (col % fontW).toNat
      else 0 := fun bar => by
    unfold shown
    split
    · exact base_ink hspace _ _ _ _ _
    · rfl
  have hlow : 16 * fontSize - cursorHeight * fontSize ≤ (row % fontH).toNat ↔
      fontH - cursorHeight * fontSize ≤ row % fontH := by
    simp only [fontH_eq, cursorHeight, fontSize]
    omega
  rw [EszOs.pixelAt_eq hspace, hplace, h.renderedX, h.renderedY, windowPixel]
  by_cases hat : bar = true ∧ col / fontW = s.cursorAtX ∧
      s.startRenderLine + row / fontH = s.cursorAtY
  · rw [hat.2.1, hat.2.2] at hbase
    simp only [Place.pixel, hlow, hbase, hat, true_and, ↓reduceIte]
  · rw [if_neg hat, if_neg fun hbar => hat ⟨hbar.1, hbar.2.1, hbar.2.2.1⟩]
    exact hbase none

end Screen

namespace Screen

theorem Showing.event {c : Console} (h : c.screen.Showing) (e : ScreenEvent) :
    (e.run c).screen.Showing := by
  cases e with
  | text call => exact h.run call
  | clear => exact clear_showing h.toInLines h.maxLines_pos
  | tick =>
    unfold ScreenEvent.run Console.timerHandler
    dsimp only
    split
    · exact h.blink _
    · exact h

theorem Showing.events {c : Console} (h : c.screen.Showing) (events : List ScreenEvent) :
    (events.foldl ScreenEvent.run c).screen.Showing := by
  induction events generalizing c with
  | nil => exact h
  | cons e events ih => exact ih (h.event e)

/-- From a cleared screen on, after any calls and ticks, each pixel of the screen is that of the
visible part of the buffer, or of the bar, which is at the cursor and only while it is visible. -/
theorem events_show {font : Font} (hspace : ∀ row, font space row = 0) {s : Screen} (h : s.InLines)
    (hpos : 0 < s.maxLines) (ticks : Nat) (events : List ScreenEvent) :
    let t := (events.foldl ScreenEvent.run ⟨ticks, PrintCall.clear.run s⟩).screen
    ∃ bar : Bool, (bar = true → t.cursorVisible = true) ∧
      ∀ row col, 0 ≤ row → row < t.maxLines * fontH → 0 ≤ col → col < t.maxChars * fontW →
        pixelAt font t.drawn row col = t.windowPixel font bar row col := by
  intro t
  have hshowing : t.Showing := Showing.events (c := ⟨ticks, PrintCall.clear.run s⟩)
    (clear_showing h hpos) events
  obtain ⟨bar, hbar, hshows⟩ := hshowing.shows
  exact ⟨bar, hbar, fun row col => hshowing.toDisplayed.pixelAt_eq hspace hshows⟩

/-- A screen of 80 columns and 25 lines with a font of full blocks. -/
theorem events_show_80x25 :
    let t := ([ScreenEvent.text (.print (literal "ESZ") .white), .tick].foldl ScreenEvent.run
      ⟨39, PrintCall.clear.run (initPrint 80 25).initScreenBuffer⟩).screen
    ∃ bar : Bool, (bar = true → t.cursorVisible = true) ∧
      ∀ row col, 0 ≤ row → row < t.maxLines * fontH → 0 ≤ col → col < t.maxChars * fontW →
        pixelAt (fun c _ => if c = space then 0 else 0xFF) t.drawn row col =
          t.windowPixel (fun c _ => if c = space then 0 else 0xFF) bar row col :=
  events_show (fun _ => if_pos rfl) (s := (initPrint 80 25).initScreenBuffer)
    (Early.printing ⟨rfl, by decide, by decide, by decide, by decide, rfl⟩).toInLines (by decide) 39 _

end Screen

end EszOs
