import AssistedDump.Console.DumpLoop
import AssistedDump.General.Tiles
import Mathlib.Data.Rat.Floor

/-! # The picture of a symbol

The part of `main_dumping` that draws a QR code: where the symbol goes, and the loop over
its modules. The size of a module is a parameter. Floats are exact here, so `roundf`
rounds the rational number the source writes, and the sums of the loop are exact because
every box lies inside the framebuffer.
-/

namespace AssistedDump.Picture

open CSemantics DumpLoop Machine Tiles

inductive Color where
  | black
  | white
  deriving Repr, DecidableEq

structure Display where
  width : Nat
  height : Nat
  deriving Repr, DecidableEq

def Display.screen (display : Display) : Rect := ⟨0, 0, display.width, display.height⟩

/-- The pixels of a framebuffer, and the boxes that were drawn on it. -/
structure Surface where
  pixels : Int → Int → Color
  boxes : List Rect

def graphicsFillScreen (color : Color) : C Surface Unit :=
  modify fun surf => { surf with pixels := fun _ _ => color }

def graphicsDrawBox (box : Rect) (color : Color) : C Surface Unit :=
  modify fun surf => { pixels := paint box color surf.pixels, boxes := surf.boxes ++ [box] }

/-- The nearest integer, and of two the one away from zero. -/
def roundf (x : ℚ) : Int := if 0 ≤ x then ⌊x + 1 / 2⌋ else -⌊-x + 1 / 2⌋

/-- The first pixel of the symbol on one axis, for the size of a module on that axis. -/
def offset (size qrcodeWidth moduleSize : Nat) : Int :=
  roundf ((size : ℚ) / 2 - (qrcodeWidth : ℚ) * moduleSize / 2)

structure Layout where
  offsetX : Int
  offsetY : Int
  moduleWidth : Nat
  moduleHeight : Nat
  deriving Repr, DecidableEq

def layout (display : Display) (qrcodeWidth moduleWidth moduleHeight : Nat) : C Surface Layout := do
  let offsetX := offset display.width qrcodeWidth moduleWidth
  let offsetY := offset display.height qrcodeWidth moduleHeight
  assert "offset_x >= 0" (offsetX ≥ 0)
  assert "offset_y >= 0" (offsetY ≥ 0)
  pure ⟨offsetX, offsetY, moduleWidth, moduleHeight⟩

def Layout.box (l : Layout) (x y : Nat) : Rect where
  x := l.offsetX + x * l.moduleWidth
  y := l.offsetY + y * l.moduleHeight
  width := l.moduleWidth
  height := l.moduleHeight

/-- The body of the two loops. -/
def drawModule (l : Layout) (qrCode : QRcode) (x y : Nat) : C Surface Unit := do
  -- the column of the box is the row of the module
  let val ← readAt qrCode.data (x * qrCode.width + y)
  let isBlack := val &&& 1
  graphicsDrawBox (l.box x y) (if isBlack ≠ 0 then .black else .white)

def drawModules (l : Layout) (qrCode : QRcode) : C Surface Unit :=
  forLoop (fun x => forLoop (drawModule l qrCode x) qrCode.width) qrCode.width

/-- What `main_dumping` does with a surface and a symbol. -/
def drawSymbol (display : Display) (qrcodeWidth moduleWidth moduleHeight : Nat)
    (qrCode : QRcode) : C Surface Layout := do
  let l ← layout display qrcodeWidth moduleWidth moduleHeight
  graphicsFillScreen .white
  assert "qr_code->width == qrcode_width" (qrCode.width = qrcodeWidth)
  drawModules l qrCode
  pure l

/-! ## Centring -/

/-- Half of a size that is not negative, rounded up. -/
theorem roundf_half (d : Nat) : roundf ((d : ℚ) / 2) = (d + 1) / 2 := by
  have nonneg : (0 : ℚ) ≤ (d : ℚ) / 2 := by positivity
  have whole : (d : ℚ) / 2 + 1 / 2 = ((d + 1 : Int) : ℚ) / (2 : Nat) := by push_cast; ring
  rw [roundf, if_pos nonneg, whole, Rat.floor_intCast_div_natCast]
  rfl

theorem roundf_half_neg (d : Nat) : roundf (-((d + 1 : Nat) : ℚ) / 2) = -((d + 2) / 2) := by
  have negative : ¬ (0 : ℚ) ≤ -((d + 1 : Nat) : ℚ) / 2 := by
    rw [not_le]
    have : (0 : ℚ) < ((d + 1 : Nat) : ℚ) := by positivity
    linarith
  have whole : -(-((d + 1 : Nat) : ℚ) / 2) + 1 / 2 = ((d + 2 : Int) : ℚ) / (2 : Nat) := by
    push_cast; ring
  rw [roundf, if_neg negative, whole, Rat.floor_intCast_div_natCast]
  rfl

/-- The offset of a symbol that fits. -/
theorem offset_fits {size qrcodeWidth moduleSize : Nat} (fits : qrcodeWidth * moduleSize ≤ size) :
    offset size qrcodeWidth moduleSize = (size - qrcodeWidth * moduleSize + 1) / 2 := by
  obtain ⟨d, rfl⟩ := Nat.exists_eq_add_of_le fits
  have half : ((qrcodeWidth * moduleSize + d : Nat) : ℚ) / 2 - (qrcodeWidth : ℚ) * moduleSize / 2 =
      (d : ℚ) / 2 := by push_cast; ring
  rw [offset, half, roundf_half]
  push_cast
  congr 1
  ring

theorem offset_negative {size qrcodeWidth moduleSize : Nat}
    (large : size < qrcodeWidth * moduleSize) : offset size qrcodeWidth moduleSize < 0 := by
  obtain ⟨d, sum⟩ := Nat.exists_eq_add_of_lt large
  have product : (qrcodeWidth : ℚ) * moduleSize = ((size + d + 1 : Nat) : ℚ) := by
    rw [← sum]; push_cast; ring
  have half : (size : ℚ) / 2 - (qrcodeWidth : ℚ) * moduleSize / 2 = -((d + 1 : Nat) : ℚ) / 2 := by
    rw [product]; push_cast; ring
  rw [offset, half, roundf_half_neg]
  omega

/-- An offset that passes its assertion leaves room for the symbol. -/
theorem offset_within {size qrcodeWidth moduleSize : Nat}
    (nonneg : 0 ≤ offset size qrcodeWidth moduleSize) :
    offset size qrcodeWidth moduleSize + qrcodeWidth * moduleSize ≤ size := by
  by_cases fits : qrcodeWidth * moduleSize ≤ size
  · rw [offset_fits fits]
    have : (qrcodeWidth : Int) * moduleSize ≤ size := by exact_mod_cast fits
    omega
  · have := offset_negative (Nat.lt_of_not_le fits)
    omega

def centred (display : Display) (qrcodeWidth moduleWidth moduleHeight : Nat) : Layout where
  offsetX := offset display.width qrcodeWidth moduleWidth
  offsetY := offset display.height qrcodeWidth moduleHeight
  moduleWidth := moduleWidth
  moduleHeight := moduleHeight

theorem layout_run {display : Display} {qrcodeWidth moduleWidth moduleHeight : Nat}
    (left : 0 ≤ offset display.width qrcodeWidth moduleWidth)
    (top : 0 ≤ offset display.height qrcodeWidth moduleHeight) (surf : Surface) :
    (layout display qrcodeWidth moduleWidth moduleHeight).run surf =
      .ok (centred display qrcodeWidth moduleWidth moduleHeight) surf := by
  simp [layout, centred, left, top, -bind_pure_comp]

/-! ## The loops -/

/-- The module in a row and a column of a symbol is black. -/
def Black (qrCode : QRcode) (row column : Nat) : Prop :=
  qrCode.data.getD (row * qrCode.width + column) 0 &&& 1 = 1

instance (qrCode : QRcode) (row column : Nat) : Decidable (Black qrCode row column) :=
  inferInstanceAs (Decidable (_ = _))

def shade (qrCode : QRcode) (row column : Nat) : Color :=
  if Black qrCode row column then .black else .white

theorem shade_black {qrCode : QRcode} {row column : Nat} :
    shade qrCode row column = .black ↔ Black qrCode row column := by
  simp [shade]

theorem lowBit (val : UInt8) : val &&& 1 ≠ 0 ↔ val &&& 1 = 1 := by
  have bit : (val &&& 1).toNat = val.toNat % 2 := by
    rw [UInt8.toNat_and]
    exact Nat.and_one_is_mod val.toNat
  rw [ne_eq, ← UInt8.toNat_inj, ← UInt8.toNat_inj, bit]
  change ¬ _ = 0 ↔ _ = 1
  omega

/-- The column and the row of a box are used as the row and the column of a module. -/
theorem drawModule_run {l : Layout} {qrCode : QRcode}
    (square : qrCode.data.length = qrCode.width * qrCode.width) {x y : Nat}
    (inX : x < qrCode.width) (inY : y < qrCode.width) (surf : Surface) :
    (drawModule l qrCode x y).run surf =
      .ok () ⟨paint (l.box x y) (shade qrCode x y) surf.pixels, surf.boxes ++ [l.box x y]⟩ := by
  have inData : x * qrCode.width + y < qrCode.data.length := square ▸ rowMajor_lt inY inX
  have read := readAt_present (List.getElem?_eq_getElem inData) surf
  have same : qrCode.data.getD (x * qrCode.width + y) 0 = qrCode.data[x * qrCode.width + y] :=
    List.getD_eq_getElem _ _ inData
  have color : (if qrCode.data[x * qrCode.width + y] &&& 1 ≠ 0 then Color.black else .white) =
      shade qrCode x y := by
    simp only [shade, Black, same]
    exact if_congr (lowBit _) rfl rfl
  rw [drawModule, EStateM.run_bind, read]
  simp only [graphicsDrawBox, color]
  rfl

/-- The tiles of a layout. -/
def Layout.grid (l : Layout) (wide : 1 ≤ l.moduleWidth) (tall : 1 ≤ l.moduleHeight) : Grid where
  left := l.offsetX
  top := l.offsetY
  width := l.moduleWidth
  height := l.moduleHeight
  widthPos := Int.natCast_pos.mpr wide
  heightPos := Int.natCast_pos.mpr tall

/-- What a surface holds while the modules of a symbol are drawn. -/
structure Drawn (g : Grid) (qrCode : QRcode) (done : Nat → Nat → Prop) (surf : Surface) : Prop where
  painted : Painted g (shade qrCode) .white done surf.pixels
  boxes : ∀ box ∈ surf.boxes, ∃ x < qrCode.width, ∃ y < qrCode.width, box = g.tile x y

section
variable {l : Layout} {wide : 1 ≤ l.moduleWidth} {tall : 1 ≤ l.moduleHeight} {qrCode : QRcode}

theorem drawModule_drawn (square : qrCode.data.length = qrCode.width * qrCode.width)
    {done later : Nat → Nat → Prop} {surf : Surface}
    (drawn : Drawn (l.grid wide tall) qrCode done surf) {x y : Nat}
    (inX : x < qrCode.width) (inY : y < qrCode.width)
    (more : ∀ column row, later column row ↔ done column row ∨ column = x ∧ row = y) :
    ∃ t, (drawModule l qrCode x y).run surf = .ok () t ∧
      Drawn (l.grid wide tall) qrCode later t := by
  refine ⟨_, drawModule_run square inX inY surf, drawn.painted.paint more, ?_⟩
  intro box member
  cases List.mem_append.mp member with
  | inl earlier => exact drawn.boxes box earlier
  | inr last => exact ⟨x, inX, y, inY, List.mem_singleton.mp last⟩

/-- The inner loop draws a column. -/
theorem drawColumn_drawn (square : qrCode.data.length = qrCode.width * qrCode.width) {x : Nat}
    (inX : x < qrCode.width) {surf : Surface}
    (drawn : Drawn (l.grid wide tall) qrCode (fun column row => column < x ∧ row < qrCode.width) surf) :
    ∃ t, (forLoop (drawModule l qrCode x) qrCode.width).run surf = .ok () t ∧
      Drawn (l.grid wide tall) qrCode (fun column row => column < x + 1 ∧ row < qrCode.width) t := by
  have start : Drawn (l.grid wide tall) qrCode
      (fun column row => column < x ∧ row < qrCode.width ∨ column = x ∧ row < 0) surf :=
    ⟨drawn.painted.congr fun column row => by omega, drawn.boxes⟩
  obtain ⟨t, run, last⟩ := forLoop_run (I := fun y s => Drawn (l.grid wide tall) qrCode
      (fun column row => column < x ∧ row < qrCode.width ∨ column = x ∧ row < y) s) start
    fun y inY s before => drawModule_drawn square before inX inY fun column row => by omega
  exact ⟨t, run, last.painted.congr fun column row => by omega, last.boxes⟩

variable (wide tall) in
theorem drawModules_drawn (square : qrCode.data.length = qrCode.width * qrCode.width) :
    ∃ t, (drawModules l qrCode).run ⟨fun _ _ => .white, []⟩ = .ok () t ∧
      Drawn (l.grid wide tall) qrCode (fun column row => column < qrCode.width ∧ row < qrCode.width) t := by
  have start : Drawn (l.grid wide tall) qrCode (fun column row => column < 0 ∧ row < qrCode.width)
      ⟨fun _ _ => .white, []⟩ :=
    ⟨⟨fun column row done => absurd done.1 (Nat.not_lt_zero column), fun px py _ => rfl⟩,
      fun box member => absurd member List.not_mem_nil⟩
  exact forLoop_run (I := fun x s => Drawn (l.grid wide tall) qrCode
      (fun column row => column < x ∧ row < qrCode.width) s) start
    fun x inX s before => drawColumn_drawn square inX before

end

/-! ## The orientation -/

/-- A surface shows a picture of as many rows as columns: nothing is drawn outside the
    framebuffer, every module has its colour and the rest is white. -/
structure Depicts (display : Display) (l : Layout) (width : Nat) (black : Nat → Nat → Prop)
    (surf : Surface) : Prop where
  inside : ∀ box ∈ surf.boxes, box.Within display.screen
  modules : ∀ row < width, ∀ column < width, ∀ px py, (l.box column row).Contains px py →
    (surf.pixels px py = .black ↔ black row column)
  background : ∀ px py, (∀ row < width, ∀ column < width, ¬ (l.box column row).Contains px py) →
    surf.pixels px py = .white

namespace Depicts

variable {display : Display} {l : Layout} {width : Nat} {black black' : Nat → Nat → Prop}
  {surf : Surface}

theorem congr (h : Depicts display l width black surf)
    (same : ∀ row < width, ∀ column < width, (black row column ↔ black' row column)) :
    Depicts display l width black' surf where
  inside := h.inside
  modules row inRows column inColumns px py inside :=
    (h.modules row inRows column inColumns px py inside).trans (same row inRows column inColumns)
  background := h.background

/-- Every module shows at least the corner of its box. -/
theorem unique (h : Depicts display l width black surf) (h' : Depicts display l width black' surf)
    (wide : 1 ≤ l.moduleWidth) (tall : 1 ≤ l.moduleHeight) :
    ∀ row < width, ∀ column < width, (black row column ↔ black' row column) := by
  intro row inRows column inColumns
  have corner := (l.grid wide tall).tile_corner column row
  have first := h.modules row inRows column inColumns _ _ corner
  have second := h'.modules row inRows column inColumns _ _ corner
  exact first.symm.trans second

end Depicts

/-- A symbol of `width * width` modules that fits on the display. -/
structure Drawable (display : Display) (moduleWidth moduleHeight : Nat) (qrCode : QRcode) : Prop where
  wide : 1 ≤ moduleWidth
  tall : 1 ≤ moduleHeight
  square : qrCode.data.length = qrCode.width * qrCode.width
  left : 0 ≤ offset display.width qrCode.width moduleWidth
  top : 0 ≤ offset display.height qrCode.width moduleHeight

/-- A symbol that passes the two assertions lies on the screen. -/
theorem Drawable.block_within {display : Display} {moduleWidth moduleHeight : Nat} {qrCode : QRcode}
    (drawable : Drawable display moduleWidth moduleHeight qrCode) :
    (((centred display qrCode.width moduleWidth moduleHeight).grid drawable.wide drawable.tall).block
      qrCode.width qrCode.width).Within display.screen := by
  have left := drawable.left
  have top := drawable.top
  have horizontal := offset_within left
  have vertical := offset_within top
  simp only [Rect.Within, Grid.block, Layout.grid, Display.screen, centred]
  omega

/-- The picture is the transposed symbol, in the middle of the display. -/
theorem drawSymbol_centred {display : Display} {moduleWidth moduleHeight : Nat} {qrCode : QRcode}
    (drawable : Drawable display moduleWidth moduleHeight qrCode) (pixels : Int → Int → Color) :
    ∃ surf, (drawSymbol display qrCode.width moduleWidth moduleHeight qrCode).run ⟨pixels, []⟩ =
        .ok (centred display qrCode.width moduleWidth moduleHeight) surf ∧
      Depicts display (centred display qrCode.width moduleWidth moduleHeight) qrCode.width
        (fun row column => Black qrCode column row) surf := by
  obtain ⟨surf, run, drawn⟩ := drawModules_drawn
    (l := centred display qrCode.width moduleWidth moduleHeight) drawable.wide drawable.tall
    drawable.square
  refine ⟨surf, ?_, ?_, ?_, ?_⟩
  · rw [drawSymbol, EStateM.run_bind, layout_run drawable.left drawable.top]
    simp [graphicsFillScreen, run, -bind_pure_comp]
  · intro box member
    obtain ⟨x, inX, y, inY, rfl⟩ := drawn.boxes box member
    exact (Grid.tile_within inX inY).trans drawable.block_within
  · intro row inRows column inColumns px py inside
    rw [drawn.painted.tiles column row ⟨inColumns, inRows⟩ px py inside]
    exact shade_black
  · intro px py apart
    exact drawn.painted.rest px py fun column row done => apart row done.2 column done.1

theorem drawSymbol_transposed {display : Display} {moduleWidth moduleHeight : Nat} {qrCode : QRcode}
    (drawable : Drawable display moduleWidth moduleHeight qrCode) (pixels : Int → Int → Color) :
    ∃ l surf, (drawSymbol display qrCode.width moduleWidth moduleHeight qrCode).run ⟨pixels, []⟩ =
        .ok l surf ∧ 1 ≤ l.moduleWidth ∧ 1 ≤ l.moduleHeight ∧
      Depicts display l qrCode.width (fun row column => Black qrCode column row) surf := by
  obtain ⟨surf, run, depicts⟩ := drawSymbol_centred drawable pixels
  exact ⟨_, surf, run, drawable.wide, drawable.tall, depicts⟩

/-- The assertions are those that a symbol of the given width lies on the display. -/
theorem drawSymbol_passes {display : Display} {qrcodeWidth moduleWidth moduleHeight : Nat}
    {qrCode : QRcode} {before surf : Surface} {l : Layout}
    (run : (drawSymbol display qrcodeWidth moduleWidth moduleHeight qrCode).run before =
      .ok l surf) :
    qrCode.width = qrcodeWidth ∧ 0 ≤ offset display.width qrcodeWidth moduleWidth ∧
      0 ≤ offset display.height qrcodeWidth moduleHeight := by
  by_cases left : 0 ≤ offset display.width qrcodeWidth moduleWidth
  · by_cases top : 0 ≤ offset display.height qrcodeWidth moduleHeight
    · refine ⟨?_, left, top⟩
      by_contra other
      rw [drawSymbol, EStateM.run_bind, layout_run left top] at run
      simp [graphicsFillScreen, other, -bind_pure_comp] at run
    · simp [drawSymbol, layout, left, top, -bind_pure_comp] at run
  · simp [drawSymbol, layout, left, -bind_pure_comp] at run

/-- The symbol is shown in its own orientation when it equals its transpose, and never
    otherwise. -/
theorem upright_iff_symmetric {display : Display} {moduleWidth moduleHeight : Nat} {qrCode : QRcode}
    (drawable : Drawable display moduleWidth moduleHeight qrCode) (pixels : Int → Int → Color) :
    (∃ l surf, (drawSymbol display qrCode.width moduleWidth moduleHeight qrCode).run ⟨pixels, []⟩ =
        .ok l surf ∧ Depicts display l qrCode.width (Black qrCode) surf) ↔
      ∀ row < qrCode.width, ∀ column < qrCode.width,
        (Black qrCode row column ↔ Black qrCode column row) := by
  obtain ⟨l, surf, run, wide, tall, transposed⟩ := drawSymbol_transposed drawable pixels
  constructor
  · intro upright
    obtain ⟨l', surf', run', upright⟩ := upright
    rw [run] at run'
    cases run'
    exact upright.unique transposed wide tall
  · intro symmetric
    refine ⟨l, surf, run, transposed.congr ?_⟩
    intro row inRows column inColumns
    exact symmetric column inColumns row inRows

/-- A symbol on the diagonal is the same both ways. -/
theorem diagonal_upright : Drawable ⟨8, 9⟩ 2 1 ⟨2, [1, 0, 0, 1]⟩ ∧
    ∃ l surf, (drawSymbol ⟨8, 9⟩ 2 2 1 ⟨2, [1, 0, 0, 1]⟩).run ⟨fun _ _ => .black, []⟩ = .ok l surf ∧
      Depicts ⟨8, 9⟩ l 2 (Black ⟨2, [1, 0, 0, 1]⟩) surf := by
  have left : offset 8 2 2 = 2 := offset_fits (by decide)
  have top : offset 9 2 1 = 4 := offset_fits (by decide)
  have drawable : Drawable ⟨8, 9⟩ 2 1 ⟨2, [1, 0, 0, 1]⟩ :=
    ⟨by decide, by decide, rfl, by simp only [left]; decide, by simp only [top]; decide⟩
  exact ⟨drawable, (upright_iff_symmetric drawable fun _ _ => .black).mpr (by decide)⟩

/-- The framebuffer of the console. -/
def consoleDisplay : Display := ⟨640, 240⟩

/-- A symbol of version 24 with one black module: the lowest bit of the format
    information next to the upper left finder pattern, in row 0 and column 8. -/
def formatBit : QRcode where
  width := 113
  data := (List.range (113 * 113)).map fun i => if i = 8 then 1 else 0

theorem formatBit_black (row column : Nat) (inside : row * 113 + column < 113 * 113) :
    Black formatBit row column ↔ row * 113 + column = 8 := by
  have module : formatBit.data.getD (row * 113 + column) 0 =
      if row * 113 + column = 8 then 1 else 0 := by
    rw [formatBit, List.getD_eq_getElem?_getD, List.getElem?_map, List.getElem?_range inside]
    rfl
  simp only [Black]
  rw [show formatBit.width = 113 from rfl, module]
  split <;> simp_all

theorem formatBit_drawable : Drawable consoleDisplay 4 2 formatBit where
  wide := by decide
  tall := by decide
  square := by rw [formatBit, List.length_map, List.length_range]
  left := by
    have fits : 113 * 4 ≤ 640 := by decide
    rw [show offset consoleDisplay.width formatBit.width 4 = _ from offset_fits fits]
    decide
  top := by
    have fits : 113 * 2 ≤ 240 := by decide
    rw [show offset consoleDisplay.height formatBit.width 2 = _ from offset_fits fits]
    decide

/-- Every symbol of the active configuration fits on the display of the console. -/
theorem active_drawable {symbol : QRcode} (width : symbol.width = 113)
    (square : symbol.data.length = symbol.width * symbol.width) :
    Drawable consoleDisplay 4 2 symbol := by
  have same : symbol.width = formatBit.width := width
  exact { formatBit_drawable with
    square := square
    left := same ▸ formatBit_drawable.left
    top := same ▸ formatBit_drawable.top }

/-- The module in row 0 and column 8 of the symbol is drawn in row 8 and column 0. -/
theorem formatBit_not_upright :
    Drawable consoleDisplay 4 2 formatBit ∧
      ¬ ∃ l surf, (drawSymbol consoleDisplay formatBit.width 4 2 formatBit).run
          ⟨fun _ _ => .black, []⟩ = .ok l surf ∧
        Depicts consoleDisplay l formatBit.width (Black formatBit) surf := by
  obtain ⟨l, surf, run, wide, tall, transposed⟩ :=
    drawSymbol_transposed formatBit_drawable fun _ _ => .black
  refine ⟨formatBit_drawable, ?_⟩
  rintro ⟨l', surf', run', upright⟩
  rw [run] at run'
  cases run'
  have same := upright.unique transposed wide tall 0 (by decide) 8 (by decide)
  rw [formatBit_black 0 8 (by decide), formatBit_black 8 0 (by decide)] at same
  omega

/-! ## The symbols of a run -/

section
variable {cfg : Config} {s : Dump}

/-- The symbols shown so far have the configured width. -/
def Sized (cfg : Config) (s : Dump) : Prop :=
  ∀ romOffset qrdata symbol, .frame romOffset qrdata (some symbol) ∈ s.shown →
    symbol.width = cfg.qrcodeWidth

theorem sized_showFrame (input : Input) (nonneg : 0 ≤ s.romOffset.toInt) (sized : Sized cfg s) :
    Sized cfg (after (showFrame cfg input) s) := by
  cases showFrame_run cfg input nonneg with
  | overflows far run =>
      rw [after_error run]
      exact sized
  | mismatch near disagree run =>
      rw [after_error run]
      exact sized
  | shows near agree run =>
      rw [after_ok run]
      intro romOffset qrdata symbol shown
      cases List.mem_append.mp shown with
      | inl earlier => exact sized romOffset qrdata symbol earlier
      | inr last =>
          have frame := List.mem_singleton.mp last
          injection frame with _ _ drawn
          exact agree symbol drawn.symm

theorem sized_iteration (input : Input) (nonneg : 0 ≤ s.romOffset.toInt) (sized : Sized cfg s) :
    Sized cfg (after (iteration cfg input) s) := by
  cases iteration_run cfg input nonneg with
  | toggles a run =>
      rw [after_ok run]
      intro romOffset qrdata symbol shown
      simp only [List.mem_append, List.mem_singleton, reduceCtorEq, or_false] at shown
      exact sized romOffset qrdata symbol shown
  | stops t a far low shown run =>
      rw [after_error run, Sized, shown]
      exact sized
  | console o a console value run =>
      rw [after_ok run]
      exact sized
  | frame o a hidden value run =>
      rw [after_congr run]
      exact sized_showFrame input (value ▸ target_nonneg input.keysDown nonneg) sized

/-- Every symbol a run of the active configuration shows fits on the display of the console. -/
theorem shown_drawable {counter : UInt8} {inputs : List Input}
    (run : Reaches (iteration activeConfig) (mainDumping counter) inputs s) {romOffset : Int32}
    {qrdata : List UInt8} {symbol : QRcode}
    (shown : .frame romOffset qrdata (some symbol) ∈ s.shown)
    (square : symbol.data.length = symbol.width * symbol.width) :
    Drawable consoleDisplay 4 2 symbol := by
  have kept := run.invariant (I := fun s => 0 ≤ s.romOffset.toInt ∧ Sized activeConfig s)
    ⟨Int.le_refl 0, fun _ _ _ none => absurd none List.not_mem_nil⟩ fun t input u before step =>
      ⟨after_ok step ▸ (iteration_adds input before.1).1,
        after_ok step ▸ sized_iteration input before.1 before.2⟩
  exact active_drawable (kept.2 romOffset qrdata symbol shown) square

end

end AssistedDump.Picture
