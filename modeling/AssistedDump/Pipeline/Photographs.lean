import AssistedDump.Pipeline.AutoDump
import AssistedDump.Pipeline.EndToEnd
import AssistedDump.Pipeline.ShownSymbols
import AssistedDump.Qrencode.BlackAndWhite

/-! # From the cartridge to the rom store, through pictures

The encoder is the one of qrencode.c, whose memory may run out, and what a camera gets
to see are the pictures `main_dumping` draws, in which every symbol is mirrored. The
camera and zbar stay parameters. All that is asked of them is that a mirrored symbol,
where it is the only one found, is read like the symbol itself.
-/

namespace AssistedDump.Photographs

open CSemantics Machine RomStore ImageDecoder DumpLoop Dispatch FrameFormat EndToEnd ShownSymbols
open Picture (Surface Display Color Depicts Black drawSymbol centred consoleDisplay)

/-- The data the decoder of tests/decoder.c finds in a symbol. -/
def read (symbol : QRcode) : List (List UInt8) :=
  ((Decoder.decode symbol).bind (·.data)).toList

/-- A screen, the photographs a camera may take of it, and what zbar finds in them. -/
structure Setup (Image : Type) where
  display : Display
  moduleWidth : Nat
  moduleHeight : Nat
  wide : 1 ≤ moduleWidth
  tall : 1 ≤ moduleHeight
  photo : Surface → Image → Prop
  zbar : Image → List (List UInt8)

variable {Image : Type} {n : MaxRomSize}

section Runs

variable (setup : Setup Image) (cfg : Config) (rom : Nat → UInt8)

/-- `main_dumping` draws the symbol, whatever the surface had on it before. -/
def Setup.Screen (symbol : QRcode) (surf : Surface) : Prop :=
  ∃ pixels l, (drawSymbol setup.display cfg.qrcodeWidth setup.moduleWidth setup.moduleHeight
    symbol).run ⟨pixels, []⟩ = .ok l surf

end Runs

variable {setup : Setup Image} {cfg : Config} {rom : Nat → UInt8}

/-- A screen has the mirror image of its symbol. -/
theorem Setup.Screen.depicts {symbol : QRcode} {surf : Surface}
    (screen : setup.Screen cfg symbol surf)
    (square : symbol.data.length = symbol.width * symbol.width) :
    Depicts setup.display
      (centred setup.display cfg.qrcodeWidth setup.moduleWidth setup.moduleHeight)
      cfg.qrcodeWidth (fun row column => Black symbol column row) surf := by
  obtain ⟨pixels, l, run⟩ := screen
  obtain ⟨width, left, top⟩ := Picture.drawSymbol_passes run
  rw [← width] at run left top ⊢
  obtain ⟨surf', run', depicts⟩ :=
    Picture.drawSymbol_centred ⟨setup.wide, setup.tall, square, left, top⟩ pixels
  rw [run] at run'
  cases run'
  exact depicts

/-- A camera that keeps what is on the screen of the console. -/
def kept (find : Surface → List (List UInt8)) : Setup (Option Surface) where
  display := consoleDisplay
  moduleWidth := 4
  moduleHeight := 2
  wide := by decide
  tall := by decide
  photo surf image := image = some surf
  -- `find` stays a variable here: unfolded, it would be evaluated to see that an image is read
  zbar image := image.elim [] find

/-- What the console keeps in a run. -/
structure Made (cfg : Config) (s : System Image n) : Prop where
  nonneg : 0 ≤ s.console.romOffset.toInt
  allMade : AllMade cfg Calls s.console

open AutoDump (captured Complete)

/-- The symbols of the frames shown, in order. -/
def symbols (shown : List Shown) : List QRcode :=
  shown.filterMap fun
    | .frame _ _ drawn => drawn
    | .black => none

/-- Nothing is pressed, and the encoder of qrencode.c is called with enough memory. -/
structure Alone (input : Input) : Prop where
  unpressed : input.keysDown = ⟨false, false, false, false⟩
  fed : input.qrcodeEncodeData = encoder true

theorem Alone.plain {input : Input} (alone : Alone input) (h : Synced cfg) : Plain cfg input where
  unpressed := alone.unpressed
  encodes s := by
    obtain ⟨symbol, drawn, carries⟩ := h.symbolOf_carries alone.fed s
    exact ⟨symbol, drawn, carries.width⟩

theorem Alone.carries {input : Input} (alone : Alone input) {counter : UInt8} {k : Nat} {s : Dump}
    (run : Reaches (iteration activeConfig) (start false true counter) (List.replicate k input) s) :
    ∀ romOffset qrdata symbol, .frame romOffset qrdata (some symbol) ∈ s.shown →
      Carries activeConfig symbol qrdata := by
  have calls : ∀ other ∈ List.replicate k input, Calls other := by
    intro other among
    exact List.eq_of_mem_replicate among ▸ ⟨true, alone.fed⟩
  have made := allMade_run (show 0 ≤ (start false true counter).romOffset.toInt from Int.le_refl 0)
    (allMade_start activeConfig _ false true counter) run
  exact fun romOffset qrdata symbol => made.carries active_synced calls

end AssistedDump.Photographs
