import AssistedDump.General.ByteOrder
import AssistedDump.General.CSemantics
import AssistedDump.General.Machine
import Mathlib.Tactic.Positivity
import Mathlib.Tactic.Ring

/-! # The dump loop of main.c

One `Input` is what an iteration of the loop in `main_dumping` reads from
outside: the buttons that went down, the bytes the cartridge bus answers and what
`QRcode_encodeData` returns. The state is the local variables the loop keeps,
beside the DMA reads it has made and the surfaces it has passed to
`display_show`, both in order. What is printed and the time it waits are left out.
-/

namespace AssistedDump.DumpLoop

open CSemantics Machine ByteOrder

inductive QRecLevel where
  | l
  | m
  | q
  | h
  deriving Repr, DecidableEq

structure QRcode where
  width : Nat
  data : List UInt8
  deriving Repr, DecidableEq

/-- The constants at the top of `main_dumping` that must be kept in sync. A QR code
    holds at most 2953 bytes and a frame needs 8 rom bytes beside its header. -/
structure Config where
  qrcodeVersion : Nat
  qrcodeWidth : Nat
  qrcodeMaxBytes : Nat
  qrcodeEccLevel : QRecLevel
  enough : 13 ≤ qrcodeMaxBytes
  capacity : qrcodeMaxBytes ≤ 2953

/-- The configuration between `#if 1` and `#endif`. -/
def activeConfig : Config where
  qrcodeVersion := 24
  qrcodeWidth := 113
  qrcodeMaxBytes := 511
  qrcodeEccLevel := .h
  enough := by decide
  capacity := by decide

def nHeaderBytesPerFrame : Nat := 5

def Config.nrombytesPerFrame (cfg : Config) : Nat :=
  (cfg.qrcodeMaxBytes - nHeaderBytesPerFrame) / 2 * 2

/-- The buttons of the first controller that are down now and were not before. -/
structure Keys where
  a : Bool
  b : Bool
  up : Bool
  down : Bool
  deriving Repr, DecidableEq

structure Input where
  keysDown : Keys
  /-- The byte the bus answers at an address. -/
  bus : Nat → UInt8
  qrcodeEncodeData : List UInt8 → Nat → QRecLevel → Option QRcode

structure DmaRead where
  piAddress : UInt32
  len : Nat
  deriving Repr, DecidableEq

/-- A surface passed to `display_show`. A frame is white, with a symbol drawn on it if
    there is one; the offset and the data it was made from are kept beside it. -/
inductive Shown where
  | black
  | frame (romOffset : Int32) (qrdata : List UInt8) (symbol : Option QRcode)
  deriving Repr, DecidableEq

structure Dump where
  showConsole : Bool
  autoAdvance : Bool
  romOffset : Int32
  counter : UInt8
  dmaReads : List DmaRead
  shown : List Shown
  deriving Repr, DecidableEq

/-- The state in front of the loop. `counter` is static, so it may have any value. -/
def start (showConsole autoAdvance : Bool) (counter : UInt8) : Dump where
  showConsole := showConsole
  autoAdvance := autoAdvance
  romOffset := 0
  counter := counter
  dmaReads := []
  shown := []

def mainDumping (counter : UInt8) : Dump := start true false counter

def pressA : C Dump Unit :=
  modify fun s => { s with showConsole := !s.showConsole, shown := s.shown ++ [.black] }

def pressB : C Dump Unit :=
  modify fun s => { s with autoAdvance := !s.autoAdvance }

def pressUp : C Dump Unit := do
  let romOffset ← addInt (← get).romOffset (-4)
  modify fun s => { s with romOffset := if romOffset < 0 then 0 else romOffset }

def pressDown : C Dump Unit := do
  let romOffset ← addInt (← get).romOffset 4
  modify fun s => { s with romOffset := romOffset }

/-- The buttons B, Up and Down, in the order the loop looks at them. -/
def press (keysDown : Keys) : C Dump Unit := do
  if keysDown.b then pressB
  if keysDown.up then pressUp
  if keysDown.down then pressDown

/-- What `dma_read_async` puts into `rombuf`. -/
def dmaRead (bus : Nat → UInt8) (piAddress : UInt32) (len : Nat) : List UInt8 :=
  (List.range len).map fun i => bus (piAddress.toNat + i)

/-- The five bytes in front of the rom bytes. -/
def header (counter : UInt8) (romOffset : Int32) : List UInt8 :=
  [counter,
    ((romOffset >>> 24) &&& 0xFF).toUInt32.toUInt8,
    ((romOffset >>> 16) &&& 0xFF).toUInt32.toUInt8,
    ((romOffset >>> 8) &&& 0xFF).toUInt32.toUInt8,
    ((romOffset >>> 0) &&& 0xFF).toUInt32.toUInt8]

variable (cfg : Config)

/-- `rom_offset += nrombytes_per_frame` while `auto_advance` is on. -/
def advance : C Dump Unit := do
  if (← get).autoAdvance then
    let romOffset ← addInt (← get).romOffset (Int32.ofNat cfg.nrombytesPerFrame)
    modify fun s => { s with romOffset := romOffset }

/-- The branch of the loop that shows a frame. A failing encoder switches back to the
    console, and the iteration goes on to its common end. -/
def showFrame (input : Input) : C Dump Unit := do
  let romOffset := (← get).romOffset
  let piAddress ← addInt 0x10000000 romOffset
  modify fun s => { s with
    dmaReads := s.dmaReads ++ [⟨piAddress.toUInt32, cfg.nrombytesPerFrame⟩] }
  assert "nrombytes_per_frame >= 8" (cfg.nrombytesPerFrame ≥ 8)
  let rombuf := dmaRead input.bus piAddress.toUInt32 cfg.nrombytesPerFrame
  let qrdata := header (← get).counter romOffset ++ rombuf
  modify fun s => { s with counter := s.counter + 1 }
  let qrCode := input.qrcodeEncodeData qrdata cfg.qrcodeVersion cfg.qrcodeEccLevel
  match qrCode with
  | none => modify fun s => { s with showConsole := true }
  | some symbol => assert "qr_code->width == qrcode_width" (symbol.width = cfg.qrcodeWidth)
  modify fun s => { s with shown := s.shown ++ [.frame romOffset qrdata qrCode] }
  advance cfg

/-- One iteration of the loop in `main_dumping`. -/
def iteration (input : Input) : C Dump Unit := do
  if input.keysDown.a then
    pressA
  else
    press input.keysDown
    unless (← get).showConsole do
      showFrame cfg input

/-! ## The frame -/

namespace Config

/-- The rom bytes of a frame are at least 8, even in number, and fit beside the header. -/
theorem frame_fits : 8 ≤ cfg.nrombytesPerFrame ∧ cfg.nrombytesPerFrame % 2 = 0 ∧
    nHeaderBytesPerFrame + cfg.nrombytesPerFrame ≤ cfg.qrcodeMaxBytes := by
  have := cfg.enough
  simp only [nrombytesPerFrame, nHeaderBytesPerFrame]
  omega

theorem frame_small : cfg.nrombytesPerFrame ≤ 2948 := by
  have := cfg.frame_fits
  have := cfg.capacity
  simp only [nHeaderBytesPerFrame] at *
  omega

theorem frame_pos : (0 : Int) < cfg.nrombytesPerFrame := by
  have := cfg.frame_fits.1
  omega

theorem nrombytesPerFrame_toInt : (Int32.ofNat cfg.nrombytesPerFrame).toInt = cfg.nrombytesPerFrame :=
  Int32.toInt_ofNat_of_lt (by have := cfg.frame_small; omega)

end Config

theorem header_eq (counter : UInt8) (romOffset : Int32) :
    header counter romOffset = counter :: bytesBE romOffset.toUInt32 :=
  congrArg (List.cons counter) (masked_bytesBE romOffset)

/-- The data of a frame. -/
def payload (bus : Nat → UInt8) (counter : UInt8) (romOffset : Int32) : List UInt8 :=
  header counter romOffset ++
    dmaRead bus (0x10000000 + romOffset).toUInt32 cfg.nrombytesPerFrame

theorem payload_length (bus : Nat → UInt8) (counter : UInt8) (romOffset : Int32) :
    (payload cfg bus counter romOffset).length = 5 + cfg.nrombytesPerFrame := by
  simp only [payload, header, dmaRead, List.length_append, List.length_cons, List.length_nil,
    List.length_map, List.length_range]

/-- What the encoder returns for the frame of a state. -/
def symbolOf (input : Input) (s : Dump) : Option QRcode :=
  input.qrcodeEncodeData (payload cfg input.bus s.counter s.romOffset) cfg.qrcodeVersion
    cfg.qrcodeEccLevel

/-- The state of an iteration after its DMA read and the use of its counter. -/
def readOut (s : Dump) : Dump :=
  { s with
    dmaReads := s.dmaReads ++ [⟨(0x10000000 + s.romOffset).toUInt32, cfg.nrombytesPerFrame⟩]
    counter := s.counter + 1 }

/-- The state of an iteration after `display_show`. -/
def framed (input : Input) (s : Dump) : Dump :=
  { readOut cfg s with
    showConsole := s.showConsole || (symbolOf cfg input s).isNone
    shown := s.shown ++
      [.frame s.romOffset (payload cfg input.bus s.counter s.romOffset) (symbolOf cfg input s)] }

def advanced (s : Dump) : Dump :=
  { s with
    romOffset :=
      if s.autoAdvance then s.romOffset + Int32.ofNat cfg.nrombytesPerFrame else s.romOffset }

variable {cfg}

theorem dmaAddress_toInt : (0x10000000 : Int32).toInt = 0x10000000 := by decide

theorem advance_fits {s : Dump} (nonneg : 0 ≤ s.romOffset.toInt)
    (room : s.romOffset.toInt + cfg.nrombytesPerFrame < 2 ^ 31) :
    (advance cfg).run s = .ok () (advanced cfg s) ∧
      (advanced cfg s).romOffset.toInt =
        if s.autoAdvance then s.romOffset.toInt + cfg.nrombytesPerFrame else s.romOffset.toInt := by
  have length := cfg.nrombytesPerFrame_toInt
  obtain ⟨sum, value⟩ := addInt_fits (a := s.romOffset) (b := Int32.ofNat cfg.nrombytesPerFrame)
    (by omega) (by omega) s
  by_cases auto : s.autoAdvance
  · simp [advance, advanced, auto, sum, value, length]
  · refine ⟨?_, by simp only [advanced, if_neg auto]⟩
    simp only [advance, advanced, EStateM.run_bind, EStateM.run_get, if_neg auto, EStateM.run_pure]

/-- An address that is not an `int` stops the iteration before the DMA read. -/
theorem showFrame_overflows {input : Input} {s : Dump}
    (far : 2 ^ 31 ≤ 0x10000000 + s.romOffset.toInt) :
    (showFrame cfg input).run s = .error .signedOverflow s := by
  have sum := addInt_overflows (a := 0x10000000) (b := s.romOffset)
    (by rw [dmaAddress_toInt]; exact far) s
  simp [showFrame, sum]

/-- A symbol of another width stops the iteration before its surface is shown. -/
theorem showFrame_mismatch {input : Input} {s : Dump} {symbol : QRcode}
    (nonneg : 0 ≤ s.romOffset.toInt) (near : 0x10000000 + s.romOffset.toInt < 2 ^ 31)
    (drawn : symbolOf cfg input s = some symbol) (other : symbol.width ≠ cfg.qrcodeWidth) :
    (showFrame cfg input).run s =
      .error (.assertion "qr_code->width == qrcode_width") (readOut cfg s) := by
  have sum := (addInt_fits (a := 0x10000000) (b := s.romOffset)
    (by rw [dmaAddress_toInt]; omega) (by rw [dmaAddress_toInt]; exact near) s).1
  have eight := cfg.frame_fits.1
  simp only [symbolOf, payload] at drawn
  simp [showFrame, sum, eight, drawn, other, readOut, -Int32.toUInt32_add]

/-- Otherwise the surface is shown and the iteration comes to its common end. -/
theorem showFrame_shows {input : Input} {s : Dump}
    (nonneg : 0 ≤ s.romOffset.toInt) (near : 0x10000000 + s.romOffset.toInt < 2 ^ 31)
    (agree : ∀ symbol ∈ symbolOf cfg input s, symbol.width = cfg.qrcodeWidth) :
    (showFrame cfg input).run s = .ok () (advanced cfg (framed cfg input s)) := by
  have sum := (addInt_fits (a := 0x10000000) (b := s.romOffset)
    (by rw [dmaAddress_toInt]; omega) (by rw [dmaAddress_toInt]; exact near) s).1
  have eight := cfg.frame_fits.1
  have small := cfg.frame_small
  have last : (showFrame cfg input).run s = (advance cfg).run (framed cfg input s) := by
    cases drawn : symbolOf cfg input s with
    | none =>
        simp only [framed, drawn]
        simp only [symbolOf, payload] at drawn
        simp [showFrame, sum, eight, drawn, readOut, payload, -Int32.toUInt32_add]
    | some symbol =>
        have width := agree symbol drawn
        simp only [framed, drawn]
        simp only [symbolOf, payload] at drawn
        simp [showFrame, sum, eight, drawn, width, readOut, payload, -Int32.toUInt32_add]
  rw [last]
  have room : s.romOffset.toInt + cfg.nrombytesPerFrame < 2 ^ 31 := by omega
  exact (advance_fits (s := framed cfg input s) nonneg room).1

/-- How showing a frame ends: the address of its read is no `int`, the symbol has another
    width, or the surface is shown. -/
inductive ShowFrameRun (cfg : Config) (input : Input) (s : Dump) : Prop where
  | overflows : 2 ^ 31 ≤ 0x10000000 + s.romOffset.toInt →
      (showFrame cfg input).run s = .error .signedOverflow s → ShowFrameRun cfg input s
  | mismatch : 0x10000000 + s.romOffset.toInt < 2 ^ 31 →
      (¬ ∀ symbol ∈ symbolOf cfg input s, symbol.width = cfg.qrcodeWidth) →
      (showFrame cfg input).run s =
        .error (.assertion "qr_code->width == qrcode_width") (readOut cfg s) →
      ShowFrameRun cfg input s
  | shows : 0x10000000 + s.romOffset.toInt < 2 ^ 31 →
      (∀ symbol ∈ symbolOf cfg input s, symbol.width = cfg.qrcodeWidth) →
      (showFrame cfg input).run s = .ok () (advanced cfg (framed cfg input s)) →
      ShowFrameRun cfg input s

theorem showFrame_run (cfg : Config) (input : Input) {s : Dump} (nonneg : 0 ≤ s.romOffset.toInt) :
    ShowFrameRun cfg input s := by
  by_cases near : 0x10000000 + s.romOffset.toInt < 2 ^ 31
  · by_cases agree : ∀ symbol ∈ symbolOf cfg input s, symbol.width = cfg.qrcodeWidth
    · exact .shows near agree (showFrame_shows nonneg near agree)
    · obtain ⟨symbol, drawn, other⟩ : ∃ symbol ∈ symbolOf cfg input s,
          symbol.width ≠ cfg.qrcodeWidth := by
        simpa only [not_forall, exists_prop] using agree
      exact .mismatch near agree (showFrame_mismatch nonneg near drawn other)
  · have far := Int.not_lt.mp near
    exact .overflows far (showFrame_overflows far)

/-! ## The buttons -/

/-- Where Up and Down move an offset, as exact integers. -/
def Keys.target (keysDown : Keys) (romOffset : Int) : Int :=
  let moved := if keysDown.up then max (romOffset - 4) 0 else romOffset
  if keysDown.down then moved + 4 else moved

/-- The state the buttons B, Up and Down lead to. -/
def pressed (keysDown : Keys) (o : Int32) (s : Dump) : Dump :=
  { s with autoAdvance := s.autoAdvance ^^ keysDown.b, romOffset := o }

theorem pressB_run (s : Dump) : (pressB).run s = .ok () { s with autoAdvance := !s.autoAdvance } := rfl

theorem pressUp_run {s : Dump} (nonneg : 0 ≤ s.romOffset.toInt) :
    ∃ o : Int32, o.toInt = max (s.romOffset.toInt - 4) 0 ∧
      pressUp.run s = .ok () { s with romOffset := o } := by
  have four : (-4 : Int32).toInt = -4 := by decide
  have := int_range s.romOffset
  obtain ⟨sum, value⟩ := addInt_fits (a := s.romOffset) (b := -4)
    (by rw [four]; omega) (by rw [four]; omega) s
  rw [four] at value
  refine ⟨if s.romOffset + -4 < 0 then 0 else s.romOffset + -4, ?_, by simp [pressUp, sum]⟩
  by_cases negative : s.romOffset + -4 < 0
  · rw [if_pos negative]
    rw [Int32.lt_iff_toInt_lt, value, Int32.toInt_zero] at negative
    rw [Int32.toInt_zero]
    omega
  · rw [if_neg negative, value]
    rw [Int32.lt_iff_toInt_lt, value, Int32.toInt_zero] at negative
    omega

theorem pressDown_run {s : Dump} (nonneg : 0 ≤ s.romOffset.toInt)
    (room : s.romOffset.toInt + 4 < 2 ^ 31) :
    ∃ o : Int32, o.toInt = s.romOffset.toInt + 4 ∧
      pressDown.run s = .ok () { s with romOffset := o } := by
  have four : (4 : Int32).toInt = 4 := by decide
  obtain ⟨sum, value⟩ := addInt_fits (a := s.romOffset) (b := 4)
    (by rw [four]; omega) (by rw [four]; omega) s
  rw [four] at value
  exact ⟨s.romOffset + 4, value, by simp [pressDown, sum]⟩

theorem pressDown_overflows {s : Dump} (far : 2 ^ 31 ≤ s.romOffset.toInt + 4) :
    pressDown.run s = .error .signedOverflow s := by
  have four : (4 : Int32).toInt = 4 := by decide
  have sum := addInt_overflows (a := s.romOffset) (b := 4) (by rw [four]; omega) s
  simp [pressDown, sum]

/-- The part of `press` before Down never fails. -/
theorem pressBUp_run (keysDown : Keys) {s : Dump} (nonneg : 0 ≤ s.romOffset.toInt) :
    ∃ o : Int32, o.toInt = (if keysDown.up then max (s.romOffset.toInt - 4) 0 else s.romOffset.toInt) ∧
      (press keysDown).run s =
        (if keysDown.down then pressDown else pure ()).run (pressed keysDown o s) := by
  obtain ⟨o, value, up⟩ := pressUp_run (s := { s with autoAdvance := s.autoAdvance ^^ keysDown.b }) nonneg
  by_cases moved : keysDown.up
  · refine ⟨o, by rw [if_pos moved, value], ?_⟩
    cases b : keysDown.b <;> simp [press, pressed, b, moved, pressB_run] <;> simp [b] at up <;> simp [up]
  · refine ⟨s.romOffset, by rw [if_neg moved], ?_⟩
    cases b : keysDown.b <;> simp [press, pressed, b, moved, pressB_run]

theorem press_fits {keysDown : Keys} {s : Dump} (nonneg : 0 ≤ s.romOffset.toInt)
    (room : keysDown.target s.romOffset.toInt < 2 ^ 31) :
    ∃ o : Int32, o.toInt = keysDown.target s.romOffset.toInt ∧
      (press keysDown).run s = .ok () (pressed keysDown o s) := by
  obtain ⟨o, value, run⟩ := pressBUp_run keysDown nonneg
  simp only [Keys.target] at room ⊢
  rw [← value] at room ⊢
  by_cases moved : keysDown.down
  · rw [if_pos moved] at room run ⊢
    obtain ⟨o', value', down⟩ := pressDown_run (s := pressed keysDown o s)
      (show 0 ≤ o.toInt by split at value <;> omega) room
    exact ⟨o', value', run.trans down⟩
  · rw [if_neg moved] at run ⊢
    exact ⟨o, rfl, run⟩

theorem press_overflows {keysDown : Keys} {s : Dump} (nonneg : 0 ≤ s.romOffset.toInt)
    (far : 2 ^ 31 ≤ keysDown.target s.romOffset.toInt) :
    ∃ t, (press keysDown).run s = .error .signedOverflow t ∧ 0 ≤ t.romOffset.toInt ∧
      t.shown = s.shown := by
  obtain ⟨o, value, run⟩ := pressBUp_run keysDown nonneg
  simp only [Keys.target] at far
  rw [← value] at far
  by_cases moved : keysDown.down
  · rw [if_pos moved] at far run
    refine ⟨_, run.trans (pressDown_overflows far), ?_, rfl⟩
    change 0 ≤ o.toInt
    omega
  · rw [if_neg moved] at far
    have := (int_range o).2
    omega

/-! ## The iteration -/

theorem iteration_a {input : Input} (a : input.keysDown.a) (s : Dump) :
    (iteration cfg input).run s =
      .ok () { s with showConsole := !s.showConsole, shown := s.shown ++ [.black] } := by
  simp [iteration, a, pressA]

theorem iteration_stops {input : Input} (a : ¬ input.keysDown.a) {s t : Dump} {fault : Fault}
    (run : (press input.keysDown).run s = .error fault t) :
    (iteration cfg input).run s = .error fault t := by
  simp [iteration, a, run]

theorem iteration_console {input : Input} (a : ¬ input.keysDown.a) {s t : Dump}
    (run : (press input.keysDown).run s = .ok () t) (console : t.showConsole) :
    (iteration cfg input).run s = .ok () t := by
  simp [iteration, a, run, console]

theorem iteration_hidden {input : Input} (a : ¬ input.keysDown.a) {s t : Dump}
    (run : (press input.keysDown).run s = .ok () t) (hidden : ¬ t.showConsole) :
    (iteration cfg input).run s = (showFrame cfg input).run t := by
  simp [iteration, a, run, hidden]

theorem target_nonneg (keysDown : Keys) {o : Int} (nonneg : 0 ≤ o) : 0 ≤ keysDown.target o := by
  simp only [Keys.target]
  split <;> split <;> omega

/-- How an iteration runs: A switches between the console and the frames, a sum of the
    buttons is no `int`, the console is rendered, or a frame is shown. -/
inductive IterationRun (cfg : Config) (input : Input) (s : Dump) : Prop where
  | toggles : input.keysDown.a = true →
      (iteration cfg input).run s =
        .ok () { s with showConsole := !s.showConsole, shown := s.shown ++ [.black] } →
      IterationRun cfg input s
  | stops (t : Dump) : input.keysDown.a = false →
      2 ^ 31 ≤ input.keysDown.target s.romOffset.toInt → 0 ≤ t.romOffset.toInt →
      t.shown = s.shown → (iteration cfg input).run s = .error .signedOverflow t →
      IterationRun cfg input s
  | console (o : Int32) : input.keysDown.a = false → s.showConsole = true →
      o.toInt = input.keysDown.target s.romOffset.toInt →
      (iteration cfg input).run s = .ok () (pressed input.keysDown o s) →
      IterationRun cfg input s
  | frame (o : Int32) : input.keysDown.a = false → s.showConsole = false →
      o.toInt = input.keysDown.target s.romOffset.toInt →
      (iteration cfg input).run s = (showFrame cfg input).run (pressed input.keysDown o s) →
      IterationRun cfg input s

theorem iteration_run (cfg : Config) (input : Input) {s : Dump} (nonneg : 0 ≤ s.romOffset.toInt) :
    IterationRun cfg input s := by
  cases a : input.keysDown.a with
  | true => exact .toggles a (iteration_a a s)
  | false =>
      have unpressed : ¬ input.keysDown.a := by simp [a]
      by_cases room : input.keysDown.target s.romOffset.toInt < 2 ^ 31
      · obtain ⟨o, value, run⟩ := press_fits nonneg room
        cases console : s.showConsole with
        | true => exact .console o a console value (iteration_console unpressed run console)
        | false => exact .frame o a console value (iteration_hidden unpressed run (by simp [pressed, console]))
      · have far := Int.not_lt.mp room
        obtain ⟨t, overflow, low, shown⟩ := press_overflows nonneg far
        exact .stops t a far low shown (iteration_stops unpressed overflow)

/-- What an iteration adds to the surfaces: nothing, a black one, or the frame of the
    state its buttons lead to. -/
def Adds (cfg : Config) (input : Input) (shown added : List Shown) : Prop :=
  added = shown ∨ added = shown ++ [.black] ∨
    ∃ u : Dump, 0 ≤ u.romOffset.toInt ∧ 0x10000000 + u.romOffset.toInt < 2 ^ 31 ∧
      added = shown ++ [.frame u.romOffset (payload cfg input.bus u.counter u.romOffset)
        (symbolOf cfg input u)]

theorem showFrame_adds (input : Input) {s : Dump} (nonneg : 0 ≤ s.romOffset.toInt) :
    0 ≤ (after (showFrame cfg input) s).romOffset.toInt ∧
      Adds cfg input s.shown (after (showFrame cfg input) s).shown := by
  cases showFrame_run cfg input nonneg with
  | overflows far run =>
      rw [after_error run]
      exact ⟨nonneg, .inl rfl⟩
  | mismatch near disagree run =>
      rw [after_error run]
      exact ⟨nonneg, .inl rfl⟩
  | shows near agree run =>
      have small := cfg.frame_small
      have room : s.romOffset.toInt + cfg.nrombytesPerFrame < 2 ^ 31 := by omega
      have offset := (advance_fits (s := framed cfg input s) nonneg room).2
      have before : (framed cfg input s).romOffset.toInt = s.romOffset.toInt := rfl
      rw [after_ok run]
      refine ⟨?_, .inr (.inr ⟨s, nonneg, near, rfl⟩)⟩
      rw [offset]
      split <;> omega

/-- The offset never gets negative, and every frame shown is the one read at its offset. -/
theorem iteration_adds (input : Input) {s : Dump} (nonneg : 0 ≤ s.romOffset.toInt) :
    0 ≤ (after (iteration cfg input) s).romOffset.toInt ∧
      Adds cfg input s.shown (after (iteration cfg input) s).shown := by
  have moved := target_nonneg input.keysDown nonneg
  cases iteration_run cfg input nonneg with
  | toggles a run =>
      rw [after_ok run]
      exact ⟨nonneg, .inr (.inl rfl)⟩
  | stops t a far low shown run =>
      rw [after_error run]
      exact ⟨low, .inl shown⟩
  | console o a console value run =>
      rw [after_ok run]
      exact ⟨value ▸ moved, .inl rfl⟩
  | frame o a hidden value run =>
      rw [after_congr run]
      exact showFrame_adds input (value ▸ moved)

/-! ## Without Up and Down -/

/-- Neither Up nor Down goes down. -/
def Keys.Still (keysDown : Keys) : Prop := keysDown.up = false ∧ keysDown.down = false

/-- An iteration that gets as far as `display_show` with a frame. -/
structure Shows (cfg : Config) (input : Input) (s : Dump) : Prop where
  a : input.keysDown.a = false
  hidden : s.showConsole = false
  near : 0x10000000 + s.romOffset.toInt < 2 ^ 31
  agree : ∀ symbol ∈ symbolOf cfg input s, symbol.width = cfg.qrcodeWidth

def toggled (keysDown : Keys) (s : Dump) : Dump :=
  { s with autoAdvance := s.autoAdvance ^^ keysDown.b }

theorem press_still {keysDown : Keys} (still : keysDown.Still) (s : Dump) :
    (press keysDown).run s = .ok () (toggled keysDown s) := by
  cases b : keysDown.b <;> simp [press, still.1, still.2, b, pressB_run, toggled]

theorem iteration_shows {input : Input} {s : Dump} (still : input.keysDown.Still)
    (nonneg : 0 ≤ s.romOffset.toInt) (shows_ : Shows cfg input s) :
    (iteration cfg input).run s =
      .ok () (advanced cfg (framed cfg input (toggled input.keysDown s))) := by
  have a : ¬ input.keysDown.a := by simp [shows_.a]
  have hidden : ¬ (toggled input.keysDown s).showConsole := by simp [toggled, shows_.hidden]
  rw [iteration_hidden a (press_still still s) hidden]
  exact showFrame_shows nonneg shows_.near shows_.agree

/-- The other iterations leave the offset and show nothing but black screens. -/
theorem iteration_idle {input : Input} {s : Dump} (still : input.keysDown.Still)
    (nonneg : 0 ≤ s.romOffset.toInt) (idle : ¬ Shows cfg input s) :
    (after (iteration cfg input) s).romOffset = s.romOffset ∧
      ((after (iteration cfg input) s).shown = s.shown ∨
        (after (iteration cfg input) s).shown = s.shown ++ [.black]) := by
  by_cases a : input.keysDown.a
  · rw [after_ok (iteration_a a s)]
    exact ⟨rfl, .inr rfl⟩
  by_cases console : s.showConsole
  · rw [after_ok (iteration_console a (press_still still s) console)]
    exact ⟨rfl, .inl rfl⟩
  have hidden : (iteration cfg input).run s = (showFrame cfg input).run (toggled input.keysDown s) :=
    iteration_hidden a (press_still still s) console
  rw [after_congr hidden]
  have same : 0 ≤ (toggled input.keysDown s).romOffset.toInt := nonneg
  cases showFrame_run cfg input same with
  | overflows far run =>
      rw [after_error run]
      exact ⟨rfl, .inl rfl⟩
  | mismatch near disagree run =>
      rw [after_error run]
      exact ⟨rfl, .inl rfl⟩
  | shows near agree run =>
      exact absurd ⟨by simpa using a, by simpa using console, near, agree⟩ idle

/-! ## Unattended runs -/

/-- Nothing is pressed and every frame is encoded as a symbol of the configured width. -/
structure Plain (cfg : Config) (input : Input) : Prop where
  unpressed : input.keysDown = ⟨false, false, false, false⟩
  encodes : ∀ s, ∃ symbol, symbolOf cfg input s = some symbol ∧ symbol.width = cfg.qrcodeWidth

/-- The console is hidden and auto-advance is on. -/
structure Unattended (s : Dump) (romOffset : Int) : Prop where
  hidden : s.showConsole = false
  auto : s.autoAdvance = true
  offset : s.romOffset.toInt = romOffset

/-- An iteration without buttons that draws a symbol. -/
theorem iteration_draws {input : Input} {s : Dump} {symbol : QRcode}
    (unpressed : input.keysDown = ⟨false, false, false, false⟩) (hidden : s.showConsole = false)
    (nonneg : 0 ≤ s.romOffset.toInt) (near : 0x10000000 + s.romOffset.toInt < 2 ^ 31)
    (drawn : symbolOf cfg input s = some symbol) (width : symbol.width = cfg.qrcodeWidth) :
    (iteration cfg input).run s = .ok () (advanced cfg { readOut cfg s with
      shown := s.shown ++
        [.frame s.romOffset (payload cfg input.bus s.counter s.romOffset) (some symbol)] }) := by
  have still : input.keysDown.Still := by simp [Keys.Still, unpressed]
  have same : toggled input.keysDown s = s := by simp [toggled, unpressed]
  have shows_ : Shows cfg input s := by
    refine ⟨by simp [unpressed], hidden, near, fun symbol' other => ?_⟩
    cases drawn.symm.trans other
    exact width
  rw [iteration_shows still nonneg shows_, same, framed, drawn, Option.isNone_some, Bool.or_false]
  rfl

theorem plain_iteration {input : Input} (plain : Plain cfg input) {s : Dump} {o : Int}
    (unattended : Unattended s o) (nonneg : 0 ≤ o) (near : 0x10000000 + o < 2 ^ 31) :
    ∃ t, (iteration cfg input).run s = .ok () t ∧ Unattended t (o + cfg.nrombytesPerFrame) := by
  have offset := unattended.offset
  have small := cfg.frame_small
  obtain ⟨symbol, drawn, width⟩ := plain.encodes s
  have room : s.romOffset.toInt + cfg.nrombytesPerFrame < 2 ^ 31 := by omega
  have run := iteration_draws plain.unpressed unattended.hidden (by omega) (by omega) drawn width
  refine ⟨_, run, unattended.hidden, unattended.auto, ?_⟩
  have moved := (advance_fits (s := { readOut cfg s with
    shown := s.shown ++
      [.frame s.romOffset (payload cfg input.bus s.counter s.romOffset) (some symbol)] })
    (show 0 ≤ s.romOffset.toInt by omega) room).2
  rw [moved, ← offset]
  exact if_pos unattended.auto

/-- Plain iterations go on for as long as the address of the DMA read is an `int`. -/
theorem plain_run {input : Input} (plain : Plain cfg input) (k : Nat) {s : Dump} {o : Int}
    (unattended : Unattended s o) (nonneg : 0 ≤ o)
    (near : 0x10000000 + o + k * cfg.nrombytesPerFrame ≤ 2 ^ 31) :
    ∃ t, Reaches (iteration cfg) s (List.replicate k input) t ∧
      Unattended t (o + k * cfg.nrombytesPerFrame) ∧
      ∀ p ∈ taken (iteration cfg) s (List.replicate k input),
        p.1.romOffset.toInt + cfg.nrombytesPerFrame ≤ o + k * cfg.nrombytesPerFrame := by
  have positive := cfg.frame_fits.1
  induction k generalizing s o with
  | zero => exact ⟨s, .refl, by simpa using unattended, by simp [taken]⟩
  | succ k ih =>
      have split : ((k + 1 : Nat) : Int) * cfg.nrombytesPerFrame =
          cfg.nrombytesPerFrame + k * cfg.nrombytesPerFrame := by push_cast; ring
      have rest : 0 ≤ (k : Int) * cfg.nrombytesPerFrame := by positivity
      rw [split] at near ⊢
      obtain ⟨u, first, next⟩ := plain_iteration plain unattended nonneg (by omega)
      obtain ⟨t, run, last, below⟩ := ih next (by omega) (by omega)
      rw [← Int.add_assoc]
      refine ⟨t, .step first run, last, ?_⟩
      rw [List.replicate_succ, taken, List.forall_mem_cons]
      refine ⟨?_, ?_⟩
      · change s.romOffset.toInt + _ ≤ _
        have := unattended.offset
        omega
      · simpa only [first] using below

end AssistedDump.DumpLoop
