import AssistedDump.Console.DumpCoverage
import AssistedDump.Console.Picture
import AssistedDump.Qrencode.Symbol

/-! # The dump loop with the encoder it calls

The encoder is no longer a parameter, only whether its memory runs out in a call. The
constants of each configuration of main.c fit its tables, so otherwise a frame has a
symbol of the width the loop asserts, and the decoder reads the data of the frame from it.
-/

namespace AssistedDump.ShownSymbols

open CSemantics Machine DumpLoop QrInput QrSpec
open QrEncode (encodeData encodeDataIn encodeData_least encodeData_known encodeMask_decodes
  encodeMask_sized exists_least)

/-! ## The configurations -/

/-- The configurations main.c chooses from, in order. -/
def configurations : List Config := [
  ⟨15, 77, 220, .h, by decide, by decide⟩,
  ⟨40, 177, 1273, .h, by decide, by decide⟩,
  ⟨25, 117, 535, .h, by decide, by decide⟩,
  activeConfig,
  ⟨15, 77, 520, .l, by decide, by decide⟩]

/-- The version, the width and the number of bytes are those of one row of the tables. -/
structure Synced (cfg : Config) : Prop where
  known : Version cfg.qrcodeVersion
  width : getWidth cfg.qrcodeVersion = cfg.qrcodeWidth
  holds : Fits cfg.qrcodeVersion cfg.qrcodeEccLevel cfg.qrcodeMaxBytes
  full : ¬ Fits cfg.qrcodeVersion cfg.qrcodeEccLevel (cfg.qrcodeMaxBytes + 1)

theorem synced {cfg : Config} (member : cfg ∈ configurations) : Synced cfg := by
  have evaluated : ∀ cfg ∈ configurations,
      (1 ≤ cfg.qrcodeVersion ∧ cfg.qrcodeVersion ≤ versionMax) ∧
      getWidth cfg.qrcodeVersion = cfg.qrcodeWidth ∧
      Fits cfg.qrcodeVersion cfg.qrcodeEccLevel cfg.qrcodeMaxBytes ∧
      ¬ Fits cfg.qrcodeVersion cfg.qrcodeEccLevel (cfg.qrcodeMaxBytes + 1) := by
    decide +kernel
  obtain ⟨⟨positive, most⟩, width, holds, full⟩ := evaluated cfg member
  exact ⟨⟨positive, most⟩, width, holds, full⟩

theorem Synced.fits_iff {cfg : Config} (h : Synced cfg) (size : Nat) :
    Fits cfg.qrcodeVersion cfg.qrcodeEccLevel size ↔ size ≤ cfg.qrcodeMaxBytes := by
  have holds := h.holds
  have full := h.full
  rw [Fits] at holds full ⊢
  omega

/-- A symbol for data that fits has the version that was asked for. -/
theorem Synced.encodes {cfg : Config} (h : Synced cfg) {data : List UInt8} (filled : data ≠ [])
    (short : data.length ≤ cfg.qrcodeMaxBytes) :
    ∃ code, encodeData data cfg.qrcodeVersion cfg.qrcodeEccLevel = some code ∧
      code.version = cfg.qrcodeVersion ∧ code.width = cfg.qrcodeWidth := by
  have fits := (h.fits_iff data.length).mpr short
  obtain ⟨least, holds⟩ := exists_least (fits.mono h.known h.known.most (le_refl _))
  have asked := max_eq_left (holds.2 ⟨h.known, fits⟩)
  obtain ⟨code, encoded, version, width⟩ := encodeData_least filled h.known.most holds
  rw [asked] at version width
  exact ⟨code, encoded, version, width.trans h.width⟩

theorem widths_distinct : ∀ version < 41, ∀ version' < 41,
    getWidth version = getWidth version' → version = version' := by
  decide +kernel

/-- The width of a symbol tells its version. -/
theorem version_of_width {data : List UInt8} {version known : Nat} {level : QRecLevel}
    {code : QrEncode.QRcode} (encoded : encodeData data version level = some code)
    (most : known ≤ versionMax) (width : code.width = getWidth known) : code.version = known := by
  obtain ⟨_, _, isInput⟩ := encodeData_known encoded
  obtain ⟨inRange, sized, _⟩ := encodeMask_sized (by decide) isInput
  exact widths_distinct _ (Nat.lt_succ_of_le inRange.most) _ (Nat.lt_succ_of_le most)
    (sized.symm.trans width)

/-- `qrcode_max_bytes` is the bound up to which the width of a symbol is `qrcode_width`. -/
theorem maxBytes_iff_width (cfg : Config) (member : cfg ∈ configurations) (data : List UInt8)
    (filled : data ≠ []) :
    data.length ≤ cfg.qrcodeMaxBytes ↔
      ∃ code, encodeData data cfg.qrcodeVersion cfg.qrcodeEccLevel = some code ∧
        code.width = cfg.qrcodeWidth := by
  have h := synced member
  constructor
  · intro short
    obtain ⟨code, encoded, _, width⟩ := h.encodes filled short
    exact ⟨code, encoded, width⟩
  · rintro ⟨code, encoded, width⟩
    obtain ⟨_, known, _⟩ := encodeData_known encoded
    have same := version_of_width encoded h.known.most (width.trans h.width.symm)
    obtain ⟨least, holds⟩ := exists_least (QrEncode.encodeData_fits encoded)
    obtain ⟨code', again, newest, _⟩ := encodeData_least filled known holds
    obtain rfl := Option.some.inj (encoded.symm.trans again)
    rw [← h.fits_iff]
    apply holds.1.2.mono holds.1.1 _ h.known.most
    rw [← same, newest]
    exact le_max_right _ _

theorem maxBytes_iff_width_active : [0x41].length ≤ activeConfig.qrcodeMaxBytes ↔
    ∃ code, encodeData [0x41] activeConfig.qrcodeVersion activeConfig.qrcodeEccLevel = some code ∧
      code.width = activeConfig.qrcodeWidth :=
  maxBytes_iff_width activeConfig (by simp [configurations]) [0x41] (by decide)

/-! ## The frames of a run -/

/-- `QRcode_encodeData`, of whose result main.c never reads the version. -/
def encoder (allocates : Bool) (data : List UInt8) (version : Nat) (level : QRecLevel) :
    Option QRcode :=
  (encodeDataIn allocates data version level).map (·.toQRcode)

/-- The iteration calls the encoder of qrencode.c, whose memory may run out. -/
def Calls (input : Input) : Prop := ∃ allocates, input.qrcodeEncodeData = encoder allocates

/-- The memory runs out in the call of the iteration. -/
def Starved (input : Input) : Prop := input.qrcodeEncodeData = encoder false

/-- A symbol of the configured width from which the decoder reads the data. -/
structure Carries (cfg : Config) (symbol : QRcode) (qrdata : List UInt8) : Prop where
  encoded : encoder true qrdata cfg.qrcodeVersion cfg.qrcodeEccLevel = some symbol
  width : symbol.width = cfg.qrcodeWidth
  square : symbol.data.length = symbol.width * symbol.width
  read : ∃ d, Decoder.decode symbol = some d ∧ d.data = some qrdata

theorem Synced.carries {cfg : Config} (h : Synced cfg) {data : List UInt8} (filled : data ≠ [])
    (short : data.length ≤ cfg.qrcodeMaxBytes) :
    ∃ symbol, Carries cfg symbol data := by
  obtain ⟨code, encoded, _, width⟩ := h.encodes filled short
  obtain ⟨_, known, isInput⟩ := encodeData_known encoded
  obtain ⟨chunks, whole, decoded⟩ := encodeMask_decodes (by decide) isInput
  obtain ⟨_, _, square⟩ := encodeMask_sized (by decide) isInput
  have same : chunks.flatten = data := whole.trans List.flatten_singleton
  refine ⟨code.toQRcode, ?_, width, square, _, decoded, ?_⟩
  · rw [encoder, encodeDataIn, if_pos rfl, encoded, Option.map_some]
  · rw [Decoder.concatChunkList, ← List.length_flatten, same,
      if_neg fun none => filled (List.length_eq_zero_iff.mp none)]

theorem Synced.payload_carries {cfg : Config} (h : Synced cfg) (bus : Nat → UInt8)
    (counter : UInt8) (romOffset : Int32) :
    ∃ symbol, Carries cfg symbol (payload cfg bus counter romOffset) := by
  have length := payload_length cfg bus counter romOffset
  have filled : payload cfg bus counter romOffset ≠ [] := by
    intro none
    rw [none, List.length_nil] at length
    omega
  exact h.carries filled (length ▸ cfg.frame_fits.2.2)

variable {cfg : Config} {input : Input} {s : Dump}

/-- What the encoder answers for the frame of a state. -/
inductive Answers (cfg : Config) (input : Input) (s : Dump) : Prop where
  | starved : Starved input → symbolOf cfg input s = none → Answers cfg input s
  | carries (symbol : QRcode) : ¬ Starved input → symbolOf cfg input s = some symbol →
      Carries cfg symbol (payload cfg input.bus s.counter s.romOffset) → Answers cfg input s

theorem Starved.symbolOf_none (starved : Starved input) (s : Dump) : symbolOf cfg input s = none := by
  rw [symbolOf, starved]
  rfl

theorem active_synced : Synced activeConfig := synced (by simp [configurations])

theorem not_starved (fed : input.qrcodeEncodeData = encoder true) : ¬ Starved input := by
  intro starved
  obtain ⟨symbol, carries⟩ := active_synced.payload_carries (inserted countdown) 0 0
  have none := carries.encoded
  rw [fed.symm.trans starved] at none
  cases none

/-- An encoder with enough memory draws a symbol for the frame of any state. -/
theorem Synced.symbolOf_carries (h : Synced cfg) (fed : input.qrcodeEncodeData = encoder true)
    (s : Dump) : ∃ symbol, symbolOf cfg input s = some symbol ∧
      Carries cfg symbol (payload cfg input.bus s.counter s.romOffset) := by
  obtain ⟨symbol, carries⟩ := h.payload_carries input.bus s.counter s.romOffset
  exact ⟨symbol, by rw [symbolOf, fed, carries.encoded], carries⟩

theorem symbolOf_answers (h : Synced cfg) (calls : Calls input) (s : Dump) : Answers cfg input s := by
  obtain ⟨allocates, same⟩ := calls
  cases allocates with
  | false => exact .starved same (Starved.symbolOf_none same s)
  | true =>
      obtain ⟨symbol, drawn, carries⟩ := h.symbolOf_carries same s
      exact .carries symbol (not_starved same) drawn carries

/-- Every frame shown so far was read and encoded in an iteration with such an input. -/
def AllMade (cfg : Config) (P : Input → Prop) (s : Dump) : Prop :=
  ∀ romOffset qrdata drawn, .frame romOffset qrdata drawn ∈ s.shown →
    ∃ input, P input ∧ ∃ u : Dump, u.romOffset = romOffset ∧
      qrdata = payload cfg input.bus u.counter u.romOffset ∧ drawn = symbolOf cfg input u

theorem allMade_start (cfg : Config) (P : Input → Prop) (showConsole autoAdvance : Bool)
    (counter : UInt8) : AllMade cfg P (start showConsole autoAdvance counter) := by
  intro romOffset qrdata drawn member
  cases member

theorem allMade_iteration {P : Input → Prop} (allowed : P input) (nonneg : 0 ≤ s.romOffset.toInt)
    (made : AllMade cfg P s) : AllMade cfg P (after (iteration cfg input) s) := by
  intro romOffset qrdata drawn member
  rcases (iteration_adds input nonneg).2 with same | black | ⟨u, _, _, frame⟩
  · rw [same] at member
    exact made romOffset qrdata drawn member
  · rw [black, List.mem_append, List.mem_singleton] at member
    exact made romOffset qrdata drawn (member.resolve_right nofun)
  · rw [frame, List.mem_append, List.mem_singleton] at member
    cases member with
    | inl earlier => exact made romOffset qrdata drawn earlier
    | inr last =>
        cases last
        exact ⟨input, allowed, u, rfl, rfl, rfl⟩

theorem allMade_run {start : Dump} {inputs : List Input} (nonneg : 0 ≤ start.romOffset.toInt)
    (made : AllMade cfg (· ∈ inputs) start) (run : Reaches (iteration cfg) start inputs s) :
    AllMade cfg (· ∈ inputs) s := by
  have kept := run.of_taken (I := fun s => 0 ≤ s.romOffset.toInt ∧ AllMade cfg (· ∈ inputs) s)
    ⟨nonneg, made⟩ fun p member t before step => by
      rw [← after_ok step]
      exact ⟨(iteration_adds p.2 before.1).1,
        allMade_iteration (taken_input p member) before.1 before.2⟩
  exact kept.2

/-- A symbol that was shown carries its data. -/
theorem AllMade.carries {P : Input → Prop} (made : AllMade cfg P s) (h : Synced cfg)
    (calls : ∀ input, P input → Calls input) {romOffset : Int32} {qrdata : List UInt8}
    {symbol : QRcode} (shown : .frame romOffset qrdata (some symbol) ∈ s.shown) :
    Carries cfg symbol qrdata := by
  obtain ⟨input, allowed, u, _, rfl, drawn⟩ := made romOffset qrdata _ shown
  cases symbolOf_answers h (calls input allowed) u with
  | starved _ none =>
      rw [none] at drawn
      cases drawn
  | carries symbol' _ some carries =>
      cases drawn.trans some
      exact carries

/-- Every frame of a run was read in one of its iterations. Where the memory ran out in that
    iteration the frame has no symbol, otherwise the decoder reads the data of the frame from it. -/
theorem shown_read (cfg : Config) (member : cfg ∈ configurations) (counter : UInt8)
    (inputs : List Input) (calls : ∀ input ∈ inputs, Calls input) (s : Dump)
    (run : Reaches (iteration cfg) (mainDumping counter) inputs s) (romOffset : Int32)
    (qrdata : List UInt8) (drawn : Option QRcode) (shown : .frame romOffset qrdata drawn ∈ s.shown) :
    ∃ input ∈ inputs, ∃ counter', qrdata = payload cfg input.bus counter' romOffset ∧
      (Starved input ∧ drawn = none ∨
        ¬ Starved input ∧ ∃ symbol d, drawn = some symbol ∧ symbol.width = cfg.qrcodeWidth ∧
          Decoder.decode symbol = some d ∧ d.data = some qrdata) := by
  have made := allMade_run (show 0 ≤ (mainDumping counter).romOffset.toInt from Int.le_refl 0)
    (allMade_start cfg _ true false counter) run
  obtain ⟨input, among, u, rfl, rfl, rfl⟩ := made romOffset qrdata drawn shown
  refine ⟨input, among, u.counter, rfl, ?_⟩
  cases symbolOf_answers (synced member) (calls input among) u with
  | starved starved none => exact .inl ⟨starved, none⟩
  | carries symbol fed some carries =>
      obtain ⟨d, decoded, data⟩ := carries.read
      exact .inr ⟨fed, symbol, d, some, carries.width, decoded, data⟩

/-- An iteration with the encoder of qrencode.c and the cartridge that counts down. -/
def calling (allocates : Bool) (keysDown : Keys) : Input :=
  ⟨keysDown, inserted countdown, encoder allocates⟩

theorem calling_calls (allocates : Bool) (keysDown : Keys) : Calls (calling allocates keysDown) :=
  ⟨allocates, rfl⟩

/-- A hides the console, a frame is shown, and the memory runs out on the same frame. -/
def runsOut : List Input := [calling true keyA, calling true released, calling false released]

theorem runsOut_calls : ∀ input ∈ runsOut, Calls input := by
  simp [runsOut, calling_calls]

theorem runsOut_run : ∃ t u symbol,
    Reaches (iteration activeConfig) (mainDumping 0) [calling true keyA, calling true released] t ∧
    (iteration activeConfig (calling false released)).run t = .ok () u ∧
    t.showConsole = false ∧ u.showConsole = true ∧
    u.shown = [.black, .frame 0 (frameData 0 0) (some symbol), .frame 0 (frameData 1 0) none] := by
  obtain ⟨symbol, drawn, carries⟩ := active_synced.symbolOf_carries
    (show (calling true released).qrcodeEncodeData = encoder true from rfl) hiddenConsole
  let t : Dump := ⟨false, false, 0, 1, [⟨0x10000000, 506⟩],
    [.black, .frame 0 (frameData 0 0) (some symbol)]⟩
  let u : Dump := ⟨true, false, 0, 2, [⟨0x10000000, 506⟩, ⟨0x10000000, 506⟩],
    [.black, .frame 0 (frameData 0 0) (some symbol), .frame 0 (frameData 1 0) none]⟩
  have hide : (iteration activeConfig (calling true keyA)).run (mainDumping 0) =
      .ok () hiddenConsole := iteration_a rfl _
  have draws : (iteration activeConfig (calling true released)).run hiddenConsole = .ok () t :=
    iteration_draws rfl rfl (by decide) (by decide) drawn carries.width
  have fails : (iteration activeConfig (calling false released)).run t = .ok () u :=
    iteration_shows ⟨rfl, rfl⟩ (show (0 : Int) ≤ (0 : Int32).toInt by decide)
      ⟨rfl, rfl, show 0x10000000 + (0 : Int32).toInt < 2 ^ 31 by decide, fun _ none => by cases none⟩
  exact ⟨t, u, symbol, .step hide (.step draws .refl), fails, rfl, rfl, rfl⟩

theorem shown_read_runsOut : ∃ u symbol d, Reaches (iteration activeConfig) (mainDumping 0) runsOut u ∧
    u.shown = [.black, .frame 0 (frameData 0 0) (some symbol), .frame 0 (frameData 1 0) none] ∧
    symbol.width = 113 ∧ Decoder.decode symbol = some d ∧ d.data = some (frameData 0 0) ∧
    ∃ input ∈ runsOut, Starved input := by
  obtain ⟨t, u, symbol, reached, fails, _, _, shown⟩ := runsOut_run
  have run : Reaches (iteration activeConfig) (mainDumping 0) runsOut u := by
    have both := reached.append (.step fails .refl)
    exact both
  have read := shown_read activeConfig (by simp [configurations]) 0 runsOut runsOut_calls u run
  obtain ⟨_, _, _, _, none | ⟨_, symbol', d, drawn, width, decoded, data⟩⟩ :=
    read 0 (frameData 0 0) (some symbol) (by simp [shown])
  · cases none.2
  · obtain ⟨input, among, _, _, starved | ⟨_, _, _, other, _⟩⟩ :=
      read 0 (frameData 1 0) none (by simp [shown])
    · cases drawn
      exact ⟨u, symbol, d, run, shown, width, decoded, data, input, among, starved.1⟩
    · cases other

/-! ## What the encoder never does -/

/-- The iteration goes on, unless an offset or an address is no `int`. It comes to the console if A
    switches to it, if A does not switch away from it, or if the memory runs out on a frame. -/
def GoesOn (cfg : Config) (s : Dump) (input : Input) : Prop :=
  (∃ t, (iteration cfg input).run s = .ok () t ∧
    (t.showConsole = true ↔ (s.showConsole ^^ input.keysDown.a) = true ∨
      s.showConsole = false ∧ input.keysDown.a = false ∧ Starved input)) ∨
  ∃ t, (iteration cfg input).run s = .error .signedOverflow t

theorem iteration_goesOn (h : Synced cfg) (calls : Calls input) (nonneg : 0 ≤ s.romOffset.toInt) :
    GoesOn cfg s input := by
  cases iteration_run cfg input nonneg with
  | toggles a run => exact .inl ⟨_, run, by simp [a]⟩
  | stops t a far low shown run => exact .inr ⟨t, run⟩
  | console o a console value run => exact .inl ⟨_, run, by simp [pressed, a, console]⟩
  | frame o a hidden value run =>
      let u := pressed input.keysDown o s
      have moved : 0 ≤ u.romOffset.toInt := value ▸ target_nonneg input.keysDown nonneg
      have hiddenStill : u.showConsole = false := hidden
      cases symbolOf_answers h calls u with
      | starved starved none =>
          cases showFrame_run cfg input moved with
          | overflows far stops => exact .inr ⟨_, run.trans stops⟩
          | mismatch near disagree stops => exact absurd (by simp [none]) disagree
          | shows near agree goes =>
              refine .inl ⟨_, run.trans goes, ?_⟩
              simp [advanced, framed, none, hidden, a, starved, u]
      | carries symbol fed some carries =>
          cases showFrame_run cfg input moved with
          | overflows far stops => exact .inr ⟨_, run.trans stops⟩
          | mismatch near disagree stops =>
              refine absurd (fun symbol' other => ?_) disagree
              cases some.symm.trans other
              exact carries.width
          | shows near agree goes =>
              refine .inl ⟨_, run.trans goes, ?_⟩
              simp [advanced, framed, readOut, some, hidden, hiddenStill, a, fed]

/-- In no run does the assertion on the width fail, and only A and a memory that runs out on a frame
    bring the console back. -/
theorem never_interrupted (cfg : Config) (member : cfg ∈ configurations) (counter : UInt8)
    (inputs : List Input) (calls : ∀ input ∈ inputs, Calls input) :
    ∀ p ∈ taken (iteration cfg) (mainDumping counter) inputs, GoesOn cfg p.1 p.2 := by
  apply (taken_iff (I := fun s => 0 ≤ s.romOffset.toInt) (P := Calls) (C := fun _ _ => True)
    (G := GoesOn cfg) (Int.le_refl 0) calls (fun t i _ nonneg _ => (iteration_adds i nonneg).1)
    (fun t i called nonneg =>
      iff_true_intro (iteration_goesOn (synced member) called nonneg))).mpr
  exact fun _ _ => trivial

theorem never_interrupted_runsOut : ∃ t u, t.showConsole = false ∧ u.showConsole = true ∧
    (iteration activeConfig (calling false released)).run t = .ok () u ∧
    (t, calling false released) ∈ taken (iteration activeConfig) (mainDumping 0) runsOut ∧
    GoesOn activeConfig t (calling false released) := by
  obtain ⟨t, u, symbol, reached, fails, hidden, console, _⟩ := runsOut_run
  have last : (t, calling false released) ∈
      taken (iteration activeConfig) (mainDumping 0) runsOut :=
    reached.taken (calling false released) []
  exact ⟨t, u, hidden, console, fails, last, never_interrupted activeConfig
    (by simp [configurations]) 0 runsOut runsOut_calls _ last⟩

/-- The memory runs out on a frame, and auto-advance goes on to the next one. -/
structure PassesBy (s : Dump) (input : Input) : Prop where
  a : input.keysDown.a = false
  hidden : s.showConsole = false
  auto : (s.autoAdvance ^^ input.keysDown.b) = true
  starved : Starved input
  near : 0x10000000 + s.romOffset.toInt < 2 ^ 31

theorem loses_iff (h : Synced cfg) (calls : Calls input) :
    Loses cfg s input ↔ PassesBy s input ∧ ¬ Drawn s s.romOffset.toInt := by
  constructor
  · intro loses
    cases symbolOf_answers h calls s with
    | starved starved _ =>
        exact ⟨⟨loses.a, loses.hidden, loses.auto, starved, loses.near⟩, loses.undrawn⟩
    | carries symbol _ some _ =>
        rw [loses.encodeFails] at some
        cases some
  · rintro ⟨passes, undrawn⟩
    exact ⟨passes.a, passes.hidden, passes.auto, passes.starved.symbolOf_none s, passes.near, undrawn⟩

/-- Without Up and Down auto-advance leaves nothing behind that was not drawn, exactly if it passes
    by no frame for which the memory ran out before it was drawn. -/
theorem nothingSkipped_called (cfg : Config) (member : cfg ∈ configurations)
    (showConsole autoAdvance : Bool) (counter : UInt8) (inputs : List Input)
    (still : ∀ input ∈ inputs, input.keysDown.Still) (calls : ∀ input ∈ inputs, Calls input) :
    (∀ t ∈ visited (iteration cfg) (start showConsole autoAdvance counter) inputs,
        NothingSkipped cfg t) ↔
      ∀ p ∈ taken (iteration cfg) (start showConsole autoAdvance counter) inputs,
        PassesBy p.1 p.2 → Drawn p.1 p.1.romOffset.toInt := by
  rw [nothingSkipped_from (tiled_start cfg showConsole autoAdvance counter) still]
  apply forall₂_congr
  intro p taken
  rw [loses_iff (synced member) (calls _ (taken_input p taken))]
  tauto

/-- A hides the console, and B turns auto-advance on while the memory runs out. -/
def passedBy : List Input := [calling true keyA, calling false keyB]

/-- Two frames are drawn and left behind, and one is passed by. -/
theorem nothingSkipped_called_twoFrames :
    (∃ t ∈ visited (iteration activeConfig) (start true false 0) (twoFrames (encoder true)),
      t.romOffset.toInt = 1012 ∧ NothingSkipped activeConfig t) ∧
    ¬ ∀ t ∈ visited (iteration activeConfig) (start true false 0) passedBy,
      NothingSkipped activeConfig t := by
  constructor
  · obtain ⟨first, one⟩ := active_synced.payload_carries (inserted countdown) 0 0
    obtain ⟨second, two⟩ := active_synced.payload_carries (inserted countdown) 1 506
    obtain ⟨t, run, offset, -⟩ := twoFrames_run (encoder true) one.encoded two.encoded one.width two.width
    have still : ∀ input ∈ twoFrames (encoder true), input.keysDown.Still := by
      simp [twoFrames, keyA, keyB, released, Keys.Still]
    have fed : ∀ input ∈ twoFrames (encoder true), input.qrcodeEncodeData = encoder true := by
      simp [twoFrames]
    have kept := (nothingSkipped_called activeConfig (by simp [configurations]) true false 0 _ still
      fun input member => ⟨true, fed input member⟩).mpr fun p member passes =>
        absurd passes.starved (not_starved (fed p.2 (taken_input p member)))
    exact ⟨t, run.visited, offset, kept t run.visited⟩
  · intro all
    have still : ∀ input ∈ passedBy, input.keysDown.Still := by
      simp [passedBy, calling, keyA, keyB, Keys.Still]
    have calls : ∀ input ∈ passedBy, Calls input := by simp [passedBy, calling_calls]
    have second : (hiddenConsole, calling false keyB) ∈
        taken (iteration activeConfig) (start true false 0) passedBy :=
      Reaches.taken (.step (iteration_a rfl _) .refl) (calling false keyB) []
    have drawn := (nothingSkipped_called activeConfig (by simp [configurations]) true false 0 _ still
      calls).mp all _ second ⟨rfl, rfl, rfl, rfl, by decide⟩
    simp [Drawn, hiddenConsole] at drawn

/-! ## The orientation -/

/-- No format information reads the same along the row and along the column of its first copy. -/
theorem formats_asymmetric : ∀ mask < Mask.maskNum, ∀ level ∈ levels, ∃ i < 6,
    ¬ (Mask.formatModule (getFormatInfo mask level) i &&& 1 = 1 ↔
      Mask.formatModule (getFormatInfo mask level) (14 - i) &&& 1 = 1) := by
  decide +kernel

open Picture in
/-- A symbol of the encoder never equals its transpose. -/
theorem encoder_asymmetric {data : List UInt8} {version : Nat} {level : QRecLevel} {symbol : QRcode}
    (encoded : encoder true data version level = some symbol) :
    ∃ i < 6, ¬ (Black symbol i 8 ↔ Black symbol 8 i) := by
  obtain ⟨code, made, rfl⟩ := Option.map_eq_some_iff.mp encoded
  obtain ⟨_, known, isInput⟩ := encodeData_known made
  obtain ⟨_, _, _, _, _, _, _, _, _, filled, _, width, done⟩ := QrEncode.encodeMask_some isInput
  obtain ⟨choice, masked⟩ := filled.masked (by decide) done
  obtain ⟨i, small, differ⟩ := formats_asymmetric choice masked.known _ (mem_levels level)
  have cells : ∀ c ∈ Mask.formatWrites code.width (getFormatInfo choice level),
      code.data[c.1]? = some c.2 := by
    rw [width]
    exact masked.shown_format
  have column := cells (i * code.width + 8, Mask.formatModule (getFormatInfo choice level) i) (by
    simp only [Mask.formatWrites, List.mem_append, List.mem_flatMap, List.mem_range]
    refine .inl ⟨i, by omega, ?_⟩
    rw [if_pos small, Nat.mul_comm i]
    exact List.mem_cons_of_mem _ List.mem_cons_self)
  have row := cells (8 * code.width + i, Mask.formatModule (getFormatInfo choice level) (14 - i)) (by
    simp only [Mask.formatWrites, List.mem_append, List.mem_flatMap, List.mem_range]
    refine .inr ⟨6 - i, by omega, ?_⟩
    rw [if_neg (by omega), show 8 + (6 - i) = 14 - i by omega,
      show code.width * 8 + 6 - (6 - i) = 8 * code.width + i by omega]
    exact List.mem_cons_of_mem _ List.mem_cons_self)
  refine ⟨i, small, ?_⟩
  simp only [Black, List.getD_eq_getElem?_getD, column, row, Option.getD_some]
  exact differ

open Picture in
/-- Whichever buttons are pressed, the active configuration draws every symbol of a run transposed
    and none the way the encoder made it. -/
theorem shown_transposed (counter : UInt8) (inputs : List Input)
    (calls : ∀ input ∈ inputs, Calls input) (s : Dump)
    (run : Reaches (iteration activeConfig) (mainDumping counter) inputs s) (romOffset : Int32)
    (qrdata : List UInt8) (symbol : QRcode)
    (shown : .frame romOffset qrdata (some symbol) ∈ s.shown) (pixels : Int → Int → Color) :
    ∃ l surf, (drawSymbol consoleDisplay symbol.width 4 2 symbol).run ⟨pixels, []⟩ = .ok l surf ∧
      Depicts consoleDisplay l symbol.width (fun row column => Black symbol column row) surf ∧
      ¬ Depicts consoleDisplay l symbol.width (Black symbol) surf := by
  have made := allMade_run (show 0 ≤ (mainDumping counter).romOffset.toInt from Int.le_refl 0)
    (allMade_start activeConfig _ true false counter) run
  have carries := made.carries active_synced calls shown
  obtain ⟨l, surf, drawn, wide, tall, depicts⟩ :=
    drawSymbol_transposed (shown_drawable run shown carries.square) pixels
  refine ⟨l, surf, drawn, depicts, fun upright => ?_⟩
  obtain ⟨i, small, differ⟩ := encoder_asymmetric carries.encoded
  have width : symbol.width = 113 := carries.width
  exact differ (upright.unique depicts wide tall i (by omega) 8 (by omega))

open Picture in
theorem shown_transposed_runsOut : ∃ symbol l surf,
    (drawSymbol consoleDisplay symbol.width 4 2 symbol).run ⟨fun _ _ => .black, []⟩ = .ok l surf ∧
      Depicts consoleDisplay l symbol.width (fun row column => Black symbol column row) surf ∧
      ¬ Depicts consoleDisplay l symbol.width (Black symbol) surf := by
  obtain ⟨t, u, symbol, reached, fails, _, _, shown⟩ := runsOut_run
  exact ⟨symbol, shown_transposed 0 runsOut runsOut_calls u (reached.append (.step fails .refl)) 0
    (frameData 0 0) symbol (by simp [shown]) fun _ _ => .black⟩

end AssistedDump.ShownSymbols
