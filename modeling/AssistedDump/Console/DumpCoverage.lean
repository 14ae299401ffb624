import AssistedDump.Console.DumpLoop

/-! # What auto-advance covers

Without Up and Down the offsets of a run are multiples of the frame length, and
auto-advance moves to the next one. It leaves a window behind that was not drawn
exactly when the encoder fails on a frame while auto-advance is on and no earlier
iteration has drawn that frame.
-/

namespace AssistedDump.DumpLoop

open CSemantics Machine

variable (cfg : Config)

/-- A symbol was drawn on a surface passed to `display_show` while `rom_offset` was `o`. -/
def Drawn (s : Dump) (o : Int) : Prop :=
  ∃ romOffset qrdata symbol, .frame romOffset qrdata (some symbol) ∈ s.shown ∧ romOffset.toInt = o

/-- Every position below `rom_offset` lies in a frame that was drawn. -/
def NothingSkipped (s : Dump) : Prop :=
  ∀ p : Int, 0 ≤ p → p < s.romOffset.toInt →
    ∃ o, Drawn s o ∧ o ≤ p ∧ p < o + cfg.nrombytesPerFrame

/-- The iteration shows a frame without a symbol, which no earlier iteration has drawn,
    and goes on to the next one. -/
structure Loses (s : Dump) (input : Input) : Prop where
  a : input.keysDown.a = false
  hidden : s.showConsole = false
  auto : (s.autoAdvance ^^ input.keysDown.b) = true
  encodeFails : symbolOf cfg input s = none
  near : 0x10000000 + s.romOffset.toInt < 2 ^ 31
  undrawn : ¬ Drawn s s.romOffset.toInt

/-- The frames of a run tile the positions below its offset. -/
structure Tiled (s : Dump) : Prop where
  aligned : ∃ k : Nat, s.romOffset.toInt = k * cfg.nrombytesPerFrame
  drawn : ∀ o, Drawn s o → ∃ j : Nat, o = j * cfg.nrombytesPerFrame
  tiles : ∀ j : Nat, j * (cfg.nrombytesPerFrame : Int) < s.romOffset.toInt →
    Drawn s (j * cfg.nrombytesPerFrame)

variable {cfg}

theorem tiled_start (cfg : Config) (showConsole autoAdvance : Bool) (counter : UInt8) :
    Tiled cfg (start showConsole autoAdvance counter) where
  aligned := ⟨0, by simp [start]⟩
  drawn := by
    intro o drawn
    obtain ⟨_, _, _, member, -⟩ := drawn
    simp [start] at member
  tiles j below := by
    have length : (0 : Int) ≤ j * cfg.nrombytesPerFrame := by positivity
    rw [start, Int32.toInt_zero] at below
    omega

namespace Tiled

theorem nonneg {s : Dump} (h : Tiled cfg s) : 0 ≤ s.romOffset.toInt := by
  obtain ⟨k, offset⟩ := h.aligned
  rw [offset]
  positivity

theorem nothingSkipped {s : Dump} (h : Tiled cfg s) : NothingSkipped cfg s := by
  intro p nonneg below
  have positive := cfg.frame_pos
  obtain ⟨j, quotient⟩ := Int.eq_ofNat_of_zero_le (Int.ediv_nonneg nonneg positive.le)
  have low := Int.ediv_mul_le p positive.ne'
  have high := Int.lt_ediv_add_one_mul_self p positive
  rw [quotient] at low high
  refine ⟨j * cfg.nrombytesPerFrame, h.tiles j (low.trans_lt below), low, ?_⟩
  rwa [add_mul, one_mul] at high

/-- A frame that covers the first position of another frame is that frame. -/
theorem undrawn_uncovered {s : Dump} (h : Tiled cfg s) {k : Nat}
    (undrawn : ¬ Drawn s (k * cfg.nrombytesPerFrame)) :
    ¬ ∃ o, Drawn s o ∧ o ≤ k * (cfg.nrombytesPerFrame : Int) ∧
      k * (cfg.nrombytesPerFrame : Int) < o + cfg.nrombytesPerFrame := by
  intro covered
  obtain ⟨o, drawn, low, high⟩ := covered
  obtain ⟨j, rfl⟩ := h.drawn o drawn
  have positive := cfg.frame_pos
  have le : j ≤ k := by exact_mod_cast le_of_mul_le_mul_right low positive
  have lt : (k : Int) < j + 1 := by
    refine lt_of_mul_lt_mul_right ?_ positive.le
    rwa [add_mul, one_mul]
  obtain rfl : j = k := by omega
  exact undrawn drawn

end Tiled

/-! ## One iteration -/

theorem drawn_black {s t : Dump} (shown : t.shown = s.shown ∨ t.shown = s.shown ++ [.black])
    (o : Int) : Drawn t o ↔ Drawn s o := by
  cases shown with
  | inl same => simp only [Drawn, same]
  | inr black => simp [Drawn, black]

/-- What showing a frame adds to the frames drawn so far. -/
theorem drawn_framed {s t : Dump} {romOffset : Int32} {qrdata : List UInt8} {qrCode : Option QRcode}
    (shown : t.shown = s.shown ++ [.frame romOffset qrdata qrCode]) (o : Int) :
    Drawn t o ↔ Drawn s o ∨ (qrCode.isSome ∧ romOffset.toInt = o) := by
  simp only [Drawn, shown, List.mem_append, List.mem_singleton, Shown.frame.injEq]
  constructor
  · intro drawn
    obtain ⟨romOffset', qrdata', symbol, member, value⟩ := drawn
    cases member with
    | inl earlier => exact .inl ⟨romOffset', qrdata', symbol, earlier, value⟩
    | inr last =>
        obtain ⟨rfl, rfl, rfl⟩ := last
        exact .inr ⟨rfl, value⟩
  · intro drawn
    cases drawn with
    | inl earlier =>
        obtain ⟨romOffset', qrdata', symbol, member, value⟩ := earlier
        exact ⟨romOffset', qrdata', symbol, .inl member, value⟩
    | inr last =>
        obtain ⟨symbol, rfl⟩ := Option.isSome_iff_exists.mp last.1
        exact ⟨romOffset, qrdata, symbol, .inr ⟨rfl, rfl, rfl⟩, last.2⟩

variable {input : Input} {s : Dump} (still : input.keysDown.Still) (h : Tiled cfg s)
include still h

theorem tiled_idle (idle : ¬ Shows cfg input s) : Tiled cfg (after (iteration cfg input) s) := by
  obtain ⟨offset, shown⟩ := iteration_idle still h.nonneg idle
  refine ⟨by rw [offset]; exact h.aligned, fun o drawn => ?_, fun j below => ?_⟩
  · exact h.drawn o ((drawn_black shown o).mp drawn)
  · rw [offset] at below
    exact (drawn_black shown _).mpr (h.tiles j below)

/-- The state an iteration leaves that shows a frame. -/
theorem after_shows (shows_ : Shows cfg input s) :
    (after (iteration cfg input) s).romOffset.toInt =
        (if s.autoAdvance ^^ input.keysDown.b then s.romOffset.toInt + cfg.nrombytesPerFrame
          else s.romOffset.toInt) ∧
      ∀ o, Drawn (after (iteration cfg input) s) o ↔
        Drawn s o ∨ ((symbolOf cfg input s).isSome ∧ s.romOffset.toInt = o) := by
  have small := cfg.frame_small
  have near := shows_.near
  have room : s.romOffset.toInt + cfg.nrombytesPerFrame < 2 ^ 31 := by omega
  rw [after_ok (iteration_shows still h.nonneg shows_)]
  exact ⟨(advance_fits (s := framed cfg input (toggled input.keysDown s)) h.nonneg room).2,
    drawn_framed rfl⟩

theorem tiled_shows (shows_ : Shows cfg input s) (kept : ¬ Loses cfg s input) :
    Tiled cfg (after (iteration cfg input) s) := by
  obtain ⟨offset, drawn⟩ := after_shows still h shows_
  obtain ⟨k, aligned⟩ := h.aligned
  have positive := cfg.frame_pos
  refine ⟨?_, fun o mem => ?_, fun j below => ?_⟩
  · by_cases auto : s.autoAdvance ^^ input.keysDown.b
    · refine ⟨k + 1, ?_⟩
      rw [offset, if_pos auto, aligned]
      push_cast
      ring
    · exact ⟨k, by rw [offset, if_neg auto, aligned]⟩
  · cases (drawn o).mp mem with
    | inl earlier => exact h.drawn o earlier
    | inr last => exact ⟨k, last.2.symm.trans aligned⟩
  · rw [drawn]
    by_cases before : j * (cfg.nrombytesPerFrame : Int) < s.romOffset.toInt
    · exact .inl (h.tiles j before)
    -- the frame at `rom_offset` itself, which auto-advance has just left behind
    by_cases auto : s.autoAdvance ^^ input.keysDown.b
    · rw [offset, if_pos auto, aligned, ← add_one_mul] at below
      rw [aligned] at before
      have lt : (j : Int) < k + 1 := lt_of_mul_lt_mul_right below positive.le
      have le : (k : Int) ≤ j := le_of_mul_le_mul_right (not_lt.mp before) positive
      obtain rfl : j = k := by omega
      by_contra lost
      rw [← aligned] at lost
      push Not at lost
      refine kept ⟨shows_.a, shows_.hidden, auto, ?_, shows_.near, lost.1⟩
      simpa using fun some => lost.2 some rfl
    · rw [offset, if_neg auto] at below
      exact absurd below before

theorem skipped_of_loses (loses : Loses cfg s input) :
    ¬ NothingSkipped cfg (after (iteration cfg input) s) := by
  have agree : ∀ symbol ∈ symbolOf cfg input s, symbol.width = cfg.qrcodeWidth := by
    simp [loses.encodeFails]
  obtain ⟨offset, drawn⟩ := after_shows still h ⟨loses.a, loses.hidden, loses.near, agree⟩
  obtain ⟨k, aligned⟩ := h.aligned
  have positive := cfg.frame_pos
  have undrawn := loses.undrawn
  rw [aligned] at undrawn
  intro all
  obtain ⟨o, member, low, high⟩ := all s.romOffset.toInt h.nonneg
    (by rw [offset, if_pos loses.auto]; omega)
  rw [aligned] at low high
  refine h.undrawn_uncovered undrawn ⟨o, ?_, low, high⟩
  cases (drawn o).mp member with
  | inl earlier => exact earlier
  | inr last =>
      have some := last.1
      simp [loses.encodeFails] at some

/-- The step lemma: an iteration keeps the tiling exactly if it loses no frame. -/
theorem tiled_iteration (kept : ¬ Loses cfg s input) : Tiled cfg (after (iteration cfg input) s) := by
  by_cases shows_ : Shows cfg input s
  · exact tiled_shows still h shows_ kept
  · exact tiled_idle still h shows_

omit still h

/-! ## Runs -/

/-- From a tiled state, a run skips nothing exactly if no iteration of it loses a frame. -/
theorem nothingSkipped_from {inputs : List Input} (h : Tiled cfg s)
    (still : ∀ input ∈ inputs, input.keysDown.Still) :
    (∀ t ∈ visited (iteration cfg) s inputs, NothingSkipped cfg t) ↔
      ∀ p ∈ taken (iteration cfg) s inputs, ¬ Loses cfg p.1 p.2 := by
  rw [visited_iff, and_iff_right h.nothingSkipped]
  refine taken_iff (I := Tiled cfg) (C := fun s input => ¬ Loses cfg s input)
    (G := fun s input => NothingSkipped cfg (after (iteration cfg input) s)) h still
    (fun s input still h kept => tiled_iteration still h kept) fun s input still h => ?_
  exact ⟨fun good loses => skipped_of_loses still h loses good,
    fun kept => (tiled_iteration still h kept).nothingSkipped⟩

/-- In a run without Up and Down every reachable state has every position below
    `rom_offset` drawn, exactly if no iteration of the run loses a frame. -/
theorem nothingSkipped_iff (cfg : Config) (showConsole autoAdvance : Bool) (counter : UInt8)
    (inputs : List Input) (still : ∀ input ∈ inputs, input.keysDown.Still) :
    (∀ t ∈ visited (iteration cfg) (start showConsole autoAdvance counter) inputs,
        NothingSkipped cfg t) ↔
      ∀ p ∈ taken (iteration cfg) (start showConsole autoAdvance counter) inputs,
        ¬ Loses cfg p.1 p.2 :=
  nothingSkipped_from (tiled_start cfg showConsole autoAdvance counter) still

/-! ## Two frames -/

/-- An iteration with the given buttons and the given answer of the encoder. -/
def pressing (keysDown : Keys) (qrCode : Option QRcode) : Input :=
  ⟨keysDown, fun _ => 0, fun _ _ _ => qrCode⟩

def keyA : Keys := ⟨true, false, false, false⟩

def keyB : Keys := ⟨false, true, false, false⟩

def released : Keys := ⟨false, false, false, false⟩

/-- A cartridge that counts down from 0xFF. -/
def countdown (i : Nat) : UInt8 := UInt8.ofNat (255 - i % 256)

/-- The bus of a console with a cartridge. -/
def inserted (rom : Nat → UInt8) (address : Nat) : UInt8 := rom (address - 0x10000000)

theorem inserted_at (rom : Nat → UInt8) (i : Nat) : inserted rom (0x10000000 + i) = rom i :=
  congrArg rom (Nat.add_sub_cancel_left ..)

/-- The data of a frame of this cartridge. -/
def frameData (counter : UInt8) (romOffset : Int32) : List UInt8 :=
  payload activeConfig (inserted countdown) counter romOffset

/-- B turns auto-advance on, A hides the console, and two iterations are left alone. -/
def twoFrames (qrcodeEncodeData : List UInt8 → Nat → QRecLevel → Option QRcode) : List Input :=
  [keyB, keyA, released, released].map fun keysDown =>
    ⟨keysDown, inserted countdown, qrcodeEncodeData⟩

theorem twoFrames_run (qrcodeEncodeData : List UInt8 → Nat → QRecLevel → Option QRcode)
    {first second : QRcode} (one : qrcodeEncodeData (frameData 0 0) 24 .h = some first)
    (two : qrcodeEncodeData (frameData 1 506) 24 .h = some second) (oneWide : first.width = 113)
    (twoWide : second.width = 113) :
    ∃ d, Reaches (iteration activeConfig) (mainDumping 0) (twoFrames qrcodeEncodeData) d ∧
      d.romOffset.toInt = 1012 ∧ d.shown = [.black, .frame 0 (frameData 0 0) (some first),
        .frame 506 (frameData 1 506) (some second)] := by
  let input (keysDown : Keys) : Input := ⟨keysDown, inserted countdown, qrcodeEncodeData⟩
  let s₁ : Dump := ⟨true, true, 0, 0, [], []⟩
  let s₂ : Dump := ⟨false, true, 0, 0, [], [.black]⟩
  let s₃ : Dump := ⟨false, true, 506, 1, [⟨0x10000000, 506⟩],
    [.black, .frame 0 (frameData 0 0) (some first)]⟩
  let s₄ : Dump := ⟨false, true, 1012, 2, [⟨0x10000000, 506⟩, ⟨0x100001FA, 506⟩],
    [.black, .frame 0 (frameData 0 0) (some first), .frame 506 (frameData 1 506) (some second)]⟩
  have auto : (iteration activeConfig (input keyB)).run (mainDumping 0) = .ok () s₁ :=
    iteration_console (by simp [input, keyB]) (press_still ⟨rfl, rfl⟩ _) rfl
  have hide : (iteration activeConfig (input keyA)).run s₁ = .ok () s₂ := iteration_a rfl _
  have shows₁ : (iteration activeConfig (input released)).run s₂ = .ok () s₃ :=
    iteration_draws rfl rfl (by decide) (by decide) one oneWide
  have shows₂ : (iteration activeConfig (input released)).run s₃ = .ok () s₄ :=
    iteration_draws rfl rfl (show (0 : Int) ≤ (506 : Int32).toInt by decide)
      (show 0x10000000 + (506 : Int32).toInt < 2 ^ 31 by decide) two twoWide
  exact ⟨s₄, .step auto (.step hide (.step shows₁ (.step shows₂ .refl))),
    show (1012 : Int32).toInt = 1012 by decide, rfl⟩

/-- A hides the console, then B turns auto-advance on while `QRcode_encodeData` runs out
    of memory. -/
def failingEncode : List Input := [pressing keyA none, pressing keyB none]

theorem failingEncode_still : ∀ input ∈ failingEncode, input.keysDown.Still := by
  simp [failingEncode, pressing, keyA, keyB, Keys.Still]

/-- The console after A was pressed. -/
def hiddenConsole : Dump := ⟨false, false, 0, 0, [], [.black]⟩

theorem failingEncode_loses :
    (hiddenConsole, pressing keyB none) ∈
        taken (iteration activeConfig) (mainDumping 0) failingEncode ∧
      Loses activeConfig hiddenConsole (pressing keyB none) :=
  ⟨Reaches.taken (.step (iteration_a rfl _) .refl) (pressing keyB none) [],
    rfl, rfl, rfl, rfl, by decide, by simp [Drawn, hiddenConsole]⟩

/-- Auto-advance skips nothing while frames are encoded, and a frame that is not. -/
theorem nothingSkipped_iff_twoFrames :
    (∃ t ∈ visited (iteration activeConfig) (start true false 0)
        (twoFrames fun _ _ _ => some ⟨113, []⟩),
      t.romOffset.toInt = 1012 ∧ NothingSkipped activeConfig t) ∧
    ¬ ∀ t ∈ visited (iteration activeConfig) (start true false 0) failingEncode,
      NothingSkipped activeConfig t := by
  constructor
  · have still : ∀ input ∈ twoFrames fun _ _ _ => some ⟨113, []⟩, input.keysDown.Still := by
      simp [twoFrames, keyA, keyB, released, Keys.Still]
    have draws : ∀ input ∈ twoFrames fun _ _ _ => some ⟨113, []⟩,
        ∀ s, symbolOf activeConfig input s = some ⟨113, []⟩ := by
      simp [twoFrames, symbolOf]
    have kept := (nothingSkipped_iff activeConfig true false 0 _ still).mpr fun p member loses => by
      have fails := loses.encodeFails
      rw [draws p.2 (taken_input p member)] at fails
      cases fails
    obtain ⟨t, run, offset, -⟩ :=
      twoFrames_run (fun _ _ _ => some ⟨113, []⟩) rfl rfl rfl rfl
    exact ⟨t, run.visited, offset, kept t run.visited⟩
  · intro all
    obtain ⟨second, loses⟩ := failingEncode_loses
    exact (nothingSkipped_iff activeConfig true false 0 failingEncode failingEncode_still).mp all _
      second loses

/-- The frame at offset 0 is left behind although its symbol was never drawn. -/
theorem failingEncode_skips :
    (∀ input ∈ failingEncode, input.keysDown.Still) ∧
      ¬ ∀ t ∈ visited (iteration activeConfig) (mainDumping 0) failingEncode,
        NothingSkipped activeConfig t := by
  refine ⟨failingEncode_still, fun all => ?_⟩
  obtain ⟨second, loses⟩ := failingEncode_loses
  exact (nothingSkipped_from (tiled_start activeConfig true false 0) failingEncode_still).mp all _
    second loses

end AssistedDump.DumpLoop
