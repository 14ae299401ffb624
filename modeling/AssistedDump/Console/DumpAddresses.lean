import AssistedDump.Console.DumpCoverage

/-! # The addresses of the dump loop

Up stops at offset 0, Down and auto-advance stop nowhere. A run stays in range
exactly when none of its iterations moves the offset out of `int` or shows a frame
that ends beyond the cartridge window.
-/

namespace AssistedDump.DumpLoop

open CSemantics Machine

/-- The rom of a cartridge is seen from 0x10000000 on, the PIF rom from 0x1FC00000 on. -/
def DmaRead.InWindow (read : DmaRead) : Prop :=
  0x10000000 ≤ read.piAddress.toNat ∧ read.piAddress.toNat + read.len ≤ 0x1FC00000

structure Ranged (s : Dump) : Prop where
  even : s.romOffset.toInt % 2 = 0
  nonneg : 0 ≤ s.romOffset.toInt
  window : ∀ read ∈ s.dmaReads, read.InWindow

variable (cfg : Config)

/-- The state an iteration leaves is in range and none of its sums has overflowed. -/
def RangedStep (s : Dump) (input : Input) : Prop :=
  Ranged (after (iteration cfg input) s) ∧
    ∀ t, (iteration cfg input).run s ≠ .error .signedOverflow t

/-- The frame of a run fits in the symbol and the states of the run are in range. -/
structure InRange (s : Dump) (inputs : List Input) : Prop where
  fits : 5 + cfg.nrombytesPerFrame ≤ cfg.qrcodeMaxBytes
  filled : 8 ≤ cfg.nrombytesPerFrame
  states : ∀ t ∈ visited (iteration cfg) s inputs, Ranged t
  sums : ∀ p ∈ taken (iteration cfg) s inputs, ∀ t,
    (iteration cfg p.2).run p.1 ≠ .error .signedOverflow t

/-- The buttons leave the offset an `int`, and the cartridge window has room for a frame
    there if one is shown. -/
def Room (s : Dump) (input : Input) : Prop :=
  input.keysDown.a = false →
    input.keysDown.target s.romOffset.toInt < 2 ^ 31 ∧
      (s.showConsole = false →
        input.keysDown.target s.romOffset.toInt + cfg.nrombytesPerFrame ≤ 0x1FC00000 - 0x10000000)

variable {cfg}

theorem ranged_start (showConsole autoAdvance : Bool) (counter : UInt8) :
    Ranged (start showConsole autoAdvance counter) :=
  ⟨rfl, Int.le_refl 0, by simp [start]⟩

/-- The buttons keep the offset even. -/
theorem target_even (keysDown : Keys) {o : Int} (even : o % 2 = 0) : keysDown.target o % 2 = 0 := by
  simp only [Keys.target]
  split <;> split <;> omega

/-- The read of a frame lies in the window exactly if the frame ends before it does. -/
theorem read_inWindow {s : Dump} (nonneg : 0 ≤ s.romOffset.toInt)
    (near : 0x10000000 + s.romOffset.toInt < 2 ^ 31) :
    DmaRead.InWindow ⟨(0x10000000 + s.romOffset).toUInt32, cfg.nrombytesPerFrame⟩ ↔
      s.romOffset.toInt + cfg.nrombytesPerFrame ≤ 0x1FC00000 - 0x10000000 := by
  have value := (addInt_fits (a := 0x10000000) (b := s.romOffset)
    (by rw [dmaAddress_toInt]; omega) (by rw [dmaAddress_toInt]; exact near) s).2
  rw [dmaAddress_toInt] at value
  have address := toUInt32_toNat (a := 0x10000000 + s.romOffset) (by omega)
  simp only [DmaRead.InWindow]
  omega

theorem ranged_readOut {s : Dump} (h : Ranged s) (near : 0x10000000 + s.romOffset.toInt < 2 ^ 31) :
    Ranged (readOut cfg s) ↔
      s.romOffset.toInt + cfg.nrombytesPerFrame ≤ 0x1FC00000 - 0x10000000 := by
  rw [← read_inWindow h.nonneg near]
  constructor
  · exact fun ranged => ranged.window _ (List.mem_append_right _ (List.mem_singleton_self _))
  · intro inWindow
    refine ⟨h.even, h.nonneg, fun read member => ?_⟩
    cases List.mem_append.mp member with
    | inl earlier => exact h.window read earlier
    | inr last => exact List.mem_singleton.mp last ▸ inWindow

/-- Auto-advance keeps a state in range. -/
theorem ranged_advanced {input : Input} {s : Dump} (h : Ranged s)
    (near : 0x10000000 + s.romOffset.toInt < 2 ^ 31) :
    Ranged (advanced cfg (framed cfg input s)) ↔ Ranged (readOut cfg s) := by
  have even := cfg.frame_fits.2.1
  have small := cfg.frame_small
  have room : s.romOffset.toInt + cfg.nrombytesPerFrame < 2 ^ 31 := by omega
  have offset := (advance_fits (s := framed cfg input s) h.nonneg room).2
  have before : (framed cfg input s).romOffset.toInt = s.romOffset.toInt := rfl
  have parity := h.even
  have nonneg := h.nonneg
  refine ⟨fun ranged => ⟨h.even, h.nonneg, ranged.window⟩, fun ranged => ⟨?_, ?_, ranged.window⟩⟩
  · rw [offset]
    split <;> omega
  · rw [offset]
    split <;> omega

theorem rangedStep_ok {input : Input} {s t : Dump} (run : (iteration cfg input).run s = .ok () t) :
    RangedStep cfg s input ↔ Ranged t := by
  simp [RangedStep, run, after_ok run]

theorem rangedStep_overflow {input : Input} {s t : Dump}
    (run : (iteration cfg input).run s = .error .signedOverflow t) : ¬ RangedStep cfg s input :=
  fun ranged => ranged.2 t run

theorem rangedStep_showFrame {input : Input} {s : Dump} (h : Ranged s)
    {t : Dump} (same : (iteration cfg input).run t = (showFrame cfg input).run s) :
    RangedStep cfg t input ↔
      s.romOffset.toInt + cfg.nrombytesPerFrame ≤ 0x1FC00000 - 0x10000000 := by
  cases showFrame_run cfg input h.nonneg with
  | overflows far run =>
      apply iff_of_false (rangedStep_overflow (same.trans run))
      omega
  | mismatch near disagree run =>
      have stopped := same.trans run
      rw [← ranged_readOut h near]
      simp [RangedStep, stopped, after_error stopped]
  | shows near agree run =>
      rw [rangedStep_ok (same.trans run), ranged_advanced h near]
      exact ranged_readOut h near

/-- The step lemma: from a state in range, an iteration stays in range exactly if it has
    the room for it. -/
theorem rangedStep_iff {input : Input} {s : Dump} (h : Ranged s) :
    RangedStep cfg s input ↔ Room cfg s input := by
  have even := target_even input.keysDown h.even
  have nonneg := target_nonneg input.keysDown h.nonneg
  have moved : ∀ {o : Int32}, o.toInt = input.keysDown.target s.romOffset.toInt →
      Ranged (pressed input.keysDown o s) := by
    intro o value
    rw [← value] at even nonneg
    exact ⟨even, nonneg, h.window⟩
  cases iteration_run cfg input h.nonneg with
  | toggles a run =>
      rw [rangedStep_ok run]
      exact iff_of_true ⟨h.even, h.nonneg, h.window⟩ fun unpressed => by simp [a] at unpressed
  | stops t a far low shown run =>
      apply iff_of_false (rangedStep_overflow run)
      intro room
      have near := (room a).1
      omega
  | console o a console value run =>
      have near := (int_range o).2
      rw [value] at near
      rw [rangedStep_ok run]
      exact iff_of_true (moved value) fun _ => ⟨near, by simp [console]⟩
  | frame o a hidden value run =>
      have near := (int_range o).2
      rw [value] at near
      have offset : (pressed input.keysDown o s).romOffset.toInt = _ := value
      rw [rangedStep_showFrame (moved value) run, offset]
      simp only [Room, a, hidden, near, true_and, forall_const]

/-- From a state in range, a run stays in range exactly if each of its iterations has
    the room for it. -/
theorem inRange_from {s : Dump} (h : Ranged s) (inputs : List Input) :
    InRange cfg s inputs ↔ ∀ p ∈ taken (iteration cfg) s inputs, Room cfg p.1 p.2 := by
  have steps : (∀ p ∈ taken (iteration cfg) s inputs, RangedStep cfg p.1 p.2) ↔
      ∀ p ∈ taken (iteration cfg) s inputs, Room cfg p.1 p.2 :=
    taken_iff (I := Ranged) (P := fun _ => True) h (fun _ _ => trivial)
      (fun s input _ h room => ((rangedStep_iff h).mpr room).1) fun s input _ h => rangedStep_iff h
  rw [← steps]
  constructor
  · intro inRange p member
    exact ⟨(visited_iff.mp inRange.states).2 p member, inRange.sums p member⟩
  · intro ranged
    exact ⟨cfg.frame_fits.2.2, cfg.frame_fits.1,
      visited_iff.mpr ⟨h, fun p member => (ranged p member).1⟩,
      fun p member => (ranged p member).2⟩

/-- Whatever the configuration and the buttons are. -/
theorem inRange_iff (cfg : Config) (showConsole autoAdvance : Bool) (counter : UInt8)
    (inputs : List Input) :
    InRange cfg (start showConsole autoAdvance counter) inputs ↔
      ∀ p ∈ taken (iteration cfg) (start showConsole autoAdvance counter) inputs,
        Room cfg p.1 p.2 :=
  inRange_from (ranged_start showConsole autoAdvance counter) inputs

/-- An iteration without buttons whose frame is encoded. -/
def encoded : Input := pressing released (some ⟨113, []⟩)

theorem encoded_plain : Plain activeConfig encoded := ⟨rfl, fun _ => ⟨⟨113, []⟩, rfl, rfl⟩⟩

/-- B turns auto-advance on, A hides the console, and the console is left alone for
    522216 frames. -/
def leftAlone : List Input :=
  [pressing keyB none, pressing keyA none] ++ (List.replicate 522215 encoded ++ [encoded])

/-- The last frame of the run is read from beyond the cartridge window. -/
theorem leftAlone_leaves : ¬ InRange activeConfig (mainDumping 0) leftAlone := by
  intro inRange
  have still : (pressing keyB none).keysDown.Still := ⟨rfl, rfl⟩
  have auto : (iteration activeConfig (pressing keyB none)).run (mainDumping 0) =
      .ok () ⟨true, true, 0, 0, [], []⟩ := iteration_console (by decide) (press_still still _) rfl
  have hide : (iteration activeConfig (pressing keyA none)).run ⟨true, true, 0, 0, [], []⟩ =
      .ok () ⟨false, true, 0, 0, [], [.black]⟩ := iteration_a rfl _
  obtain ⟨t, run, unattended, -⟩ := plain_run encoded_plain 522215
    (s := ⟨false, true, 0, 0, [], [.black]⟩) (o := 0) ⟨rfl, rfl, rfl⟩ (by decide) (by decide)
  have last : (t, encoded) ∈ taken (iteration activeConfig) (mainDumping 0) leftAlone := by
    have reached := Reaches.step auto (.step hide run)
    have member := reached.taken encoded []
    rwa [List.cons_append, List.cons_append] at member
  have room := ((inRange_from (ranged_start true false 0) leftAlone).mp inRange _ last rfl).2
    unattended.hidden
  have offset := unattended.offset
  simp only [Keys.target, encoded, pressing, released, Bool.false_eq_true, if_false, offset] at room
  exact absurd room (by decide)

end AssistedDump.DumpLoop
