import AssistedDump.Console.DumpAddresses
import AssistedDump.Heavylifting.RomStoreGuard
import AssistedDump.Pipeline.FrameFormat

/-! # A whole dump by auto-advance

The console is left to auto-advance over a rom of `S` bytes and every frame it
shows is decoded in the order shown. The frames tile the rom and the last one
reaches up to 505 bytes beyond it. The store takes a frame as a whole or not at
all, so the dump is complete exactly when the last frame still ends inside the
array.
-/

namespace AssistedDump.AutoDump

open CSemantics Machine RomStore ImageDecoder DumpLoop FrameFormat

/-- The encoder returns a symbol of the configured width if the iteration calls it. -/
def Encodes (cfg : Config) (s : Dump) (input : Input) : Prop :=
  input.keysDown.a = false → s.showConsole = false →
    ∃ symbol, symbolOf cfg input s = some symbol ∧ symbol.width = cfg.qrcodeWidth

/-- A run of the loop over a rom of `S` bytes: auto-advance is on, the console is hidden,
    and the first state at or beyond `S` is the last. -/
structure FullDump (S : Nat) (rom : Nat → UInt8) (counter : UInt8) (inputs : List Input)
    (final : Dump) : Prop where
  nonempty : 0 < S
  size : S ≤ workerMaxRomSize.val
  still : ∀ input ∈ inputs, input.keysDown.Still
  bus : ∀ input ∈ inputs, ∀ i < S, input.bus (0x10000000 + i) = rom i
  encodes : ∀ p ∈ taken (iteration activeConfig) (start false true counter) inputs,
    Encodes activeConfig p.1 p.2
  run : Reaches (iteration activeConfig) (start false true counter) inputs final
  before : ∀ p ∈ taken (iteration activeConfig) (start false true counter) inputs,
    p.1.romOffset.toInt < S
  done : S ≤ final.romOffset.toInt

/-- The payloads of the symbols shown, in order. -/
def captured (shown : List Shown) : List (List UInt8) :=
  shown.filterMap fun
    | .frame _ qrdata (some _) => some qrdata
    | _ => none

/-- No assertion fails while the captured frames are handled, and then the store has the
    rom in its first `S` cells. -/
def Complete (S : Nat) (rom : Nat → UInt8) (payloads : List (List UInt8)) : Prop :=
  ∃ t : Store workerMaxRomSize,
    Reaches (fun data => processImage [data]) (heavyliftingInit workerMaxRomSize) payloads t ∧
      ∀ i : Fin workerMaxRomSize.val, i.val < S → (t.romData i).toInt = (rom i).toNat

/-- The end of the last frame of a rom of `S` bytes. -/
def lastStop (S : Nat) : Nat :=
  (S + (activeConfig.nrombytesPerFrame - 1)) / activeConfig.nrombytesPerFrame *
    activeConfig.nrombytesPerFrame

/-! ## The frames of the run -/

/-- What the run keeps: the frames tile the rom, and all of them begin inside it. -/
structure Dumping (S : Nat) (rom : Nat → UInt8) (s : Dump) : Prop where
  tiled : Tiled activeConfig s
  showsRom : ShowsRom activeConfig rom S s
  below : ∀ o, Drawn s o → o < S

theorem frame_length : activeConfig.nrombytesPerFrame = 506 := by decide

variable {S : Nat} {rom : Nat → UInt8} {counter : UInt8} {inputs : List Input} {s final : Dump}

theorem dumping_iteration {input : Input} (h : Dumping S rom s) (still : input.keysDown.Still)
    (bus : ∀ i < S, input.bus (0x10000000 + i) = rom i) (encodes : Encodes activeConfig s input)
    (before : s.romOffset.toInt < S) : Dumping S rom (after (iteration activeConfig input) s) := by
  have kept : ¬ Loses activeConfig s input := by
    intro loses
    obtain ⟨symbol, drawn, -⟩ := encodes loses.a loses.hidden
    simp [loses.encodeFails] at drawn
  refine ⟨tiled_iteration still h.tiled kept, (showsRom_iteration h.showsRom bus).1, ?_⟩
  intro o drawn
  by_cases shows_ : Shows activeConfig input s
  · cases ((after_shows still h.tiled shows_).2 o).mp drawn with
    | inl earlier => exact h.below o earlier
    | inr last => exact last.2 ▸ before
  · have shown := (iteration_idle still h.tiled.nonneg shows_).2
    exact h.below o ((drawn_black shown o).mp drawn)

theorem FullDump.dumping (h : FullDump S rom counter inputs final) : Dumping S rom final := by
  have initial : Dumping S rom (start false true counter) :=
    ⟨tiled_start activeConfig false true counter, showsRom_start false true counter,
      by simp [Drawn, start]⟩
  apply h.run.of_taken initial
  intro p member u dumping run
  have input := taken_input p member
  have next := dumping_iteration dumping (h.still _ input) (h.bus _ input) (h.encodes p member)
    (h.before p member)
  rwa [after_ok run] at next

/-! ## The captured payloads -/

theorem mem_captured {shown : List Shown} {data : List UInt8} :
    data ∈ captured shown ↔ ∃ o, Displayed shown o data := by
  simp only [captured, List.mem_filterMap, Displayed]
  constructor
  · rintro ⟨_ | ⟨o, qrdata, _ | symbol⟩, member, value⟩ <;> simp only [reduceCtorEq] at value
    obtain rfl := Option.some.inj value
    exact ⟨o, symbol, member⟩
  · intro displayed
    obtain ⟨o, symbol, member⟩ := displayed
    exact ⟨_, member, rfl⟩

/-- A displayed frame begins at a multiple of the frame length below `S`. -/
theorem Dumping.aligned (h : Dumping S rom s) {o : Int32} {data : List UInt8}
    (displayed : Displayed s.shown o data) :
    ∃ j : Nat, o.toInt = j * 506 ∧ (j * 506 : Nat) < S := by
  obtain ⟨symbol, member⟩ := displayed
  have drawn : Drawn s o.toInt := ⟨o, data, symbol, member, rfl⟩
  obtain ⟨j, aligned⟩ := h.tiled.drawn _ drawn
  have below := h.below _ drawn
  rw [frame_length] at aligned
  exact ⟨j, aligned, by omega⟩

/-- The frame at a multiple of the frame length below `S` is among the captured ones. -/
theorem FullDump.captures (h : FullDump S rom counter inputs final) {j : Nat}
    (below : j * 506 < S) :
    ∃ (o : Int32) (data : List UInt8), o.toInt = j * 506 ∧ Displayed final.shown o data := by
  have done := h.done
  have tiles := h.dumping.tiled.tiles j
  rw [frame_length] at tiles
  obtain ⟨o, data, symbol, member, value⟩ := tiles (by omega)
  exact ⟨o, data, value, symbol, member⟩

/-! ## The two directions -/

/-- Where the last frame fits, every frame does, and the store ends up with the rom. -/
theorem complete_of_fits (h : FullDump S rom counter inputs final)
    (fits : lastStop S ≤ workerMaxRomSize.val) : Complete S rom (captured final.shown) := by
  have dumping := h.dumping
  have allFit : ∀ data ∈ captured final.shown, Fits workerMaxRomSize (fragmentOf data) := by
    intro data member
    obtain ⟨o, displayed⟩ := mem_captured.mp member
    obtain ⟨j, aligned, below⟩ := dumping.aligned displayed
    apply displayed_fits dumping.showsRom displayed
    rw [lastStop, frame_length] at fits
    rw [frame_length]
    omega
  obtain ⟨t, run, represents⟩ := run_represents (represents_init workerMaxRomSize)
    (List.forall_mem_map.mpr allFit)
  refine ⟨t, run.of_map fun data member u => ?_, fun i below => ?_⟩
  · obtain ⟨o, displayed⟩ := mem_captured.mp member
    obtain ⟨-, length, short⟩ := displayed_header dumping.showsRom displayed
    exact processImage_payload (by omega) short u
  · rw [List.nil_append] at represents
    rw [represents.cells i]
    -- the frame that covers the position is among those captured
    have stored : overlay (((captured final.shown).map fragmentOf).map RomFragment.patch) i ≠ none := by
      intro unknown
      obtain ⟨o, data, value, displayed⟩ := h.captures (j := i.val / 506) (by omega)
      have member := mem_captured.mpr ⟨o, displayed⟩
      refine overlay_eq_none_iff.mp unknown _
        (List.mem_map_of_mem (List.mem_map_of_mem member)) ?_
      apply (displayed_covers dumping.showsRom displayed i).mpr
      rw [frame_length]
      omega
    obtain ⟨b, byte⟩ := Option.ne_none_iff_exists'.mp stored
    rw [byte, displayed_overlay dumping.showsRom (fun data => mem_captured.mp) below byte]
    exact cell_toInt _

/-- A last frame beyond the array is rejected as a whole. -/
theorem fits_of_complete (h : FullDump S rom counter inputs final)
    (complete : Complete S rom (captured final.shown)) : lastStop S ≤ workerMaxRomSize.val := by
  obtain ⟨t, run, -⟩ := complete
  have dumping := h.dumping
  have nonempty := h.nonempty
  obtain ⟨o, data, value, displayed⟩ := h.captures (j := (S - 1) / 506) (by omega)
  obtain ⟨u, v, step⟩ := run.each data (mem_captured.mpr ⟨o, displayed⟩)
  obtain ⟨offset, length, short⟩ := displayed_header dumping.showsRom displayed
  have inside := (processImage_bound short step).2
  rw [frame_length] at length
  rw [lastStop, frame_length]
  omega

/-- The dump of a rom is complete exactly if its last frame ends inside the array. -/
theorem complete_iff (S : Nat) (rom : Nat → UInt8) (counter : UInt8) (inputs : List Input)
    (final : Dump) (dump : FullDump S rom counter inputs final) :
    Complete S rom (captured final.shown) ↔ (S + 505) / 506 * 506 ≤ 64 * 1024 * 1024 :=
  ⟨fits_of_complete dump, complete_of_fits dump⟩

/-- A console left alone for as many frames as the rom has. -/
theorem fullDump_plain {S k : Nat} (nonempty : 0 < S) (size : S ≤ workerMaxRomSize.val)
    (enough : S ≤ k * 506) (last : k * 506 < S + 506) {rom : Nat → UInt8} (counter : UInt8)
    {input : Input} (plain : Plain activeConfig input)
    (bus : ∀ i < S, input.bus (0x10000000 + i) = rom i) :
    ∃ final, FullDump S rom counter (List.replicate k input) final := by
  have small : workerMaxRomSize.val = 67108864 := rfl
  obtain ⟨final, run, unattended, below⟩ := plain_run plain k
    (s := start false true counter) (o := 0) ⟨rfl, rfl, rfl⟩ (by decide) (by rw [frame_length]; omega)
  rw [frame_length] at unattended below
  refine ⟨final, nonempty, size, ?_, ?_, ?_, run, ?_, ?_⟩
  · intro input member
    obtain rfl := List.eq_of_mem_replicate member
    simp [Keys.Still, plain.unpressed]
  · intro input member
    obtain rfl := List.eq_of_mem_replicate member
    exact bus
  · intro p member _ _
    rw [List.eq_of_mem_replicate (taken_input p member)]
    exact plain.encodes p.1
  · intro p member
    have := below p member
    omega
  · have := unattended.offset
    omega

theorem complete_iff_one_frame :
    ∃ final, FullDump 100 (fun _ => 0) 0 (List.replicate 1 encoded) final ∧
      (Complete 100 (fun _ => 0) (captured final.shown) ↔
        (100 + 505) / 506 * 506 ≤ 64 * 1024 * 1024) := by
  have bus : ∀ i < 100, encoded.bus (0x10000000 + i) = 0 := fun _ _ => rfl
  obtain ⟨final, dump⟩ := fullDump_plain (S := 100) (k := 1) (by decide) (by decide) (by decide)
    (by decide) 0 encoded_plain bus
  exact ⟨final, dump, complete_iff 100 _ 0 _ final dump⟩

/-- The last frame of a 64 MiB rom reaches 398 bytes beyond the array. -/
theorem largest_rom_incomplete :
    ∃ final, FullDump (64 * 1024 * 1024) (fun _ => 0) 0 (List.replicate 132627 encoded) final ∧
      ¬ Complete (64 * 1024 * 1024) (fun _ => 0) (captured final.shown) := by
  have bus : ∀ i < 64 * 1024 * 1024, encoded.bus (0x10000000 + i) = 0 := fun _ _ => rfl
  obtain ⟨final, dump⟩ := fullDump_plain (S := 64 * 1024 * 1024) (k := 132627) (by decide)
    (by decide) (by decide) (by decide) 0 encoded_plain bus
  exact ⟨final, dump, fun complete => absurd (fits_of_complete dump complete) (by decide)⟩

end AssistedDump.AutoDump
