import AssistedDump.Console.DumpLoop
import AssistedDump.Heavylifting.ImageDecoder
import AssistedDump.Heavylifting.RomStoreContents

/-! # The frames of the console as the decoder reads them

`main_dumping` writes a counter, the offset and the rom bytes, most significant
byte of the offset first. `heavylifting_decode_image` reads the same offset and
the same bytes back, so a frame is the patch of the rom it was read from.
-/

namespace AssistedDump.FrameFormat

open ByteOrder RomStore ImageDecoder DumpLoop

/-- `qrdata` of `main_dumping` for the bytes in `rombuf`. -/
def qrdataOf (counter : UInt8) (romOffset : Int32) (rombuf : List UInt8) : List UInt8 :=
  header counter romOffset ++ rombuf

section Frames

variable (counter : UInt8) (romOffset : Int32) (rombuf : List UInt8)

theorem qrdataOf_length : (qrdataOf counter romOffset rombuf).length = 5 + rombuf.length := by
  simp only [qrdataOf, header, List.length_append, List.length_cons, List.length_nil]

theorem headerOffset_qrdataOf : headerOffset (qrdataOf counter romOffset rombuf) = romOffset.toUInt32 := by
  rw [headerOffset_eq_word, qrdataOf, header_eq]
  exact word_bytes romOffset.toUInt32

theorem fragmentOf_qrdataOf :
    fragmentOf (qrdataOf counter romOffset rombuf) =
      ⟨romOffset.toUInt32, Int32.ofNat rombuf.length, rombuf⟩ := by
  have count : Int32.ofNat (5 + rombuf.length) - 5 = Int32.ofNat rombuf.length := by
    rw [Nat.add_comm, Int32.ofNat_add]
    exact Int32.add_sub_cancel _ _
  rw [fragmentOf, headerOffset_qrdataOf, qrdataOf_length, count]
  rfl

end Frames

variable (cfg : Config) (bus : Nat → UInt8) (counter : UInt8) (romOffset : Int32)

theorem headerOffset_payload : headerOffset (payload cfg bus counter romOffset) = romOffset.toUInt32 :=
  headerOffset_qrdataOf counter romOffset _

/-- The fragment of a frame has the offset, the number and the bytes of its DMA read. -/
theorem fragmentOf_payload :
    fragmentOf (payload cfg bus counter romOffset) =
      ⟨romOffset.toUInt32, Int32.ofNat cfg.nrombytesPerFrame,
        dmaRead bus (0x10000000 + romOffset).toUInt32 cfg.nrombytesPerFrame⟩ := by
  have fragment := fragmentOf_qrdataOf counter romOffset
    (dmaRead bus (0x10000000 + romOffset).toUInt32 cfg.nrombytesPerFrame)
  rwa [dmaRead, List.length_map, List.length_range] at fragment

theorem payload_short : (payload cfg bus counter romOffset).length ≤ 10000 := by
  have := cfg.frame_small
  rw [payload_length]
  omega

variable {romOffset} (nonneg : 0 ≤ romOffset.toInt) (near : 0x10000000 + romOffset.toInt < 2 ^ 31)
include nonneg

theorem payload_covers (i : Nat) :
    (fragmentOf (payload cfg bus counter romOffset)).patch.Covers i ↔
      romOffset.toInt ≤ i ∧ i < romOffset.toInt + cfg.nrombytesPerFrame := by
  have offset := CSemantics.toUInt32_toNat nonneg
  simp only [fragmentOf_payload, RomFragment.patch, Patch.Covers, Patch.stop, dmaRead,
    List.length_map, List.length_range]
  omega

theorem payload_fits {n : MaxRomSize} (inside : romOffset.toInt + cfg.nrombytesPerFrame ≤ n.val) :
    Fits n (fragmentOf (payload cfg bus counter romOffset)) := by
  have offset := CSemantics.toUInt32_toNat nonneg
  have count := cfg.nrombytesPerFrame_toInt
  have filled := cfg.frame_fits.1
  rw [fragmentOf_payload]
  refine ⟨?_, ?_, ?_⟩
  · rw [count]
    omega
  · rw [count, offset]
    exact inside
  · simp only [dmaRead, List.length_map, List.length_range, count]

include near

/-- Every byte of a frame is the byte of the cartridge at its position. -/
theorem payload_at {i : Nat} {b : UInt8}
    (value : (fragmentOf (payload cfg bus counter romOffset)).patch.at? i = some b) :
    b = bus (0x10000000 + i) := by
  have covered := Patch.at?_isSome_iff.mp (Option.isSome_iff_exists.mpr ⟨b, value⟩)
  have offset := CSemantics.toUInt32_toNat nonneg
  have sum := (CSemantics.addInt_fits (a := 0x10000000) (b := romOffset)
    (by rw [dmaAddress_toInt]; omega) (by rw [dmaAddress_toInt]; exact near) ()).2
  rw [dmaAddress_toInt] at sum
  have address := CSemantics.toUInt32_toNat (a := 0x10000000 + romOffset) (by omega)
  rw [fragmentOf_payload] at value covered
  have reached : romOffset.toUInt32.toNat ≤ i := covered.1
  obtain ⟨k, rfl⟩ := Nat.exists_eq_add_of_le reached
  have read : (dmaRead bus (0x10000000 + romOffset).toUInt32 cfg.nrombytesPerFrame)[k]? = some b :=
    Patch.at?_add.symm.trans value
  simp only [dmaRead, List.getElem?_map, Option.map_eq_some_iff] at read
  obtain ⟨k', range, rfl⟩ := read
  obtain ⟨-, rfl⟩ := List.getElem?_eq_some_iff.mp range
  simp only [List.getElem_range]
  congr 1
  omega

omit nonneg near

/-! ## Frames of one rom -/

/-- A frame with the bytes of the rom wherever it lies below `size`. -/
def FrameOf (rom : Nat → UInt8) (size : Nat) : Shown → Prop
  | .black => True
  | .frame romOffset qrdata _ => 0 ≤ romOffset.toInt ∧ 0x10000000 + romOffset.toInt < 2 ^ 31 ∧
      ∃ bus counter, qrdata = payload cfg bus counter romOffset ∧
        ∀ i < size, bus (0x10000000 + i) = rom i

/-- The offset is never negative, and all frames shown are frames of the rom. -/
structure ShowsRom (rom : Nat → UInt8) (size : Nat) (s : Dump) : Prop where
  nonneg : 0 ≤ s.romOffset.toInt
  frames : ∀ shown ∈ s.shown, FrameOf cfg rom size shown

variable {cfg} {rom : Nat → UInt8} {size : Nat}

theorem showsRom_start (showConsole autoAdvance : Bool) (counter : UInt8) :
    ShowsRom cfg rom size (start showConsole autoAdvance counter) :=
  ⟨Int.le_refl 0, by simp [start]⟩

/-- One more surface, if it is a frame of the rom. -/
theorem ShowsRom.snoc {s t : Dump} (h : ShowsRom cfg rom size s) (nonneg : 0 ≤ t.romOffset.toInt)
    {last : Shown} (shown : t.shown = s.shown ++ [last]) (frame : FrameOf cfg rom size last) :
    ShowsRom cfg rom size t ∧ s.shown ⊆ t.shown := by
  rw [shown]
  refine ⟨⟨nonneg, ?_⟩, List.subset_append_left _ _⟩
  intro surface member
  rw [shown] at member
  cases List.mem_append.mp member with
  | inl earlier => exact h.frames surface earlier
  | inr new => exact List.mem_singleton.mp new ▸ frame

/-- The step lemma: whatever the buttons and the encoder do, a bus that answers with the
    rom keeps the frames those of the rom. -/
theorem showsRom_iteration {input : Input} {s : Dump} (h : ShowsRom cfg rom size s)
    (bus : ∀ i < size, input.bus (0x10000000 + i) = rom i) :
    ShowsRom cfg rom size (Machine.after (iteration cfg input) s) ∧
      s.shown ⊆ (Machine.after (iteration cfg input) s).shown := by
  obtain ⟨nonneg, adds⟩ : _ ∧ Adds cfg input s.shown _ := iteration_adds input h.nonneg
  rcases adds with same | black | ⟨u, low, near, frame⟩
  · rw [same]
    exact ⟨⟨nonneg, same ▸ h.frames⟩, List.Subset.refl _⟩
  · exact h.snoc nonneg black trivial
  · exact h.snoc nonneg frame ⟨low, near, input.bus, u.counter, rfl, bus⟩

/-- The data of a symbol that was shown. -/
def Displayed (shown : List Shown) (romOffset : Int32) (qrdata : List UInt8) : Prop :=
  ∃ symbol, .frame romOffset qrdata (some symbol) ∈ shown

/-- Wherever the patch of a displayed frame has a byte below `size`, it is the rom's. -/
theorem displayed_at {s : Dump} (h : ShowsRom cfg rom size s) {o : Int32} {qrdata : List UInt8}
    (displayed : Displayed s.shown o qrdata) {i : Nat} (below : i < size) {b : UInt8}
    (value : (fragmentOf qrdata).patch.at? i = some b) : b = rom i := by
  obtain ⟨symbol, member⟩ := displayed
  obtain ⟨nonneg, near, bus, counter, rfl, agree⟩ := h.frames _ member
  rw [payload_at cfg bus counter nonneg near value, agree i below]

/-- Displayed frames overlay to nothing but the rom, in whatever order they are stored. -/
theorem displayed_overlay {s : Dump} (h : ShowsRom cfg rom size s) {payloads : List (List UInt8)}
    (displayed : ∀ qrdata ∈ payloads, ∃ o, Displayed s.shown o qrdata) {i : Nat} (below : i < size)
    {b : UInt8} (value : overlay ((payloads.map fragmentOf).map RomFragment.patch) i = some b) :
    b = rom i := by
  have agree : ∀ p ∈ (payloads.map fragmentOf).map RomFragment.patch,
      ∀ b, p.at? i = some b → b = rom i := by
    rw [List.forall_mem_map, List.forall_mem_map]
    intro qrdata member b value
    obtain ⟨o, shown⟩ := displayed qrdata member
    exact displayed_at h shown below value
  exact overlay_agrees agree value

theorem displayed_covers {s : Dump} (h : ShowsRom cfg rom size s) {o : Int32} {qrdata : List UInt8}
    (displayed : Displayed s.shown o qrdata) (i : Nat) :
    (fragmentOf qrdata).patch.Covers i ↔
      o.toInt ≤ i ∧ i < o.toInt + cfg.nrombytesPerFrame := by
  obtain ⟨symbol, member⟩ := displayed
  obtain ⟨nonneg, near, bus, counter, rfl, agree⟩ := h.frames _ member
  exact payload_covers cfg bus counter nonneg i

theorem displayed_fits {s : Dump} (h : ShowsRom cfg rom size s) {o : Int32} {qrdata : List UInt8}
    (displayed : Displayed s.shown o qrdata) {n : MaxRomSize}
    (inside : o.toInt + cfg.nrombytesPerFrame ≤ n.val) : Fits n (fragmentOf qrdata) := by
  obtain ⟨symbol, member⟩ := displayed
  obtain ⟨nonneg, near, bus, counter, rfl, agree⟩ := h.frames _ member
  exact payload_fits cfg bus counter nonneg inside

theorem displayed_header {s : Dump} (h : ShowsRom cfg rom size s) {o : Int32} {qrdata : List UInt8}
    (displayed : Displayed s.shown o qrdata) :
    ((headerOffset qrdata).toNat : Int) = o.toInt ∧
      qrdata.length = 5 + cfg.nrombytesPerFrame ∧ qrdata.length ≤ 10000 := by
  obtain ⟨symbol, member⟩ := displayed
  obtain ⟨nonneg, near, bus, counter, rfl, agree⟩ := h.frames _ member
  rw [headerOffset_payload]
  exact ⟨CSemantics.toUInt32_toNat nonneg, payload_length _ _ _ _, payload_short _ _ _ _⟩

/-! ## Round trips -/

/-- The counter of a decoded payload. -/
def counterOf (decodedData : List UInt8) : UInt8 := decodedData.getD 0 0

/-- A frame goes through the worker's message and is read back from inside of it, with its
    offset modulo 2^32 and its bytes. -/
def Arrives (counter : UInt8) (romOffset : Int32) (rombuf : List UInt8) : Prop :=
  ∃ message frag,
    (heavyliftingDecodeImage [qrdataOf counter romOffset rombuf]).run () = .ok message () ∧
      message.length = 12 + rombuf.length ∧
      (readResponse message).run () = .ok ⟨hlSuccess, some frag⟩ () ∧
      (frag.offset.toNat : Int) % 2 ^ 32 = romOffset.toInt % 2 ^ 32 ∧
      frag.nBytes.toInt = rombuf.length ∧ frag.bytes = rombuf ∧
      ∀ i < frag.count, 12 + i < message.length ∧ message[12 + i]? = rombuf[i]?

/-- The header of a payload is that of its counter and its offset, and the bytes of its
    fragment are the rest of it. -/
def Rebuilt (payload : List UInt8) : Prop :=
  ∃ frag, (heavyliftingDecodeImage [payload]).run () = .ok (response hlSuccess frag) () ∧
    qrdataOf (counterOf payload) frag.offset.toInt32 frag.bytes = payload

theorem arrives (counter : UInt8) (romOffset : Int32) {rombuf : List UInt8}
    (short : rombuf.length + 5 ≤ 10000) : Arrives counter romOffset rombuf := by
  have length := qrdataOf_length counter romOffset rombuf
  have decoded := heavyliftingDecodeImage_payload (show 5 ≤ _ by omega)
    (show (qrdataOf counter romOffset rombuf).length ≤ 10000 by omega) ()
  have count : (Int32.ofNat rombuf.length).toInt = rombuf.length :=
    Int32.toInt_ofNat_of_lt (by omega)
  rw [fragmentOf_qrdataOf] at decoded
  refine ⟨_, _, decoded, response_length _ _, readResponse_success _ (), ?_, count, rfl, ?_⟩
  · rw [toUInt32_emod, Int.emod_emod]
  · intro i before
    simp only [RomFragment.count, count, Int.toNat_natCast] at before
    refine ⟨?_, ?_⟩
    · rw [response_length]
      change 12 + i < 12 + rombuf.length
      omega
    · rw [← List.getElem?_drop]
      rfl

theorem rebuilt {payload : List UInt8} (long : 5 ≤ payload.length)
    (short : payload.length ≤ 10000) : Rebuilt payload := by
  refine ⟨fragmentOf payload, heavyliftingDecodeImage_payload long short (), ?_⟩
  match payload, long with
  | b₀ :: b₁ :: b₂ :: b₃ :: b₄ :: rest, _ =>
      rw [qrdataOf, header_eq, UInt32.toUInt32_toInt32]
      change b₀ :: bytesBE (word b₁ b₂ b₃ b₄) ++ rest = _
      rw [bytesBE_word]
      rfl

/-- Every frame arrives as it was sent, whatever the sign of its offset, and every payload
    with a header is the frame of what was read from it. -/
theorem frame_roundTrip :
    (∀ (counter : UInt8) (romOffset : Int32) (rombuf : List UInt8), 1 ≤ rombuf.length →
      rombuf.length + 5 ≤ 10000 → Arrives counter romOffset rombuf) ∧
    ∀ payload : List UInt8, 5 ≤ payload.length → payload.length ≤ 10000 → Rebuilt payload :=
  ⟨fun counter romOffset _ _ short => arrives counter romOffset short,
    fun _ long short => rebuilt long short⟩

theorem frame_roundTrip_negative :
    Arrives 0xFF (-2) [0x80, 0x37] ∧ Rebuilt [0xFF, 0xFF, 0xFF, 0xFF, 0xFE] :=
  ⟨frame_roundTrip.1 0xFF (-2) [0x80, 0x37] (by decide) (by decide),
    frame_roundTrip.2 [0xFF, 0xFF, 0xFF, 0xFF, 0xFE] (by decide) (by decide)⟩

end AssistedDump.FrameFormat
