import AssistedDump.Qrencode.RoundTrip

/-! # The symbols of the encoder

Which data has a symbol, in which version and under which mask, and that the
decoder returns the data of every symbol.
-/

namespace AssistedDump.QrEncode

open BitStream Decoder QrInput QrSpec
open DumpLoop (QRecLevel)

/-! ## What an encoded symbol shows -/

theorem encodeMask_made {input : QRinput} {mask : Int} {code : QRcode}
    (encoded : encodeMask input mask = some code) :
    ∃ data final chunks, getByteStream input = some (data, final) ∧
      Stream input final data chunks := by
  rw [encodeMask] at encoded
  obtain ⟨raw, isRaw, _⟩ := Option.bind_eq_some_iff.mp encoded
  rw [QRRawCode.new] at isRaw
  obtain ⟨⟨data, final⟩, isMade, _⟩ := Option.bind_eq_some_iff.mp isRaw
  obtain ⟨chunks, stream⟩ := getByteStream_some isMade
  exact ⟨data, final, chunks, isMade, stream⟩

/-- A symbol shows the frame of its input, masked as it was asked for. -/
theorem encodeMask_some {input : QRinput} {mask : Int} {code : QRcode}
    (encoded : encodeMask input mask = some code) :
    ∃ data final chunks raw blank frame, getByteStream input = some (data, final) ∧
      Stream input final data chunks ∧ raw.Made final.version input.level data ∧
      Filled raw final.version blank frame ∧
      code.version = final.version ∧ code.width = getWidth final.version ∧
      maskedBy mask (getWidth final.version) frame input.level = some code.data := by
  obtain ⟨data, final, chunks, made, stream⟩ := encodeMask_made encoded
  obtain ⟨raw, blank, frame, rawMade, filled, result⟩ := encodeMask_filled made stream
  rw [result mask, Option.map_eq_some_iff] at encoded
  obtain ⟨masked, done, rfl⟩ := encoded
  exact ⟨data, final, chunks, raw, blank, frame, made, stream, rawMade, filled, rfl, rfl, done⟩

section Filled

variable {raw : QRRawCode} {version : Nat} {blank frame : Frame} (filled : Filled raw version blank frame)

include filled

/-- Except for debugging a frame is shown under one of the eight masks. -/
theorem Filled.masked {level : QRecLevel} {mask : Int} {shown : Frame} (real : mask ≠ -2)
    (done : maskedBy mask (getWidth version) frame level = some shown) :
    ∃ choice, Masked raw version level blank frame choice shown := by
  have lay := layout filled.known
  rw [maskedBy, if_neg real] at done
  split at done
  · obtain ⟨choice, known, _, ⟨least, shows, makes⟩, _⟩ :=
      Mask.mask_least lay.wide.least lay.most filled.length level
    rw [done] at shows
    cases shows
    exact ⟨choice, filled, known, makes⟩
  · refine ⟨mask.toNat, filled, ?_, done⟩
    by_contra large
    rw [Mask.makeMask, if_pos (Nat.not_lt.mp large)] at done
    cases done

theorem Filled.masked_some (level : QRecLevel) :
    ∃ shown, maskedBy (-1) (getWidth version) frame level = some shown := by
  have lay := layout filled.known
  obtain ⟨_, _, _, ⟨shown, shows, _⟩, _⟩ :=
    Mask.mask_least lay.wide.least lay.most filled.length level
  exact ⟨shown, shows⟩

end Filled

/-- What the decoder returns for a symbol, down to the chunks it found. -/
theorem encodeMask_decodes {input : QRinput} {mask : Int} {code : QRcode} (real : mask ≠ -2)
    (encoded : encodeMask input mask = some code) :
    ∃ chunks, chunks.flatten = input.head.flatten ∧ decode code.toQRcode = some {
      version := code.version
      level := input.level
      chunks
      data := concatChunkList chunks } := by
  obtain ⟨_, final, chunks, raw, blank, frame, _, stream, made, filled, version, width, done⟩ :=
    encodeMask_some encoded
  obtain ⟨choice, masked⟩ := filled.masked real done
  have decoded := (decode_masked stream made masked).1
  rw [← width] at decoded
  exact ⟨chunks, stream.whole, version ▸ decoded⟩

/-! ## Encoding data -/

/-- The input `QRcode_encodeDataReal` builds. -/
def dataInput (data : List UInt8) (version : Nat) (level : QRecLevel)
    (known : version ≤ versionMax) : QRinput := ⟨version, level, [data], known⟩

theorem encodeData_eq {data : List UInt8} (filled : data ≠ []) {version : Nat}
    (known : version ≤ versionMax) (level : QRecLevel) :
    encodeData data version level = encodeInput (dataInput data version level known) := by
  have some : ¬ data.length = 0 := fun none => filled (List.length_eq_zero_iff.mp none)
  simp only [encodeData, encodeDataReal, if_neg some, new2, dif_neg (Nat.not_lt.mpr known), append,
    Option.bind_eq_bind, Option.bind_some, List.nil_append]
  rfl

theorem encodeData_known {data : List UInt8} {version : Nat} {level : QRecLevel} {code : QRcode}
    (encoded : encodeData data version level = some code) :
    data ≠ [] ∧ ∃ known : version ≤ versionMax,
      encodeInput (dataInput data version level known) = some code := by
  have filled : data ≠ [] := by
    rintro rfl
    cases encoded
  have known : version ≤ versionMax := by
    by_contra large
    have some : ¬ data.length = 0 := fun none => filled (List.length_eq_zero_iff.mp none)
    simp [encodeData, encodeDataReal, some, new2, Nat.not_le.mp large] at encoded
  exact ⟨filled, known, encodeData_eq filled known level ▸ encoded⟩

theorem exists_least {level : QRecLevel} {size : Nat} (fits : Fits versionMax level size) :
    ∃ least, Least level size least := by
  have some : ∃ v, Version v ∧ Fits v level size :=
    ⟨versionMax, ⟨by decide, le_refl _⟩, fits⟩
  classical
  exact ⟨Nat.find some, Nat.find_spec some, fun v member => Nat.find_min' some member⟩

/-- Data that fits has a symbol, of the least version that holds it or the one asked for. -/
theorem encodeData_least {data : List UInt8} (filled : data ≠ []) {version least : Nat}
    (known : version ≤ versionMax) {level : QRecLevel} (holds : Least level data.length least) :
    ∃ code, encodeData data version level = some code ∧ code.version = max version least ∧
      code.width = getWidth (max version least) := by
  have some : 0 < data.length := List.length_pos_iff.mpr filled
  obtain ⟨bytes, final, made, newest⟩ :=
    getByteStream_single (show (dataInput data version level known).head = [data] from rfl) some holds
  obtain ⟨chunks, stream⟩ := getByteStream_some made
  obtain ⟨raw, blank, frame, _, isFilled, result⟩ := encodeMask_filled made stream
  obtain ⟨shown, done⟩ := isFilled.masked_some level
  have encoded := result (-1)
  rw [show (dataInput data version level known).level = level from rfl, done,
    Option.map_some] at encoded
  refine ⟨_, (encodeData_eq filled known level).trans encoded, newest, ?_⟩
  rw [newest]
  rfl

theorem encodeMask_sized {input : QRinput} {mask : Int} {code : QRcode} (real : mask ≠ -2)
    (encoded : encodeMask input mask = some code) :
    Version code.version ∧ code.width = getWidth code.version ∧
      code.data.length = code.width * code.width := by
  obtain ⟨_, final, _, _, _, frame, _, stream, _, filled, version, width, done⟩ :=
    encodeMask_some encoded
  obtain ⟨choice, masked⟩ := filled.masked real done
  obtain ⟨expression, equal⟩ := masked.shown_eq
  refine ⟨version ▸ stream.known, by rw [width, version], ?_⟩
  rw [equal, applied_length, Mask.maskMaker, List.length_mapIdx, filled.length, width]

theorem encodeData_fits {data : List UInt8} {version : Nat} {level : QRecLevel} {code : QRcode}
    (encoded : encodeData data version level = some code) :
    Fits versionMax level data.length := by
  obtain ⟨filled, known, encoded⟩ := encodeData_known encoded
  by_contra large
  have none := getByteStream_none (show (dataInput data version level known).head = [data] from rfl)
    (List.length_pos_iff.mpr filled) large
  obtain ⟨_, _, _, _, _, _, made, _⟩ := encodeMask_some encoded
  rw [none] at made
  cases made

/-! ## Every symbol -/

/-- The input with one byte, which has a symbol of the least version. -/
def oneByte : QRinput := dataInput [0x41] 1 .l (by decide)

theorem oneByte_encoded : ∃ code, encodeInput oneByte = some code ∧
    encodeData [0x41] 1 .l = some code ∧ code.version = 1 := by
  have least : Least .l [0x41].length 1 :=
    ⟨⟨⟨by decide, by decide⟩, by decide⟩, fun v holds => holds.1.positive⟩
  obtain ⟨code, encoded, version, _⟩ := encodeData_least (show [0x41] ≠ [] by decide)
    (show 1 ≤ versionMax by decide) least
  exact ⟨code, (encodeData_eq (by decide) (by decide) .l).symm.trans encoded, encoded, version⟩

/-- The decoder reads every symbol back, whatever mask it was made with. -/
theorem decode_encodeMask {input : QRinput} {mask : Int} {code : QRcode} (real : mask ≠ -2)
    (encoded : encodeMask input mask = some code) :
    ∃ d, decode code.toQRcode = some d ∧ d.version = code.version ∧ d.level = input.level ∧
      d.data.getD [] = input.head.flatten := by
  obtain ⟨chunks, whole, decoded⟩ := encodeMask_decodes real encoded
  exact ⟨_, decoded, rfl, rfl, by rw [concatChunkList_getD, whole]⟩

theorem decode_encodeMask_oneByte : ∃ code d, encodeMask oneByte (-1) = some code ∧
    decode code.toQRcode = some d ∧ d.version = code.version ∧ d.level = .l ∧
    d.data.getD [] = [0x41] := by
  obtain ⟨code, encoded, _⟩ := oneByte_encoded
  obtain ⟨d, read⟩ := decode_encodeMask (show (-1 : Int) ≠ -2 by decide) encoded
  exact ⟨code, d, encoded, read⟩

/-- Whatever the version, the check of the decoder accepts what follows the data of a symbol. -/
theorem encodeMask_remainder {input : QRinput} {mask : Int} {code : QRcode} (real : mask ≠ -2)
    (encoded : encodeMask input mask = some code) :
    ∃ bits, extracted code.toQRcode = some (code.version, input.level, bits) ∧
      bits.length = 8 * getDataLength code.version input.level ∧
      checkRemainderWords bits (decodeBitStream bits code.version).2.length = 0 := by
  obtain ⟨data, final, chunks, raw, blank, frame, _, stream, made, filled, version, width, done⟩ :=
    encodeMask_some encoded
  obtain ⟨choice, masked⟩ := filled.masked real done
  have bits := extracted_masked stream made masked
  rw [← width] at bits
  rw [version]
  exact ⟨_, bits, by rw [writeBytes_length, stream.length], (decode_masked stream made masked).2⟩

theorem encodeMask_remainder_oneByte : ∃ code bits, encodeMask oneByte (-1) = some code ∧
    extracted code.toQRcode = some (code.version, .l, bits) ∧
    checkRemainderWords bits (decodeBitStream bits code.version).2.length = 0 := by
  obtain ⟨code, encoded, _⟩ := oneByte_encoded
  obtain ⟨bits, found, _, checked⟩ := encodeMask_remainder (show (-1 : Int) ≠ -2 by decide) encoded
  exact ⟨code, bits, encoded, found, checked⟩

/-- The symbol of an input is the one under the first of the eight masks whose symbol, made from the
    one without a mask, has the least demerit. -/
theorem encodeInput_least {input : QRinput} {code : QRcode} (encoded : encodeInput input = some code) :
    ∃ plain : QRcode, encodeMask input (-2) = some plain ∧ plain.width = code.width ∧
      ∃ choice < Mask.maskNum, ∃ least, encodeMask input choice = some code ∧
        Mask.maskDemerit plain.width plain.data input.level choice = some least ∧
        ∀ other < Mask.maskNum, (encodeMask input other).isSome ∧
          ∃ d, Mask.maskDemerit plain.width plain.data input.level other = some d ∧ least ≤ d ∧
            (other < choice → least < d) := by
  obtain ⟨data, final, chunks, made, stream⟩ := encodeMask_made encoded
  obtain ⟨raw, blank, frame, _, filled, result⟩ := encodeMask_filled made stream
  have lay := layout stream.known
  obtain ⟨choice, known, least, ⟨shown, shows, makes⟩, isLeast, each⟩ :=
    Mask.mask_least lay.wide.least lay.most filled.length input.level
  have explicit (i : Nat) : maskedBy i (getWidth final.version) frame input.level =
      Mask.makeMask (getWidth final.version) frame i input.level := by
    rw [maskedBy, if_neg (by omega), if_neg (by omega), Int.toNat_natCast]
  have own := result choice
  rw [explicit, makes, Option.map_some] at own
  rw [encodeInput, result (-1), show maskedBy (-1) (getWidth final.version) frame input.level =
    some shown from shows, Option.map_some, Option.some.injEq] at encoded
  subst encoded
  refine ⟨_, result (-2), rfl, choice, known, least, own, isLeast, fun other inside => ⟨?_, each other inside⟩⟩
  obtain ⟨expression, _, masked⟩ :=
    Mask.masked_some lay.wide.least filled.length input.level inside
  rw [result other, explicit, Mask.makeMask, if_neg (Nat.not_le.mpr inside), masked]
  rfl

theorem encodeInput_least_oneByte : ∃ plain choice least, encodeMask oneByte (-2) = some plain ∧
    encodeInput oneByte = encodeMask oneByte choice ∧
    Mask.maskDemerit plain.width plain.data .l choice.toNat = some least := by
  obtain ⟨code, encoded, _⟩ := oneByte_encoded
  obtain ⟨plain, unmasked, _, choice, _, least, made, isLeast, _⟩ := encodeInput_least encoded
  exact ⟨plain, choice, least, unmasked, encoded.trans made.symm, isLeast⟩

/-- `QRcode_encodeData` returns a symbol exactly for data that the largest version holds, in a call
    whose allocations all succeed. -/
theorem encodeData_isSome_iff (allocates : Bool) (data : List UInt8) (version : Nat)
    (level : QRecLevel) :
    (encodeDataIn allocates data version level).isSome ↔
      allocates = true ∧ data ≠ [] ∧ version ≤ versionMax ∧ Fits versionMax level data.length := by
  cases allocates with
  | false => simp [encodeDataIn]
  | true =>
      rw [encodeDataIn, if_pos rfl]
      constructor
      · intro returns
        obtain ⟨code, encoded⟩ := Option.isSome_iff_exists.mp returns
        obtain ⟨filled, known, _⟩ := encodeData_known encoded
        exact ⟨rfl, filled, known, encodeData_fits encoded⟩
      · rintro ⟨_, filled, known, fits⟩
        obtain ⟨least, holds⟩ := exists_least fits
        obtain ⟨code, encoded, _⟩ := encodeData_least filled known holds
        rw [encoded]
        rfl

/-- The version of a symbol holds the data, and it is the least one that does unless a larger one
    was asked for. -/
theorem encodeData_version {data : List UInt8} {version : Nat} {level : QRecLevel} {code : QRcode}
    (encoded : encodeData data version level = some code) :
    version ≤ code.version ∧ Fits code.version level data.length ∧
      (∀ v, Version v → Fits v level data.length → code.version ≤ max version v) ∧
      code.width = getWidth code.version ∧ code.data.length = code.width * code.width := by
  obtain ⟨filled, known, isInput⟩ := encodeData_known encoded
  obtain ⟨least, holds⟩ := exists_least (encodeData_fits encoded)
  obtain ⟨same, again, newest, _⟩ := encodeData_least filled known holds
  obtain rfl := Option.some.inj (encoded.symm.trans again)
  obtain ⟨inRange, width, sized⟩ := encodeMask_sized (by decide) isInput
  refine ⟨newest ▸ le_max_left _ _, ?_, fun v knownToo fits => ?_, width, sized⟩
  · rw [newest]
    exact holds.1.2.mono holds.1.1 (le_max_right _ _) (newest ▸ inRange.most)
  · rw [newest]
    exact max_le_max (le_refl _) (holds.2 ⟨knownToo, fits⟩)

/-- Twenty bytes at level L need version 2: one asks for version 1 and one for version 5. -/
theorem encodeData_version_twentyBytes :
    (∃ code, encodeData (List.replicate 20 0xFF) 1 .l = some code ∧ code.version = 2 ∧
      code.width = 25 ∧ code.data.length = 625) ∧
    ∃ code, encodeData (List.replicate 20 0xFF) 5 .l = some code ∧ code.version = 5 ∧
      code.width = 37 ∧ code.data.length = 1369 := by
  have small : ¬ Fits 1 .l 20 := by decide
  have fits : Fits 2 .l 20 := by decide
  obtain ⟨least, holds⟩ := exists_least (fits.mono ⟨by decide, by decide⟩ (by decide) (le_refl _))
  have second : Version 2 := ⟨by decide, by decide⟩
  constructor
  · obtain ⟨code, encoded, _⟩ := encodeData_least (show List.replicate 20 0xFF ≠ [] by decide)
      (show 1 ≤ versionMax by decide) holds
    obtain ⟨asked, held, most, width, sized⟩ := encodeData_version encoded
    have version : code.version = 2 := by
      have below := most 2 second fits
      have other : code.version ≠ 1 := fun one => small (one ▸ held)
      omega
    rw [version] at width
    rw [width] at sized
    exact ⟨code, encoded, version, width, sized⟩
  · obtain ⟨code, encoded, _⟩ := encodeData_least (show List.replicate 20 0xFF ≠ [] by decide)
      (show 5 ≤ versionMax by decide) holds
    obtain ⟨asked, held, most, width, sized⟩ := encodeData_version encoded
    have version : code.version = 5 := by
      have below := most 2 second fits
      omega
    rw [version] at width
    rw [width] at sized
    exact ⟨code, encoded, version, width, sized⟩

end AssistedDump.QrEncode
