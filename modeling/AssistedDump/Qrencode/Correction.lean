import AssistedDump.Qrencode.Symbol

/-! # What damage a symbol stands

The codewords of a symbol fall into blocks which the check of the decoder accepts.
Where at most half as many codewords of each block are lost as it has check bytes,
no other data can be taken for the data of the symbol.
-/

namespace AssistedDump.Decoder

open BitStream CyclicCode QrSpec QrEncode QrEncode.FrameFiller
open DumpLoop (QRecLevel)

/-- The codewords of a frame without its mask, along the way of the filler. -/
def codewords (version : Nat) (frame : Frame) : List UInt8 :=
  (List.range (capacity version).words).map fun i =>
    packBits ((List.range 8).map fun j =>
      bitAt frame ((freeIndices frame (getWidth version)).getD (8 * i + j) 0))

/-- The data of a block among the codewords. -/
def blockData (spec : EccSpec) (codes : List UInt8) (row : Nat) : List UInt8 :=
  (List.range ((shape spec).width row)).map fun col => codes.getD ((shape spec).number row col) 0

/-- The check bytes of a block among the codewords. -/
def blockEcc (spec : EccSpec) (codes : List UInt8) (row : Nat) : List UInt8 :=
  (List.range spec.rsEccCodes1).map fun k =>
    codes.getD (spec.rsDataLength + ((shape spec).rows * k + row)) 0

def block (spec : EccSpec) (codes : List UInt8) (row : Nat) : List UInt8 :=
  blockData spec codes row ++ blockEcc spec codes row

@[simp] theorem blockData_length (spec : EccSpec) (codes : List UInt8) (row : Nat) :
    (blockData spec codes row).length = (shape spec).width row := by
  rw [blockData, List.length_map, List.length_range]

@[simp] theorem blockEcc_length (spec : EccSpec) (codes : List UInt8) (row : Nat) :
    (blockEcc spec codes row).length = spec.rsEccCodes1 := by
  rw [blockEcc, List.length_map, List.length_range]

/-! ## The codewords of a symbol -/

theorem packBits_ofNat (code : UInt8) : packBits (Bits.ofNat 8 code.toNat) = code := by
  apply UInt8.toNat_inj.mp
  rw [packBits_toNat (Bits.ofNat_length 8 _).le, Bits.toNat_ofNat]
  exact Nat.mod_eq_of_lt code.toNat_lt

/-- Without its mask a frame shows the codes it was filled with. -/
theorem codewords_masked {raw : QRRawCode} {version : Nat} {level : QRecLevel} {data : List UInt8}
    {blank frame shown : Frame} {choice : Nat} (made : raw.Made version level data)
    (masked : Masked raw version level blank frame choice shown) :
    codewords version
      (applied (Mask.formatWrites (getWidth version) (getFormatInfo choice level)) frame) =
        (List.range (raw.dataLength + raw.eccLength)).map raw.codeAt := by
  have known := blocks masked.filled.known level
  have way : freeIndices (applied
      (Mask.formatWrites (getWidth version) (getFormatInfo choice level)) frame) (getWidth version) =
        freeIndices blank (getWidth version) := by
    rw [freeIndices, freeIndices]
    exact List.filter_congr fun i _ => unmarked_congr masked.unmask_marks i
  rw [codewords, way, made.dataLength, made.eccLength, known.all]
  apply List.map_congr_left
  intro i member
  rw [← packBits_ofNat (raw.codeAt i)]
  congr 1
  apply List.ext_getElem?
  intro j
  by_cases small : j < 8
  · rw [reads_code masked (by rw [made.dataLength, made.eccLength, known.all]; exact List.mem_range.mp member)
      small, List.getElem?_map, List.getElem?_range small, Option.map_some]
  · rw [List.getElem?_eq_none (by simpa using small), List.getElem?_eq_none (by simpa using small)]

theorem getD_codeAt (raw : QRRawCode) {count i : Nat} (below : i < count) :
    ((List.range count).map raw.codeAt).getD i 0 = raw.codeAt i := by
  rw [List.getD_eq_getElem?_getD, List.getElem?_map, List.getElem?_range below]
  rfl

section Blocks

variable {raw : QRRawCode} {version : Nat} {level : QRecLevel} {data : List UInt8}
variable (made : raw.Made version level data) (known : Blocks version level)
variable (sized : data.length = (getEccSpec version level).rsDataLength)
variable {row : Nat} (inRows : row < (shape (getEccSpec version level)).rows)

include made known sized inRows

/-- The data of a block is a row of the data. -/
theorem blockData_codeAt :
    blockData (getEccSpec version level)
      ((List.range (raw.dataLength + raw.eccLength)).map raw.codeAt) row =
        (data.drop ((shape (getEccSpec version level)).start row)).take
          ((shape (getEccSpec version level)).width row) := by
  apply List.ext_getElem?
  intro col
  rw [List.getElem?_take]
  split
  · next inside =>
      have below := Ragged.Shape.number_lt inRows inside
      rw [shape_total known, ← made.dataLength] at below
      rw [List.getElem?_drop, ← Ragged.Shape.place_number inRows inside,
        QRRawCode.codeAt_data made known sized below, blockData, List.getElem?_map,
        List.getElem?_range inside, Option.map_some, getD_codeAt raw (Nat.lt_add_right _ below)]
  · next outside => rw [List.getElem?_eq_none (by simpa using outside)]

/-- Its check bytes are those the encoder finds for it. -/
theorem encode_block :
    RsEcc.encode (getEccSpec version level).rsEccCodes1 (blockData (getEccSpec version level)
      ((List.range (raw.dataLength + raw.eccLength)).map raw.codeAt) row) =
        some (blockEcc (getEccSpec version level)
          ((List.range (raw.dataLength + raw.eccLength)).map raw.codeAt) row) := by
  obtain ⟨own, found, holds⟩ := made.rows row inRows
  rw [blockData_codeAt made known sized inRows, holds.checked, Option.some.injEq]
  have length := (RsEcc.encode_checks holds.checked).2.2.1
  apply List.ext_getElem?
  intro k
  by_cases inside : k < (getEccSpec version level).rsEccCodes1
  · have below : (getEccSpec version level).rsDataLength +
        ((shape (getEccSpec version level)).rows * k + row) < raw.dataLength + raw.eccLength := by
      have next := Nat.mul_le_mul_left (shape (getEccSpec version level)).rows
        (Nat.succ_le_of_lt inside)
      rw [Nat.mul_succ] at next
      rw [made.dataLength, made.eccLength, EccSpec.rsEccLength]
      exact Nat.add_lt_add_left (lt_of_lt_of_le (Nat.add_lt_add_left inRows _) next) _
    rw [QRRawCode.codeAt_ecc made inRows inside found, blockEcc, List.getElem?_map,
      List.getElem?_range inside, Option.map_some, getD_codeAt raw below, made.dataLength]
  · rw [List.getElem?_eq_none (by omega), List.getElem?_eq_none (by simpa using inside)]

end Blocks

/-! ## Damage -/

/-- A block the decoder accepts, near to what was received for it. -/
structure Answer (spec : EccSpec) (received : List UInt8) (row : Nat) (data ecc : List UInt8) :
    Prop where
  width : data.length = (shape spec).width row
  sized : ecc.length = spec.rsEccCodes1
  accepted : RsEcc.checkSyndrome data ecc = 0
  near : 2 * (differences (data ++ ecc) (block spec received row)).card ≤ spec.rsEccCodes1

/-- The block that was encoded is one. -/
theorem Answer.own {spec : EccSpec} {codes received : List UInt8} {row : Nat}
    (filled : blockData spec codes row ≠ [])
    (encoded : RsEcc.encode spec.rsEccCodes1 (blockData spec codes row) =
      some (blockEcc spec codes row))
    (damage : 2 * (differences (block spec codes row) (block spec received row)).card ≤
      spec.rsEccCodes1) :
    Answer spec received row (blockData spec codes row) (blockEcc spec codes row) where
  width := blockData_length spec codes row
  sized := blockEcc_length spec codes row
  accepted := RsEcc.checkSyndrome_encode filled encoded
  near := damage

theorem width_bounds {version : Nat} {level : QRecLevel} (known : Blocks version level) (row : Nat) :
    0 < (shape (getEccSpec version level)).width row ∧
      (shape (getEccSpec version level)).width row ≤ (getEccSpec version level).rsDataCodes1 + 1 := by
  have filled := known.filled
  rw [Ragged.Shape.width, shape]
  split
  · exact ⟨filled, Nat.le_succ _⟩
  · exact ⟨Nat.succ_pos _, le_refl _⟩

/-- No other block has data that is as near. -/
theorem Answer.eq {version : Nat} {level : QRecLevel} (known : Blocks version level)
    {codes received : List UInt8} {row : Nat}
    (encoded : RsEcc.encode (getEccSpec version level).rsEccCodes1
      (blockData (getEccSpec version level) codes row) =
        some (blockEcc (getEccSpec version level) codes row))
    (damage : 2 * (differences (block (getEccSpec version level) codes row)
      (block (getEccSpec version level) received row)).card ≤ (getEccSpec version level).rsEccCodes1)
    {data ecc : List UInt8} (answer : Answer (getEccSpec version level) received row data ecc) :
    data = blockData (getEccSpec version level) codes row := by
  have wide := width_bounds known row
  have filled : data ≠ [] := by
    rw [← List.length_pos_iff, answer.width]
    exact wide.1
  have short : (blockData (getEccSpec version level) codes row).length +
      (getEccSpec version level).rsEccCodes1 ≤ RsEcc.symbols := by
    have := known.short
    rw [blockData_length]
    omega
  have whole : (block (getEccSpec version level) received row).length =
      (blockData (getEccSpec version level) codes row).length +
        (getEccSpec version level).rsEccCodes1 := by
    rw [block, List.length_append, blockData_length, blockData_length, blockEcc_length]
  exact (RsEcc.encode_nearest encoded short whole damage filled
    (by rw [answer.width, blockData_length]) answer.sized answer.accepted answer.near).1

/-- What the decoder finds behind the mask of a symbol. -/
theorem encodeMask_unmasks {input : QrInput.QRinput} {mask : Int} {code : QrEncode.QRcode}
    (real : mask ≠ -2) (encoded : encodeMask input mask = some code) :
    ∃ data final chunks choice frame, ∃ raw : QRRawCode, QrInput.Stream input final data chunks ∧
      raw.Made final.version input.level data ∧ code.version = final.version ∧
      decodeFormat code.toQRcode = some (input.level, choice) ∧
      unmask code.toQRcode input.level choice = some frame ∧
      codewords final.version frame = (List.range (raw.dataLength + raw.eccLength)).map raw.codeAt := by
  obtain ⟨data, final, chunks, raw, blank, frame, _, stream, made, filled, version, width, done⟩ :=
    encodeMask_some encoded
  obtain ⟨choice, masked⟩ := filled.masked real done
  have same : code.toQRcode = ⟨getWidth final.version, code.data⟩ := by rw [← width]
  have format := decodeFormat_shown stream.known masked.known masked.shown_format
  have plain := masked.unmask_eq
  rw [← same] at format plain
  exact ⟨data, final, chunks, choice, _, raw, stream, made, version, format, plain,
    codewords_masked made masked⟩

/-- A symbol that lost at most half as many codewords in each block as it has check bytes still
    tells its data: its own blocks are accepted and as near to what is left, and whatever blocks
    are, they decode to its data. -/
theorem symbol_corrects {input : QrInput.QRinput} {mask : Int} {code : QrEncode.QRcode}
    (real : mask ≠ -2) (encoded : encodeMask input mask = some code) {choice : Nat} {frame : Frame}
    (format : decodeFormat code.toQRcode = some (input.level, choice))
    (plain : unmask code.toQRcode input.level choice = some frame) (received : List UInt8)
    (damage : ∀ row < (shape (getEccSpec code.version input.level)).rows,
      2 * (differences
        (block (getEccSpec code.version input.level) (codewords code.version frame) row)
        (block (getEccSpec code.version input.level) received row)).card ≤
          (getEccSpec code.version input.level).rsEccCodes1) :
    (∀ row < (shape (getEccSpec code.version input.level)).rows,
      Answer (getEccSpec code.version input.level) received row
        (blockData (getEccSpec code.version input.level) (codewords code.version frame) row)
        (blockEcc (getEccSpec code.version input.level) (codewords code.version frame) row)) ∧
    ∀ data ecc : Nat → List UInt8,
      (∀ row < (shape (getEccSpec code.version input.level)).rows,
        Answer (getEccSpec code.version input.level) received row (data row) (ecc row)) →
      (decodeBitStream (writeBytes
        ((List.range (shape (getEccSpec code.version input.level)).rows).flatMap data))
          code.version).1.flatten = input.head.flatten := by
  obtain ⟨bytes, final, chunks, choice', frame', raw, stream, made, version, format', plain', codes⟩ :=
    encodeMask_unmasks real encoded
  obtain rfl : choice' = choice := by
    rw [format, Option.some.injEq, Prod.mk.injEq] at format'
    exact format'.2.symm
  obtain rfl := Option.some.inj (plain'.symm.trans plain)
  rw [version] at damage ⊢
  rw [codes] at damage ⊢
  have known := blocks stream.known input.level
  have sized := stream.length.trans known.data.symm
  constructor
  · intro row inRows
    apply Answer.own _ (encode_block made known sized inRows) (damage row inRows)
    rw [← List.length_pos_iff, blockData_length]
    exact (width_bounds known row).1
  · intro data ecc answers
    have rows : ∀ row ∈ List.range (shape (getEccSpec final.version input.level)).rows, data row =
        (bytes.drop ((shape (getEccSpec final.version input.level)).start row)).take
          ((shape (getEccSpec final.version input.level)).width row) := by
      intro row member
      have inRows := List.mem_range.mp member
      rw [← blockData_codeAt made known sized inRows]
      exact (answers row inRows).eq known (encode_block made known sized inRows) (damage row inRows)
    obtain ⟨tail, bits, terminated⟩ := stream.bits
    obtain ⟨left, read, _⟩ := decodeBitStream_chunks stream.short terminated
    rw [List.flatMap_congr rows, Ragged.Shape.rows_flatMap, Ragged.Shape.start_rows,
      shape_total known, ← sized, List.take_length, bits, read, stream.whole]

/-! ## A symbol of one block -/

/-- Where there is one block its codewords are all of them. -/
theorem block_single {spec : EccSpec} {codes : List UInt8} (short : spec.rsBlockNum1 = 1)
    (long : spec.rsBlockNum2 = 0) (sized : codes.length = spec.rsDataCodes1 + spec.rsEccCodes1) :
    block spec codes 0 = codes := by
  have rows : (shape spec).rows = 1 := by
    simp only [Ragged.Shape.rows, shape, short, long]
  have width : (shape spec).width 0 = spec.rsDataCodes1 := by simp [Ragged.Shape.width, shape, short]
  have number (col : Nat) : (shape spec).number 0 col = col := by
    simp [Ragged.Shape.number, rows]
  have front : spec.rsDataLength = spec.rsDataCodes1 := by
    rw [EccSpec.rsDataLength, short, long, Nat.one_mul, Nat.zero_mul, Nat.add_zero]
  have whole : block spec codes 0 = (List.range codes.length).map fun i => codes.getD i 0 := by
    rw [block, blockData, blockEcc, width, front, sized, List.range_add, List.map_append, List.map_map]
    simp only [number, rows, Nat.one_mul, Nat.add_zero]
    rfl
  rw [whole]
  apply List.ext_getElem (by simp)
  intro i _ inside
  simp [inside]

/-- Codewords of which some have all their bits flipped. -/
def flipped (codes : List UInt8) (lost : List Nat) : List UInt8 :=
  codes.mapIdx fun i code => if i ∈ lost then code ^^^ 0xFF else code

theorem flip_ne : ∀ n < 256, UInt8.ofNat n ≠ UInt8.ofNat n ^^^ 0xFF := by
  decide +kernel

theorem differences_flipped (codes : List UInt8) (lost : List Nat) :
    differences codes (flipped codes lost) = {i ∈ Finset.range codes.length | i ∈ lost} := by
  rw [differences]
  apply Finset.filter_congr
  intro i member
  have inside := Finset.mem_range.mp member
  have other := flip_ne codes[i].toNat codes[i].toNat_lt
  rw [UInt8.ofNat_toNat] at other
  rw [flipped, List.getElem?_mapIdx, List.getElem?_eq_getElem inside, Option.map_some, ne_eq,
    Option.some.injEq]
  by_cases isLost : i ∈ lost
  · rw [if_pos isLost]
    exact iff_of_true other isLost
  · rw [if_neg isLost]
    exact iff_of_false (not_not_intro rfl) isLost

/-- One byte in version 1-L, whose one block has seven check bytes. Two of its data codewords and
    one of its check bytes are lost. -/
theorem symbol_corrects_oneByte : ∃ code choice frame received, encodeMask oneByte (-1) = some code ∧
    decodeFormat code.toQRcode = some (.l, choice) ∧
    unmask code.toQRcode .l choice = some frame ∧
    (differences (codewords 1 frame) received).card = 3 ∧
    (∃ data ecc, Answer (getEccSpec 1 .l) received 0 data ecc) ∧
    ∀ data ecc, Answer (getEccSpec 1 .l) received 0 data ecc →
      (decodeBitStream (writeBytes data) 1).1.flatten = [0x41] := by
  obtain ⟨code, encoded, _, version⟩ := oneByte_encoded
  obtain ⟨_, _, _, choice, frame, _, _, _, _, format, plain, _⟩ :=
    encodeMask_unmasks (show (-1 : Int) ≠ -2 by decide) encoded
  have rows : (shape (getEccSpec 1 .l)).rows = 1 := by decide
  have sized : (codewords 1 frame).length = 26 := by rw [codewords, List.length_map, List.length_range]; rfl
  have lost := differences_flipped (codewords 1 frame) [0, 2, 25]
  rw [sized] at lost
  have count : (differences (codewords 1 frame) (flipped (codewords 1 frame) [0, 2, 25])).card = 3 := by
    rw [lost]
    decide
  have flippedSized : (flipped (codewords 1 frame) [0, 2, 25]).length = 26 := by
    rw [flipped, List.length_mapIdx, sized]
  have corrects := symbol_corrects (by decide) encoded format plain
    (flipped (codewords 1 frame) [0, 2, 25])
  rw [version, show oneByte.level = .l from rfl, rows] at corrects
  have damage : ∀ row < 1, 2 * (differences (block (getEccSpec 1 .l) (codewords 1 frame) row)
      (block (getEccSpec 1 .l) (flipped (codewords 1 frame) [0, 2, 25]) row)).card ≤
        (getEccSpec 1 .l).rsEccCodes1 := by
    intro row first
    obtain rfl := Nat.lt_one_iff.mp first
    rw [block_single (by decide) (by decide) (sized.trans (by decide)),
      block_single (by decide) (by decide) (flippedSized.trans (by decide)), count]
    decide
  obtain ⟨own, only⟩ := corrects damage
  refine ⟨code, choice, frame, _, encoded, format, plain, count, ⟨_, _, own 0 (by decide)⟩, ?_⟩
  intro data ecc answer
  have decoded := only (fun _ => data) (fun _ => ecc) fun row first => by
    obtain rfl := Nat.lt_one_iff.mp first
    exact answer
  rwa [List.range_one, List.flatMap_singleton] at decoded

end AssistedDump.Decoder
