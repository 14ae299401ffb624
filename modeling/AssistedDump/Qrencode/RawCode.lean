import AssistedDump.General.Interleave
import AssistedDump.Qrencode.InputStream
import AssistedDump.Qrencode.RsEccCode

/-! # The raw code of qrencode.c

The data of an input is cut into blocks of two lengths, each with its own check
bytes, and the codewords are read across the blocks.
-/

namespace AssistedDump.QrEncode

open QrInput QrSpec
open DumpLoop (QRecLevel)

/-- The bytes a block points to, which go on after its own. -/
structure RSblock where
  dataLength : Nat
  data : List UInt8
  ecc : List UInt8

namespace RSblock

/-- `RSblock_initBlock`. A block that reaches past the data has no check bytes. -/
def initBlock (dl : Nat) (data : List UInt8) (el : Nat) : Option RSblock :=
  if data.length < dl then none
  else (RsEcc.encode el (data.take dl)).map fun ecc => ⟨dl, data, ecc⟩

/-- The body of each loop in `RSblock_init`, for the blocks that are left, with the pointer it ends
    with. -/
def initBlocks (dl el : Nat) : Nat → List UInt8 → Option (List RSblock × List UInt8)
  | 0, dp => some ([], dp)
  | rest + 1, dp => do
      let block ← initBlock dl dp el
      let (blocks, dp) ← initBlocks dl el rest (dp.drop dl)
      some (block :: blocks, dp)

/-- `RSblock_init`. -/
def init (spec : EccSpec) (data : List UInt8) : Option (List RSblock) := do
  let (blocks, dp) ← initBlocks spec.rsDataCodes1 spec.rsEccCodes1 spec.rsBlockNum1 data
  if spec.rsBlockNum2 = 0 then some blocks
  else
    let (more, _) ← initBlocks spec.rsDataCodes2 spec.rsEccCodes2 spec.rsBlockNum2 dp
    some (blocks ++ more)

end RSblock

structure QRRawCode where
  version : Nat
  dataLength : Nat
  eccLength : Nat
  b1 : Nat
  blocks : Nat
  rsblock : List RSblock
  count : Nat

namespace QRRawCode

/-- `QRraw_new`. -/
def new (input : QRinput) : Option QRRawCode := do
  let (datacode, input) ← getByteStream input
  let spec := getEccSpec input.version input.level
  let rsblock ← RSblock.init spec datacode
  some {
    version := input.version
    dataLength := spec.rsDataLength
    eccLength := spec.rsEccLength
    b1 := spec.rsBlockNum1
    blocks := spec.rsBlockNum
    rsblock
    count := 0 }

/-- `QRraw_getCode`, for a raw code whose blocks are not read past their ends. -/
def getCode (raw : QRRawCode) : Option (UInt8 × QRRawCode) :=
  if raw.count < raw.dataLength then do
    let row := raw.count % raw.blocks
    let col := raw.count / raw.blocks
    let row := if col ≥ (← raw.rsblock[0]?).dataLength then row + raw.b1 else row
    let ret ← (← raw.rsblock[row]?).data[col]?
    some (ret, { raw with count := raw.count + 1 })
  else if raw.count < raw.dataLength + raw.eccLength then do
    let row := (raw.count - raw.dataLength) % raw.blocks
    let col := (raw.count - raw.dataLength) / raw.blocks
    let ret ← (← raw.rsblock[row]?).ecc[col]?
    some (ret, { raw with count := raw.count + 1 })
  else some (0, raw)

end QRRawCode

/-! ## The blocks of a version -/

/-- The blocks as rows of the codewords. -/
def shape (spec : EccSpec) : Ragged.Shape where
  short := spec.rsBlockNum1
  long := spec.rsBlockNum2
  size := spec.rsDataCodes1

/-- What the encoder needs of the blocks of a version. -/
structure Blocks (version : Nat) (level : QRecLevel) : Prop where
  some : 1 ≤ (getEccSpec version level).rsBlockNum1
  filled : 1 ≤ (getEccSpec version level).rsDataCodes1
  longer : (getEccSpec version level).rsBlockNum2 ≠ 0 →
    (getEccSpec version level).rsDataCodes2 = (getEccSpec version level).rsDataCodes1 + 1
  low : RsEcc.minLength ≤ (getEccSpec version level).rsEccCodes1
  high : (getEccSpec version level).rsEccCodes1 ≤ RsEcc.maxLength
  short : (getEccSpec version level).rsDataCodes1 + 1 + (getEccSpec version level).rsEccCodes1 ≤
    RsEcc.symbols
  data : (getEccSpec version level).rsDataLength = getDataLength version level
  all : (getEccSpec version level).rsDataLength + (getEccSpec version level).rsEccLength =
    (capacity version).words

theorem blocks_evaluated : ∀ version < 41, 1 ≤ version → ∀ level ∈ levels,
    let spec := getEccSpec version level
    1 ≤ spec.rsBlockNum1 ∧ 1 ≤ spec.rsDataCodes1 ∧
    (spec.rsBlockNum2 ≠ 0 → spec.rsDataCodes2 = spec.rsDataCodes1 + 1) ∧
    RsEcc.minLength ≤ spec.rsEccCodes1 ∧ spec.rsEccCodes1 ≤ RsEcc.maxLength ∧
    spec.rsDataCodes1 + 1 + spec.rsEccCodes1 ≤ RsEcc.symbols ∧
    spec.rsDataLength = getDataLength version level ∧
    spec.rsDataLength + spec.rsEccLength = (capacity version).words := by
  decide +kernel

theorem blocks {version : Nat} (known : Version version) (level : QRecLevel) :
    Blocks version level := by
  obtain ⟨some, filled, longer, low, high, short, data, all⟩ :=
    blocks_evaluated version (Nat.lt_succ_of_le known.most) known.positive level (mem_levels level)
  exact ⟨some, filled, longer, low, high, short, data, all⟩

theorem shape_total {version : Nat} {level : QRecLevel} (known : Blocks version level) :
    (shape (getEccSpec version level)).total = (getEccSpec version level).rsDataLength := by
  simp only [Ragged.Shape.total, shape, EccSpec.rsDataLength]
  by_cases none : (getEccSpec version level).rsBlockNum2 = 0
  · rw [none, Nat.zero_mul, Nat.zero_mul]
  · rw [known.longer none]

/-- A block is a piece of the data with the check bytes for it. -/
structure RSblock.Holds (block : RSblock) (el dl : Nat) (data : List UInt8) : Prop where
  length : block.dataLength = dl
  pointer : block.data = data
  checked : RsEcc.encode el (data.take dl) = some block.ecc

namespace RSblock

theorem initBlock_some {dl el : Nat} {data : List UInt8} (room : dl ≤ data.length)
    (low : RsEcc.minLength ≤ el) (high : el ≤ RsEcc.maxLength) :
    ∃ block, initBlock dl data el = some block ∧ block.Holds el dl data := by
  obtain ⟨ecc, encoded⟩ : ∃ ecc, RsEcc.encode el (data.take dl) = some ecc :=
    ⟨_, if_pos ⟨low, high⟩⟩
  exact ⟨⟨dl, data, ecc⟩, by rw [initBlock, if_neg (Nat.not_lt.mpr room), encoded, Option.map_some],
    rfl, rfl, encoded⟩

theorem initBlocks_some {dl el count : Nat} {dp : List UInt8} (room : dl * count ≤ dp.length)
    (low : RsEcc.minLength ≤ el) (high : el ≤ RsEcc.maxLength) :
    ∃ blocks, initBlocks dl el count dp = some (blocks, dp.drop (dl * count)) ∧
      blocks.length = count ∧
      ∀ i < count, ∃ block, blocks[i]? = some block ∧ block.Holds el dl (dp.drop (dl * i)) := by
  induction count generalizing dp with
  | zero => exact ⟨[], rfl, rfl, fun i below => absurd below (Nat.not_lt_zero i)⟩
  | succ count ih =>
      rw [Nat.mul_succ] at room
      obtain ⟨block, first, holds⟩ := initBlock_some (show dl ≤ dp.length by omega) low high
      obtain ⟨blocks, rest, length, each⟩ := ih
        (show dl * count ≤ (dp.drop dl).length by rw [List.length_drop]; omega)
      refine ⟨block :: blocks, ?_, by rw [List.length_cons, length], ?_⟩
      · simp only [initBlocks, first, rest, Option.bind_eq_bind, Option.bind_some, List.drop_drop,
          Nat.mul_succ, Nat.add_comm]
      · intro i below
        cases i with
        | zero => exact ⟨block, rfl, holds⟩
        | succ i =>
            obtain ⟨here, found, good⟩ := each i (Nat.lt_of_succ_lt_succ below)
            refine ⟨here, found, ?_⟩
            rwa [List.drop_drop, Nat.add_comm, ← Nat.mul_succ] at good

/-- The blocks are the rows of the data. -/
theorem init_some {version : Nat} {level : QRecLevel} (known : Blocks version level)
    {data : List UInt8} (sized : data.length = (getEccSpec version level).rsDataLength) :
    ∃ rsblock, init (getEccSpec version level) data = some rsblock ∧
      rsblock.length = (shape (getEccSpec version level)).rows ∧
      ∀ row < (shape (getEccSpec version level)).rows, ∃ block, rsblock[row]? = some block ∧
        block.Holds (getEccSpec version level).rsEccCodes1
          ((shape (getEccSpec version level)).width row)
          (data.drop ((shape (getEccSpec version level)).start row)) := by
  obtain ⟨_, _, longer, low, high, _, _, _⟩ := known
  generalize getEccSpec version level = spec at *
  have parts : spec.rsDataCodes1 * spec.rsBlockNum1 + spec.rsDataCodes2 * spec.rsBlockNum2 =
      data.length := by
    rw [sized, EccSpec.rsDataLength, Nat.mul_comm, Nat.mul_comm spec.rsDataCodes2]
  obtain ⟨blocks, first, length, each⟩ := initBlocks_some
    (show spec.rsDataCodes1 * spec.rsBlockNum1 ≤ data.length by omega) low high
  have front {row : Nat} (short : row < spec.rsBlockNum1) : ∃ block, blocks[row]? = some block ∧
      block.Holds spec.rsEccCodes1 ((shape spec).width row) (data.drop ((shape spec).start row)) := by
    obtain ⟨block, found, holds⟩ := each row short
    have before : row - spec.rsBlockNum1 = 0 := by omega
    refine ⟨block, found, ?_⟩
    rwa [Ragged.Shape.width, if_pos (show row < (shape spec).short from short),
      Ragged.Shape.start, shape, before]
  simp only [init, first, Option.bind_eq_bind, Option.bind_some]
  split
  · next none =>
      refine ⟨blocks, rfl, by rw [length, Ragged.Shape.rows, shape, none, Nat.add_zero], ?_⟩
      intro row inside
      rw [Ragged.Shape.rows, shape, none, Nat.add_zero] at inside
      exact front inside
  · next some =>
      obtain ⟨more, second, length', each'⟩ := initBlocks_some
        (show spec.rsDataCodes2 * spec.rsBlockNum2 ≤
          (data.drop (spec.rsDataCodes1 * spec.rsBlockNum1)).length by rw [List.length_drop]; omega)
        (show RsEcc.minLength ≤ spec.rsEccCodes2 from low) high
      refine ⟨blocks ++ more, ?_, by rw [List.length_append, length, length']; rfl, ?_⟩
      · simp only [second, Option.bind_some]
      · intro row inside
        by_cases short : row < spec.rsBlockNum1
        · obtain ⟨block, found, holds⟩ := front short
          exact ⟨block, by rw [List.getElem?_append_left (by omega), found], holds⟩
        · have below : row - spec.rsBlockNum1 < spec.rsBlockNum2 := by
            have : row < spec.rsBlockNum1 + spec.rsBlockNum2 := inside
            omega
          obtain ⟨block, found, holds⟩ := each' _ below
          refine ⟨block, by rw [List.getElem?_append_right (by omega), length, found], ?_⟩
          have start : (shape spec).start row = spec.rsDataCodes1 * spec.rsBlockNum1 +
              spec.rsDataCodes2 * (row - spec.rsBlockNum1) := by
            obtain ⟨i, rfl⟩ := Nat.exists_eq_add_of_le (Nat.not_lt.mp short)
            rw [Ragged.Shape.start, shape, longer some, Nat.add_sub_cancel_left]
            ring
          have wide : (shape spec).width row = spec.rsDataCodes2 := by
            rw [Ragged.Shape.width, if_neg (show ¬ row < (shape spec).short from short), longer some]
            rfl
          rw [wide, start, ← List.drop_drop]
          exact holds

end RSblock

/-! ## The codewords -/

namespace QRRawCode

/-- The code `QRraw_getCode` returns as number `i`. -/
def codeAt (raw : QRRawCode) (i : Nat) : UInt8 :=
  (({ raw with count := i }).getCode.map Prod.fst).getD 0

/-- A raw code for data with its final version. -/
structure Made (raw : QRRawCode) (version : Nat) (level : QRecLevel) (data : List UInt8) : Prop where
  sameVersion : raw.version = version
  start : raw.count = 0
  dataLength : raw.dataLength = (getEccSpec version level).rsDataLength
  eccLength : raw.eccLength = (getEccSpec version level).rsEccLength
  b1 : raw.b1 = (getEccSpec version level).rsBlockNum1
  blocks : raw.blocks = (shape (getEccSpec version level)).rows
  rows : ∀ row < (shape (getEccSpec version level)).rows, ∃ block, raw.rsblock[row]? = some block ∧
    block.Holds (getEccSpec version level).rsEccCodes1
      ((shape (getEccSpec version level)).width row)
      (data.drop ((shape (getEccSpec version level)).start row))

theorem new_made {input final : QRinput} {data : List UInt8} {chunks : List (List UInt8)}
    (made : getByteStream input = some (data, final)) (stream : Stream input final data chunks) :
    ∃ raw, new input = some raw ∧ raw.Made final.version input.level data := by
  have known := QrEncode.blocks stream.known input.level
  obtain ⟨rsblock, cut, _, rows⟩ := RSblock.init_some known (stream.length.trans known.data.symm)
  simp only [new, made, stream.level, cut, Option.bind_eq_bind, Option.bind_some]
  exact ⟨_, rfl, rfl, rfl, rfl, rfl, rfl, rfl, rows⟩

variable {raw : QRRawCode} {version : Nat} {level : QRecLevel} {data : List UInt8}

theorem getCode_data (made : raw.Made version level data) (known : Blocks version level)
    (sized : data.length = (getEccSpec version level).rsDataLength) {i : Nat}
    (below : i < raw.dataLength) :
    ∃ code, data[(shape (getEccSpec version level)).place i]? = some code ∧
      ({ raw with count := i }).getCode = some (code, { raw with count := i + 1 }) := by
  have inside : i < (shape (getEccSpec version level)).total := by
    rw [shape_total known, ← made.dataLength]
    exact below
  have place : (shape (getEccSpec version level)).place i < data.length := by
    rw [sized, ← shape_total known]
    exact Ragged.Shape.place_lt inside
  obtain ⟨block, found, holds⟩ := made.rows _ (Ragged.Shape.row_lt inside)
  obtain ⟨first, head, begins⟩ := made.rows 0
    (lt_of_lt_of_le known.some (Nat.le_add_right _ _))
  have shortest : first.dataLength = (getEccSpec version level).rsDataCodes1 := by
    rw [begins.length, Ragged.Shape.width]
    exact if_pos known.some
  have here : (if i / raw.blocks ≥ first.dataLength then i % raw.blocks + raw.b1
      else i % raw.blocks) = (shape (getEccSpec version level)).row i := by
    rw [shortest, made.blocks, made.b1, Ragged.Shape.row]
    by_cases last : (shape (getEccSpec version level)).column i ≥
        (shape (getEccSpec version level)).size
    · rw [if_pos last]
      exact if_pos last
    · rw [if_neg last]
      exact if_neg last
  have read : block.data[i / raw.blocks]? = data[(shape (getEccSpec version level)).place i]? := by
    rw [holds.pointer, List.getElem?_drop, made.blocks]
    rfl
  refine ⟨data[(shape (getEccSpec version level)).place i], List.getElem?_eq_getElem place, ?_⟩
  simp only [getCode, if_pos below, head, Option.bind_eq_bind, Option.bind_some, here, found, read,
    List.getElem?_eq_getElem place]

theorem getCode_ecc (made : raw.Made version level data) {i : Nat} (below : i < raw.eccLength) :
    ∃ block code, raw.rsblock[i % raw.blocks]? = some block ∧
      block.ecc[i / raw.blocks]? = some code ∧
      ({ raw with count := raw.dataLength + i }).getCode =
        some (code, { raw with count := raw.dataLength + i + 1 }) := by
  have inside : i < (shape (getEccSpec version level)).rows *
      (getEccSpec version level).rsEccCodes1 := by
    have length := made.eccLength
    rw [EccSpec.rsEccLength] at length
    exact lt_of_lt_of_eq below length
  have positive : 0 < (shape (getEccSpec version level)).rows :=
    Nat.pos_of_ne_zero fun zero => by simp [zero] at inside
  obtain ⟨block, found, holds⟩ := made.rows _ (Nat.mod_lt i positive)
  have within : i / raw.blocks < block.ecc.length := by
    rw [(RsEcc.encode_checks holds.checked).2.2.1, made.blocks]
    exact Nat.div_lt_of_lt_mul inside
  rw [← made.blocks] at found
  refine ⟨block, block.ecc[i / raw.blocks], found, List.getElem?_eq_getElem within, ?_⟩
  simp only [getCode, if_neg (show ¬ raw.dataLength + i < raw.dataLength by omega),
    if_pos (show raw.dataLength + i < raw.dataLength + raw.eccLength by omega),
    Nat.add_sub_cancel_left, found, Option.bind_eq_bind, Option.bind_some,
    List.getElem?_eq_getElem within]

/-- Every codeword is there, and the next call returns the next one. -/
theorem getCode_codeAt (made : raw.Made version level data) (known : Blocks version level)
    (sized : data.length = (getEccSpec version level).rsDataLength) {i : Nat}
    (below : i < raw.dataLength + raw.eccLength) :
    ({ raw with count := i }).getCode = some (raw.codeAt i, { raw with count := i + 1 }) := by
  have got : ∃ code, ({ raw with count := i }).getCode =
      some (code, { raw with count := i + 1 }) := by
    by_cases first : i < raw.dataLength
    · obtain ⟨code, _, got⟩ := getCode_data made known sized first
      exact ⟨code, got⟩
    · obtain ⟨j, rfl⟩ := Nat.exists_eq_add_of_le (Nat.not_lt.mp first)
      obtain ⟨_, code, _, _, got⟩ := getCode_ecc made (Nat.lt_of_add_lt_add_left below)
      exact ⟨code, got⟩
  obtain ⟨code, got⟩ := got
  rw [got, codeAt, got]
  rfl

/-- The codewords of the data are its bytes in the order by columns. -/
theorem codeAt_data (made : raw.Made version level data) (known : Blocks version level)
    (sized : data.length = (getEccSpec version level).rsDataLength) {i : Nat}
    (below : i < raw.dataLength) :
    data[(shape (getEccSpec version level)).place i]? = some (raw.codeAt i) := by
  obtain ⟨code, found, got⟩ := getCode_data made known sized below
  rw [found, codeAt, got]
  rfl

/-- The codewords after them are the check bytes, one of each block in turn. -/
theorem codeAt_ecc (made : raw.Made version level data) {row k : Nat}
    (inRows : row < (shape (getEccSpec version level)).rows)
    (inside : k < (getEccSpec version level).rsEccCodes1) {block : RSblock}
    (found : raw.rsblock[row]? = some block) :
    block.ecc[k]? = some (raw.codeAt (raw.dataLength +
      ((shape (getEccSpec version level)).rows * k + row))) := by
  have below : (shape (getEccSpec version level)).rows * k + row < raw.eccLength := by
    have next := Nat.mul_le_mul_left (shape (getEccSpec version level)).rows (Nat.succ_le_of_lt inside)
    rw [Nat.mul_succ] at next
    rw [made.eccLength, EccSpec.rsEccLength]
    exact lt_of_lt_of_le (Nat.add_lt_add_left inRows _) next
  obtain ⟨other, code, same, read, got⟩ := getCode_ecc made below
  rw [made.blocks, Nat.mul_add_mod, Nat.mod_eq_of_lt inRows, found, Option.some.injEq] at same
  rw [made.blocks, Nat.mul_add_div (Nat.zero_lt_of_lt inRows), Nat.div_eq_of_lt inRows, Nat.add_zero,
    ← same] at read
  rw [read, codeAt, got]
  rfl

end QRRawCode

end AssistedDump.QrEncode
