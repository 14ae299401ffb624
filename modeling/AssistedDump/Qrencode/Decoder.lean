import AssistedDump.Qrencode.Encode

/-! # The decoder of tests/decoder.c

The decoder reads a symbol back: its version and format, its modules without the
mask, the codewords of the data in the order of the blocks and the chunks in them.
`none` is `NULL` and a read outside of an array. Chunks of numeric, alphanumeric and
kanji data are left out, so they end the data as an invalid mode does.
-/

namespace AssistedDump.Decoder

open BitStream QrSpec
open DumpLoop (QRecLevel QRcode)
open QrEncode (FrameFiller)

/-! ## Chunks -/

/-- A length that is not there is 0. -/
def decodeLength (bits : List Bool) (version : Nat) : Nat × List Bool :=
  let lbits := lengthIndicator version
  if bits.length < lbits then (0, bits) else (Bits.toNat (bits.take lbits), bits.drop lbits)

/-- `none` is `NULL`, after which the bits that were read for it are gone as well. -/
def decode8 (bits : List Bool) (version : Nat) : Option (List UInt8) × List Bool :=
  let (size, bits) := decodeLength bits version
  let sizeInBit := size * 8
  if bits.length < sizeInBit then (none, bits)
  else (some ((pieces 8 size bits).map fun p => (bitToInt p).toUInt8), bits.drop sizeInBit)

def decodeChunk (bits : List Bool) (version : Nat) : Option (List UInt8) × List Bool :=
  if bits.length < 4 then (none, bits)
  else if bitToInt (bits.take 4) = 4 then decode8 (bits.drop 4) version
  else (none, bits.drop 4)

theorem decodeChunk_shorter {bits rest : List Bool} {version : Nat} {chunk : List UInt8}
    (decoded : decodeChunk bits version = (some chunk, rest)) : rest.length < bits.length := by
  have shorter : (decodeLength (bits.drop 4) version).2.length ≤ (bits.drop 4).length := by
    rw [decodeLength]
    split
    · exact le_refl _
    · exact (List.length_drop ..).le.trans (Nat.sub_le _ _)
  rw [List.length_drop] at shorter
  simp only [decodeChunk, decode8] at decoded
  split at decoded
  · cases decoded
  · split at decoded
    · split at decoded
      · cases decoded
      · cases decoded
        rw [List.length_drop]
        omega
    · cases decoded

/-- The chunks `QRdata_decodeBits` appends, and the bits it returns the number of. -/
def decodeBitStream (bits : List Bool) (version : Nat) : List (List UInt8) × List Bool :=
  match _ : decodeChunk bits version with
  | (none, rest) => ([], rest)
  | (some chunk, rest) =>
      let (chunks, left) := decodeBitStream rest version
      (chunk :: chunks, left)
termination_by bits.length
decreasing_by exact decodeChunk_shorter ‹_›

/-- `checkRemainderWords`, for the last `remainder` of the bits. -/
def checkRemainderWords (bits : List Bool) (remainder : Nat) : Int :=
  let words := remainder / 8
  let rbits := remainder - words * 8
  let bits := bits.drop (bits.length - remainder)
  let p := bits.drop rbits
  if ∃ i < rbits, bits.getD i false ≠ false then -1
  else if ∃ i < words, (bitToInt ((p.drop (8 * i)).take 8)).toUInt8 ≠
    if i % 2 = 1 then 0x11 else 0xec then -1
  else 0

/-! ## Symbols -/

/-- The bits of a word, the most significant one first. -/
def readWord (data : List UInt8) (indices : List Nat) : Option UInt32 :=
  indices.foldlM (fun v i => (data[i]?).map fun m => (v <<< 1) ||| (m &&& 1).toUInt32) 0

def versionIndices1 (width : Nat) : List Nat :=
  (List.range 6).flatMap fun x => (List.range 3).map fun y =>
    width * (width - 9) + 5 - y * width - x

def versionIndices2 (width : Nat) : List Nat :=
  (List.range 6).flatMap fun y => (List.range 3).map fun x =>
    width * 5 + width - 9 - y * width - x

def decodeVersion (code : QRcode) : Option Int :=
  if code.width < 45 then some (((code.width : Int) - 21).tdiv 4 + 1)
  else do
    let v1 ← readWord code.data (versionIndices1 code.width)
    let v2 ← readWord code.data (versionIndices2 code.width)
    if v1 ≠ v2 then some (-1) else some (v1 >>> 12).toNat

def formatIndices1 (width : Nat) : List Nat :=
  ((List.range 8).map fun i => width * 8 + if i < 6 then i else i + 1) ++
  (List.range 7).map fun i => width * 7 + 8 - width * if i < 1 then i else i + 1

def formatIndices2 (width : Nat) : List Nat :=
  ((List.range 7).map fun i => width * (width - 1) + 8 - width * i) ++
  (List.range 8).map fun i => width * 8 + width - 8 + i

def levelOf (bits : UInt32) : QRecLevel :=
  if bits = 1 then .l else if bits = 0 then .m else if bits = 3 then .q else .h

/-- The level and the mask. -/
def decodeFormat (code : QRcode) : Option (QRecLevel × Nat) := do
  let v1 ← readWord code.data (formatIndices1 code.width)
  let v2 ← readWord code.data (formatIndices2 code.width)
  if v1 ≠ v2 then none
  else
    let v1 := (v1 ^^^ 0x5412) >>> 10
    some (levelOf ((v1 >>> 3) &&& 3), (v1 &&& 7).toNat)

def unmask (code : QRcode) (level : QRecLevel) (mask : Nat) : Option Frame :=
  Mask.makeMask code.width code.data mask level

/-- The body of the inner loop of `extractBits`. A bit that is not put is `none`. -/
def extractBit (frame : Frame) (q : Nat) (s : FrameFiller × List (Option Bool)) (j : Nat) :
    Option (FrameFiller × List (Option Bool)) := do
  let (p, filler) ← s.1.next frame
  let m ← frame[p]?
  let bits ← stored [(q + j, some (decide (m &&& 1 ≠ 0)))] s.2
  some (filler, bits)

/-- The inner loop, for the codeword that is put to `q`. -/
def extractByte (frame : Frame) (q : Nat) (s : FrameFiller × List (Option Bool)) :
    Option (FrameFiller × List (Option Bool)) := (List.range 8).foldlM (extractBit frame q) s

/-- `idx` in the outer loop. -/
def codewordIndex (spec : EccSpec) (i : Nat) : Nat :=
  let blocks := spec.rsBlockNum
  let d1 := spec.rsDataCodes1
  let b1 := spec.rsBlockNum1
  let col := i / blocks
  let row := i % blocks + if col ≥ d1 then b1 else 0
  d1 * row + col + if row > b1 then row - b1 else 0

def extractBits (width : Nat) (frame : Frame) (spec : EccSpec) : Option (List Bool) := do
  let words := spec.rsDataLength
  let (_, bits) ← (List.range words).foldlM
    (fun s i => extractByte frame (codewordIndex spec i * 8) s)
    (FrameFiller.set width, List.replicate (words * 8) none)
  bits.mapM id

structure QRdata where
  version : Nat
  level : QRecLevel
  chunks : List (List UInt8)
  data : Option (List UInt8)
  deriving DecidableEq

/-- What `QRcode_extractBits` and `QRcode_decodeBits` both begin with. -/
def extracted (code : QRcode) : Option (Nat × QRecLevel × List Bool) := do
  let version ← decodeVersion code
  if version < 1 then none
  else
    let version := version.toNat
    let (level, mask) ← decodeFormat code
    let spec := getEccSpec version level
    let unmasked ← unmask code level mask
    let bits ← extractBits code.width unmasked spec
    some (version, level, bits)

/-- What `checkRemainderWords` returns here is not used. -/
def decodeBits (code : QRcode) : Option QRdata :=
  (extracted code).map fun (version, level, bits) =>
    { version, level, chunks := (decodeBitStream bits version).1, data := none }

/-- `DataChunk_concatChunkList`. -/
def concatChunkList (chunks : List (List UInt8)) : Option (List UInt8) :=
  if (chunks.map List.length).sum = 0 then none else some chunks.flatten

def decode (code : QRcode) : Option QRdata :=
  (decodeBits code).map fun d => { d with data := concatChunkList d.chunks }

/-! ## Chunks that were encoded -/

open QrInput (chunkBits padding Terminated modeIndicatorSize modeId8)

theorem decodeLength_ofNat {version size : Nat} (short : size ≤ maximumWords version)
    (rest : List Bool) :
    decodeLength (Bits.ofNat (lengthIndicator version) size ++ rest) version = (size, rest) := by
  have below : size < 2 ^ lengthIndicator version := by
    have positive := Nat.one_le_two_pow (n := lengthIndicator version)
    rw [maximumWords] at short
    omega
  have long : ¬ (Bits.ofNat (lengthIndicator version) size ++ rest).length <
      lengthIndicator version := by
    rw [List.length_append, Bits.ofNat_length]
    omega
  simp only [decodeLength, if_neg long]
  rw [List.take_left' (Bits.ofNat_length _ _), List.drop_left' (Bits.ofNat_length _ _),
    Bits.toNat_ofNat, Nat.mod_eq_of_lt below]

theorem bitToInt_byte {bits : List Bool} (eight : bits.length = 8) :
    (bitToInt bits).toUInt8 = packBits bits := by
  apply UInt8.toNat_inj.mp
  have below := Bits.toNat_lt bits
  rw [eight] at below
  rw [UInt32.toNat_toUInt8, bitToInt_toNat (by omega), packBits_toNat eight.le]
  exact Nat.mod_eq_of_lt below

theorem pieces_writeBytes (data : List UInt8) (rest : List Bool) :
    (pieces 8 data.length (writeBytes data ++ rest)).map (fun p => (bitToInt p).toUInt8) = data := by
  apply List.ext_getElem (by simp [pieces])
  intro i inside below
  have eight : ∀ byte : UInt8, (Bits.ofNat 8 byte.toNat).length = 8 :=
    fun byte => Bits.ofNat_length _ _
  have piece : ((writeBytes data ++ rest).drop (8 * i)).take 8 = Bits.ofNat 8 data[i].toNat := by
    have length := writeBytes_length data
    apply List.ext_getElem?
    intro j
    rw [List.getElem?_take]
    split
    · next small =>
        rw [List.getElem?_drop, List.getElem?_append_left (by omega), writeBytes_eq,
          getElem?_flatMap eight _ _ small, List.getElem?_eq_getElem below, Option.bind_some]
    · next large => rw [List.getElem?_eq_none (by rw [eight]; omega)]
  simp only [pieces, List.getElem_map, List.getElem_range, piece]
  rw [bitToInt_byte (eight _)]
  apply UInt8.toNat_inj.mp
  rw [packBits_toNat (eight _).le, Bits.toNat_ofNat]
  exact Nat.mod_eq_of_lt data[i].toNat_lt

theorem decodeChunk_chunkBits {version : Nat} {chunk : List UInt8}
    (short : chunk.length ≤ maximumWords version) (rest : List Bool) :
    decodeChunk (chunkBits version chunk ++ rest) version = (some chunk, rest) := by
  have four : (Bits.ofNat modeIndicatorSize modeId8.toNat).length = 4 := Bits.ofNat_length _ _
  have long : ¬ (chunkBits version chunk ++ rest).length < 4 := by
    rw [chunkBits, List.append_assoc, List.append_assoc, List.length_append, four]
    omega
  have mode : bitToInt (Bits.ofNat modeIndicatorSize modeId8.toNat) = 4 := by decide
  have size : ¬ (writeBytes chunk ++ rest).length < chunk.length * 8 := by
    rw [List.length_append, writeBytes_length]
    omega
  rw [decodeChunk, if_neg long, chunkBits, List.append_assoc, List.append_assoc,
    List.take_left' four, List.drop_left' four, if_pos mode, decode8,
    decodeLength_ofNat short]
  simp only [if_neg size, pieces_writeBytes]
  rw [List.drop_left' (by rw [writeBytes_length, Nat.mul_comm])]

theorem checkRemainderWords_padding (front : List Bool) {zeroes : Nat} (few : zeroes < 8)
    (words : Nat) : checkRemainderWords
      (front ++ (List.replicate zeroes false ++ writeBytes (padding words))) (zeroes + 8 * words) = 0 := by
  have count : (zeroes + 8 * words) / 8 = words := by omega
  have odd : zeroes + 8 * words - words * 8 = zeroes := by omega
  have size : (padding words).length = words := by rw [padding, List.length_map, List.length_range]
  have last : (front ++ (List.replicate zeroes false ++ writeBytes (padding words))).length -
      (zeroes + 8 * words) = front.length := by
    rw [List.length_append, List.length_append, List.length_replicate, writeBytes_length, size]
    omega
  have zero (i : Nat) (below : i < zeroes) :
      (List.replicate zeroes false ++ writeBytes (padding words)).getD i false = false := by
    rw [List.getD_eq_getElem?_getD,
      List.getElem?_append_left (by rw [List.length_replicate]; exact below),
      List.getElem?_replicate, if_pos below, Option.getD_some]
  have pad (i : Nat) (below : i < words) :
      (bitToInt (((writeBytes (padding words)).drop (8 * i)).take 8)).toUInt8 =
        if i % 2 = 1 then 0x11 else 0xec := by
    have here := congrArg (·[i]?) (pieces_writeBytes (padding words) [])
    simpa [pieces, padding, below] using here
  rw [checkRemainderWords, count, odd, last, List.drop_left, if_neg, if_neg]
  · rintro ⟨i, below, wrong⟩
    rw [List.drop_left' List.length_replicate] at wrong
    exact wrong (pad i below)
  · rintro ⟨i, below, wrong⟩
    exact wrong (zero i below)

/-- What ends the chunks is not taken for one, and the check of the remainder accepts it. -/
theorem decodeChunk_terminated {tail : List Bool} (terminated : Terminated tail) (version : Nat) :
    ∃ left, decodeChunk tail version = (none, left) ∧
      ∀ front, checkRemainderWords (front ++ tail) left.length = 0 := by
  rcases terminated with ⟨few, short, rfl⟩ | ⟨zeroes, few, words, rfl⟩
  · refine ⟨_, if_pos (by rw [List.length_replicate]; exact short), fun front => ?_⟩
    have checked := checkRemainderWords_padding front (lt_trans short (by decide)) 0
    simpa [padding, writeBytes] using checked
  · refine ⟨List.replicate zeroes false ++ writeBytes (padding words), ?_, fun front => ?_⟩
    · have four : (List.replicate modeIndicatorSize false).length = 4 := List.length_replicate
      rw [decodeChunk, List.take_left' four, List.drop_left' four,
        if_neg (show ¬ bitToInt (List.replicate modeIndicatorSize false) = 4 by decide)]
      split
      · next short =>
          rw [List.length_append, four] at short
          omega
      · rfl
    · rw [← List.append_assoc, List.length_append, List.length_replicate, writeBytes_length, padding,
        List.length_map, List.length_range]
      exact checkRemainderWords_padding _ few words

/-- The chunks come back, and the check of the remainder accepts what is left. -/
theorem decodeBitStream_chunks {version : Nat} {chunks : List (List UInt8)}
    (short : ∀ chunk ∈ chunks, chunk.length ≤ maximumWords version) {tail : List Bool}
    (terminated : Terminated tail) :
    ∃ left, decodeBitStream (chunks.flatMap (chunkBits version) ++ tail) version = (chunks, left) ∧
      ∀ front, checkRemainderWords (front ++ tail) left.length = 0 := by
  induction chunks with
  | nil =>
      obtain ⟨left, stops, checked⟩ := decodeChunk_terminated terminated version
      refine ⟨left, ?_, checked⟩
      rw [List.flatMap_nil, List.nil_append, decodeBitStream]
      split
      · next decoded =>
          rw [stops] at decoded
          cases decoded
          rfl
      · next decoded =>
          rw [stops] at decoded
          cases decoded
  | cons chunk chunks ih =>
      obtain ⟨left, rest, checked⟩ := ih fun other member => short other (List.mem_cons_of_mem _ member)
      have first := decodeChunk_chunkBits (short chunk List.mem_cons_self)
        (chunks.flatMap (chunkBits version) ++ tail)
      refine ⟨left, ?_, checked⟩
      rw [List.flatMap_cons, List.append_assoc, decodeBitStream]
      split
      · next decoded =>
          rw [first] at decoded
          cases decoded
      · next decoded =>
          rw [first] at decoded
          cases decoded
          rw [rest]

end AssistedDump.Decoder
