import AssistedDump.Qrencode.QrInput
import Mathlib.Order.Bounds.Basic

/-! # What the byte stream of an input holds

The bit stream is made of chunks, each with its length in front, and is padded to
the length the version and the level tell. The version is the least one that holds
the data, unless a larger one was asked for.
-/

namespace AssistedDump.QrInput

open BitStream QrSpec
open DumpLoop (QRecLevel)

/-! ## Chunks -/

/-- Data with its mode and its length in front. -/
def chunkBits (version : Nat) (chunk : List UInt8) : List Bool :=
  Bits.ofNat modeIndicatorSize modeId8.toNat ++
    Bits.ofNat (lengthIndicator version) chunk.length ++ writeBytes chunk

theorem lengthIndicator_eq (version : Nat) :
    lengthIndicator version = if version ≤ 9 then 8 else 16 := by
  rw [lengthIndicator]
  split
  · rfl
  · split <;> rfl

theorem maximumWords_eq (version : Nat) :
    maximumWords version = if version ≤ 9 then 255 else 65535 := by
  rw [maximumWords, lengthIndicator_eq]
  split <;> rfl

theorem chunkBits_length (version : Nat) (chunk : List UInt8) :
    (chunkBits version chunk).length =
      modeIndicatorSize + lengthIndicator version + 8 * chunk.length := by
  rw [chunkBits, List.length_append, List.length_append, Bits.ofNat_length, Bits.ofNat_length,
    writeBytes_length]

theorem encodeMode8_eq {version : Nat} {entry : List UInt8}
    (short : entry.length ≤ maximumWords version) (bstream : List Bool) :
    encodeMode8 entry bstream version = bstream ++ chunkBits version entry := by
  have bits : lengthIndicator version ≤ 32 := by
    rw [lengthIndicator_eq]
    split <;> decide
  have size : (UInt32.ofNat entry.length).toNat = entry.length := by
    apply UInt32.toNat_ofNat_of_lt'
    rw [maximumWords_eq] at short
    split at short <;> exact lt_of_le_of_lt short (by decide)
  rw [encodeMode8, appendBytes, appendNum_eq bits, appendNum_eq (by decide), size, chunkBits,
    modeIndicatorSize]
  simp only [List.append_assoc]

/-- What an entry adds is made of chunks that are together its data. -/
theorem encodeBitStream_chunks (entry : List UInt8) (bstream : List Bool) (version : Nat) :
    ∃ chunks : List (List UInt8), chunks.flatten = entry ∧
      (∀ chunk ∈ chunks, chunk.length ≤ maximumWords version) ∧
      encodeBitStream entry bstream version = bstream ++ chunks.flatMap (chunkBits version) := by
  fun_induction encodeBitStream entry bstream version with
  | case1 entry bstream words large front first _ second =>
      obtain ⟨chunks, whole, short, encoded⟩ := first
      obtain ⟨chunks', whole', short', encoded'⟩ := second
      refine ⟨chunks ++ chunks', ?_, ?_, ?_⟩
      · rw [List.flatten_append, whole, whole', List.take_append_drop]
      · intro chunk member
        exact (List.mem_append.mp member).elim (short chunk) (short' chunk)
      · rw [encoded', List.flatMap_append, ← List.append_assoc]
        exact congrArg (· ++ _) encoded
  | case2 entry bstream words small =>
      have short : entry.length ≤ maximumWords version := by
        have positive : words ≠ 0 := by
          change maximumWords version ≠ 0
          rw [maximumWords_eq]
          split <;> decide
        exact Nat.not_lt.mp fun large => small ⟨positive, large⟩
      refine ⟨[entry], by simp, by simpa using short, ?_⟩
      rw [List.flatMap_singleton]
      exact encodeMode8_eq short bstream

theorem foldl_chunks (version : Nat) (entries : List (List UInt8)) (bstream : List Bool) :
    ∃ chunks : List (List UInt8), chunks.flatten = entries.flatten ∧
      (∀ chunk ∈ chunks, chunk.length ≤ maximumWords version) ∧
      entries.foldl (fun bstream entry => encodeBitStream entry bstream version) bstream =
        bstream ++ chunks.flatMap (chunkBits version) := by
  induction entries generalizing bstream with
  | nil => exact ⟨[], rfl, by simp, by simp⟩
  | cons entry entries ih =>
      obtain ⟨chunks, whole, short, encoded⟩ := encodeBitStream_chunks entry bstream version
      obtain ⟨chunks', whole', short', encoded'⟩ := ih (encodeBitStream entry bstream version)
      refine ⟨chunks ++ chunks', ?_, ?_, ?_⟩
      · rw [List.flatten_append, whole, whole', List.flatten_cons]
      · intro chunk member
        exact (List.mem_append.mp member).elim (short chunk) (short' chunk)
      · rw [List.foldl_cons, encoded', encoded, List.flatMap_append, List.append_assoc]

theorem createBitStream_chunks (input : QRinput) :
    ∃ chunks : List (List UInt8), chunks.flatten = input.head.flatten ∧
      (∀ chunk ∈ chunks, chunk.length ≤ maximumWords input.version) ∧
      createBitStream input [] = chunks.flatMap (chunkBits input.version) :=
  foldl_chunks input.version input.head []

theorem flatMap_chunkBits_length (version : Nat) (chunks : List (List UInt8)) :
    (chunks.flatMap (chunkBits version)).length =
      chunks.length * (modeIndicatorSize + lengthIndicator version) + 8 * chunks.flatten.length := by
  induction chunks with
  | nil => simp
  | cons chunk chunks ih =>
      rw [List.flatMap_cons, List.length_append, ih, chunkBits_length, List.flatten_cons,
        List.length_append, List.length_cons, Nat.add_mul]
      omega

/-! ## The least version that holds data -/

/-- A version has room for data in one chunk. -/
def Fits (version : Nat) (level : QRecLevel) (size : Nat) : Prop :=
  modeIndicatorSize + lengthIndicator version + 8 * size ≤ 8 * getDataLength version level

instance (version : Nat) (level : QRecLevel) (size : Nat) : Decidable (Fits version level size) :=
  inferInstanceAs (Decidable (_ ≤ _))

/-- The least version that holds so many bytes. -/
def Least (level : QRecLevel) (size version : Nat) : Prop :=
  IsLeast {v | Version v ∧ Fits v level size} version

theorem dataLengths : ∀ version < 41, 1 ≤ version → ∀ level ∈ levels,
    (0 < getDataLength version level ∧ getDataLength version level ≤ 2956) ∧
    (version ≤ 9 → getDataLength version level ≤ 232) ∧
    (version < 40 → getDataLength version level < getDataLength (version + 1) level) := by
  decide +kernel

theorem getDataLength_mono {version version' : Nat} (known : Version version)
    (more : version ≤ version') (most : version' ≤ versionMax) (level : QRecLevel) :
    getDataLength version level + (version' - version) ≤ getDataLength version' level := by
  induction version', more using Nat.le_induction with
  | base => simp
  | succ later before ih =>
      have positive := known.positive
      have step := (dataLengths later (by simp only [versionMax] at most; omega) (by omega) level
        (mem_levels level)).2.2 most
      have := ih (Nat.le_of_succ_le most)
      omega

theorem Fits.mono {version version' size : Nat} {level : QRecLevel} (known : Version version)
    (fits : Fits version level size) (more : version ≤ version') (most : version' ≤ versionMax) :
    Fits version' level size := by
  have length := getDataLength_mono known more most level
  simp only [Fits, lengthIndicator_eq, modeIndicatorSize] at *
  split at fits <;> split <;> omega

/-- Data that fits is not split. -/
theorem Fits.short {version size : Nat} {level : QRecLevel} (known : Version version)
    (fits : Fits version level size) : size ≤ maximumWords version := by
  obtain ⟨⟨_, most⟩, few, _⟩ := dataLengths version (Nat.lt_succ_of_le known.most) known.positive level
    (mem_levels level)
  rw [Fits, lengthIndicator_eq, modeIndicatorSize] at fits
  rw [maximumWords_eq]
  split <;> omega

theorem search_spec (size : Nat) (level : QRecLevel) {rest i : Nat}
    (sum : rest + i = versionMax + 1) :
    (∀ u, i ≤ u → u < getMinimumVersion.search size level rest i →
      getDataLength u level < size) ∧
    (size ≤ getDataLength (getMinimumVersion.search size level rest i) level ∨
      getMinimumVersion.search size level rest i = versionMax) ∧
    min i versionMax ≤ getMinimumVersion.search size level rest i := by
  induction rest generalizing i with
  | zero =>
      refine ⟨fun u low high => ?_, .inr rfl, min_le_right _ _⟩
      rw [getMinimumVersion.search] at high
      omega
  | succ rest ih =>
      rw [getMinimumVersion.search]
      split
      · next here =>
          refine ⟨fun u low high => absurd low (Nat.not_le.mpr high), .inl here, min_le_left _ _⟩
      · next small =>
          obtain ⟨before, found, low⟩ := ih (i := i + 1) (by omega)
          refine ⟨fun u atLeast below => ?_, found, by omega⟩
          rcases Nat.lt_or_eq_of_le atLeast with later | rfl
          · exact before u later below
          · exact Nat.not_le.mp small

theorem getMinimumVersion_known (size : Nat) (level : QRecLevel) :
    Version (getMinimumVersion size level) :=
  ⟨(search_spec size level rfl).2.2, getMinimumVersion_le_max size level⟩

theorem getMinimumVersion_le_iff {size version : Nat} {level : QRecLevel} (known : Version version) :
    getMinimumVersion size level ≤ version ↔
      size ≤ getDataLength version level ∨ version = versionMax := by
  obtain ⟨before, found, _⟩ := search_spec size level
    (show versionMax + 1 = versionMax + 1 from rfl)
  constructor
  · intro least
    rcases found with room | last
    · left
      have length := getDataLength_mono (getMinimumVersion_known size level) least known.most level
      exact room.trans ((Nat.le_add_right _ _).trans length)
    · right
      exact Nat.le_antisymm known.most (last ▸ least)
  · rintro (room | rfl)
    · by_contra below
      exact Nat.not_le.mpr (before version known.positive (Nat.not_le.mp below)) room
    · exact getMinimumVersion_le_max size level

/-! ## The estimate -/

section Estimate

variable {input : QRinput} {data : List UInt8} {least : Nat}

theorem estimate_low (one : input.head = [data]) {version : Nat} (low : version ≤ 9) :
    (estimateBitStreamSize input version + 7) / 8 =
      (8 * data.length + 12 * ((data.length + 255) / 256) + 7) / 8 := by
  have eight : lengthIndicator (if version = 0 then 1 else version) = 8 := by
    rw [lengthIndicator_eq, if_pos (by split <;> omega)]
  rw [estimateBitStreamSize, one, List.map_singleton, List.sum_singleton]
  simp only [estimateBitStreamSizeOfEntry, eight, estimateBitsMode8, modeIndicatorSize]
  omega

theorem estimate_high (one : input.head = [data]) (filled : 0 < data.length)
    (few : data.length ≤ 65536) {version : Nat} (high : 10 ≤ version) :
    (estimateBitStreamSize input version + 7) / 8 = data.length + 3 := by
  have sixteen : lengthIndicator (if version = 0 then 1 else version) = 16 := by
    rw [lengthIndicator_eq, if_neg (by split <;> omega)]
  have once : (data.length + 2 ^ 16 - 1) / 2 ^ 16 = 1 := by omega
  rw [estimateBitStreamSize, one, List.map_singleton, List.sum_singleton]
  simp only [estimateBitStreamSizeOfEntry, sixteen, once, estimateBitsMode8, modeIndicatorSize]
  omega

theorem loop_of_turn {prev : Nat} (turn : estimateVersion.turn input prev = least)
    (still : estimateVersion.turn input least = least) :
    estimateVersion.loop input prev = least := by
  rw [estimateVersion.loop, turn]
  split
  · rw [estimateVersion.loop, still, if_neg (lt_irrefl _)]
  · rfl

theorem Least.few (holds : Least input.level data.length least) : data.length < 2956 := by
  obtain ⟨⟨known, fits⟩, _⟩ := holds
  obtain ⟨⟨_, most⟩, _, _⟩ := dataLengths least (Nat.lt_succ_of_le known.most) known.positive
    input.level (mem_levels _)
  rw [Fits, modeIndicatorSize] at fits
  omega

/-- From version 10 on a turn finds the least version. -/
theorem turn_high (one : input.head = [data]) (filled : 0 < data.length)
    (holds : Least input.level data.length least) (large : 10 ≤ least) {prev : Nat}
    (high : 10 ≤ prev) : estimateVersion.turn input prev = least := by
  obtain ⟨⟨known, fits⟩, minimal⟩ := holds
  have few := Least.few ⟨⟨known, fits⟩, minimal⟩
  have found : getMinimumVersion (data.length + 3) input.level = least := by
    apply Nat.le_antisymm
    · rw [Fits, lengthIndicator_eq, if_neg (by omega), modeIndicatorSize] at fits
      exact (getMinimumVersion_le_iff known).mpr (.inl (by omega))
    · have here := getMinimumVersion_known (data.length + 3) input.level
      rcases (getMinimumVersion_le_iff here).mp (le_refl _) with room | last
      · apply minimal ⟨here, ?_⟩
        rw [Fits, lengthIndicator_eq, modeIndicatorSize]
        split <;> omega
      · exact last ▸ known.most
  simp only [estimateVersion.turn, estimate_high one filled (by omega) high, found]
  exact if_neg (by omega)

/-- Up to version 9 as well, but the first turn stops one version before. -/
theorem turn_low (one : input.head = [data]) (filled : 0 < data.length)
    (holds : Least input.level data.length least) (small : least ≤ 9) {prev : Nat}
    (low : prev ≤ 9) :
    estimateVersion.turn input prev = if prev = 0 ∧ least > 1 then least - 1 else least := by
  obtain ⟨⟨known, fits⟩, minimal⟩ := holds
  obtain ⟨_, few, _⟩ := dataLengths least (by omega) known.positive input.level (mem_levels _)
  rw [Fits, lengthIndicator_eq, if_pos small, modeIndicatorSize] at fits
  have once : (data.length + 255) / 256 = 1 := by
    have := few small
    omega
  have found : getMinimumVersion (data.length + 2) input.level = least := by
    have below : getMinimumVersion (data.length + 2) input.level ≤ least :=
      (getMinimumVersion_le_iff known).mpr (.inl (by omega))
    apply Nat.le_antisymm below
    have here := getMinimumVersion_known (data.length + 2) input.level
    rcases (getMinimumVersion_le_iff here).mp (le_refl _) with room | last
    · apply minimal ⟨here, ?_⟩
      rw [Fits, lengthIndicator_eq, if_pos (by omega), modeIndicatorSize]
      omega
    · exact last ▸ known.most
  have size : (8 * data.length + 12 * 1 + 7) / 8 = data.length + 2 := by omega
  simp only [estimateVersion.turn, estimate_low one low, once, size, found]

/-- The first turn does not stop before version 9 where 9 is too small. -/
theorem turn_first (one : input.head = [data]) (filled : 0 < data.length)
    (holds : Least input.level data.length least) (large : 10 ≤ least) :
    9 ≤ estimateVersion.turn input 0 ∧ (estimateVersion.turn input 0 = 9 →
      estimateVersion.turn input 9 = 10) := by
  have nine : Version 9 := ⟨by decide, by decide⟩
  have beyond : ¬ getMinimumVersion ((8 * data.length + 12 * ((data.length + 255) / 256) + 7) / 8)
      input.level ≤ 9 := by
    intro early
    rcases (getMinimumVersion_le_iff nine).mp early with room | last
    · have fits : Fits 9 input.level data.length := by
        rw [Fits, lengthIndicator_eq, if_pos (le_refl _), modeIndicatorSize]
        omega
      have := holds.2 ⟨nine, fits⟩
      omega
    · cases last
  simp only [estimateVersion.turn, estimate_low one (Nat.zero_le _), estimate_low one (le_refl 9)]
  rw [if_pos ⟨trivial, by omega⟩, if_neg (by omega)]
  omega

theorem estimateVersion_eq (one : input.head = [data]) (filled : 0 < data.length)
    (holds : Least input.level data.length least) : estimateVersion input = least := by
  have positive := holds.1.1.positive
  rw [estimateVersion]
  by_cases small : least ≤ 9
  · have first := turn_low one filled holds small (Nat.zero_le 9)
    have still := turn_low one filled holds small small
    rw [if_neg (by omega)] at still
    by_cases more : least > 1
    · have before := turn_low one filled holds small (show least - 1 ≤ 9 by omega)
      rw [if_pos ⟨rfl, more⟩] at first
      rw [if_neg (by omega)] at before
      rw [estimateVersion.loop, first, if_pos (by omega)]
      exact loop_of_turn before still
    · rw [if_neg (by omega)] at first
      exact loop_of_turn first still
  · have large : 10 ≤ least := by omega
    have still := turn_high one filled holds large large
    obtain ⟨atLeast, next⟩ := turn_first one filled holds large
    rw [estimateVersion.loop, if_pos (by omega)]
    rcases Nat.lt_or_eq_of_le atLeast with high | nine
    · exact loop_of_turn (turn_high one filled holds large high) still
    · rw [← nine, estimateVersion.loop, next nine.symm, if_pos (by decide)]
      exact loop_of_turn (turn_high one filled holds large (le_refl _)) still

end Estimate

/-! ## The version that is chosen -/

/-- What the conversion of an input ends with. -/
structure Converted (input : QRinput) (result : QRinput × List Bool) : Prop where
  level : result.1.level = input.level
  head : result.1.head = input.head
  grown : input.version ≤ result.1.version
  stream : result.2 = createBitStream result.1 []
  enough : getMinimumVersion ((result.2.length + 7) / 8) result.1.level ≤ result.1.version

theorem setVersion_eq (input : QRinput) {version : Nat} (known : version ≤ versionMax) :
    setVersion input version = { input with version, known } := by
  rw [setVersion, dif_neg (Nat.not_lt.mpr known)]

theorem Converted.of_setVersion {input : QRinput} {version : Nat} {result : QRinput × List Bool}
    (more : input.version < version) (known : version ≤ versionMax)
    (converted : Converted (setVersion input version) result) : Converted input result := by
  obtain ⟨level, head, grown, stream, enough⟩ := converted
  rw [setVersion_eq input known] at level head grown
  exact ⟨level, head, more.le.trans grown, stream, enough⟩

theorem loop_converted (input : QRinput) : Converted input (convertData.loop input) := by
  fun_induction convertData.loop input with
  | case1 input bstream ver more later =>
      exact later.of_setVersion more (getMinimumVersion_le_max _ _)
  | case2 input bstream ver done => exact ⟨rfl, rfl, le_refl _, rfl, Nat.not_lt.mp done⟩

theorem estimateVersion_le_max (input : QRinput) : estimateVersion input ≤ versionMax := by
  rw [estimateVersion]
  fun_induction estimateVersion.loop input 0 with
  | case1 _ _ _ ih => exact ih
  | case2 prev version _ => exact turn_le_max input prev

theorem convertData_converted (input : QRinput) : Converted input (convertData input) := by
  simp only [convertData]
  split
  · next more =>
      exact (loop_converted _).of_setVersion more (estimateVersion_le_max input)
  · exact loop_converted input

theorem Converted.known {input : QRinput} {result : QRinput × List Bool}
    (converted : Converted input result) : Version result.1.version :=
  ⟨(getMinimumVersion_known _ _).positive.trans converted.enough, result.1.known⟩

/-- The conversion ends with a stream that has room, or with the largest version. -/
theorem Converted.room {input : QRinput} {result : QRinput × List Bool}
    (converted : Converted input result) :
    result.2.length ≤ 8 * getDataLength result.1.version result.1.level ∨
      result.1.version = versionMax := by
  rcases (getMinimumVersion_le_iff converted.known).mp converted.enough with room | last
  · exact .inl (by omega)
  · exact .inr last

theorem convertData_single {input : QRinput} {data : List UInt8} {least : Nat}
    (one : input.head = [data]) (filled : 0 < data.length)
    (holds : Least input.level data.length least) :
    (convertData input).1.version = max input.version least ∧
      (convertData input).2 = chunkBits (max input.version least) data := by
  obtain ⟨⟨known, fits⟩, minimal⟩ := id holds
  have most : max input.version least ≤ versionMax := max_le input.known known.most
  have fitsToo := fits.mono known (le_max_right input.version least) most
  have knownToo : Version (max input.version least) :=
    ⟨known.positive.trans (le_max_right _ _), most⟩
  have first : (if estimateVersion input > input.version then
      setVersion input (estimateVersion input) else input) =
        { input with version := max input.version least, known := most } := by
    rw [estimateVersion_eq one filled holds]
    split
    · next more =>
        rw [setVersion_eq input known.most]
        simp only [max_eq_right more.le]
    · next enough =>
        simp only [max_eq_left (Nat.not_lt.mp enough)]
  have stream : createBitStream
      { input with version := max input.version least, known := most } [] =
        chunkBits (max input.version least) data := by
    have short := fitsToo.short knownToo
    rw [createBitStream, one, List.foldl_cons, List.foldl_nil, encodeBitStream,
      if_neg fun split => Nat.not_lt.mpr short split.2, encodeMode8_eq short, List.nil_append]
  have done : ¬ getMinimumVersion (((chunkBits (max input.version least) data).length + 7) / 8)
      input.level > max input.version least := by
    rw [gt_iff_lt, not_lt, getMinimumVersion_le_iff knownToo, chunkBits_length]
    rw [Fits] at fitsToo
    omega
  simp only [convertData, first]
  rw [convertData.loop, stream, if_neg done]
  exact ⟨rfl, rfl⟩

/-! ## Padding -/

/-- The codewords that are appended where data is missing. -/
def padding (count : Nat) : List UInt8 :=
  (List.range count).map fun i => if i % 2 = 1 then 0x11 else 0xec

/-- What ends the chunks: fewer zeroes than a mode has bits, or the terminator, zeroes up to the
    next codeword, and the padding. -/
def Terminated (tail : List Bool) : Prop :=
  (∃ few < modeIndicatorSize, tail = List.replicate few false) ∨
    ∃ zeroes < 8, ∃ words, tail = List.replicate modeIndicatorSize false ++
      (List.replicate zeroes false ++ writeBytes (padding words))

theorem foldl_padding (items : List Nat) (bstream : List Bool) :
    items.foldl (fun bstream i => appendNum bstream 8 (if i % 2 = 1 then 0x11 else 0xec)) bstream =
      bstream ++ writeBytes (items.map fun i => if i % 2 = 1 then 0x11 else 0xec) := by
  induction items generalizing bstream with
  | nil => exact (List.append_nil bstream).symm
  | cons i items ih =>
      have same : (if i % 2 = 1 then 0x11 else 0xec : UInt32).toNat =
          (if i % 2 = 1 then 0x11 else 0xec : UInt8).toNat := by
        split <;> rfl
      rw [List.foldl_cons, ih, appendNum_eq (by decide), List.append_assoc, same, writeBytes_eq,
        writeBytes_eq, List.map_cons, List.flatMap_cons]

theorem appendPaddingBit_full {bstream : List Bool} {input : QRinput}
    (beyond : 8 * getDataLength input.version input.level < bstream.length) :
    appendPaddingBit bstream input = none := by
  simp only [appendPaddingBit]
  exact if_pos (by omega)

/-- The stream is kept in front and filled up to whole codewords. -/
theorem appendPaddingBit_tail {bstream : List Bool} {input : QRinput}
    (room : bstream.length ≤ 8 * getDataLength input.version input.level) :
    ∃ tail, appendPaddingBit bstream input = some (bstream ++ tail) ∧
      (bstream ++ tail).length = 8 * getDataLength input.version input.level ∧ Terminated tail := by
  simp only [appendPaddingBit]
  rw [if_neg (by omega)]
  split
  · exact ⟨[], by simp, by simp; omega, .inl ⟨0, by decide, rfl⟩⟩
  · next different =>
      split
      · next close =>
          rw [appendNum_eq (by omega), show (0 : UInt32).toNat = 0 from rfl, Bits.ofNat_zero]
          refine ⟨_, rfl, by simp; omega, ?_⟩
          rcases Nat.lt_or_eq_of_le close with short | four
          · exact .inl ⟨_, short, rfl⟩
          · rw [four]
            exact .inr ⟨0, by decide, 0, rfl⟩
      · next far =>
          have whole := Nat.div_add_mod (bstream.length + 4 + 7) 8
          have below := Nat.mod_lt (bstream.length + 4 + 7) (show 8 > 0 by decide)
          obtain ⟨zeroes, sum⟩ : ∃ zeroes,
              (bstream.length + 4 + 7) / 8 * 8 - bstream.length = modeIndicatorSize + zeroes :=
            Nat.exists_eq_add_of_le (by rw [modeIndicatorSize]; omega)
          have few : zeroes < 8 := by
            rw [modeIndicatorSize] at sum
            omega
          rw [appendNum_eq (by omega), foldl_padding, show (0 : UInt32).toNat = 0 from rfl,
            Bits.ofNat_zero, List.append_assoc]
          refine ⟨_, rfl, ?_, .inr ⟨zeroes, few,
            getDataLength input.version input.level - (bstream.length + 4 + 7) / 8, ?_⟩⟩
          · rw [List.length_append, List.length_append, List.length_replicate, writeBytes_length,
              List.length_map, List.length_range]
            omega
          · rw [sum, List.replicate_add, List.append_assoc]
            rfl

/-! ## The byte stream -/

/-- What the bytes for an input with its final version hold. -/
structure Stream (input final : QRinput) (data : List UInt8) (chunks : List (List UInt8)) : Prop where
  level : final.level = input.level
  known : Version final.version
  grown : input.version ≤ final.version
  length : data.length = getDataLength final.version input.level
  whole : chunks.flatten = input.head.flatten
  short : ∀ chunk ∈ chunks, chunk.length ≤ maximumWords final.version
  bits : ∃ tail, writeBytes data = chunks.flatMap (chunkBits final.version) ++ tail ∧
    Terminated tail

theorem getByteStream_stream {input : QRinput}
    (room : (convertData input).2.length ≤
      8 * getDataLength (convertData input).1.version input.level) :
    ∃ data chunks, getByteStream input = some (data, (convertData input).1) ∧
      Stream input (convertData input).1 data chunks := by
  have converted := convertData_converted input
  obtain ⟨chunks, whole, short, stream⟩ := createBitStream_chunks (convertData input).1
  rw [← converted.level] at room
  obtain ⟨tail, padded, length, terminated⟩ := appendPaddingBit_tail room
  obtain ⟨⟨filled, _⟩, _, _⟩ := dataLengths _ (Nat.lt_succ_of_le converted.known.most)
    converted.known.positive (convertData input).1.level (mem_levels _)
  obtain ⟨data, packed, size, bits⟩ := toByte_bits length filled
  refine ⟨data, chunks, ?_, converted.level, converted.known, converted.grown, ?_, ?_, short, tail,
    ?_, terminated⟩
  · simp only [getByteStream, padded, packed, Option.bind_eq_bind, Option.bind_some]
  · rw [size, converted.level]
  · rw [whole, converted.head]
  · rw [bits, converted.stream, stream]

/-- Bytes are made exactly when the version the conversion ends with has room. -/
theorem getByteStream_some {input final : QRinput} {data : List UInt8}
    (made : getByteStream input = some (data, final)) :
    ∃ chunks, Stream input final data chunks := by
  have converted := convertData_converted input
  by_cases room : (convertData input).2.length ≤
      8 * getDataLength (convertData input).1.version input.level
  · obtain ⟨data', chunks, same, stream⟩ := getByteStream_stream room
    obtain ⟨rfl, rfl⟩ := Prod.mk.inj (Option.some.inj (made.symm.trans same))
    exact ⟨chunks, stream⟩
  · rw [← converted.level] at room
    have full := appendPaddingBit_full (Nat.not_le.mp room)
    simp [getByteStream, full] at made

theorem getByteStream_single {input : QRinput} {data : List UInt8} {least : Nat}
    (one : input.head = [data]) (filled : 0 < data.length)
    (holds : Least input.level data.length least) :
    ∃ bytes final, getByteStream input = some (bytes, final) ∧
      final.version = max input.version least := by
  obtain ⟨version, stream⟩ := convertData_single one filled holds
  obtain ⟨⟨known, fits⟩, _⟩ := holds
  have room := fits.mono known (le_max_right input.version least) (max_le input.known known.most)
  obtain ⟨bytes, _, made, _⟩ := getByteStream_stream (show (convertData input).2.length ≤
      8 * getDataLength (convertData input).1.version input.level by
    rw [stream, version, chunkBits_length]
    exact room)
  exact ⟨bytes, _, made, version⟩

/-- Data that does not fit the largest version is refused. -/
theorem getByteStream_none {input : QRinput} {data : List UInt8} (one : input.head = [data])
    (filled : 0 < data.length) (large : ¬ Fits versionMax input.level data.length) :
    getByteStream input = none := by
  have converted := convertData_converted input
  obtain ⟨chunks, whole, _, stream⟩ := createBitStream_chunks (convertData input).1
  rw [converted.head, one, List.flatten_singleton] at whole
  have some : 0 < chunks.length := by
    apply List.length_pos_of_ne_nil
    rintro rfl
    rw [← whole] at filled
    cases filled
  have beyond : ¬ (convertData input).2.length ≤
      8 * getDataLength (convertData input).1.version input.level := by
    intro room
    apply large
    apply Fits.mono converted.known _ converted.known.most (le_refl _)
    rw [converted.stream, stream, flatMap_chunkBits_length, whole] at room
    have header := Nat.le_mul_of_pos_left
      (modeIndicatorSize + lengthIndicator (convertData input).1.version) some
    rw [Fits]
    omega
  rw [← converted.level] at beyond
  simp only [getByteStream, appendPaddingBit_full (Nat.not_le.mp beyond), Option.bind_eq_bind,
    Option.bind_none]

end AssistedDump.QrInput
