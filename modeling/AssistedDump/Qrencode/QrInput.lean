import AssistedDump.Qrencode.BitStream
import AssistedDump.Qrencode.QrSpec

/-! # The input data of qrinput.c

An input is a version, a level and a list of entries of 8-bit data. Every number of
bits is taken to fit an `int`. Left out are the other modes, FNC1, structured append
and Micro QR.
-/

namespace AssistedDump.QrInput

open BitStream QrSpec
open DumpLoop (QRecLevel)

structure QRinput where
  version : Nat
  level : QRecLevel
  head : List (List UInt8)
  known : version ≤ versionMax

/-- `QRinput_new2`. -/
def new2 (version : Nat) (level : QRecLevel) : Option QRinput :=
  if h : version > versionMax then none else some ⟨version, level, [], Nat.not_lt.mp h⟩

/-- `QRinput_append` of 8-bit data. -/
def append (input : QRinput) (data : List UInt8) : Option QRinput :=
  if data.length = 0 then none else some { input with head := input.head ++ [data] }

/-- The input after `QRinput_setVersion`, which refuses a version that is out of range. -/
def setVersion (input : QRinput) (version : Nat) : QRinput :=
  if h : version > versionMax then input else { input with version, known := Nat.not_lt.mp h }

/-! ## The version a symbol needs -/

def modeIndicatorSize : Nat := 4

def estimateBitsMode8 (size : Nat) : Nat := size * 8

def estimateBitStreamSizeOfEntry (entry : List UInt8) (version : Nat) : Nat :=
  let version := if version = 0 then 1 else version
  let bits := estimateBitsMode8 entry.length
  let l := lengthIndicator version
  let m := 2 ^ l
  let num := (entry.length + m - 1) / m
  bits + num * (modeIndicatorSize + l)

def estimateBitStreamSize (input : QRinput) (version : Nat) : Nat :=
  (input.head.map fun entry => estimateBitStreamSizeOfEntry entry version).sum

theorem search_le (size : Nat) (level : QRecLevel) {rest i : Nat} (sum : rest + i = versionMax + 1) :
    getMinimumVersion.search size level rest i ≤ versionMax := by
  induction rest generalizing i with
  | zero => exact le_refl _
  | succ rest ih =>
      rw [getMinimumVersion.search]
      split
      · omega
      · exact ih (by omega)

theorem getMinimumVersion_le_max (size : Nat) (level : QRecLevel) :
    getMinimumVersion size level ≤ versionMax := search_le size level rfl

/-- One turn of the loop of `QRinput_estimateVersion`. -/
def estimateVersion.turn (input : QRinput) (prev : Nat) : Nat :=
  let bits := estimateBitStreamSize input prev
  let version := getMinimumVersion ((bits + 7) / 8) input.level
  if prev = 0 ∧ version > 1 then version - 1 else version

theorem turn_le_max (input : QRinput) (prev : Nat) :
    estimateVersion.turn input prev ≤ versionMax := by
  have most := getMinimumVersion_le_max ((estimateBitStreamSize input prev + 7) / 8) input.level
  simp only [estimateVersion.turn]
  split <;> omega

/-- The loop, after a turn that led to `prev`. -/
def estimateVersion.loop (input : QRinput) (prev : Nat) : Nat :=
  let version := estimateVersion.turn input prev
  if version > prev then loop input version else version
termination_by versionMax - prev
decreasing_by
  have := turn_le_max input prev
  omega

def estimateVersion (input : QRinput) : Nat := estimateVersion.loop input 0

/-! ## The bit stream -/

def modeId8 : UInt32 := 4

def encodeMode8 (entry : List UInt8) (bstream : List Bool) (version : Nat) : List Bool :=
  let bstream := appendNum bstream 4 modeId8
  let bstream := appendNum bstream (lengthIndicator version) (UInt32.ofNat entry.length)
  appendBytes bstream entry

/-- An entry with more bytes than the length indicator can tell is split. -/
def encodeBitStream (entry : List UInt8) (bstream : List Bool) (version : Nat) : List Bool :=
  let words := maximumWords version
  if words ≠ 0 ∧ entry.length > words then
    let bstream := encodeBitStream (entry.take words) bstream version
    encodeBitStream (entry.drop words) bstream version
  else encodeMode8 entry bstream version
termination_by entry.length
decreasing_by all_goals simp only [List.length_take, List.length_drop]; omega

def createBitStream (input : QRinput) (bstream : List Bool) : List Bool :=
  input.head.foldl (fun bstream entry => encodeBitStream entry bstream input.version) bstream

/-- The loop of `QRinput_convertData`. -/
def convertData.loop (input : QRinput) : QRinput × List Bool :=
  let bstream := createBitStream input []
  let ver := getMinimumVersion ((bstream.length + 7) / 8) input.level
  if ver > input.version then loop (setVersion input ver) else (input, bstream)
termination_by versionMax - input.version
decreasing_by
  have most : ver ≤ versionMax := getMinimumVersion_le_max _ _
  rw [setVersion, dif_neg (Nat.not_lt.mpr most)]
  change versionMax - ver < versionMax - input.version
  omega

def convertData (input : QRinput) : QRinput × List Bool :=
  let ver := estimateVersion input
  convertData.loop (if ver > input.version then setVersion input ver else input)

def appendPaddingBit (bstream : List Bool) (input : QRinput) : Option (List Bool) :=
  let bits := bstream.length
  let maxwords := getDataLength input.version input.level
  let maxbits := maxwords * 8
  if maxbits < bits then none
  else if maxbits = bits then some bstream
  else if maxbits - bits ≤ 4 then some (appendNum bstream (maxbits - bits) 0)
  else
    let words := (bits + 4 + 7) / 8
    let bstream := appendNum bstream (words * 8 - bits) 0
    let padlen := maxwords - words
    some ((List.range padlen).foldl
      (fun bstream i => appendNum bstream 8 (if i % 2 = 1 then 0x11 else 0xec)) bstream)

/-- The bytes, and the input with the version they are for. -/
def getByteStream (input : QRinput) : Option (List UInt8 × QRinput) := do
  let (input, bstream) := convertData input
  let bstream ← appendPaddingBit bstream input
  let data ← toByte bstream
  some (data, input)

end AssistedDump.QrInput
