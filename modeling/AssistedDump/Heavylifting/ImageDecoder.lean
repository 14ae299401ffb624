import AssistedDump.General.ByteOrder
import AssistedDump.Heavylifting.RomStore

/-! # From a QR payload to the rom store

A worker runs `heavylifting_decode_image` of heavylifting_imgdec.c: it asks zbar
for the symbols of an image and answers with a `struct imgdec_response`, laid out
as little-endian 32-bit ints followed by the rom bytes. `decode_image_callback`
of heavylifting_main.c reads that message and stores the fragment. The symbols
zbar finds are a parameter here, everything after them is the program's own.
-/

namespace AssistedDump.ImageDecoder

open CSemantics Machine RomStore ByteOrder

def hlSuccess : Int32 := 64

def hlFail : Int32 := -1

/-- `enum decode_qr_code_image_result`, the decoded data beside `DEC_QR_OK`. -/
inductive DecodeResult where
  | ok (data : List UInt8)
  | errNoCode
  | errSeveralCodes
  | errOutBufTooShort
  deriving Repr, DecidableEq

/-- `decode_qr_code_image`, given the data of the symbols zbar found. -/
def decodeQrCodeImage (symbols : List (List UInt8)) (decodedDataBufLen : Nat) : DecodeResult :=
  match symbols with
  | [data] => if data.length > decodedDataBufLen then .errOutBufTooShort else .ok data
  | [] => .errNoCode
  | _ => .errSeveralCodes

/-- `sizeof(decoded_data_buf)`. -/
def decodedDataBufLen : Nat := 10000

/-- A byte promoted to `int`. -/
def promoted (b : UInt8) : Int32 := b.toUInt32.toInt32

/-- The `offset` of the header, put together in `int` and converted. -/
def headerOffset (decodedDataBuf : List UInt8) : UInt32 :=
  ((promoted (decodedDataBuf.getD 1 0) <<< 24) |||
    (promoted (decodedDataBuf.getD 2 0) <<< 16) |||
    (promoted (decodedDataBuf.getD 3 0) <<< 8) |||
    (promoted (decodedDataBuf.getD 4 0) <<< 0)).toUInt32

/-- `offsetof(struct imgdec_response, rom_fragment.bytes)` for 4-byte ints. -/
def offsetofRomFragmentBytes : Nat := 4 + 4 + 4

/-- The bytes of an `int` in the memory of a wasm module. -/
def intBytes (i : Int32) : List UInt8 := bytesLE i.toUInt32

/-- The message of a `struct imgdec_response`. -/
def response (resultCode : Int32) (frag : RomFragment) : List UInt8 :=
  intBytes resultCode ++ (bytesLE frag.offset ++ (intBytes frag.nBytes ++ frag.bytes))

/-- The fragment `heavylifting_decode_image` makes of a decoded payload. -/
def fragmentOf (decodedData : List UInt8) : RomFragment where
  offset := headerOffset decodedData
  nBytes := Int32.ofNat decodedData.length - 5
  bytes := decodedData.drop 5

/-- `heavylifting_decode_image`, from the symbols of the image to the response. -/
def heavyliftingDecodeImage {σ : Type} (symbols : List (List UInt8)) : C σ (List UInt8) := do
  match decodeQrCodeImage symbols decodedDataBufLen with
  | .ok decodedData =>
      assert "decoded_data_len >= 5" (decodedData.length ≥ 5)
      assert "12 == offsetof(struct imgdec_response, rom_fragment.bytes)"
        (12 = offsetofRomFragmentBytes)
      pure (response hlSuccess (fragmentOf decodedData))
  | _ => pure (intBytes hlFail)

/-- An `int` or `uint32_t` read from a message. -/
def readWord {σ : Type} (data : List UInt8) (offset : Nat) : C σ UInt32 :=
  match readLE? (data.drop offset) with
  | some w => pure w
  | none => throw (.outOfBounds offset)

variable {n : MaxRomSize}

def decodeImageCallback (data : List UInt8) : C (Store n) Unit := do
  assert "size >= sizeof(struct imgdec_response_header)" (data.length ≥ 4)
  let resultCode ← readWord data 0
  if resultCode.toInt32 ≠ hlSuccess then
    return
  let offset ← readWord data 4
  let nBytes ← readWord data 8
  storeRomFragment ⟨offset, nBytes.toInt32, data.drop offsetofRomFragmentBytes⟩

/-- A `struct imgdec_response` as `decode_image_callback` reads it: the fragment is only
    looked at after `HL_SUCCESS`. -/
structure ImgdecResponse where
  resultCode : Int32
  romFragment : Option RomFragment
  deriving Repr, DecidableEq

/-- The part of `decode_image_callback` that reads the message. -/
def readResponse {σ : Type} (data : List UInt8) : C σ ImgdecResponse := do
  assert "size >= sizeof(struct imgdec_response_header)" (data.length ≥ 4)
  let resultCode ← readWord data 0
  if resultCode.toInt32 ≠ hlSuccess then
    return ⟨resultCode.toInt32, none⟩
  let offset ← readWord data 4
  let nBytes ← readWord data 8
  return ⟨resultCode.toInt32, some ⟨offset, nBytes.toInt32, data.drop offsetofRomFragmentBytes⟩⟩

/-- One image on its way through a worker and the callback. -/
def processImage (symbols : List (List UInt8)) : C (Store n) Unit := do
  let message ← heavyliftingDecodeImage symbols
  decodeImageCallback message

/-! ## The header and the message -/

theorem headerOffset_eq_word (decodedDataBuf : List UInt8) :
    headerOffset decodedDataBuf =
      word (decodedDataBuf.getD 1 0) (decodedDataBuf.getD 2 0) (decodedDataBuf.getD 3 0)
        (decodedDataBuf.getD 4 0) := rfl

theorem fragmentOf_count {payload : List UInt8} (short : payload.length ≤ 10000) :
    (fragmentOf payload).nBytes.toInt = payload.length - 5 := by
  have length : (Int32.ofNat payload.length).toInt = payload.length :=
    Int32.toInt_ofNat_of_lt (by omega)
  have five : (5 : Int32).toInt = 5 := by decide
  rw [fragmentOf, Int32.toInt_sub, length, five, Int.bmod_eq_of_le] <;> omega

@[simp] theorem intBytes_length (i : Int32) : (intBytes i).length = 4 := rfl

theorem readWord_leading {σ : Type} (w : UInt32) {data rest : List UInt8} {offset : Nat}
    (at_ : data.drop offset = bytesLE w ++ rest) (s : σ) :
    (readWord data offset).run s = .ok w s := by
  simp only [readWord, at_, readLE?_bytesLE, EStateM.run_pure]

/-- The callback reads the message and stores the fragment it has found there, if any. -/
theorem decodeImageCallback_reads (data : List UInt8) :
    decodeImageCallback (n := n) data = (do
      let response ← readResponse data
      match response.romFragment with
      | some frag => storeRomFragment frag
      | none => pure ()) := by
  simp only [decodeImageCallback, readResponse, bind_assoc]
  congr
  funext _
  congr
  funext resultCode
  by_cases failed : resultCode.toInt32 ≠ hlSuccess
  · simp only [if_pos failed, pure_bind]
  · simp only [if_neg failed, bind_assoc, pure_bind]

theorem readResponse_success {σ : Type} (frag : RomFragment) (s : σ) :
    (readResponse (response hlSuccess frag)).run s = .ok ⟨hlSuccess, some frag⟩ s := by
  have long : (response hlSuccess frag).length ≥ 4 := by simp [response]
  have code : (readWord (response hlSuccess frag) 0).run s = .ok hlSuccess.toUInt32 s :=
    readWord_leading _ rfl s
  have offset : (readWord (response hlSuccess frag) 4).run s = .ok frag.offset s :=
    readWord_leading _ rfl s
  have count : (readWord (response hlSuccess frag) 8).run s = .ok frag.nBytes.toUInt32 s :=
    readWord_leading _ rfl s
  have same : ¬ hlSuccess ≠ hlSuccess := fun differs => differs rfl
  simp only [readResponse, EStateM.run_bind, assert_holds long, code, offset, count,
    Int32.toInt32_toUInt32, if_neg same, EStateM.run_pure]
  rfl

theorem readResponse_fail {σ : Type} (s : σ) :
    (readResponse (intBytes hlFail)).run s = .ok ⟨hlFail, none⟩ s := by
  have code : (readWord (intBytes hlFail) 0).run s = .ok hlFail.toUInt32 s :=
    readWord_leading hlFail.toUInt32 (List.append_nil _).symm s
  have long : (intBytes hlFail).length ≥ 4 := Nat.le_refl 4
  have other : hlFail ≠ hlSuccess := by decide
  simp only [readResponse, EStateM.run_bind, assert_holds long, code, Int32.toInt32_toUInt32,
    if_pos other, EStateM.run_pure]

theorem response_length (code : Int32) (frag : RomFragment) :
    (response code frag).length = offsetofRomFragmentBytes + frag.bytes.length := by
  simp only [response, List.length_append, intBytes_length, bytesLE_length,
    offsetofRomFragmentBytes]
  omega

/-- A message has one fragment only. -/
theorem response_injective {code : Int32} {f g : RomFragment}
    (same : response code f = response code g) : f = g := by
  obtain ⟨-, rest⟩ := List.append_inj same rfl
  obtain ⟨offset, rest⟩ := List.append_inj rest rfl
  obtain ⟨count, bytes⟩ := List.append_inj rest rfl
  have nBytes := congrArg UInt32.toInt32 (bytesLE_injective count)
  rw [Int32.toInt32_toUInt32, Int32.toInt32_toUInt32] at nBytes
  cases f
  cases g
  simp only [RomFragment.mk.injEq]
  exact ⟨bytesLE_injective offset, nBytes, bytes⟩

/-- The answer to an image without a symbol is shorter than a fragment. -/
theorem fail_ne_response (code : Int32) (frag : RomFragment) :
    intBytes hlFail ≠ response code frag := by
  intro same
  have length := congrArg List.length same
  simp only [response, intBytes_length, bytesLE_length, List.length_append] at length
  omega

/-- A message whose result code is not `HL_SUCCESS` is ignored. -/
theorem decodeImageCallback_fail (s : Store n) :
    (decodeImageCallback (intBytes hlFail)).run s = .ok () s := by
  rw [decodeImageCallback_reads, EStateM.run_bind, readResponse_fail]
  rfl

/-- The callback stores exactly the fragment laid out in a successful response. -/
theorem decodeImageCallback_success (frag : RomFragment) (s : Store n) :
    (decodeImageCallback (response hlSuccess frag)).run s = (storeRomFragment frag).run s := by
  rw [decodeImageCallback_reads, EStateM.run_bind, readResponse_success]

/-! ## The decoder -/

theorem heavyliftingDecodeImage_payload {σ : Type} {payload : List UInt8}
    (long : 5 ≤ payload.length) (short : payload.length ≤ 10000) (s : σ) :
    (heavyliftingDecodeImage [payload]).run s = .ok (response hlSuccess (fragmentOf payload)) s := by
  have fits : ¬ payload.length > decodedDataBufLen := by simp [decodedDataBufLen]; omega
  have twelve : 12 = offsetofRomFragmentBytes := rfl
  simp only [heavyliftingDecodeImage, decodeQrCodeImage, if_neg fits, EStateM.run_bind,
    assert_holds long, assert_holds twelve, EStateM.run_pure]

theorem heavyliftingDecodeImage_short {σ : Type} {payload : List UInt8}
    (short : payload.length < 5) (s : σ) :
    (heavyliftingDecodeImage [payload]).run s =
      .error (.assertion "decoded_data_len >= 5") s := by
  have fits : ¬ payload.length > decodedDataBufLen := by simp [decodedDataBufLen]; omega
  have failing : ¬ payload.length ≥ 5 := by omega
  simp only [heavyliftingDecodeImage, decodeQrCodeImage, if_neg fits, EStateM.run_bind,
    assert_fails failing]

/-- Anything but exactly one symbol is answered with `HL_FAIL`. -/
theorem heavyliftingDecodeImage_fail {σ : Type} {symbols : List (List UInt8)}
    (several : symbols.length ≠ 1) (s : σ) :
    (heavyliftingDecodeImage symbols).run s = .ok (intBytes hlFail) s := by
  match symbols with
  | [] => rfl
  | [_] => exact absurd rfl several
  | _ :: _ :: _ => rfl

theorem processImage_payload {payload : List UInt8} (long : 5 ≤ payload.length)
    (short : payload.length ≤ 10000) (s : Store n) :
    (processImage [payload]).run s = (storeRomFragment (fragmentOf payload)).run s := by
  simp only [processImage, EStateM.run_bind, heavyliftingDecodeImage_payload long short,
    decodeImageCallback_success]

theorem processImage_short {payload : List UInt8} (short : payload.length < 5) (s : Store n) :
    (processImage [payload]).run s = .error (.assertion "decoded_data_len >= 5") s := by
  simp only [processImage, EStateM.run_bind, heavyliftingDecodeImage_short short]

end AssistedDump.ImageDecoder
