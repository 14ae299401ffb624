import AssistedDump.Qrencode.FrameLayout
import AssistedDump.Qrencode.RawCode

/-! # The encoder of qrencode.c

The codewords are put bit by bit to the modules the filler leads to, and the frame
is masked. `none` is `NULL`, which also stands for a read or a write outside of an
array. An allocation that fails ends the call with `NULL` wherever it is made, so
all but `encodeDataIn` are the functions while none fails. Left out are Micro QR,
structured append and the encoding of strings.
-/

namespace AssistedDump.QrEncode

open QrInput QrSpec FrameFiller
open DumpLoop (QRecLevel)

structure QRcode extends DumpLoop.QRcode where
  version : Nat

/-- The values the inner loops of `QRcode_encodeMask` put for a code. -/
def codeModules (flag code : UInt8) : List UInt8 :=
  (List.range 8).map fun j => flag ||| if (0x80 >>> UInt8.ofNat j) &&& code ≠ 0 then 1 else 0

/-- The two loops over codes, which differ in a flag. -/
def putCodes (flag : UInt8) :
    Nat → QRRawCode → FrameFiller → Frame → Option (QRRawCode × FrameFiller × Frame)
  | 0, raw, filler, frame => some (raw, filler, frame)
  | rest + 1, raw, filler, frame => do
      let (code, raw) ← raw.getCode
      let (filler, frame) ← fill filler frame (codeModules flag code)
      putCodes flag rest raw filler frame

/-- The branches of `QRcode_encodeMask` on its mask, of which -2 is for debugging. -/
def maskedBy (mask : Int) (width : Nat) (frame : Frame) (level : QRecLevel) : Option Frame :=
  if mask = -2 then some frame
  else if mask < 0 then Mask.mask width frame level
  else Mask.makeMask width frame mask.toNat level

def encodeMask (input : QRinput) (mask : Int) : Option QRcode := do
  let raw ← QRRawCode.new input
  let version := raw.version
  let width := getWidth version
  let frame ← newFrame version
  let filler := FrameFiller.set width
  let (raw, filler, frame) ← putCodes 0 raw.dataLength raw filler frame
  let (_, filler, frame) ← putCodes 0x02 raw.eccLength raw filler frame
  let (_, frame) ← fill filler frame (List.replicate (getRemainder version) 0x02)
  let masked ← maskedBy mask width frame input.level
  some { version, width, data := masked }

def encodeInput (input : QRinput) : Option QRcode := encodeMask input (-1)

def encodeDataReal (data : List UInt8) (version : Nat) (level : QRecLevel) : Option QRcode :=
  if data.length = 0 then none
  else do
    let input ← new2 version level
    let input ← append input data
    encodeInput input

/-- `QRcode_encodeData`, for data of the size it is called with, while no allocation fails. -/
def encodeData (data : List UInt8) (version : Nat) (level : QRecLevel) : Option QRcode :=
  encodeDataReal data version level

/-- `QRcode_encodeData`, for a call whose allocations all succeed or one whose memory runs out. -/
def encodeDataIn (allocates : Bool) (data : List UInt8) (version : Nat) (level : QRecLevel) :
    Option QRcode :=
  if allocates then encodeData data version level else none

/-! ## The values in a frame -/

/-- All values the encoder puts into a frame, in order. -/
def values (raw : QRRawCode) : List UInt8 :=
  ((List.range raw.dataLength).flatMap fun i => codeModules 0 (raw.codeAt i)) ++
    ((List.range' raw.dataLength raw.eccLength).flatMap fun i => codeModules 0x02 (raw.codeAt i)) ++
    List.replicate (getRemainder raw.version) 0x02

theorem putCodes_fill {raw : QRRawCode} (flag : UInt8) (count first : Nat)
    (codes : ∀ i, first ≤ i → i < first + count →
      ({ raw with count := i }).getCode = some (raw.codeAt i, { raw with count := i + 1 }))
    (filler : FrameFiller) (frame : Frame) :
    putCodes flag count { raw with count := first } filler frame =
      (fill filler frame ((List.range' first count).flatMap fun i =>
        codeModules flag (raw.codeAt i))).map
        fun s => ({ raw with count := first + count }, s.1, s.2) := by
  induction count generalizing first filler frame with
  | zero => rfl
  | succ count ih =>
      rw [putCodes, codes first (le_refl _) (by omega), List.range'_succ, List.flatMap_cons,
        fill_append]
      cases put : fill filler frame (codeModules flag (raw.codeAt first)) with
      | none => simp [put]
      | some s =>
          have later := ih (first + 1) (fun i low high => codes i (by omega) (by omega)) s.1 s.2
          simp only [Option.bind_eq_bind, Option.bind_some, put, later,
            Nat.add_right_comm first 1 count]
          rfl

theorem codeModules_plain {flag : UInt8} (plain : flag = 0 ∨ flag = 0x02) (code : UInt8) :
    ∀ m ∈ codeModules flag code, m &&& 0x80 = 0 := by
  intro m member
  obtain ⟨j, _, rfl⟩ := List.mem_map.mp member
  rcases plain with rfl | rfl
  · split <;> decide
  · split <;> decide

theorem flatMap_plain {flag : UInt8} (plain : flag = 0 ∨ flag = 0x02) {codes : List Nat}
    (code : Nat → UInt8) : ∀ m ∈ codes.flatMap fun i => codeModules flag (code i),
      m &&& 0x80 = 0 := by
  intro m member
  obtain ⟨i, _, inside⟩ := List.mem_flatMap.mp member
  exact codeModules_plain plain (code i) m inside

/-- No value is marked as one of a function pattern. -/
theorem values_plain (raw : QRRawCode) : ∀ m ∈ values raw, m &&& 0x80 = 0 := by
  intro m member
  rcases List.mem_append.mp member with codes | remainder
  · rcases List.mem_append.mp codes with data | ecc
    · exact flatMap_plain (.inl rfl) _ m data
    · exact flatMap_plain (.inr rfl) _ m ecc
  · rw [(List.mem_replicate.mp remainder).2]
    decide

theorem flatMap_codeModules_length (flag : UInt8) (codes : List Nat) (code : Nat → UInt8) :
    (codes.flatMap fun i => codeModules flag (code i)).length = 8 * codes.length := by
  induction codes with
  | nil => rfl
  | cons i codes ih =>
      rw [List.flatMap_cons, List.length_append, ih, List.length_cons, codeModules,
        List.length_map, List.length_range]
      omega

theorem values_length (raw : QRRawCode) :
    (values raw).length = 8 * (raw.dataLength + raw.eccLength) + getRemainder raw.version := by
  rw [values, List.length_append, List.length_append, flatMap_codeModules_length,
    flatMap_codeModules_length, List.length_range, List.length_range', List.length_replicate]
  omega

/-! ## The frame of an input -/

/-- The frame with all values in it, before it is masked. -/
structure Filled (raw : QRRawCode) (version : Nat) (blank frame : Frame) : Prop where
  known : Version version
  started : newFrame version = some blank
  put : frame = applied ((freeIndices blank (getWidth version)).zip (values raw)) blank
  size : (values raw).length = (freeIndices blank (getWidth version)).length
  kept : marks frame = marks blank
  length : frame.length = getWidth version * getWidth version

theorem encodeMask_filled {input final : QRinput} {data : List UInt8} {chunks : List (List UInt8)}
    (made : getByteStream input = some (data, final)) (stream : Stream input final data chunks) :
    ∃ raw blank frame, raw.Made final.version input.level data ∧
      Filled raw final.version blank frame ∧
      ∀ mask, encodeMask input mask =
        (maskedBy mask (getWidth final.version) frame input.level).map fun masked =>
          { version := final.version, width := getWidth final.version, data := masked } := by
  have known := blocks stream.known input.level
  obtain ⟨raw, newRaw, rawMade⟩ := QRRawCode.new_made made stream
  obtain ⟨blank, started, _, sized, free⟩ := newFrame_some stream.known
  have codes {i : Nat} := QRRawCode.getCode_codeAt rawMade known
    (stream.length.trans known.data.symm) (i := i)
  have room : (values raw).length = (freeIndices blank (getWidth final.version)).length := by
    rw [values_length, freeIndices_length stream.known started, rawMade.dataLength,
      rawMade.eccLength, known.all, rawMade.sameVersion]
  obtain ⟨last, filled, kept⟩ := fill_leads (leads_newFrame stream.known started) room.le
    (values_plain raw) fun i member => (List.mem_filter.mp member).2
  refine ⟨raw, blank, _, rawMade, ⟨stream.known, started, rfl, room, kept, ?_⟩, fun mask => ?_⟩
  · rw [applied_length, sized]
  · have zero : raw = { raw with count := 0 } := by
      rw [← rawMade.start]
    have data := putCodes_fill 0 raw.dataLength 0
      (fun i _ below => codes (by omega)) (FrameFiller.set (getWidth final.version)) blank
    rw [← zero, ← List.range_eq_range'] at data
    rw [values, List.append_assoc, fill_append] at filled
    obtain ⟨middle, putData, rest⟩ := Option.bind_eq_some_iff.mp filled
    rw [fill_append] at rest
    obtain ⟨late, putEcc, putRest⟩ := Option.bind_eq_some_iff.mp rest
    have ecc := putCodes_fill 0x02 raw.eccLength (0 + raw.dataLength)
      (fun i _ below => codes (by omega)) middle.1 middle.2
    rw [Nat.zero_add] at data ecc
    have started' : newFrame raw.version = some blank := by rw [rawMade.sameVersion, started]
    rw [← rawMade.sameVersion] at data putData putRest ⊢
    simp only [encodeMask, newRaw, started', data, putData, ecc, putEcc, putRest,
      Option.bind_eq_bind, Option.bind_some, Option.map_some]
    rw [Option.map_eq_bind, values, List.append_assoc]
    rfl

end AssistedDump.QrEncode
