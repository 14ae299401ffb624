import AssistedDump.Qrencode.Symbol

/-! # What the decoder looks at

Of a module the decoder reads whether it is black and whether it is one of a function
pattern. The version tells which modules are, so a symbol of the encoder is decoded
from nothing but what a picture of it shows.
-/

namespace AssistedDump.Decoder

open QrSpec QrEncode QrEncode.FrameFiller
open DumpLoop (QRecLevel)

/-- The two bits of a module the decoder looks at. -/
def seen (m : UInt8) : UInt8 := m &&& 0x81

theorem seen_black (m : UInt8) : seen m &&& 1 = m &&& 1 := UInt8.and_assoc m 0x81 1

theorem seen_marked (m : UInt8) : seen m &&& 0x80 = m &&& 0x80 := UInt8.and_assoc m 0x81 0x80

def Alike (first second : Frame) : Prop := first.map seen = second.map seen

namespace Alike

variable {first second : Frame} (alike : Alike first second)
include alike

theorem length : first.length = second.length := by
  simpa only [List.length_map] using congrArg List.length alike

/-- What is read of a module through these two bits is the same. -/
theorem read {β : Type} {f : UInt8 → β} (only : ∀ m, f (seen m) = f m) (i : Nat) :
    (first[i]?).map f = (second[i]?).map f := by
  have here := congrArg (fun frame => frame[i]?.map f) alike
  simpa only [List.getElem?_map, Option.map_map, Function.comp_def, only] using here

theorem bind {β : Type} {f : UInt8 → Option β} (only : ∀ m, f (seen m) = f m) (i : Nat) :
    (first[i]?).bind f = (second[i]?).bind f := by
  have here := congrArg (fun frame => frame[i]?.bind f) alike
  simpa only [List.getElem?_map, Option.bind_map, Function.comp_def, only] using here

theorem marks : marks first = QrEncode.marks second := by
  apply List.ext_getElem?
  intro i
  rw [QrEncode.marks, QrEncode.marks, List.getElem?_map, List.getElem?_map]
  exact alike.read (fun m => seen_marked m) i

/-! ## The words -/

theorem readWord (indices : List Nat) : readWord first indices = Decoder.readWord second indices := by
  have step (v : UInt32) (i : Nat) :
      ((first[i]?).map fun m => (v <<< 1) ||| (m &&& 1).toUInt32) =
        (second[i]?).map fun m => (v <<< 1) ||| (m &&& 1).toUInt32 :=
    alike.read (fun m => by rw [seen_black]) i
  simp only [Decoder.readWord, step]

theorem decodeVersion (width : Nat) :
    decodeVersion ⟨width, first⟩ = Decoder.decodeVersion ⟨width, second⟩ := by
  simp only [Decoder.decodeVersion, alike.readWord]

theorem decodeFormat (width : Nat) :
    decodeFormat ⟨width, first⟩ = Decoder.decodeFormat ⟨width, second⟩ := by
  simp only [Decoder.decodeFormat, alike.readWord]

theorem applied (writes : List (Nat × UInt8)) :
    Alike (AssistedDump.applied writes first) (AssistedDump.applied writes second) := by
  rw [Alike, applied_map, applied_map, alike]

end Alike

/-! ## The mask -/

theorem seen_flipped : ∀ n < 256,
    seen (seen (UInt8.ofNat n)) = seen (UInt8.ofNat n) ∧
      seen (seen (UInt8.ofNat n) ^^^ 1) = seen (UInt8.ofNat n ^^^ 1) := by
  decide +kernel

theorem maskModule_seen (expression : Nat → Nat → Nat) (width i : Nat) (m : UInt8) :
    seen (Mask.maskModule expression width i (seen m)) =
      seen (Mask.maskModule expression width i m) := by
  obtain ⟨twice, flipped⟩ := seen_flipped m.toNat m.toNat_lt
  rw [UInt8.ofNat_toNat] at twice flipped
  rw [Mask.maskModule, Mask.maskModule, seen_marked]
  split
  · exact twice
  · split
    · exact flipped
    · rw [UInt8.xor_zero, UInt8.xor_zero, twice]

namespace Alike

variable {first second : Frame} (alike : Alike first second)
include alike

theorem maskMaker (expression : Nat → Nat → Nat) (width : Nat) :
    Alike (Mask.maskMaker expression width first).1 (Mask.maskMaker expression width second).1 := by
  apply List.ext_getElem?
  intro i
  simp only [Mask.maskMaker, List.getElem?_map, List.getElem?_mapIdx, Option.map_map]
  exact alike.read (maskModule_seen expression width i) i

/-- Without their masks frames are still alike. -/
theorem unmask {width : Nat} (wide : 21 ≤ width) (sized : first.length = width * width)
    (level : QRecLevel) {mask : Nat} (known : mask < Mask.maskNum) :
    ∃ plain plain', Decoder.unmask ⟨width, first⟩ level mask = some plain ∧
      Decoder.unmask ⟨width, second⟩ level mask = some plain' ∧ Alike plain plain' := by
  obtain ⟨expression, entry, one⟩ := Mask.masked_some wide sized level known
  obtain ⟨same, entry', two⟩ := Mask.masked_some wide (alike.length.symm.trans sized) level known
  obtain rfl := Option.some.inj (entry.symm.trans entry')
  refine ⟨_, _, ?_, ?_, (alike.maskMaker expression width).applied
    (Mask.formatWrites width (getFormatInfo mask level))⟩
  · rw [Decoder.unmask, Mask.makeMask, if_neg (Nat.not_le.mpr known), one, Option.map_some]
  · rw [Decoder.unmask, Mask.makeMask, if_neg (Nat.not_le.mpr known), two, Option.map_some]

end Alike

/-! ## The bits -/

theorem decodeFormat_mask {code : DumpLoop.QRcode} {found : QRecLevel × Nat}
    (format : decodeFormat code = some found) : found.2 < Mask.maskNum := by
  obtain ⟨v1, _, format⟩ := Option.bind_eq_some_iff.mp format
  obtain ⟨v2, _, format⟩ := Option.bind_eq_some_iff.mp format
  split at format
  · cases format
  · cases format
    rw [UInt32.toNat_and]
    exact Nat.lt_succ_of_le Nat.and_le_right

namespace Alike

variable {first second : Frame} (alike : Alike first second)
include alike

theorem extractBits (width : Nat) (spec : EccSpec) :
    extractBits width first spec = Decoder.extractBits width second spec := by
  have bit (q : Nat) : extractBit first q = extractBit second q := by
    funext s j
    have next : s.1.next first = s.1.next second := next_congr alike.marks s.1
    rw [extractBit, extractBit, next]
    congr
    funext found
    exact alike.bind (fun m => by rw [seen_black]) found.1
  have byte (q : Nat) : extractByte first q = extractByte second q := by
    funext s
    rw [extractByte, extractByte, bit]
  simp only [Decoder.extractBits, byte]

/-- The decoder reads the same from two symbols that look alike. -/
theorem decode {width : Nat} (wide : 21 ≤ width) (sized : first.length = width * width) :
    decode ⟨width, first⟩ = Decoder.decode ⟨width, second⟩ := by
  have same : extracted ⟨width, first⟩ = extracted ⟨width, second⟩ := by
    simp only [extracted, alike.decodeVersion, alike.decodeFormat]
    congr
    funext version
    split
    · rfl
    · cases format : Decoder.decodeFormat ⟨width, second⟩ with
      | none => rfl
      | some found =>
          obtain ⟨plain, plain', one, two, still⟩ :=
            alike.unmask wide sized found.1 (decodeFormat_mask format)
          simp only [Option.bind_eq_bind, Option.bind_some, one, two, still.extractBits]
  rw [Decoder.decode, Decoder.decode, decodeBits, decodeBits, same]

end Alike

/-! ## Pictures -/

end AssistedDump.Decoder
