import AssistedDump.General.Bits
import AssistedDump.General.Interleave
import Mathlib.Data.Nat.Bitwise

/-! # Bit streams of bitstream.c

The bytes of a bit stream are 0 or 1, so it is a list of `Bool`. That its array
grows is left out. `bitToInt` is the reading counterpart in tests/decoder.c.
-/

namespace AssistedDump.BitStream

/-- The loop of `BitStream_writeNum`. -/
def writeNum.loop (num : UInt32) : Nat → UInt32 → List Bool
  | 0, _ => []
  | rest + 1, mask => decide (num &&& mask ≠ 0) :: loop num rest (mask >>> 1)

def writeNum (bits : Nat) (num : UInt32) : List Bool :=
  writeNum.loop num bits (1 <<< UInt32.ofNat (bits - 1))

/-- The inner loop of `BitStream_writeBytes`. -/
def writeBytes.loop (byte : UInt8) : Nat → UInt8 → List Bool
  | 0, _ => []
  | rest + 1, mask => decide (byte &&& mask ≠ 0) :: loop byte rest (mask >>> 1)

def writeBytes (data : List UInt8) : List Bool :=
  data.flatMap fun byte => writeBytes.loop byte 8 0x80

def appendNum (bstream : List Bool) (bits : Nat) (num : UInt32) : List Bool :=
  if bits = 0 then bstream else bstream ++ writeNum bits num

def appendBytes (bstream : List Bool) (data : List UInt8) : List Bool := bstream ++ writeBytes data

/-- The inner loops of `BitStream_toByte`. -/
def packBits (bits : List Bool) : UInt8 :=
  bits.foldl (fun v bit => (v <<< 1) ||| (if bit then 1 else 0)) 0

/-- `NULL` for an empty stream. -/
def toByte (bstream : List Bool) : Option (List UInt8) :=
  let bytes := bstream.length / 8
  let oddbits := bstream.length % 8
  if bstream.length = 0 then none
  else some ((pieces 8 bytes bstream).map packBits ++
    if oddbits > 0 then [packBits (bstream.drop (8 * bytes)) <<< UInt8.ofNat (8 - oddbits)] else [])

def bitToInt (bits : List Bool) : UInt32 :=
  bits.foldl (fun val bit => (val <<< 1) ||| (if bit then 1 else 0)) 0

/-! ## As bits of numbers -/

theorem one_shiftLeft_toNat : ∀ k < 32, ((1 : UInt32) <<< UInt32.ofNat k).toNat = 2 ^ k := by
  decide +kernel

theorem and_bit {k : Nat} (small : k < 32) (num : UInt32) :
    decide (num &&& 1 <<< UInt32.ofNat k ≠ 0) = num.toNat.testBit k := by
  rw [Bool.eq_iff_iff, decide_eq_true_eq, ne_eq, ← UInt32.toNat_inj, UInt32.toNat_and,
    one_shiftLeft_toNat k small, Nat.and_two_pow, UInt32.toNat_zero]
  cases num.toNat.testBit k <;> simp

theorem half_mask : ∀ k < 31,
    (1 : UInt32) <<< UInt32.ofNat (k + 1) >>> 1 = 1 <<< UInt32.ofNat k := by
  decide +kernel

theorem writeNum_loop {bits : Nat} (num : UInt32) (small : bits < 32) :
    writeNum.loop num (bits + 1) (1 <<< UInt32.ofNat bits) = Bits.ofNat (bits + 1) num.toNat := by
  induction bits with
  | zero =>
      rw [writeNum.loop, and_bit small]
      rfl
  | succ bits ih =>
      rw [writeNum.loop, and_bit small, half_mask bits (by omega), ih (by omega)]
      rfl

/-- A number is appended with its most significant bit first. -/
theorem appendNum_eq {bits : Nat} (small : bits ≤ 32) (bstream : List Bool) (num : UInt32) :
    appendNum bstream bits num = bstream ++ Bits.ofNat bits num.toNat := by
  cases bits with
  | zero => simp [appendNum, Bits.ofNat]
  | succ bits =>
      rw [appendNum, if_neg (Nat.succ_ne_zero bits), writeNum, Nat.add_sub_cancel,
        writeNum_loop num small]

theorem writeBytes_loop : ∀ n < 256, writeBytes.loop (UInt8.ofNat n) 8 0x80 = Bits.ofNat 8 n := by
  decide +kernel

theorem writeBytes_eq (data : List UInt8) :
    writeBytes data = data.flatMap fun byte => Bits.ofNat 8 byte.toNat := by
  rw [writeBytes]
  congr 1
  funext byte
  simpa only [UInt8.ofNat_toNat] using writeBytes_loop byte.toNat byte.toNat_lt

theorem writeBytes_length (data : List UInt8) : (writeBytes data).length = 8 * data.length := by
  rw [writeBytes_eq]
  induction data with
  | nil => rfl
  | cons byte data ih =>
      rw [List.flatMap_cons, List.length_append, ih, Bits.ofNat_length, List.length_cons]
      omega

theorem packBits_step : ∀ v < 128, ∀ bit : Bool,
    ((UInt8.ofNat v <<< 1) ||| (if bit then 1 else 0)).toNat = 2 * v + bit.toNat := by
  decide +kernel

/-- Up to eight bits fit in a byte. -/
theorem packBits_toNat {bits : List Bool} (short : bits.length ≤ 8) :
    (packBits bits).toNat = Bits.toNat bits := by
  induction bits using List.reverseRecOn with
  | nil => rfl
  | append_singleton bits bit ih =>
      rw [List.length_append, List.length_singleton] at short
      have before := ih (by omega)
      have below : (packBits bits).toNat < 128 := by
        rw [before]
        exact lt_of_lt_of_le (Bits.toNat_lt bits) (Nat.pow_le_pow_right (by decide) (by omega : _ ≤ 7))
      have step := packBits_step _ below bit
      rw [UInt8.ofNat_toNat, before] at step
      rw [Bits.toNat_snoc, ← step, packBits, packBits, List.foldl_append]
      rfl

theorem writeBytes_packBits {bits : List Bool} (eight : bits.length = 8) :
    writeBytes [packBits bits] = bits := by
  rw [writeBytes_eq, List.flatMap_singleton, packBits_toNat eight.le]
  nth_rewrite 1 [← eight]
  exact Bits.ofNat_toNat bits

/-- Whole bytes keep their bits. -/
theorem toByte_bits {bstream : List Bool} {bytes : Nat} (whole : bstream.length = 8 * bytes)
    (filled : 0 < bytes) :
    ∃ data, toByte bstream = some data ∧ data.length = bytes ∧ writeBytes data = bstream := by
  have nonempty : ¬ bstream.length = 0 := by omega
  have count : bstream.length / 8 = bytes := by omega
  have odd : ¬ bstream.length % 8 > 0 := by omega
  refine ⟨(pieces 8 bytes bstream).map packBits, ?_, ?_, ?_⟩
  · simp only [toByte, if_neg nonempty, count, if_neg odd, List.append_nil]
  · rw [List.length_map, pieces, List.length_map, List.length_range]
  · have back : ∀ piece ∈ pieces 8 bytes bstream, writeBytes [packBits piece] = piece := by
      intro piece member
      obtain ⟨i, inside, rfl⟩ := List.mem_map.mp member
      have below := List.mem_range.mp inside
      apply writeBytes_packBits
      rw [List.length_take, List.length_drop]
      omega
    calc writeBytes ((pieces 8 bytes bstream).map packBits)
        = (pieces 8 bytes bstream).flatMap fun piece => writeBytes [packBits piece] := by
          simp only [writeBytes, List.flatMap_map, List.flatMap_singleton]
      _ = (pieces 8 bytes bstream).flatMap id := List.flatMap_congr back
      _ = bstream := by
          rw [List.flatMap_id, pieces_flatten, ← whole, List.take_length]

theorem bitToInt_step (val : UInt32) (bit : Bool) (small : val.toNat < 2 ^ 31) :
    ((val <<< 1) ||| (if bit then 1 else 0)).toNat = 2 * val.toNat + bit.toNat := by
  have doubled : (val <<< 1).toNat = val.toNat <<< 1 := by
    rw [UInt32.toNat_shiftLeft]
    apply Nat.mod_eq_of_lt
    have two : val.toNat <<< 1 = val.toNat * 2 := Nat.shiftLeft_eq _ _
    change val.toNat <<< 1 < 2 ^ 32
    omega
  have one : (if bit then (1 : UInt32) else 0).toNat = bit.toNat := by cases bit <;> rfl
  rw [UInt32.toNat_or, doubled, one, ← Nat.shiftLeft_add_eq_or_of_lt, Nat.shiftLeft_eq]
  · omega
  · cases bit <;> decide

/-- Up to 32 bits fit in a number. -/
theorem bitToInt_toNat {bits : List Bool} (short : bits.length ≤ 32) :
    (bitToInt bits).toNat = Bits.toNat bits := by
  induction bits using List.reverseRecOn with
  | nil => rfl
  | append_singleton bits bit ih =>
      rw [List.length_append, List.length_singleton] at short
      have before := ih (by omega)
      have below : (bitToInt bits).toNat < 2 ^ 31 := by
        rw [before]
        exact lt_of_lt_of_le (Bits.toNat_lt bits) (Nat.pow_le_pow_right (by decide) (by omega))
      rw [Bits.toNat_snoc, ← before, ← bitToInt_step _ bit below, bitToInt, bitToInt,
        List.foldl_append]
      rfl

end AssistedDump.BitStream
