import Mathlib.Data.Nat.Bitwise
import Mathlib.Tactic.Common

/-! # 32-bit words as four bytes

A word is put together from four bytes with shifts and taken apart again. Both
directions are exact, so the order in which the bytes lie in a message is only a
matter of which byte is named first.
-/

namespace AssistedDump.ByteOrder

/-- The word with `b₃` as its most significant byte. -/
def word (b₃ b₂ b₁ b₀ : UInt8) : UInt32 :=
  (b₃.toUInt32 <<< 24) ||| (b₂.toUInt32 <<< 16) ||| (b₁.toUInt32 <<< 8) ||| (b₀.toUInt32 <<< 0)

/-- The four bytes of a word, least significant first. -/
def bytesLE (w : UInt32) : List UInt8 :=
  [w.toUInt8, (w >>> 8).toUInt8, (w >>> 16).toUInt8, (w >>> 24).toUInt8]

/-- The four bytes of a word, most significant first. -/
def bytesBE (w : UInt32) : List UInt8 :=
  [(w >>> 24).toUInt8, (w >>> 16).toUInt8, (w >>> 8).toUInt8, w.toUInt8]

/-- Read a word whose least significant byte comes first. -/
def readLE? : List UInt8 → Option UInt32
  | b₀ :: b₁ :: b₂ :: b₃ :: _ => some (word b₃ b₂ b₁ b₀)
  | _ => none

@[simp] theorem bytesLE_length (w : UInt32) : (bytesLE w).length = 4 := rfl

private theorem or_eq_add {a b : Nat} (i : Nat) (small : b < 2 ^ i) : a <<< i ||| b = a * 2 ^ i + b := by
  rw [← Nat.shiftLeft_add_eq_or_of_lt small, Nat.shiftLeft_eq]

theorem word_toNat (b₃ b₂ b₁ b₀ : UInt8) :
    (word b₃ b₂ b₁ b₀).toNat =
      b₃.toNat * 2 ^ 24 + (b₂.toNat * 2 ^ 16 + (b₁.toNat * 2 ^ 8 + b₀.toNat)) := by
  have h₃ := b₃.toNat_lt
  have h₂ := b₂.toNat_lt
  have h₁ := b₁.toNat_lt
  have h₀ := b₀.toNat_lt
  have small : ∀ {b : UInt8} (i : Nat), i ≤ 24 → b.toNat <<< i % 2 ^ 32 = b.toNat <<< i := by
    intro b i le
    apply Nat.mod_eq_of_lt
    calc b.toNat <<< i = b.toNat * 2 ^ i := Nat.shiftLeft_eq _ _
      _ < 2 ^ 8 * 2 ^ 24 := Nat.mul_lt_mul_of_lt_of_le b.toNat_lt
          (Nat.pow_le_pow_right (by decide) le) (by decide)
  have expand : (word b₃ b₂ b₁ b₀).toNat =
      b₃.toNat <<< 24 ||| (b₂.toNat <<< 16 ||| (b₁.toNat <<< 8 ||| b₀.toNat)) := by
    simp only [word, UInt32.toNat_or, UInt32.toNat_shiftLeft, UInt8.toNat_toUInt32,
      UInt32.reduceToNat, Nat.reduceMod, small _ (by decide : 24 ≤ 24),
      small _ (by decide : 16 ≤ 24), small _ (by decide : 8 ≤ 24), Nat.shiftLeft_zero,
      Nat.mod_eq_of_lt (show b₀.toNat < 2 ^ 32 by omega), Nat.or_assoc]
  rw [expand, or_eq_add 8 h₀, or_eq_add 16 (by omega), or_eq_add 24 (by omega)]

/-- Taking a word apart and putting it together gives the word back. -/
theorem word_bytes (w : UInt32) :
    word (w >>> 24).toUInt8 (w >>> 16).toUInt8 (w >>> 8).toUInt8 w.toUInt8 = w := by
  apply UInt32.toNat_inj.mp
  have := w.toNat_lt
  simp only [word_toNat, UInt32.toNat_toUInt8, UInt32.toNat_shiftRight, UInt32.reduceToNat,
    Nat.reduceMod, Nat.shiftRight_eq_div_pow]
  omega

/-- Putting four bytes together and taking the word apart gives the bytes back. -/
theorem bytesBE_word (b₃ b₂ b₁ b₀ : UInt8) :
    bytesBE (word b₃ b₂ b₁ b₀) = [b₃, b₂, b₁, b₀] := by
  have h₃ := b₃.toNat_lt
  have h₂ := b₂.toNat_lt
  have h₁ := b₁.toNat_lt
  have h₀ := b₀.toNat_lt
  simp only [bytesBE, List.cons.injEq, ← UInt8.toNat_inj, UInt32.toNat_toUInt8,
    UInt32.toNat_shiftRight, UInt32.reduceToNat, Nat.reduceMod, Nat.shiftRight_eq_div_pow,
    word_toNat, and_true]
  omega

theorem readLE?_bytesLE (w : UInt32) (rest : List UInt8) :
    readLE? (bytesLE w ++ rest) = some w :=
  congrArg some (word_bytes w)

theorem bytesLE_injective {v w : UInt32} (same : bytesLE v = bytesLE w) : v = w := by
  have left := readLE?_bytesLE v []
  rw [same, readLE?_bytesLE w []] at left
  exact (Option.some.inj left).symm

/-! ## Bytes of an `int` -/

/-- The conversion to `uint32_t` is reduction modulo 2^32. -/
theorem toUInt32_emod (x : Int32) : (x.toUInt32.toNat : Int) = x.toInt % 2 ^ 32 := by
  have wrapped : x.toInt = (x.toBitVec.toNat : Int).bmod (2 ^ 32) := BitVec.toInt_eq_toNat_bmod _
  have small := x.toBitVec.isLt
  have reduced : (x.toBitVec.toNat : Int).bmod (2 ^ 32) % ((2 ^ 32 : Nat) : Int) = _ :=
    Int.bmod_emod
  change (x.toBitVec.toNat : Int) = _
  omega

/-- One byte of an `int`, taken with an arithmetic shift and a mask. -/
theorem masked_byte (x k : Int32) {e : UInt32} (byte : e.toNat ∈ [0, 8, 16, 24])
    (shift : (k.toBitVec.smod 32).toNat = e.toNat) :
    ((x >>> k) &&& 0xFF).toUInt32.toUInt8 = (x.toUInt32 >>> e).toUInt8 := by
  have shifted : (x >>> k).toInt = x.toInt / 2 ^ e.toNat := by
    change (BitVec.sshiftRight' x.toBitVec (k.toBitVec.smod 32)).toInt = _
    rw [BitVec.sshiftRight_eq', BitVec.toInt_sshiftRight, Int.shiftRight_eq_div_pow, shift]
    norm_cast
  have masked : ((x >>> k) &&& 0xFF).toUInt32.toNat = (x >>> k).toUInt32.toNat % 2 ^ 8 := by
    rw [Int32.toUInt32_and, UInt32.toNat_and]
    exact Nat.and_two_pow_sub_one_eq_mod _ 8
  apply UInt8.toNat_inj.mp
  rw [UInt32.toNat_toUInt8, UInt32.toNat_toUInt8, masked, Nat.mod_mod, UInt32.toNat_shiftRight,
    Nat.shiftRight_eq_div_pow]
  have low := toUInt32_emod x
  have high := toUInt32_emod (x >>> k)
  rw [shifted] at high
  simp only [List.mem_cons, List.not_mem_nil, or_false] at byte
  rcases byte with e | e | e | e <;>
    simp only [e, Nat.reduceMod, Nat.reducePow, Int.reducePow] at * <;> omega

/-- The bytes of an `int` taken with `>>` and `& 0xFF`, most significant first. -/
theorem masked_bytesBE (x : Int32) :
    [((x >>> 24) &&& 0xFF).toUInt32.toUInt8, ((x >>> 16) &&& 0xFF).toUInt32.toUInt8,
      ((x >>> 8) &&& 0xFF).toUInt32.toUInt8, ((x >>> 0) &&& 0xFF).toUInt32.toUInt8] =
      bytesBE x.toUInt32 := by
  rw [masked_byte x 24 (e := 24) (by decide) (by decide),
    masked_byte x 16 (e := 16) (by decide) (by decide),
    masked_byte x 8 (e := 8) (by decide) (by decide),
    masked_byte x 0 (e := 0) (by decide) (by decide)]
  rfl

end AssistedDump.ByteOrder
