import Mathlib.Algebra.Order.Ring.Int
import Mathlib.Data.List.Induction
import Mathlib.Tactic.Common
import Mathlib.Tactic.Ring

/-! # Numbers as bits

The bits of a number of a given width, the most significant one first, and the
number of a list of bits.
-/

namespace AssistedDump.Bits

def ofNat : Nat → Nat → List Bool
  | 0, _ => []
  | width + 1, n => n.testBit width :: ofNat width n

def toNat (bits : List Bool) : Nat := bits.foldl (fun n bit => 2 * n + bit.toNat) 0

@[simp] theorem ofNat_length (width n : Nat) : (ofNat width n).length = width := by
  induction width with
  | zero => rfl
  | succ width ih => rw [ofNat, List.length_cons, ih]

theorem ofNat_zero (width : Nat) : ofNat width 0 = List.replicate width false := by
  induction width with
  | zero => rfl
  | succ width ih => rw [ofNat, ih, Nat.zero_testBit, List.replicate_succ]

theorem toNat_snoc (bits : List Bool) (bit : Bool) :
    toNat (bits ++ [bit]) = 2 * toNat bits + bit.toNat := by
  rw [toNat, List.foldl_append, ← toNat, List.foldl_cons, List.foldl_nil]

theorem foldl_toNat (start : Nat) (bits : List Bool) :
    bits.foldl (fun n bit => 2 * n + bit.toNat) start = start * 2 ^ bits.length + toNat bits := by
  induction bits using List.reverseRecOn with
  | nil => simp [toNat]
  | append_singleton bits bit ih =>
      rw [List.foldl_append, List.foldl_cons, List.foldl_nil, ih, toNat_snoc, List.length_append,
        List.length_singleton, pow_succ]
      ring

theorem toNat_cons (bit : Bool) (bits : List Bool) :
    toNat (bit :: bits) = bit.toNat * 2 ^ bits.length + toNat bits := by
  rw [toNat, List.foldl_cons, foldl_toNat, Nat.mul_zero, Nat.zero_add]

theorem toNat_lt (bits : List Bool) : toNat bits < 2 ^ bits.length := by
  induction bits with
  | nil => exact Nat.one_pos
  | cons bit bits ih =>
      have one := Nat.mul_le_mul_right (2 ^ bits.length) bit.toNat_le
      rw [toNat_cons, List.length_cons, pow_succ]
      omega

theorem toNat_ofNat (width n : Nat) : toNat (ofNat width n) = n % 2 ^ width := by
  induction width with
  | zero => rw [pow_zero, Nat.mod_one]; rfl
  | succ width ih =>
      rw [ofNat, toNat_cons, ih, ofNat_length, Nat.toNat_testBit, pow_succ, Nat.mod_mul]
      ring

theorem toNat_injective {first second : List Bool} (same : first.length = second.length)
    (equal : toNat first = toNat second) : first = second := by
  induction first generalizing second with
  | nil => exact (List.length_eq_zero_iff.mp same.symm).symm
  | cons bit first ih =>
      cases second with
      | nil => cases same
      | cons bit' second =>
          have rest : first.length = second.length := Nat.succ.inj same
          have low := toNat_lt first
          have low' := toNat_lt second
          rw [toNat_cons, toNat_cons, rest] at equal
          rw [rest] at low
          cases bit <;> cases bit' <;> simp only [Bool.toNat_true, Bool.toNat_false] at equal
          · rw [ih rest (by omega)]
          · omega
          · omega
          · rw [ih rest (by omega)]

theorem ofNat_toNat (bits : List Bool) : ofNat bits.length (toNat bits) = bits := by
  apply toNat_injective (ofNat_length _ _)
  rw [toNat_ofNat, Nat.mod_eq_of_lt (toNat_lt bits)]

end AssistedDump.Bits
