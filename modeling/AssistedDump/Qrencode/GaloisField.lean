import AssistedDump.Qrencode.RsEcc
import Mathlib.Algebra.Field.MinimalAxioms
import Mathlib.Data.Set.Function
import Mathlib.Order.Interval.Set.Defs

/-! # The field of the tables

A byte stands for a polynomial over the field of two elements, modulo the
primitive polynomial. Sums are exclusive or, products are sums of indices in the
tables of rsecc.c.
-/

namespace AssistedDump.RsEcc

@[ext]
structure GF256 where
  toByte : UInt8
  deriving DecidableEq, Repr

namespace GF256

instance : Zero GF256 := ⟨⟨0⟩⟩

instance : One GF256 := ⟨⟨1⟩⟩

instance : Add GF256 := ⟨fun x y => ⟨x.toByte ^^^ y.toByte⟩⟩

instance : Neg GF256 := ⟨id⟩

instance : Mul GF256 :=
  ⟨fun x y => if x = 0 ∨ y = 0 then 0 else ⟨alpha ((aindex x.toByte + aindex y.toByte) % symbols)⟩⟩

instance : Inv GF256 :=
  ⟨fun x => if x = 0 then 0 else ⟨alpha ((symbols - aindex x.toByte) % symbols)⟩⟩

@[simp] theorem toByte_zero : (0 : GF256).toByte = 0 := rfl

@[simp] theorem toByte_add (x y : GF256) : (x + y).toByte = x.toByte ^^^ y.toByte := rfl

theorem toByte_eq_zero_iff {x : GF256} : x.toByte = 0 ↔ x = 0 :=
  ⟨fun zero => GF256.ext zero, congrArg toByte⟩

/-- The powers of two. -/
def power (k : Nat) : GF256 := ⟨alpha (k % symbols)⟩

theorem mod_symbols_lt (k : Nat) : k % symbols < symbols := Nat.mod_lt k (by decide)

theorem power_ne_zero (k : Nat) : power k ≠ 0 := by
  intro zero
  exact alpha_ne_zero (mod_symbols_lt k) (congrArg toByte zero)

theorem power_mod (k : Nat) : power (k % symbols) = power k := by
  simp only [power, Nat.mod_mod]

theorem power_aindex {x : GF256} (nonzero : x ≠ 0) : power (aindex x.toByte) = x := by
  have other : x.toByte ≠ 0 := fun zero => nonzero (toByte_eq_zero_iff.mp zero)
  apply GF256.ext
  rw [power, Nat.mod_eq_of_lt (aindex_lt other)]
  exact alpha_aindex other

theorem aindex_power (k : Nat) : aindex (power k).toByte = k % symbols :=
  aindex_alpha (mod_symbols_lt k)

theorem power_zero : power 0 = 1 := GF256.ext alpha_zero

theorem power_mul_power (j k : Nat) : power j * power k = power (j + k) := by
  have product : power j * power k =
      ⟨alpha ((aindex (power j).toByte + aindex (power k).toByte) % symbols)⟩ :=
    if_neg (not_or.mpr ⟨power_ne_zero j, power_ne_zero k⟩)
  rw [product, aindex_power, aindex_power, ← Nat.add_mod]
  rfl

theorem zero_mul' (x : GF256) : 0 * x = 0 := if_pos (.inl rfl)

theorem mul_zero' (x : GF256) : x * 0 = 0 := if_pos (.inr rfl)

/-- A product with a power of two is doubled again and again. -/
theorem toByte_power_mul (k : Nat) (x : GF256) : (power k * x).toByte = double^[k] x.toByte := by
  by_cases zero : x = 0
  · subst zero
    rw [mul_zero', toByte_zero]
    exact (Function.iterate_fixed (by decide) k).symm
  · obtain ⟨j, rfl⟩ : ∃ j, x = power j := ⟨_, (power_aindex zero).symm⟩
    rw [power_mul_power]
    induction k with
    | zero => rw [Nat.zero_add, Function.iterate_zero, id]
    | succ k ih =>
        rw [Function.iterate_succ_apply', ← ih, power, power, ← alpha_succ (mod_symbols_lt _),
          Nat.mod_add_mod, Nat.add_right_comm]

theorem iterate_double_xor (k : Nat) (x y : UInt8) :
    double^[k] (x ^^^ y) = double^[k] x ^^^ double^[k] y := by
  induction k with
  | zero => rfl
  | succ k ih =>
      rw [Function.iterate_succ_apply', Function.iterate_succ_apply', Function.iterate_succ_apply',
        ih, double_xor]

theorem mul_comm' (x y : GF256) : x * y = y * x := by
  by_cases zero : x = 0 ∨ y = 0
  · exact (if_pos zero).trans (if_pos zero.symm).symm
  · obtain ⟨left, right⟩ := not_or.mp zero
    rw [← power_aindex left, ← power_aindex right, power_mul_power, power_mul_power, Nat.add_comm]

theorem mul_assoc' (x y z : GF256) : x * y * z = x * (y * z) := by
  by_cases left : x = 0
  · rw [left, zero_mul', zero_mul', zero_mul']
  by_cases middle : y = 0
  · rw [middle, mul_zero', zero_mul', mul_zero']
  by_cases right : z = 0
  · rw [right, mul_zero', mul_zero', mul_zero']
  rw [← power_aindex left, ← power_aindex middle, ← power_aindex right, power_mul_power,
    power_mul_power, power_mul_power, power_mul_power, Nat.add_assoc]

theorem mul_add' (x y z : GF256) : x * (y + z) = x * y + x * z := by
  by_cases zero : x = 0
  · rw [zero, zero_mul', zero_mul', zero_mul']
    rfl
  · apply GF256.ext
    rw [← power_aindex zero, toByte_add, toByte_power_mul, toByte_power_mul, toByte_power_mul,
      toByte_add, iterate_double_xor]

theorem mul_inv_cancel' (x : GF256) (nonzero : x ≠ 0) : x * x⁻¹ = 1 := by
  have other : x.toByte ≠ 0 := fun zero => nonzero (toByte_eq_zero_iff.mp zero)
  have inverse : x⁻¹ = power (symbols - aindex x.toByte) := if_neg nonzero
  have below := aindex_lt other
  rw [inverse]
  nth_rewrite 1 [← power_aindex nonzero]
  rw [power_mul_power, Nat.add_sub_cancel' below.le, ← power_mod, Nat.mod_self, power_zero]

instance : Field GF256 :=
  Field.ofMinimalAxioms GF256
    (fun x y z => GF256.ext (UInt8.xor_assoc x.toByte y.toByte z.toByte))
    (fun x => GF256.ext UInt8.zero_xor)
    (fun x => GF256.ext UInt8.xor_self)
    mul_assoc' mul_comm'
    (fun x => by
      by_cases zero : x = 0
      · rw [zero, mul_zero']
      · rw [← power_aindex zero, ← power_zero, power_mul_power, Nat.zero_add])
    mul_inv_cancel' (if_pos rfl) mul_add' ⟨0, 1, by decide⟩

theorem neg_eq (x : GF256) : -x = x := rfl

theorem sub_eq (x y : GF256) : x - y = x + y := by rw [sub_eq_add_neg, neg_eq]

/-- Two to the power `k` in the field. -/
theorem power_eq_pow (k : Nat) : power k = power 1 ^ k := by
  induction k with
  | zero => rw [power_zero, pow_zero]
  | succ k ih => rw [pow_succ, ← ih, power_mul_power]

/-- The powers of two below the length of the table are distinct. -/
theorem power_injOn : Set.InjOn power (Set.Iio symbols) := by
  intro j below k other equal
  have index := congrArg (fun x => aindex x.toByte) equal
  simpa only [aindex_power, Nat.mod_eq_of_lt (Set.mem_Iio.mp below),
    Nat.mod_eq_of_lt (Set.mem_Iio.mp other)] using index

end GF256

end AssistedDump.RsEcc
