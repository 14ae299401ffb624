import Mathlib.Algebra.Order.Ring.Int
import Mathlib.Tactic.Common

/-! # Reed–Solomon encoding of rsecc.c

The tables are those the first call fills, so the flags that say whether they are
filled and the mutex around them are left out. `checkSyndrome` is the check of
tests/rsecc_decoder.c.
-/

namespace AssistedDump.RsEcc

def symbols : Nat := 255

def proot : UInt32 := 0x11d

def minLength : Nat := 2

def maxLength : Nat := 30

structure LookupTable where
  alpha : List UInt8
  aindex : List UInt8

/-- One pass of the loop in `RSECC_initLookupTable`, with its variable `b`. -/
def initStep (s : LookupTable × UInt32) (i : Nat) : LookupTable × UInt32 :=
  let (table, b) := s
  let table := ⟨table.alpha.set i b.toUInt8, table.aindex.set b.toNat (UInt8.ofNat i)⟩
  let b := b <<< 1
  let b := if b &&& 256 ≠ 0 then b ^^^ proot else b
  (table, b &&& 255)

@[irreducible] def initLookupTable : LookupTable :=
  let alpha := (List.replicate (symbols + 1) 0).set symbols 0
  let aindex := (List.replicate (symbols + 1) 0).set 0 255
  ((List.range symbols).foldl initStep (⟨alpha, aindex⟩, 1)).1

def alpha (i : Nat) : UInt8 := initLookupTable.alpha.getD i 0

def aindex (x : UInt8) : Nat := (initLookupTable.aindex.getD x.toNat 0).toNat

/-- One pass of the outer loop in `generator_init`, for the `g` of the passes before. -/
def generatorStep (g : List UInt8) (i : Nat) : List UInt8 :=
  (List.range (i + 2)).map fun j =>
    if j = i + 1 then 1
    else if j = 0 then alpha ((aindex (g.getD 0 0) + i) % symbols)
    else g.getD (j - 1) 0 ^^^ alpha ((aindex (g.getD j 0) + i) % symbols)

/-- The coefficients of the generator polynomial, the lowest degree first. -/
def generatorPolynomial (length : Nat) : List UInt8 :=
  (List.range length).foldl generatorStep [1]

/-- The row `generator_init` fills. -/
def generator (length : Nat) : List Nat := (generatorPolynomial length).map aindex

/-- One pass of the loop over the data in `RSECC_encode`. -/
def encodeStep (gen : List Nat) (eccLength : Nat) (ecc : List UInt8) (x : UInt8) : List UInt8 :=
  let feedback := aindex (x ^^^ ecc.getD 0 0)
  let ecc :=
    if feedback ≠ symbols then
      ecc.mapIdx fun j e =>
        if 1 ≤ j then e ^^^ alpha ((feedback + gen.getD (eccLength - j) 0) % symbols) else e
    else ecc
  ecc.drop 1 ++ [if feedback ≠ symbols then alpha ((feedback + gen.getD 0 0) % symbols) else 0]

/-- `RSECC_encode` with the `ecc` it fills. A length below `min_length` has no row in the
    table of generators. -/
def encode (eccLength : Nat) (data : List UInt8) : Option (List UInt8) :=
  if minLength ≤ eccLength ∧ eccLength ≤ maxLength then
    some (data.foldl (encodeStep (generator eccLength) eccLength) (List.replicate eccLength 0))
  else none

/-- The body of the loops in `RSECC_decoder_checkSyndrome`. -/
def syndromeStep (i : Nat) (s x : UInt8) : UInt8 :=
  if s = 0 then x else x ^^^ alpha ((aindex s + i) % symbols)

def syndrome (i : Nat) (data ecc : List UInt8) : UInt8 :=
  ecc.foldl (syndromeStep i) (data.tail.foldl (syndromeStep i) (data.headD 0))

def checkSyndrome (data ecc : List UInt8) : Int :=
  if ∃ i < ecc.length, syndrome i data ecc ≠ 0 then -1 else 0

/-! ## The tables -/

/-- Twice a polynomial, modulo the primitive one. -/
def double (x : UInt8) : UInt8 := if 0x80 ≤ x then x <<< 1 ^^^ 0x1d else x <<< 1

/-- What the tables hold, evaluated once for all of it: the powers of two, their
    logarithms, and generator polynomials without a zero coefficient. -/
theorem initLookupTable_holds :
    (alpha 0 = 1 ∧ ∀ i < symbols, alpha ((i + 1) % symbols) = double (alpha i)) ∧
    (aindex 0 = symbols ∧ alpha symbols = 0 ∧ ∀ i < symbols, aindex (alpha i) = i) ∧
    (∀ n < 256, n ≠ 0 → alpha (aindex (UInt8.ofNat n)) = UInt8.ofNat n) ∧
    ∀ i ≤ maxLength, 0 ∉ generatorPolynomial i := by
  decide +kernel

theorem alpha_zero : alpha 0 = 1 := initLookupTable_holds.1.1

theorem alpha_succ {i : Nat} (below : i < symbols) :
    alpha ((i + 1) % symbols) = double (alpha i) := initLookupTable_holds.1.2 i below

theorem aindex_zero : aindex 0 = symbols := initLookupTable_holds.2.1.1

theorem aindex_alpha {i : Nat} (below : i < symbols) : aindex (alpha i) = i :=
  initLookupTable_holds.2.1.2.2 i below

theorem alpha_aindex {x : UInt8} (nonzero : x ≠ 0) : alpha (aindex x) = x := by
  have inverse := initLookupTable_holds.2.2.1 x.toNat x.toNat_lt
  rw [UInt8.ofNat_toNat] at inverse
  exact inverse fun zero => nonzero (UInt8.toNat_inj.mp zero)

theorem aindex_lt {x : UInt8} (nonzero : x ≠ 0) : aindex x < symbols := by
  have most : aindex x ≤ symbols := Nat.lt_succ_iff.mp (UInt8.toNat_lt _)
  apply lt_of_le_of_ne most
  intro last
  apply nonzero
  rw [← alpha_aindex nonzero, last]
  exact initLookupTable_holds.2.1.2.1

theorem generatorPolynomial_nonzero {i : Nat} (inTable : i ≤ maxLength) :
    0 ∉ generatorPolynomial i := initLookupTable_holds.2.2.2 i inTable

theorem alpha_ne_zero {i : Nat} (below : i < symbols) : alpha i ≠ 0 := by
  intro zero
  have index := aindex_alpha below
  rw [zero, aindex_zero] at index
  omega

/-- Doubling is linear, as both its shift and its reduction are. -/
theorem double_xor (x y : UInt8) : double (x ^^^ y) = double x ^^^ double y := by
  have top (z : UInt8) : 0x80 ≤ z ↔ z.toBitVec.msb = true := by
    rw [BitVec.msb_eq_decide, UInt8.le_iff_toNat_le]
    simp
  have shift : (x ^^^ y) <<< 1 = x <<< 1 ^^^ y <<< 1 := by
    apply UInt8.toBitVec_inj.mp
    simp [BitVec.shiftLeft_xor_distrib]
  simp only [double, top, UInt8.toBitVec_xor, BitVec.msb_xor, shift]
  cases x.toBitVec.msb <;> cases y.toBitVec.msb <;>
    simp only [Bool.xor_self, Bool.xor_false, Bool.false_xor, Bool.false_eq_true, if_true, if_false]
  · rw [UInt8.xor_assoc]
  · rw [UInt8.xor_assoc, UInt8.xor_assoc, UInt8.xor_comm 0x1d]
  · rw [UInt8.xor_assoc, UInt8.xor_comm 0x1d, UInt8.xor_assoc, UInt8.xor_self, UInt8.xor_zero]

end AssistedDump.RsEcc
