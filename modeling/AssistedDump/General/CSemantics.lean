import AssistedDump.General.Machine
import Mathlib.Algebra.Order.Ring.Int
import Mathlib.Tactic.Common

/-! # The part of C the programs are written in

A C function is a state transformer that may stop early: an `assert` fails, an
array is indexed outside its object, a signed sum leaves the range of `int`, or a
variable is read before it is set. All but the first are undefined behaviour, so
nothing is said about what happens after them. Conversions between `int` and
`uint32_t` keep the bit pattern.
-/

namespace AssistedDump.CSemantics

/-- What stops a C program. -/
inductive Fault where
  /-- A failing `assert`, with the text of its condition. -/
  | assertion (condition : String)
  /-- An access to an element outside its array. -/
  | outOfBounds (index : Nat)
  /-- A signed sum that does not fit in an `int`. -/
  | signedOverflow
  /-- A local variable that is read before it is set. -/
  | uninitialized (name : String)
  deriving Repr, DecidableEq

abbrev C (σ : Type) := EStateM Fault σ

variable {σ α : Type}

def assert (text : String) (condition : Prop) [Decidable condition] : C σ Unit :=
  if condition then pure () else throw (.assertion text)

/-- `array[index]` for an array that must not be read past its end. -/
def readAt (array : List α) (index : Nat) : C σ α :=
  match array[index]? with
  | some x => pure x
  | none => throw (.outOfBounds index)

/-- `a + b` for two `int`s. -/
def addInt (a b : Int32) : C σ Int32 :=
  if -2 ^ 31 ≤ a.toInt + b.toInt ∧ a.toInt + b.toInt < 2 ^ 31 then pure (a + b)
  else throw .signedOverflow

/-- `a * b` for two `int`s. -/
def mulInt (a b : Int32) : C σ Int32 :=
  if -2 ^ 31 ≤ a.toInt * b.toInt ∧ a.toInt * b.toInt < 2 ^ 31 then pure (a * b)
  else throw .signedOverflow

/-- `array[index] = value` for an array that must not be written past its end. -/
def writeAt (index : Nat) (value : α) : C (List α) Unit := do
  let array ← get
  if index < array.length then set (array.set index value)
  else throw (.outOfBounds index)

/-- The object of an allocation whose result is asserted. -/
def allocated (text : String) : Option (List α) → C σ (List α)
  | some block => pure block
  | none => throw (.assertion text)

/-- The first `count` elements of a block that must not be read past its end. -/
def readFirst (block : List α) (count : Nat) : C σ (List α) :=
  if count ≤ block.length then pure (block.take count) else throw (.outOfBounds block.length)

/-- A copy to an offset of a block that must not be written past its end. -/
def overwrite (block : List α) (offset : Nat) (elements : List α) : C σ (List α) :=
  if offset + elements.length ≤ block.length then
    pure (block.take offset ++ (elements ++ block.drop (offset + elements.length)))
  else throw (.outOfBounds block.length)

/-- What a computation makes of an array of its own. -/
def withArray (array : List α) (body : C (List α) Unit) : C σ (List α) := fun s =>
  match body.run array with
  | .ok _ result => .ok result s
  | .error fault _ => .error fault s

/-- `for (int i = 0; i < count; i++)` with a body that does not change `i`. -/
def forLoop (body : Nat → C σ Unit) : Nat → C σ Unit
  | 0 => pure ()
  | count + 1 => do
      forLoop body count
      body count

/-- The value of a local variable that may not have been set yet. -/
def readVariable (name : String) : Option α → C σ α
  | some x => pure x
  | none => throw (.uninitialized name)

@[simp] theorem throw_run (f : Fault) (s : σ) : (throw f : C σ α).run s = .error f s := rfl

@[simp] theorem assert_holds {text : String} {p : Prop} [Decidable p] (h : p) (s : σ) :
    (assert text p).run s = .ok () s := by
  simp only [assert, if_pos h, EStateM.run_pure]

@[simp] theorem assert_fails {text : String} {p : Prop} [Decidable p] (h : ¬ p) (s : σ) :
    (assert text p).run s = .error (.assertion text) s := by
  simp only [assert, if_neg h, throw_run]

theorem readAt_present {array : List α} {index : Nat} {x : α} (h : array[index]? = some x)
    (s : σ) : (readAt array index).run s = .ok x s := by
  simp only [readAt, h, EStateM.run_pure]

theorem readAt_absent {array : List α} {index : Nat} (h : array.length ≤ index) (s : σ) :
    (readAt array index).run s = .error (.outOfBounds index) s := by
  simp only [readAt, List.getElem?_eq_none h, throw_run]

theorem int_range (a : Int32) : -2 ^ 31 ≤ a.toInt ∧ a.toInt < 2 ^ 31 :=
  ⟨a.le_toInt, a.toInt_lt⟩

/-- A sum that fits is the exact sum. -/
theorem addInt_fits {a b : Int32} (low : -2 ^ 31 ≤ a.toInt + b.toInt)
    (high : a.toInt + b.toInt < 2 ^ 31) (s : σ) :
    (addInt a b).run s = .ok (a + b) s ∧ (a + b).toInt = a.toInt + b.toInt := by
  refine ⟨by simp only [addInt, if_pos (And.intro low high), EStateM.run_pure], ?_⟩
  rw [Int32.toInt_add, Int.bmod_eq_of_le] <;> omega

theorem addInt_overflows {a b : Int32} (h : 2 ^ 31 ≤ a.toInt + b.toInt) (s : σ) :
    (addInt a b).run s = .error .signedOverflow s := by
  have out : ¬ (-2 ^ 31 ≤ a.toInt + b.toInt ∧ a.toInt + b.toInt < 2 ^ 31) := by omega
  simp only [addInt, if_neg out, throw_run]

/-- A product that fits is the exact product. -/
theorem mulInt_fits {a b : Int32} (low : -2 ^ 31 ≤ a.toInt * b.toInt)
    (high : a.toInt * b.toInt < 2 ^ 31) (s : σ) :
    (mulInt a b).run s = .ok (a * b) s ∧ (a * b).toInt = a.toInt * b.toInt := by
  refine ⟨by simp only [mulInt, if_pos (And.intro low high), EStateM.run_pure], ?_⟩
  rw [Int32.toInt_mul, Int.bmod_eq_of_le] <;> omega

theorem ofNat_toInt_toNat {k : Nat} (small : k < 2 ^ 31) : (Int32.ofNat k).toInt.toNat = k := by
  rw [Int32.toInt_ofNat_of_lt small, Int.toNat_natCast]

theorem ofNat_toUInt32_toNat {k : Nat} (small : k < 2 ^ 31) :
    (Int32.ofNat k).toUInt32.toNat = k :=
  UInt32.toNat_ofNat_of_lt' (show k < 4294967296 by omega)

theorem addInt_ofNat {a b : Nat} (small : a + b < 2 ^ 31) (s : σ) :
    (addInt (Int32.ofNat a) (Int32.ofNat b)).run s = .ok (Int32.ofNat (a + b)) s := by
  have first : (Int32.ofNat a).toInt = a := Int32.toInt_ofNat_of_lt (by omega)
  have second : (Int32.ofNat b).toInt = b := Int32.toInt_ofNat_of_lt (by omega)
  rw [Int32.ofNat_add]
  exact (addInt_fits (by omega) (by omega) s).1

theorem mulInt_ofNat {a b : Nat} (left : a < 2 ^ 31) (right : b < 2 ^ 31)
    (small : a * b < 2 ^ 31) (s : σ) :
    (mulInt (Int32.ofNat a) (Int32.ofNat b)).run s = .ok (Int32.ofNat (a * b)) s := by
  have product : (Int32.ofNat a).toInt * (Int32.ofNat b).toInt = (a * b : Nat) := by
    rw [Int32.toInt_ofNat_of_lt left, Int32.toInt_ofNat_of_lt right, Int.natCast_mul]
  rw [Int32.ofNat_mul]
  exact (mulInt_fits (by omega) (by omega) s).1

theorem readFirst_whole {block : List α} {count : Nat} (whole : count = block.length) (s : σ) :
    (readFirst block count).run s = .ok block s := by
  rw [readFirst, if_pos whole.le, whole, List.take_length, EStateM.run_pure]

theorem overwrite_run (front : List α) {old elements : List α} (back : List α) {offset : Nat}
    (start : offset = front.length) (same : elements.length = old.length) (s : σ) :
    (overwrite (front ++ (old ++ back)) offset elements).run s =
      .ok (front ++ (elements ++ back)) s := by
  have inside : offset + elements.length ≤ (front ++ (old ++ back)).length := by
    simp only [List.length_append]
    omega
  rw [overwrite, if_pos inside, List.take_left' start.symm, ← List.append_assoc front old,
    List.drop_left' (by rw [List.length_append]; omega), EStateM.run_pure]

theorem withArray_run {array result : List α} {body : C (List α) Unit}
    (run : body.run array = .ok () result) (s : σ) :
    (withArray array body).run s = .ok result s := by
  change (match body.run array with
    | .ok _ result => EStateM.Result.ok result s
    | .error fault _ => .error fault s) = _
  rw [run]

theorem writeAt_inside {array : List α} {index : Nat} (h : index < array.length) (value : α) :
    (writeAt index value).run array = .ok () (array.set index value) := by
  simp only [writeAt, EStateM.run_bind, EStateM.run_get, if_pos h, EStateM.run_set]

/-- The index of an element of a row-major matrix. -/
theorem rowMajor_lt {x y width height : Nat} (inX : x < width) (inY : y < height) :
    y * width + x < height * width :=
  calc y * width + x < y * width + width := Nat.add_lt_add_left inX _
    _ = (y + 1) * width := (Nat.succ_mul y width).symm
    _ ≤ height * width := Nat.mul_le_mul_right width inY

/-- The loop rule: what every iteration takes one step further holds at the end. -/
theorem forLoop_run {I : Nat → σ → Prop} {body : Nat → C σ Unit} {count : Nat} {s : σ}
    (start : I 0 s)
    (steps : ∀ i < count, ∀ t, I i t → ∃ u, (body i).run t = .ok () u ∧ I (i + 1) u) :
    ∃ t, (forLoop body count).run s = .ok () t ∧ I count t := by
  induction count with
  | zero => exact ⟨s, rfl, start⟩
  | succ count ih =>
      obtain ⟨t, run, kept⟩ := ih fun i before => steps i (Nat.lt_succ_of_lt before)
      obtain ⟨u, last, next⟩ := steps count (Nat.lt_succ_self count) t kept
      refine ⟨u, ?_, next⟩
      rw [forLoop, EStateM.run_bind, run]
      exact last

/-- The loop rule for what no iteration breaks, not even one that stops the program. -/
theorem forLoop_keeps {I : σ → Prop} {body : Nat → C σ Unit} {count : Nat} {s : σ} (start : I s)
    (steps : ∀ i < count, ∀ t, I t → I (Machine.after (body i) t)) :
    I (Machine.after (forLoop body count) s) := by
  induction count with
  | zero => exact start
  | succ count ih =>
      have kept := ih fun i before => steps i (Nat.lt_succ_of_lt before)
      cases run : (forLoop body count).run s with
      | error e t =>
          have stop : (forLoop body (count + 1)).run s = .error e t := by
            rw [forLoop, EStateM.run_bind, run]
          rwa [Machine.after_error stop, ← Machine.after_error run]
      | ok _ t =>
          rw [Machine.after_ok run] at kept
          have next : Machine.after (forLoop body (count + 1)) s = Machine.after (body count) t := by
            simp only [Machine.after, forLoop, EStateM.run_bind, run]
          rw [next]
          exact steps count (Nat.lt_succ_self count) t kept

/-- A loop whose first iteration stops the program stops there. -/
theorem forLoop_stops {body : Nat → C σ Unit} {e : Fault} {s t : σ}
    (first : (body 0).run s = .error e t) (count : Nat) :
    (forLoop body (count + 1)).run s = .error e t := by
  induction count with
  | zero => exact first
  | succ count ih => rw [forLoop, EStateM.run_bind, ih]

/-- Reading one value after another without a change to the state. -/
theorem mapM_reads {P : Nat → α → Prop} {read : Nat → C σ α} {count : Nat} {s : σ}
    (each : ∀ i < count, ∃ x, (read i).run s = .ok x s ∧ P i x) :
    ∃ xs, ((List.range count).mapM read).run s = .ok xs s ∧ xs.length = count ∧
      ∀ i x, xs[i]? = some x → P i x := by
  induction count with
  | zero => exact ⟨[], rfl, rfl, fun i x none => by simp at none⟩
  | succ count ih =>
      obtain ⟨xs, run, length, met⟩ := ih fun i before => each i (Nat.lt_succ_of_lt before)
      obtain ⟨x, last, here⟩ := each count (Nat.lt_succ_self count)
      refine ⟨xs ++ [x], ?_, by simp [length], ?_⟩
      · rw [List.range_succ, List.mapM_append, EStateM.run_bind, run]
        simp [last, -bind_pure_comp]
      · intro i y entry
        by_cases before : i < xs.length
        · exact met i y (by rwa [List.getElem?_append_left before] at entry)
        · rw [List.getElem?_append_right (Nat.not_lt.mp before), List.getElem?_singleton] at entry
          split at entry
          · have same : i = count := by omega
            cases entry
            exact same ▸ here
          · cases entry

/-- A nonnegative `int` keeps its value as a `uint32_t`. -/
theorem toUInt32_toNat {a : Int32} (h : 0 ≤ a.toInt) : (a.toUInt32.toNat : Int) = a.toInt := by
  rw [Int32.toNat_toUInt32_of_le (Int32.le_iff_toInt_le.mpr h), Int32.toNatClampNeg]
  exact Int.toNat_of_nonneg h

/-- A `uint32_t` below 2^31 keeps its value as an `int`. -/
theorem toInt32_toInt {u : UInt32} (h : u.toNat < 2 ^ 31) : u.toInt32.toInt = u.toNat := by
  have same : u.toInt32 = Int32.ofNat u.toNat := by
    rw [← UInt32.toInt32_ofNat', UInt32.ofNat_toNat]
  rw [same, Int32.toInt_ofNat_of_lt h]

end AssistedDump.CSemantics
