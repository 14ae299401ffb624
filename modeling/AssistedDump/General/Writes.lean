import AssistedDump.General.CSemantics
import Mathlib.Data.Finset.Card

/-! # Programs that only write

A program that writes to an array without reading it is the list of its writes, in
order. An element keeps the value of the last write to its index. How many
different indices a long list has can be evaluated, with the set of those met so
far kept in the bits of one number.
-/

namespace AssistedDump

open CSemantics

variable {α : Type}

/-- What a list of writes makes of an array. -/
def applied (writes : List (Nat × α)) (array : List α) : List α :=
  writes.foldl (fun array w => array.set w.1 w.2) array

def indices (writes : List (Nat × α)) : List Nat := writes.map Prod.fst

@[simp] theorem applied_length (writes : List (Nat × α)) (array : List α) :
    (applied writes array).length = array.length := by
  induction writes generalizing array with
  | nil => rfl
  | cons w writes ih => exact (ih _).trans List.length_set

theorem applied_append (front back : List (Nat × α)) (array : List α) :
    applied (front ++ back) array = applied back (applied front array) := List.foldl_append

theorem indices_append (front back : List (Nat × α)) :
    indices (front ++ back) = indices front ++ indices back := List.map_append

theorem applied_untouched {writes : List (Nat × α)} {i : Nat} (untouched : i ∉ indices writes)
    (array : List α) : (applied writes array)[i]? = array[i]? := by
  induction writes generalizing array with
  | nil => rfl
  | cons w writes ih =>
      obtain ⟨other, rest⟩ := not_or.mp (mt List.mem_cons.mpr untouched)
      exact (ih rest _).trans (List.getElem?_set_ne (Ne.symm other))

theorem applied_map {β : Type} (f : α → β) (writes : List (Nat × α)) (array : List α) :
    (applied writes array).map f = applied (writes.map fun w => (w.1, f w.2)) (array.map f) := by
  induction writes generalizing array with
  | nil => rfl
  | cons w writes ih =>
      change (applied writes (array.set w.1 w.2)).map f = _
      rw [ih, List.map_set]
      rfl

/-- Arrays that differ at most where is written become equal. -/
theorem applied_congr {writes : List (Nat × α)} {first second : List α}
    (same : first.length = second.length)
    (agree : ∀ i ∉ indices writes, first[i]? = second[i]?) :
    applied writes first = applied writes second := by
  induction writes generalizing first second with
  | nil => exact List.ext_getElem? fun i => agree i List.not_mem_nil
  | cons w writes ih =>
      change applied writes (first.set w.1 w.2) = applied writes (second.set w.1 w.2)
      apply ih
      · rw [List.length_set, List.length_set, same]
      · intro i later
        rw [List.getElem?_set, List.getElem?_set, same]
        split
        · rfl
        · next other =>
            apply agree i
            intro member
            exact (List.mem_cons.mp member).elim (fun here => other here.symm) later

/-- An element that is written to has the value of one of the writes. -/
theorem applied_touched {writes : List (Nat × α)} {i : Nat} (touched : i ∈ indices writes)
    {array : List α} (inside : i < array.length) :
    ∃ value, (i, value) ∈ writes ∧ (applied writes array)[i]? = some value := by
  induction writes generalizing array with
  | nil => cases touched
  | cons w writes ih =>
      by_cases later : i ∈ indices writes
      · obtain ⟨value, member, present⟩ := ih later (show i < (array.set w.1 w.2).length by simpa)
        exact ⟨value, List.mem_cons_of_mem _ member, present⟩
      · have here : i = w.1 := (List.mem_cons.mp touched).resolve_right later
        subst here
        refine ⟨w.2, List.mem_cons_self, ?_⟩
        exact (applied_untouched later _).trans (List.getElem?_set_self inside)

/-- An element that is written to once has the value of this write. -/
theorem applied_once {writes : List (Nat × α)} (once : (indices writes).Nodup) {i : Nat} {value : α}
    (member : (i, value) ∈ writes) {array : List α} (inside : i < array.length) :
    (applied writes array)[i]? = some value := by
  have touched : i ∈ indices writes := List.mem_map.mpr ⟨_, member, rfl⟩
  obtain ⟨other, also, present⟩ := applied_touched touched inside
  have same : ((i, other) : Nat × α) = (i, value) := List.inj_on_of_nodup_map once also member rfl
  rw [present, (Prod.mk.inj same).2]

/-- The writes, for an array that must not be written past its end. -/
def writeAll (writes : List (Nat × α)) : C (List α) Unit :=
  writes.forM fun w => writeAt w.1 w.2

theorem writeAll_run {writes : List (Nat × α)} {array : List α}
    (inside : ∀ i ∈ indices writes, i < array.length) :
    (writeAll writes).run array = .ok () (applied writes array) := by
  induction writes generalizing array with
  | nil => rfl
  | cons w writes ih =>
      have first := writeAt_inside (inside w.1 List.mem_cons_self) w.2
      rw [writeAll, List.forM_eq_forM, List.forM_cons, EStateM.run_bind, first]
      apply ih
      intro i member
      rw [List.length_set]
      exact inside i (List.mem_cons_of_mem _ member)

/-- The array after the writes, if all of them are inside it. -/
def stored (writes : List (Nat × α)) (array : List α) : Option (List α) :=
  match (writeAll writes).run array with
  | .ok _ result => some result
  | .error _ _ => none

theorem stored_eq {writes : List (Nat × α)} {array : List α}
    (inside : ∀ i ∈ indices writes, i < array.length) :
    stored writes array = some (applied writes array) := by
  rw [stored, writeAll_run inside]

/-! ## Counting -/

/-- `count` numbers that are `step` apart, in front of others. -/
def run (step : Nat) : Nat → Nat → List Nat → List Nat
  | 0, _, rest => rest
  | count + 1, start, rest => start :: run step count (start + step) rest

/-- A square of numbers in rows that are `width` apart, in front of others. -/
def square (width size : Nat) : Nat → Nat → List Nat → List Nat
  | 0, _, rest => rest
  | rows + 1, start, rest => run 1 size start (square width size rows (start + width) rest)

theorem mem_run {step count start i : Nat} {rest : List Nat} :
    i ∈ run step count start rest ↔ (∃ k < count, start + k * step = i) ∨ i ∈ rest := by
  induction count generalizing start with
  | zero => simp [run]
  | succ count ih =>
      rw [run, List.mem_cons, ih, ← or_assoc]
      apply or_congr_left
      constructor
      · rintro (rfl | ⟨k, below, rfl⟩)
        · exact ⟨0, Nat.succ_pos _, by rw [Nat.zero_mul, Nat.add_zero]⟩
        · exact ⟨k + 1, Nat.succ_lt_succ below, by rw [Nat.succ_mul]; omega⟩
      · rintro ⟨k, below, rfl⟩
        cases k with
        | zero => exact .inl (by rw [Nat.zero_mul, Nat.add_zero])
        | succ k => exact .inr ⟨k, Nat.lt_of_succ_lt_succ below, by rw [Nat.succ_mul]; omega⟩

theorem mem_square {width size rows start i : Nat} {rest : List Nat} :
    i ∈ square width size rows start rest ↔
      (∃ y < rows, ∃ x < size, start + y * width + x = i) ∨ i ∈ rest := by
  induction rows generalizing start with
  | zero => simp [square]
  | succ rows ih =>
      rw [square, mem_run, ih, ← or_assoc]
      apply or_congr_left
      constructor
      · rintro (⟨x, inX, rfl⟩ | ⟨y, inY, x, inX, rfl⟩)
        · exact ⟨0, Nat.succ_pos _, x, inX, by omega⟩
        · exact ⟨y + 1, Nat.succ_lt_succ inY, x, inX, by rw [Nat.succ_mul]; omega⟩
      · rintro ⟨y, inY, x, inX, rfl⟩
        cases y with
        | zero => exact .inl ⟨x, inX, by omega⟩
        | succ y => exact .inr ⟨y, Nat.lt_of_succ_lt_succ inY, x, inX, by rw [Nat.succ_mul]; omega⟩

/-- The set of the numbers met so far, as bits, and how many different ones they are. The
    operations are the ones that are evaluated at once. -/
def survey : List Nat → Nat → Nat → Nat × Nat
  | [], seen, count => (seen, count)
  | i :: rest, seen, count =>
      cond (Nat.beq (Nat.land 1 (Nat.shiftRight seen i)) 0)
        (survey rest (Nat.lor seen (Nat.shiftLeft 1 i)) (Nat.succ count)) (survey rest seen count)

theorem survey_cons (i : Nat) (rest : List Nat) (seen count : Nat) : survey (i :: rest) seen count =
    if seen.testBit i then survey rest seen count
    else survey rest (seen ||| 1 <<< i) (count + 1) := by
  have bit : Nat.beq (Nat.land 1 (Nat.shiftRight seen i)) 0 = !seen.testBit i := by
    rw [Nat.testBit, bne, Bool.not_not, Bool.eq_iff_iff, Nat.beq_eq, beq_iff_eq]
    rfl
  rw [survey, bit]
  cases seen.testBit i <;> rfl

theorem testBit_insert (seen i j : Nat) :
    (seen ||| 1 <<< i).testBit j = (seen.testBit j || decide (i = j)) := by
  rw [Nat.testBit_or, Nat.one_shiftLeft, Nat.testBit_two_pow]

theorem survey_spec (numbers : List Nat) (met : Finset Nat) (seen count : Nat)
    (same : ∀ j, seen.testBit j = true ↔ j ∈ met) (counted : count = met.card) :
    (∀ j, (survey numbers seen count).1.testBit j = true ↔ j ∈ met ∪ numbers.toFinset) ∧
      (survey numbers seen count).2 = (met ∪ numbers.toFinset).card := by
  induction numbers generalizing met seen count with
  | nil => simpa [survey] using ⟨same, counted⟩
  | cons i numbers ih =>
      have grown : met ∪ (i :: numbers).toFinset = insert i met ∪ numbers.toFinset := by
        rw [List.toFinset_cons, Finset.union_insert, Finset.insert_union]
      by_cases again : seen.testBit i
      · rw [survey_cons, if_pos again, grown, Finset.insert_eq_of_mem ((same i).mp again)]
        exact ih met seen count same counted
      · rw [survey_cons, if_neg again, grown]
        apply ih
        · intro j
          rw [testBit_insert, Bool.or_eq_true, same, decide_eq_true_eq, Finset.mem_insert,
            eq_comm (a := i), or_comm]
        · rw [Finset.card_insert_of_notMem (fun member => again ((same i).mpr member)), counted]

theorem survey_testBit (numbers : List Nat) (j : Nat) :
    (survey numbers 0 0).1.testBit j = true ↔ j ∈ numbers := by
  have spec := (survey_spec numbers ∅ 0 0 (by simp) rfl).1 j
  rwa [Finset.empty_union, List.mem_toFinset] at spec

theorem survey_count (numbers : List Nat) :
    (survey numbers 0 0).2 = numbers.toFinset.card := by
  have spec := (survey_spec numbers ∅ 0 0 (by simp) rfl).2
  rwa [Finset.empty_union] at spec

/-- As many different numbers as there are in the list are all of them. -/
theorem nodup_of_survey {numbers : List Nat} (all : (survey numbers 0 0).2 = numbers.length) :
    numbers.Nodup := by
  rw [survey_count] at all
  exact Multiset.toFinset_card_eq_card_iff_nodup.mp all

end AssistedDump
