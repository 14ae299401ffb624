import Mathlib.LinearAlgebra.Vandermonde
import Mathlib.Tactic.LinearCombination
import Mathlib.Tactic.Ring

/-! # Systematic cyclic codes

A word is the list of its symbols, read as the coefficients of a polynomial with
the highest degree first. A division register appends to a message the check
symbols that make the word vanish at every root of the divisor. Over a field, two
words of one length that vanish at the first `n` powers of an element cannot
differ in `n` or fewer places, as long as these places are distinguished by the
powers of the element.
-/

namespace AssistedDump.CyclicCode

section Ring

variable {R : Type} [CommRing R]

/-- The value at `r` of the polynomial with these coefficients. -/
def value (r : R) (word : List R) : R := word.foldl (fun acc c => acc * r + c) 0

theorem foldl_value (r start : R) (word : List R) :
    word.foldl (fun acc c => acc * r + c) start = start * r ^ word.length + value r word := by
  induction word generalizing start with
  | nil => simp [value]
  | cons c word ih =>
      have rest := ih (0 * r + c)
      simp only [value, List.foldl_cons, List.length_cons] at rest ⊢
      rw [ih, rest, value]
      ring

theorem value_append (r : R) (front back : List R) :
    value r (front ++ back) = value r front * r ^ back.length + value r back := by
  rw [value, List.foldl_append, ← value, foldl_value]

theorem value_cons (r c : R) (word : List R) :
    value r (c :: word) = c * r ^ word.length + value r word := by
  rw [value, List.foldl_cons, foldl_value, zero_mul, zero_add]

theorem value_snoc (r c : R) (word : List R) : value r (word ++ [c]) = value r word * r + c := by
  simp [value]

theorem value_scale (r k : R) (word : List R) : value r (word.map (k * ·)) = k * value r word := by
  induction word with
  | nil => simp [value]
  | cons c word ih =>
      rw [List.map_cons, value_cons, value_cons, ih, List.length_map]
      ring

theorem value_add (r : R) {front back : List R} (same : front.length = back.length) :
    value r (List.zipWith (· + ·) front back) = value r front + value r back := by
  induction front generalizing back with
  | nil => simp [value, List.length_eq_zero_iff.mp same.symm]
  | cons c front ih =>
      cases back with
      | nil => simp at same
      | cons d back =>
          have rest : front.length = back.length := Nat.succ.inj same
          rw [List.zipWith_cons_cons, value_cons, value_cons, value_cons, ih rest,
            List.length_zipWith, rest, Nat.min_self]
          ring

theorem value_replicate_zero (r : R) (n : Nat) : value r (List.replicate n (0 : R)) = 0 := by
  induction n with
  | zero => rfl
  | succ n ih => rw [List.replicate_succ, value_cons, ih, zero_mul, zero_add]

/-- One input of the division register. `taps` are the coefficients of the divisor
    below its leading one. -/
def feed (taps register : List R) (input : R) : List R :=
  List.zipWith (· + ·) (register.tail ++ [0]) (taps.map ((input - register.headD 0) * ·))

/-- The check symbols of a message. -/
def checks (taps message : List R) : List R :=
  message.foldl (feed taps) (List.replicate taps.length 0)

theorem feed_length {taps register : List R} (input : R) (some : taps ≠ [])
    (same : register.length = taps.length) : (feed taps register input).length = taps.length := by
  have positive := List.length_pos_iff.mpr some
  simp only [feed, List.length_zipWith, List.length_append, List.length_tail, List.length_singleton,
    List.length_map]
  omega

/-- What an input adds to the register is its multiple of the divisor. -/
theorem value_feed {r : R} {taps register : List R} (root : value r (1 :: taps) = 0) (input : R)
    (some : taps ≠ []) (same : register.length = taps.length) :
    value r (feed taps register input) = value r register * r - input * r ^ taps.length := by
  cases register with
  | nil => exact absurd (List.length_eq_zero_iff.mp same.symm) some
  | cons head tail =>
      have rest : (tail ++ [0]).length = (taps.map ((input - head) * ·)).length := by
        simpa using same
      have length : tail.length + 1 = taps.length := same
      have divided : r ^ taps.length + value r taps = 0 := by
        rw [← root, value_cons, one_mul]
      rw [feed, List.tail_cons, List.headD_cons, value_add r rest, value_snoc, value_scale,
        value_cons, add_mul, mul_assoc head, ← pow_succ, length]
      linear_combination (input - head) * divided

/-- The register holds what the inputs so far lack to be a multiple of the divisor. -/
theorem value_foldl_feed {r : R} {taps : List R} (root : value r (1 :: taps) = 0)
    (some : taps ≠ []) (message : List R) :
    (message.foldl (feed taps) (List.replicate taps.length 0)).length = taps.length ∧
      value r message * r ^ taps.length +
        value r (message.foldl (feed taps) (List.replicate taps.length 0)) = 0 := by
  induction message using List.reverseRecOn with
  | nil =>
      refine ⟨List.length_replicate, ?_⟩
      rw [List.foldl_nil, value_replicate_zero, add_zero]
      exact zero_mul _
  | append_singleton message input ih =>
      obtain ⟨length, vanishes⟩ := ih
      rw [List.foldl_append, List.foldl_cons, List.foldl_nil]
      refine ⟨feed_length input some length, ?_⟩
      rw [value_feed root input some length, value_snoc]
      linear_combination r * vanishes

theorem checks_length {taps : List R} (some : taps ≠ []) (message : List R) :
    (checks taps message).length = taps.length := by
  induction message using List.reverseRecOn with
  | nil => simp [checks]
  | append_singleton message input ih =>
      rw [checks, List.foldl_append, List.foldl_cons, List.foldl_nil]
      exact feed_length input some ih

/-- A message and its check symbols vanish at every root of the divisor. -/
theorem value_checks {r : R} {taps : List R} (root : value r (1 :: taps) = 0) (some : taps ≠ [])
    (message : List R) : value r (message ++ checks taps message) = 0 := by
  rw [value_append, checks_length some]
  exact (value_foldl_feed root some message).2

/-- The coefficients of a polynomial times `x - root`. -/
def timesRoot (root : R) (word : List R) : List R :=
  List.zipWith (· + ·) (word ++ [0]) ((0 :: word).map (-root * ·))

theorem value_timesRoot (r root : R) (word : List R) :
    value r (timesRoot root word) = (r - root) * value r word := by
  rw [timesRoot, value_add r (by simp), value_snoc, value_scale, value_cons]
  ring

/-- The monic polynomial with these roots. -/
def withRoots (roots : List R) : List R := roots.foldl (fun word root => timesRoot root word) [1]

theorem value_withRoots (r : R) (roots : List R) :
    value r (withRoots roots) = (roots.map (r - ·)).prod := by
  induction roots using List.reverseRecOn with
  | nil => simp [withRoots, value]
  | append_singleton roots root ih =>
      rw [withRoots, List.foldl_append, List.foldl_cons, List.foldl_nil, value_timesRoot, ← withRoots,
        ih, List.map_append, List.prod_append, List.map_singleton, List.prod_singleton, mul_comm]

/-- It vanishes at each of them. -/
theorem value_withRoots_eq_zero {r : R} {roots : List R} (member : r ∈ roots) :
    value r (withRoots roots) = 0 := by
  rw [value_withRoots]
  apply List.prod_eq_zero
  exact List.mem_map.mpr ⟨r, member, sub_self r⟩

theorem withRoots_monic (roots : List R) :
    ∃ taps, withRoots roots = 1 :: taps ∧ taps.length = roots.length := by
  induction roots using List.reverseRecOn with
  | nil => exact ⟨[], rfl, rfl⟩
  | append_singleton roots root ih =>
      obtain ⟨taps, shape, length⟩ := ih
      have next : withRoots (roots ++ [root]) = timesRoot root (1 :: taps) := by
        rw [← shape, withRoots, withRoots, List.foldl_append, List.foldl_cons, List.foldl_nil]
      refine ⟨(timesRoot root (1 :: taps)).tail, ?_, ?_⟩
      · rw [next]
        simp [timesRoot]
      · simp [timesRoot, length]

theorem value_eq_sum (r : R) (word : List R) :
    value r word = ∑ i ∈ Finset.range word.length, word.getD i 0 * r ^ (word.length - 1 - i) := by
  induction word with
  | nil => rfl
  | cons c word ih =>
      rw [value_cons, List.length_cons, Finset.sum_range_succ', add_comm, ih]
      congr 1
      apply Finset.sum_congr rfl
      intro i _
      rw [List.getD_cons_succ]
      congr 2
      omega

end Ring

section Distance

variable {α : Type} [DecidableEq α]

/-- The places where two words differ. -/
def differences (first second : List α) : Finset Nat :=
  {i ∈ Finset.range first.length | first[i]? ≠ second[i]?}

theorem differences_subset {first second third : List α} (same : first.length = second.length) :
    differences first third ⊆ differences first second ∪ differences second third := by
  intro i member
  simp only [differences, Finset.mem_union, Finset.mem_filter, Finset.mem_range] at member ⊢
  by_cases agree : first[i]? = second[i]?
  · exact .inr ⟨by omega, agree ▸ member.2⟩
  · exact .inl ⟨member.1, agree⟩

theorem differences_comm {first second : List α} (same : first.length = second.length) :
    differences first second = differences second first := by
  simp only [differences, same, ne_comm]

theorem differences_map {β : Type} [DecidableEq β] {f : α → β} (injective : Function.Injective f)
    (first second : List α) :
    differences (first.map f) (second.map f) = differences first second := by
  simp only [differences, List.length_map, List.getElem?_map, ne_eq,
    (Option.map_injective injective).eq_iff]

theorem eq_of_differences_empty {first second : List α} (same : first.length = second.length)
    (none : differences first second = ∅) : first = second := by
  apply List.ext_getElem?
  intro i
  by_cases inside : i < first.length
  · by_contra other
    have member : i ∈ differences first second :=
      Finset.mem_filter.mpr ⟨Finset.mem_range.mpr inside, other⟩
    simp [none] at member
  · rw [List.getElem?_eq_none (by omega), List.getElem?_eq_none (by omega)]

end Distance

section Field

variable {F : Type} [Field F]

/-- The word vanishes at the first `n` powers of `α`. -/
def Codeword (α : F) (n : Nat) (word : List F) : Prop := ∀ i < n, value (α ^ i) word = 0

/-- Coefficients on few places that are distinguished by `x` cannot cancel at as many powers. -/
theorem eq_zero_of_sums {places : Finset Nat} {n : Nat} (few : places.card ≤ n) {x c : Nat → F}
    (distinct : Set.InjOn x places)
    (sums : ∀ k < n, ∑ i ∈ places, c i * x i ^ k = 0) : ∀ i ∈ places, c i = 0 := by
  have point := places.equivFin
  have vanish : (fun j => c (point.symm j)) = 0 := by
    apply Matrix.eq_zero_of_forall_pow_sum_mul_pow_eq_zero (f := fun j => x (point.symm j))
    · intro j k equal
      exact point.symm.injective (Subtype.ext (distinct (point.symm j).2 (point.symm k).2 equal))
    · intro k
      rw [← sums k (lt_of_lt_of_le k.2 few), ← Finset.sum_coe_sort places]
      exact Fintype.sum_equiv point.symm _ _ fun j => rfl
  intro i member
  simpa using congrFun vanish (point ⟨i, member⟩)

variable [DecidableEq F]

/-- Two words that agree at the first `n` powers of `α` and differ in at most `n` places are equal. -/
theorem eq_of_values {α : F} {n : Nat} {first second : List F}
    (same : first.length = second.length)
    (distinct : Set.InjOn (fun i => α ^ i) (Set.Iio first.length))
    (agree : ∀ k < n, value (α ^ k) first = value (α ^ k) second)
    (few : (differences first second).card ≤ n) : first = second := by
  let c := fun i => first.getD i 0 - second.getD i 0
  let x := fun i => α ^ (first.length - 1 - i)
  have separate : Set.InjOn x (differences first second) := by
    intro i member j other equal
    simp only [differences, Finset.coe_filter, Finset.mem_range, Set.mem_ofPred_eq] at member other
    have exponents := distinct (Set.mem_Iio.mpr (by omega)) (Set.mem_Iio.mpr (by omega)) equal
    omega
  have cancel : ∀ k < n, ∑ i ∈ differences first second, c i * x i ^ k = 0 := by
    intro k below
    have whole : ∑ i ∈ Finset.range first.length, c i * x i ^ k = 0 := by
      calc ∑ i ∈ Finset.range first.length, c i * x i ^ k
          = value (α ^ k) first - value (α ^ k) second := by
            rw [value_eq_sum, value_eq_sum, ← same, ← Finset.sum_sub_distrib]
            apply Finset.sum_congr rfl
            intro i _
            simp only [c, x]
            rw [sub_mul, ← pow_mul, ← pow_mul, mul_comm k]
        _ = 0 := by rw [agree k below, sub_self]
    rw [← whole]
    apply Finset.sum_subset (Finset.filter_subset _ _)
    intro i inside apart
    have equal : first[i]? = second[i]? := by simpa [differences, Finset.mem_range.mp inside] using apart
    simp [c, List.getD_eq_getElem?_getD, equal]
  have zero := eq_zero_of_sums few separate cancel
  apply eq_of_differences_empty same
  apply Finset.eq_empty_of_forall_notMem
  intro i member
  have equal := sub_eq_zero.mp (zero i member)
  obtain ⟨inside, other⟩ := Finset.mem_filter.mp member
  have left : i < first.length := Finset.mem_range.mp inside
  have right : i < second.length := by omega
  rw [List.getD_eq_getElem?_getD, List.getD_eq_getElem?_getD, List.getElem?_eq_getElem left,
    List.getElem?_eq_getElem right] at equal
  rw [List.getElem?_eq_getElem left, List.getElem?_eq_getElem right] at other
  exact other (congrArg some equal)

/-- Two codewords that differ in at most `n` places are equal. -/
theorem Codeword.eq_of_few {α : F} {n : Nat} {first second : List F}
    (same : first.length = second.length)
    (distinct : Set.InjOn (fun i => α ^ i) (Set.Iio first.length))
    (left : Codeword α n first) (right : Codeword α n second)
    (few : (differences first second).card ≤ n) : first = second :=
  eq_of_values same distinct (fun k below => (left k below).trans (right k below).symm) few

/-- Of the codewords with one beginning, however long it is, no two have ends of `n` places. -/
theorem Codeword.eq_of_front {α : F} {n : Nat} {front first second : List F}
    (same : first.length = second.length) (short : first.length ≤ n)
    (distinct : Set.InjOn (fun i => α ^ i) (Set.Iio first.length))
    (left : Codeword α n (front ++ first)) (right : Codeword α n (front ++ second)) :
    first = second := by
  apply eq_of_values same distinct (n := n)
  · intro k below
    have equal := (left k below).trans (right k below).symm
    rwa [value_append, value_append, same, add_left_cancel_iff] at equal
  · calc (differences first second).card
        ≤ (Finset.range first.length).card := Finset.card_le_card (Finset.filter_subset _ _)
      _ ≤ n := (Finset.card_range _).trans_le short

/-- A word has at most one codeword within half of `n` places. -/
theorem Codeword.eq_of_near {α : F} {n t : Nat} {first second received : List F}
    (one : first.length = received.length) (two : second.length = received.length)
    (distinct : Set.InjOn (fun i => α ^ i) (Set.Iio first.length))
    (left : Codeword α n first) (right : Codeword α n second) (half : 2 * t ≤ n)
    (near : (differences first received).card ≤ t)
    (nearby : (differences second received).card ≤ t) : first = second := by
  apply Codeword.eq_of_few (one.trans two.symm) distinct left right
  calc (differences first second).card
      ≤ (differences first received ∪ differences received second).card :=
        Finset.card_le_card (differences_subset one)
    _ ≤ (differences first received).card + (differences received second).card :=
        Finset.card_union_le _ _
    _ ≤ n := by
        rw [differences_comm two.symm]
        omega

end Field

end AssistedDump.CyclicCode
