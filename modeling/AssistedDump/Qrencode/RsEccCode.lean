import AssistedDump.General.CyclicCode
import AssistedDump.Qrencode.GaloisField

/-! # The code of rsecc.c

Over the field of the tables the encoder is a division register for the polynomial
with the first powers of two as its roots.
-/

namespace AssistedDump.RsEcc

open CyclicCode GF256

/-- The field elements of a list of bytes. -/
def word (bytes : List UInt8) : List GF256 := bytes.map GF256.mk

@[simp] theorem word_length (bytes : List UInt8) : (word bytes).length = bytes.length :=
  List.length_map _

theorem word_append (front back : List UInt8) : word (front ++ back) = word front ++ word back :=
  List.map_append

/-- A product read off the tables, for a factor that is not zero. -/
theorem power_mul_mk {x : UInt8} (nonzero : x ≠ 0) (k : Nat) :
    power k * ⟨x⟩ = ⟨alpha ((aindex x + k) % symbols)⟩ := by
  have other : (⟨x⟩ : GF256) ≠ 0 := fun zero => nonzero (congrArg toByte zero)
  nth_rewrite 1 [← power_aindex other]
  rw [power_mul_power, Nat.add_comm]
  rfl

theorem mk_mul_mk {x y : UInt8} (nonzero : y ≠ 0) :
    (⟨x⟩ : GF256) * ⟨y⟩ =
      ⟨if aindex x ≠ symbols then alpha ((aindex x + aindex y) % symbols) else 0⟩ := by
  by_cases zero : x = 0
  · subst zero
    rw [if_neg (not_not.mpr aindex_zero)]
    exact zero_mul _
  · have other : (⟨x⟩ : GF256) ≠ 0 := fun none => zero (congrArg toByte none)
    rw [if_pos (aindex_lt zero).ne, Nat.add_comm, ← power_mul_mk nonzero]
    exact congrArg (· * _) (power_aindex other).symm

/-! ## The generator polynomial -/

theorem generatorPolynomial_succ (i : Nat) :
    generatorPolynomial (i + 1) = generatorStep (generatorPolynomial i) i := by
  rw [generatorPolynomial, List.range_succ, List.foldl_append]
  rfl

theorem generatorPolynomial_length (i : Nat) : (generatorPolynomial i).length = i + 1 := by
  cases i with
  | zero => rfl
  | succ i => simp [generatorPolynomial_succ, generatorStep]

/-- A pass of `generator_init` is a product with `x - 2^i`. -/
theorem generatorStep_timesRoot {g : List UInt8} {i : Nat} (length : g.length = i + 1)
    (monic : g.getD i 0 = 1) (nonzero : 0 ∉ g) :
    word (generatorStep g i).reverse = timesRoot (power i) (word g.reverse) := by
  have coefficient {j : Nat} (inside : j < g.length) :
      power i * ⟨g[j]⟩ = ⟨alpha ((aindex g[j] + i) % symbols)⟩ :=
    power_mul_mk (fun zero => nonzero (zero ▸ List.getElem_mem inside)) i
  have sized : (generatorStep g i).length = i + 2 := by simp [generatorStep]
  have top : g[i] = 1 := by simpa [length] using monic
  apply List.ext_getElem (by simp [timesRoot, sized, length])
  intro k inLeft _
  have inside : k < i + 2 := by simpa [sized] using inLeft
  obtain first | last | between : k = 0 ∨ k = i + 1 ∨ (1 ≤ k ∧ k ≤ i) := by omega
  · subst first
    simp [word, timesRoot, generatorStep, length, top]
  · subst last
    simp [word, timesRoot, generatorStep, length, neg_eq, coefficient]
  · obtain ⟨j, rfl⟩ : ∃ j, k = j + 1 := ⟨k - 1, by omega⟩
    have before : i - j - 1 < g.length := by omega
    have other : ¬ i - j = i + 1 := by omega
    have positive : ¬ i - j = 0 := by omega
    simp [word, timesRoot, generatorStep, length, between, neg_eq, coefficient, other, positive]
    rw [List.getElem?_eq_getElem before]
    rfl

/-- The generator polynomial is the monic one with the first powers of two as its roots. -/
theorem generatorPolynomial_withRoots {i : Nat} (inTable : i ≤ maxLength) :
    word (generatorPolynomial i).reverse = withRoots ((List.range i).map power) := by
  induction i with
  | zero => rfl
  | succ i ih =>
      have before := ih (by omega)
      obtain ⟨taps, shape, _⟩ := withRoots_monic ((List.range i).map power)
      have length := generatorPolynomial_length i
      have monic : (generatorPolynomial i).getD i 0 = 1 := by
        have head := congrArg List.head? (before.trans shape)
        simp [word, List.head?_reverse, List.getLast?_eq_getElem?, length] at head
        rw [List.getD_eq_getElem?_getD, List.getElem?_eq_getElem (by omega), Option.getD_some]
        exact congrArg toByte head
      rw [generatorPolynomial_succ,
        generatorStep_timesRoot length monic (generatorPolynomial_nonzero (by omega)), before,
        List.range_succ, List.map_append, withRoots, withRoots, List.foldl_append]
      rfl

/-! ## The encoder -/

/-- A pass over the data is one input of the division register. -/
theorem encodeStep_feed {g ecc : List UInt8} (length : g.length = ecc.length + 1) (nonzero : 0 ∉ g)
    (some : ecc ≠ []) (x : UInt8) :
    word (encodeStep (g.map aindex) ecc.length ecc x) =
      feed (word g.reverse).tail (word ecc) ⟨x⟩ := by
  cases ecc with
  | nil => exact absurd rfl some
  | cons head tail =>
      have product {j : Nat} (inside : j < g.length) :
          (⟨x⟩ - ⟨head⟩) * (⟨g[j]⟩ : GF256) =
            ⟨if aindex (x ^^^ head) ≠ symbols then
              alpha ((aindex (x ^^^ head) + aindex g[j]) % symbols) else 0⟩ := by
        rw [sub_eq]
        exact mk_mul_mk fun zero => nonzero (zero ▸ List.getElem_mem inside)
      have sized : g.length = tail.length + 2 := length
      apply List.ext_getElem
      · simp [encodeStep, feed, sized]
        split <;> simp
      intro k inLeft inRight
      have inside : k < tail.length + 1 := by simpa [feed, sized] using inRight
      by_cases zero : aindex (x ^^^ head) = symbols
      · simp [encodeStep, feed, word, sized, zero, product]
        exact (add_zero _).symm
      · by_cases before : k < tail.length
        · have below : tail.length - k < g.length := by omega
          simp [encodeStep, feed, word, sized, zero, before, product]
          rw [List.getElem?_eq_getElem below]
          rfl
        · obtain rfl : k = tail.length := by omega
          simp [encodeStep, feed, word, sized, zero, product]

/-- The coefficients of the generator polynomial below its leading one. -/
def taps (eccLength : Nat) : List GF256 := (word (generatorPolynomial eccLength).reverse).tail

theorem taps_length (eccLength : Nat) : (taps eccLength).length = eccLength := by
  simp [taps, generatorPolynomial_length]

theorem taps_nonempty {eccLength : Nat} (positive : 0 < eccLength) : taps eccLength ≠ [] := by
  rw [← List.length_pos_iff, taps_length]
  exact positive

theorem taps_root {eccLength i : Nat} (inTable : eccLength ≤ maxLength) (below : i < eccLength) :
    value (power i) (1 :: taps eccLength) = 0 := by
  obtain ⟨rest, shape, _⟩ := withRoots_monic ((List.range eccLength).map power)
  rw [taps, generatorPolynomial_withRoots inTable, shape, List.tail_cons, ← shape]
  apply value_withRoots_eq_zero
  exact List.mem_map.mpr ⟨i, List.mem_range.mpr below, rfl⟩

/-- The loop over the data runs the division register. -/
theorem encode_loop {eccLength : Nat} (low : minLength ≤ eccLength) (high : eccLength ≤ maxLength)
    (data : List UInt8) {ecc : List UInt8} (sized : ecc.length = eccLength) :
    (data.foldl (encodeStep (generator eccLength) eccLength) ecc).length = eccLength ∧
      word (data.foldl (encodeStep (generator eccLength) eccLength) ecc) =
        (word data).foldl (feed (taps eccLength)) (word ecc) := by
  have positive : 0 < eccLength := lt_of_lt_of_le (by decide) low
  have length := generatorPolynomial_length eccLength
  have tapped := taps_nonempty positive
  induction data generalizing ecc with
  | nil => exact ⟨sized, rfl⟩
  | cons x data ih =>
      have filled : ecc ≠ [] := List.length_pos_iff.mp (sized ▸ positive)
      have step := encodeStep_feed (by omega) (generatorPolynomial_nonzero high) filled x
      rw [sized] at step
      have next : (encodeStep (generator eccLength) eccLength ecc x).length = eccLength := by
        rw [← word_length, generator, step]
        exact (feed_length _ tapped (by simp [sized, taps_length])).trans (taps_length eccLength)
      obtain ⟨kept, equal⟩ := ih next
      exact ⟨kept, equal.trans (congrArg (List.foldl _ · _) step)⟩

/-- The check bytes are the check symbols of the division register. -/
theorem encode_checks {eccLength : Nat} {data ecc : List UInt8}
    (encoded : encode eccLength data = some ecc) :
    minLength ≤ eccLength ∧ eccLength ≤ maxLength ∧ ecc.length = eccLength ∧
      word ecc = checks (taps eccLength) (word data) := by
  simp only [encode, Option.ite_none_right_eq_some, Option.some.injEq] at encoded
  obtain ⟨⟨low, high⟩, rfl⟩ := encoded
  obtain ⟨sized, equal⟩ := encode_loop low high data List.length_replicate
  refine ⟨low, high, sized, ?_⟩
  rw [equal, checks, taps_length, word, word, List.map_replicate]
  rfl

/-- A message and its check bytes vanish at the first powers of two. -/
theorem encode_codeword {eccLength : Nat} {data ecc : List UInt8}
    (encoded : encode eccLength data = some ecc) :
    Codeword (power 1) eccLength (word (data ++ ecc)) := by
  obtain ⟨low, high, _, equal⟩ := encode_checks encoded
  intro i below
  have tapped := taps_nonempty (Nat.zero_lt_of_lt below)
  rw [← power_eq_pow, word_append, equal]
  exact value_checks (taps_root high below) tapped _

/-! ## The decoder's check -/

theorem syndromeStep_value (i : Nat) (s x : UInt8) :
    (⟨syndromeStep i s x⟩ : GF256) = ⟨s⟩ * power i + ⟨x⟩ := by
  by_cases zero : s = 0
  · subst zero
    rw [syndromeStep, if_pos rfl]
    exact ((congrArg (· + _) (zero_mul _)).trans (zero_add _)).symm
  · rw [syndromeStep, if_neg zero, UInt8.xor_comm, mul_comm, power_mul_mk zero]
    rfl

theorem foldl_syndromeStep (i : Nat) (s : UInt8) (bytes : List UInt8) :
    (⟨bytes.foldl (syndromeStep i) s⟩ : GF256) =
      (word bytes).foldl (fun acc c => acc * power i + c) ⟨s⟩ := by
  induction bytes generalizing s with
  | nil => rfl
  | cons x bytes ih =>
      rw [List.foldl_cons, ih, syndromeStep_value]
      rfl

theorem syndrome_value {data : List UInt8} (filled : data ≠ []) (ecc : List UInt8) (i : Nat) :
    (⟨syndrome i data ecc⟩ : GF256) = value (power i) (word (data ++ ecc)) := by
  obtain ⟨x, data, rfl⟩ := List.exists_cons_of_ne_nil filled
  rw [syndrome, foldl_syndromeStep, foldl_syndromeStep, ← List.foldl_append, ← word_append]
  exact congrArg (List.foldl _ · _) ((zero_add _).symm.trans (congrArg (· + _) (zero_mul _).symm))

/-- The check accepts the codewords and nothing else. -/
theorem checkSyndrome_eq_zero_iff {data : List UInt8} (filled : data ≠ []) (ecc : List UInt8) :
    checkSyndrome data ecc = 0 ↔ Codeword (power 1) ecc.length (word (data ++ ecc)) := by
  have codeword : Codeword (power 1) ecc.length (word (data ++ ecc)) ↔
      ¬ ∃ i < ecc.length, syndrome i data ecc ≠ 0 := by
    simp only [Codeword, ← power_eq_pow, ← syndrome_value filled, not_exists, not_and, not_not]
    exact forall₂_congr fun i _ => toByte_eq_zero_iff.symm
  rw [codeword, checkSyndrome]
  split
  · simp_all
  · simp_all

/-- The decoder accepts what the encoder appends to a message. -/
theorem checkSyndrome_encode {eccLength : Nat} {data ecc : List UInt8} (filled : data ≠ [])
    (encoded : encode eccLength data = some ecc) : checkSyndrome data ecc = 0 := by
  rw [checkSyndrome_eq_zero_iff filled, (encode_checks encoded).2.2.1]
  exact encode_codeword encoded

/-! ## Distance -/

theorem mk_injective : Function.Injective GF256.mk := fun _ _ equal => congrArg toByte equal

theorem word_injective : Function.Injective word := List.map_injective_iff.mpr mk_injective

/-- The powers of two tell the places of a word from one another. -/
theorem places_distinct {length : Nat} (short : length ≤ symbols) :
    Set.InjOn (fun i => power 1 ^ i) (Set.Iio length) := by
  simp only [← power_eq_pow]
  exact power_injOn.mono (Set.Iio_subset_Iio short)

/-- Whatever the message is, the check bytes of the encoder are the only ones the decoder accepts. -/
theorem checkSyndrome_iff_encode {eccLength : Nat} (low : minLength ≤ eccLength)
    (high : eccLength ≤ maxLength) {data ecc : List UInt8} (filled : data ≠ [])
    (sized : ecc.length = eccLength) :
    checkSyndrome data ecc = 0 ↔ encode eccLength data = some ecc := by
  refine ⟨fun accepted => ?_, checkSyndrome_encode filled⟩
  obtain ⟨own, encoded⟩ : ∃ own, encode eccLength data = some own := ⟨_, if_pos ⟨low, high⟩⟩
  have ownSized := (encode_checks encoded).2.2.1
  have inTable : (word ecc).length ≤ symbols := by
    rw [word_length, sized]
    exact high.trans (by decide)
  have ownCodeword := encode_codeword encoded
  rw [checkSyndrome_eq_zero_iff filled, sized] at accepted
  rw [word_append] at accepted ownCodeword
  have equal := accepted.eq_of_front (by simp [sized, ownSized]) (by simp [sized])
    (places_distinct inTable) ownCodeword
  rw [encoded, word_injective equal]

/-- Two check bytes that are accepted, and two that are not. -/
theorem checkSyndrome_iff_encode_twoBytes :
    checkSyndrome [0x12, 0x34] [0x22, 0x04] = 0 ∧ checkSyndrome [0x12, 0x34] [0x56, 0x78] ≠ 0 := by
  have own : encode 2 [0x12, 0x34] = some [0x22, 0x04] := by decide +kernel
  have accepted : checkSyndrome [0x12, 0x34] [0x22, 0x04] = 0 ↔
      encode 2 [0x12, 0x34] = some [0x22, 0x04] :=
    checkSyndrome_iff_encode (by decide) (by decide) (by decide) rfl
  have rejected : checkSyndrome [0x12, 0x34] [0x56, 0x78] = 0 ↔
      encode 2 [0x12, 0x34] = some [0x56, 0x78] :=
    checkSyndrome_iff_encode (by decide) (by decide) (by decide) rfl
  rw [own] at accepted rejected
  exact ⟨accepted.mpr rfl, fun zero => absurd (rejected.mp zero) (by decide)⟩

/-- However up to half of `eccLength` bytes of a message and its check bytes are changed, no other
    word the decoder accepts is as near to the result. -/
theorem encode_nearest {eccLength : Nat} {data ecc : List UInt8}
    (encoded : encode eccLength data = some ecc) (short : data.length + eccLength ≤ symbols)
    {received : List UInt8} (whole : received.length = data.length + eccLength)
    (damage : 2 * (differences (data ++ ecc) received).card ≤ eccLength)
    {data' ecc' : List UInt8} (filled : data' ≠ []) (same : data'.length = data.length)
    (sized : ecc'.length = eccLength) (accepted : checkSyndrome data' ecc' = 0)
    (nearby : 2 * (differences (data' ++ ecc') received).card ≤ eccLength) :
    data' = data ∧ ecc' = ecc := by
  have ownSized := (encode_checks encoded).2.2.1
  rw [checkSyndrome_eq_zero_iff filled, sized] at accepted
  have equal : word (data' ++ ecc') = word (data ++ ecc) := by
    apply accepted.eq_of_near (t := eccLength / 2)
      (show (word (data' ++ ecc')).length = (word received).length by simp [whole, same, sized])
    · simp [whole, ownSized]
    · exact places_distinct (by simpa [same, sized] using short)
    · exact encode_codeword encoded
    · omega
    · rw [word, word, differences_map mk_injective]
      omega
    · rw [word, word, differences_map mk_injective]
      omega
  exact List.append_inj (word_injective equal) same

end AssistedDump.RsEcc
