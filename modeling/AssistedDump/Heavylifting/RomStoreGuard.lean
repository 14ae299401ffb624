import AssistedDump.Heavylifting.ImageDecoder
import AssistedDump.Heavylifting.RomStoreContents

/-! # What the assertions of the rom store protect

The second assertion compares an unsigned sum with `max_rom_size`. It keeps the
store loop inside the array exactly when the sum does not wrap at 2^32. On the
way from a QR payload to the store, the assertions reject some payloads a camera
can see, and a rejected payload stops the module: the payloads that never do are
those with at least one rom byte whose fragment ends inside the array.
-/

namespace AssistedDump.RomStore

open CSemantics Machine

variable {n : MaxRomSize}

/-- The comment on `rom_data_not_unknown_min` and `rom_data_not_unknown_max`. -/
def Documented (s : Store n) : Prop :=
  ∀ i : Fin n.val,
    ¬ (s.romDataNotUnknownMin.toInt ≤ i.val ∧ i.val < s.romDataNotUnknownMax.toInt) →
    s.romData i = romByteUnknown

/-- The bounds stay and only cells an iteration below `k` names may change. -/
structure Framed (frag : RomFragment) (k : Nat) (s t : Store n) : Prop where
  min : t.romDataNotUnknownMin = s.romDataNotUnknownMin
  max : t.romDataNotUnknownMax = s.romDataNotUnknownMax
  cells : ∀ j : Fin n.val, (∀ i < k, (frag.index i).toNat ≠ j) → t.romData j = s.romData j

theorem storeByte_frame (frag : RomFragment) {i k : Nat} (before : i < k) (s : Store n) :
    Framed frag k s (after (storeByte frag i) s) := by
  by_cases inside : (frag.index i).toNat < n.val
  · cases byte : frag.bytes[i]? with
    | none =>
        rw [storeByte_short byte s]
        exact ⟨rfl, rfl, fun _ _ => rfl⟩
    | some b =>
        obtain ⟨log, stored⟩ := storeByte_in inside byte s
        rw [after_ok stored]
        refine ⟨rfl, rfl, fun j apart => Function.update_of_ne ?_ _ _⟩
        rintro rfl
        exact apart i before rfl
  · rw [after_error (storeByte_out inside s)]
    exact ⟨rfl, rfl, fun _ _ => rfl⟩

theorem Framed.trans {frag : RomFragment} {k : Nat} {s t u : Store n} (first : Framed frag k s t)
    (second : Framed frag k t u) : Framed frag k s u where
  min := second.min.trans first.min
  max := second.max.trans first.max
  cells j apart := (second.cells j apart).trans (first.cells j apart)

/-- Even where the loop stops early, it only changes cells its fragment names. -/
theorem storeLoop_frame (frag : RomFragment) (s : Store n) :
    Framed frag frag.count s (after (forLoop (storeByte frag) frag.count) s) :=
  forLoop_keeps (I := Framed frag frag.count s) ⟨rfl, rfl, fun _ _ => rfl⟩
    fun _ before t framed => framed.trans (storeByte_frame frag before t)

/-! ## Wrapping sums -/

/-- The assertions pass although the exact sum does not fit in 32 bits. -/
def Wraps (n : MaxRomSize) (frag : RomFragment) : Prop :=
  Passes n frag ∧ 2 ^ 32 ≤ frag.offset.toNat + frag.count

theorem Wraps.escapes {frag : RomFragment} (h : Wraps n frag) :
    0 < frag.count ∧ ¬ (frag.index 0).toNat < n.val := by
  have count := count_lt frag
  have positive := count_pos.mp h.1.1
  have wide := h.2
  have room := n.property
  have offset := frag.offset.toNat_lt
  rw [frag.index_toNat]
  omega

/-- Without a wrap the guard is the exact comparison. -/
theorem Passes.exact {frag : RomFragment} (h : Passes n frag) (unwrapped : ¬ Wraps n frag) :
    frag.stop.toNat = frag.offset.toNat + frag.count ∧
      frag.offset.toNat + frag.count ≤ n.val := by
  have narrow : frag.offset.toNat + frag.count < 2 ^ 32 :=
    Nat.lt_of_not_le fun wide => unwrapped ⟨h, wide⟩
  have guard := UInt32.le_iff_toNat_le.mp h.2
  rw [size_toNat, RomFragment.stop_toNat h.1] at guard
  rw [RomFragment.stop_toNat h.1]
  omega

/-- Only fragments whose assertions pass without a wrap are stored. -/
theorem stored_exact {frag : RomFragment} {s t : Store n}
    (stored : (storeRomFragment frag).run s = .ok () t) : Passes n frag ∧ ¬ Wraps n frag := by
  by_cases passes : Passes n frag
  · refine ⟨passes, fun wraps => ?_⟩
    obtain ⟨positive, out⟩ := wraps.escapes
    obtain ⟨k, count⟩ := Nat.exists_eq_add_of_lt positive
    rw [storeRomFragment_passes passes, count, Nat.zero_add, forLoop_stops (storeByte_out out _)] at stored
    cases stored
  · obtain ⟨text, rejected⟩ := storeRomFragment_rejects passes s
    rw [rejected] at stored
    cases stored

/-! ## The invariant of the bounds -/

/-- The bounds are positions and the comment on them is true. -/
structure Inv (s : Store n) : Prop where
  minNonneg : 0 ≤ s.romDataNotUnknownMin.toInt
  maxNonneg : 0 ≤ s.romDataNotUnknownMax.toInt
  documented : Documented s

theorem inv_init (n : MaxRomSize) : Inv (heavyliftingInit n) where
  minNonneg := (represents_init n).minNonneg
  maxNonneg := (represents_init n).maxNonneg
  documented _ _ := rfl

/-- The step lemma: whatever the bytes are, a fragment that passes without a wrap
    keeps the invariant, even where its bytes run out in the middle of the loop. -/
theorem inv_after {frag : RomFragment} {s : Store n} (h : Inv s) (passes : Passes n frag)
    (unwrapped : ¬ Wraps n frag) : Inv (after (storeRomFragment frag) s) := by
  obtain ⟨stop, inside⟩ := passes.exact unwrapped
  have room := n.property
  obtain ⟨minNonneg, minEq⟩ := bounded_min frag h.minNonneg (by omega)
  obtain ⟨maxNonneg, maxEq⟩ := bounded_max frag h.maxNonneg (by omega)
  have frame := storeLoop_frame frag (bounded frag s)
  rw [after_congr (storeRomFragment_passes passes s)]
  refine ⟨by rw [frame.min]; exact minNonneg, by rw [frame.max]; exact maxNonneg, ?_⟩
  intro j out
  rw [frame.min, frame.max] at out
  have minNonneg' := h.minNonneg
  have maxNonneg' := h.maxNonneg
  rw [frame.cells j]
  · apply h.documented j
    intro within
    apply out
    constructor
    · split at minEq <;> omega
    · split at maxEq <;> omega
  · intro i before index
    rw [frag.index_toNat] at index
    apply out
    constructor
    · split at minEq <;> omega
    · split at maxEq <;> omega

theorem inv_reaches {frags : List RomFragment} {s : Store n}
    (run : Reaches storeRomFragment (heavyliftingInit n) frags s) : Inv s := by
  apply run.invariant (inv_init n)
  intro s frag t inv stored
  obtain ⟨passes, unwrapped⟩ := stored_exact stored
  have next := inv_after inv passes unwrapped
  rwa [after_ok stored] at next

/-- The guard is sound for a fragment: if both assertions pass, the loop names only
    cells of the array and the call leaves the bounds as documented. -/
def GuardSound (s : Store n) (frag : RomFragment) : Prop :=
  Passes n frag →
    (∀ i < frag.count, (frag.index i).toNat < n.val) ∧ Documented (after (storeRomFragment frag) s)

/-- In every reachable state the guard is sound exactly for the fragments whose sum
    does not wrap past it. -/
theorem guardSound_iff (n : MaxRomSize) (frags : List RomFragment) (s : Store n)
    (run : Reaches storeRomFragment (heavyliftingInit n) frags s) (frag : RomFragment) :
    GuardSound s frag ↔ ¬ Wraps n frag := by
  constructor
  · intro sound wraps
    obtain ⟨positive, out⟩ := wraps.escapes
    exact out ((sound wraps.1).1 0 positive)
  · intro unwrapped passes
    obtain ⟨stop, inside⟩ := passes.exact unwrapped
    have room := n.property
    refine ⟨fun i before => ?_, (inv_after (inv_reaches run) passes unwrapped).documented⟩
    rw [frag.index_toNat]
    omega

/-- The fragment of the six-byte payload `00 FF FF FF FF AB` passes both assertions
    and its loop starts 4 GiB into an array of 64 MiB. -/
theorem guard_wraps_at_ffffffff :
    Reaches storeRomFragment (heavyliftingInit workerMaxRomSize) []
        (heavyliftingInit workerMaxRomSize) ∧
      ImageDecoder.fragmentOf [0x00, 0xFF, 0xFF, 0xFF, 0xFF, 0xAB] = ⟨0xFFFFFFFF, 1, [0xAB]⟩ ∧
      Passes workerMaxRomSize ⟨0xFFFFFFFF, 1, [0xAB]⟩ ∧
      ¬ GuardSound (heavyliftingInit workerMaxRomSize) ⟨0xFFFFFFFF, 1, [0xAB]⟩ := by
  have passes : Passes workerMaxRomSize ⟨0xFFFFFFFF, 1, [0xAB]⟩ := by decide
  refine ⟨.refl, by decide, passes, fun sound => ?_⟩
  have inside := (sound passes).1 0 (by decide)
  exact absurd inside (by decide)

/-- A store of eight cells after one fragment, and a fragment that overlaps it. -/
theorem guardSound_iff_overlap :
    GuardSound (after (storeRomFragment ⟨1, 2, [7, 9]⟩) (heavyliftingInit ⟨8, by decide⟩))
        ⟨2, 3, [9, 8, 8]⟩ ↔
      ¬ Wraps ⟨8, by decide⟩ ⟨2, 3, [9, 8, 8]⟩ :=
  guardSound_iff ⟨8, by decide⟩ [⟨1, 2, [7, 9]⟩] _ (.step rfl .refl) _

end AssistedDump.RomStore

namespace AssistedDump.ImageDecoder

open CSemantics Machine RomStore

variable {n : MaxRomSize}

/-! ## Payloads the decoder survives -/

/-- A payload that is processed without a fault has a rom byte and ends inside the array. -/
theorem processImage_bound {payload : List UInt8} (short : payload.length ≤ 10000) {s t : Store n}
    (run : (processImage [payload]).run s = .ok () t) :
    6 ≤ payload.length ∧ (headerOffset payload).toNat + (payload.length - 5) ≤ n.val := by
  by_cases header : payload.length < 5
  · rw [processImage_short header] at run
    cases run
  · rw [processImage_payload (by omega) short] at run
    obtain ⟨passes, unwrapped⟩ := stored_exact run
    obtain ⟨-, inside⟩ := passes.exact unwrapped
    have positive := count_pos.mp passes.1
    have count := fragmentOf_count short
    simp only [RomFragment.count, count] at positive inside
    change (headerOffset payload).toNat + _ ≤ _ at inside
    omega

end AssistedDump.ImageDecoder
