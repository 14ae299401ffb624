import AssistedDump.General.CSemantics
import AssistedDump.General.Patches
import AssistedDump.General.Machine
import Mathlib.Logic.Function.Basic

/-! # The rom store of heavylifting_main.c

`rom_data` is an array of `max_rom_size` cells of type `int16_t`: a cell holds a
byte or `ROM_BYTE_UNKNOWN`. Two bounds are kept beside it, every cell outside
them is unknown. `store_rom_fragment` writes one fragment and moves the bounds.
-/

namespace AssistedDump.RomStore

open CSemantics Machine

/-- A value `max_rom_size` can have: an `int` that is the length of an array. -/
abbrev MaxRomSize := { n : Nat // n < 2 ^ 31 }

def MaxRomSize.int (n : MaxRomSize) : Int32 := Int32.ofNat n.val

/-- The size `onRuntimeInitialized` of wrap_heavylifting_worker.js asks for. -/
def workerMaxRomSize : MaxRomSize := ⟨64 * 1024 * 1024, by decide⟩

theorem MaxRomSize.int_toInt (n : MaxRomSize) : n.int.toInt = n.val :=
  Int32.toInt_ofNat_of_lt n.property

def romByteUnknown : Int16 := -1

/-- A byte assigned to an `int16_t`. -/
def cell (b : UInt8) : Int16 := b.toUInt16.toInt16

/-- One line `store_rom_fragment` prints to stderr. -/
structure Mismatch where
  address : UInt32
  current : UInt8
  incoming : UInt8
  deriving Repr, DecidableEq

structure Store (n : MaxRomSize) where
  romData : Fin n.val → Int16
  romDataNotUnknownMin : Int32
  romDataNotUnknownMax : Int32
  stderr : List Mismatch

/-- What `heavylifting_init` leaves when the allocation succeeds. -/
def heavyliftingInit (n : MaxRomSize) : Store n where
  romData := fun _ => romByteUnknown
  romDataNotUnknownMin := n.int
  romDataNotUnknownMax := 0
  stderr := []

/-- `struct imgdec_response_rom_fragment`; `bytes` are the bytes that can be read
    from the flexible array at its end, documented to have length `n_bytes`. -/
structure RomFragment where
  offset : UInt32
  nBytes : Int32
  bytes : List UInt8
  deriving Repr, DecidableEq

namespace RomFragment

/-- `rom_frag->offset + rom_frag->n_bytes`, an unsigned sum. -/
def stop (frag : RomFragment) : UInt32 := frag.offset + frag.nBytes.toUInt32

/-- `rom_frag->offset + i`, an unsigned sum too. -/
def index (frag : RomFragment) (i : Nat) : UInt32 := frag.offset + UInt32.ofNat i

/-- The iterations of the store loop. -/
def count (frag : RomFragment) : Nat := frag.nBytes.toInt.toNat

end RomFragment

variable {n : MaxRomSize}

def readCell (index : UInt32) : C (Store n) Int16 := do
  let s ← get
  if h : index.toNat < n.val then pure (s.romData ⟨index.toNat, h⟩)
  else throw (.outOfBounds index.toNat)

def writeCell (index : UInt32) (value : Int16) : C (Store n) Unit :=
  if h : index.toNat < n.val then
    modify fun s => { s with romData := Function.update s.romData ⟨index.toNat, h⟩ value }
  else throw (.outOfBounds index.toNat)

/-- The body of the store loop. A mismatch is printed and overwritten. -/
def storeByte (frag : RomFragment) (i : Nat) : C (Store n) Unit := do
  let current ← readCell (frag.index i)
  if current ≠ romByteUnknown then
    let incoming ← readAt frag.bytes i
    if current.toInt ≠ incoming.toNat then
      modify fun s => { s with
        stderr := s.stderr ++ [⟨frag.index i, current.toInt8.toUInt8, incoming⟩] }
  let incoming ← readAt frag.bytes i
  writeCell (frag.index i) (cell incoming)

def storeRomFragment (frag : RomFragment) : C (Store n) Unit := do
  assert "rom_frag->n_bytes > 0" (frag.nBytes > 0)
  assert "rom_frag->offset + rom_frag->n_bytes <= max_rom_size" (frag.stop ≤ n.int.toUInt32)
  if frag.offset < (← get).romDataNotUnknownMin.toUInt32 then
    modify fun s => { s with romDataNotUnknownMin := frag.offset.toInt32 }
  if (← get).romDataNotUnknownMax.toUInt32 < frag.stop then
    modify fun s => { s with romDataNotUnknownMax := frag.stop.toInt32 }
  forLoop (storeByte frag) frag.count

/-! ## The guard -/

/-- Both assertions at the top of `store_rom_fragment` pass. -/
def Passes (n : MaxRomSize) (frag : RomFragment) : Prop :=
  frag.nBytes > 0 ∧ frag.stop ≤ n.int.toUInt32

instance (n : MaxRomSize) (frag : RomFragment) : Decidable (Passes n frag) :=
  inferInstanceAs (Decidable (_ ∧ _))

/-- The bounds `store_rom_fragment` has set when it enters its loop. -/
def bounded (frag : RomFragment) (s : Store n) : Store n :=
  { s with
    romDataNotUnknownMin :=
      if frag.offset < s.romDataNotUnknownMin.toUInt32 then frag.offset.toInt32
      else s.romDataNotUnknownMin
    romDataNotUnknownMax :=
      if s.romDataNotUnknownMax.toUInt32 < frag.stop then frag.stop.toInt32
      else s.romDataNotUnknownMax }

theorem storeRomFragment_passes {frag : RomFragment} (h : Passes n frag) (s : Store n) :
    (storeRomFragment frag).run s = (forLoop (storeByte frag) frag.count).run (bounded frag s) := by
  by_cases low : frag.offset < s.romDataNotUnknownMin.toUInt32 <;>
    by_cases high : s.romDataNotUnknownMax.toUInt32 < frag.stop <;>
      simp [storeRomFragment, bounded, h.1, h.2, low, high]

/-- A failing assertion is the only thing that happens: nothing is stored before. -/
theorem storeRomFragment_rejects {frag : RomFragment} (h : ¬ Passes n frag) (s : Store n) :
    ∃ text, (storeRomFragment frag).run s = .error (.assertion text) s := by
  by_cases positive : frag.nBytes > 0
  · have beyond : ¬ frag.stop ≤ n.int.toUInt32 := fun fits => h ⟨positive, fits⟩
    refine ⟨"rom_frag->offset + rom_frag->n_bytes <= max_rom_size", ?_⟩
    simp only [storeRomFragment, EStateM.run_bind, assert_holds positive, assert_fails beyond]
  · refine ⟨"rom_frag->n_bytes > 0", ?_⟩
    simp only [storeRomFragment, EStateM.run_bind, assert_fails positive]

theorem size_toNat (n : MaxRomSize) : n.int.toUInt32.toNat = n.val := by
  have := toUInt32_toNat (a := n.int) (by rw [n.int_toInt]; omega)
  rw [n.int_toInt] at this
  omega

theorem count_pos {frag : RomFragment} : frag.nBytes > 0 ↔ 0 < frag.count := by
  rw [gt_iff_lt, Int32.lt_iff_toInt_lt, RomFragment.count, Int32.toInt_zero]
  omega

theorem RomFragment.index_toNat (frag : RomFragment) (i : Nat) :
    (frag.index i).toNat = (frag.offset.toNat + i) % 2 ^ 32 := by
  simp [RomFragment.index, UInt32.toNat_add]

/-- The unsigned sum of the guard wraps at 2^32. -/
theorem RomFragment.stop_toNat {frag : RomFragment} (positive : frag.nBytes > 0) :
    frag.stop.toNat = (frag.offset.toNat + frag.count) % 2 ^ 32 := by
  have value := toUInt32_toNat (a := frag.nBytes)
    (by have := count_pos.mp positive; simp only [RomFragment.count] at this; omega)
  rw [RomFragment.stop, UInt32.toNat_add, RomFragment.count, ← value, Int.toNat_natCast]

theorem count_lt (frag : RomFragment) : frag.count < 2 ^ 31 := by
  have := (int_range frag.nBytes).2
  simp only [RomFragment.count]
  omega

theorem bounded_min (frag : RomFragment) {s : Store n} (nonneg : 0 ≤ s.romDataNotUnknownMin.toInt)
    (small : frag.offset.toNat < 2 ^ 31) :
    0 ≤ (bounded frag s).romDataNotUnknownMin.toInt ∧
      (bounded frag s).romDataNotUnknownMin.toInt.toNat =
        if frag.offset.toNat < s.romDataNotUnknownMin.toInt.toNat then frag.offset.toNat
        else s.romDataNotUnknownMin.toInt.toNat := by
  have value := toUInt32_toNat nonneg
  have offset := toInt32_toInt small
  have guard : frag.offset < s.romDataNotUnknownMin.toUInt32 ↔
      frag.offset.toNat < s.romDataNotUnknownMin.toInt.toNat := by
    rw [UInt32.lt_iff_toNat_lt]
    omega
  by_cases less : frag.offset.toNat < s.romDataNotUnknownMin.toInt.toNat
  · simp only [bounded, if_pos (guard.mpr less), if_pos less, offset]
    omega
  · simp only [bounded, if_neg (guard.not.mpr less), if_neg less]
    exact ⟨nonneg, trivial⟩

theorem bounded_max (frag : RomFragment) {s : Store n} (nonneg : 0 ≤ s.romDataNotUnknownMax.toInt)
    (small : frag.stop.toNat < 2 ^ 31) :
    0 ≤ (bounded frag s).romDataNotUnknownMax.toInt ∧
      (bounded frag s).romDataNotUnknownMax.toInt.toNat =
        if s.romDataNotUnknownMax.toInt.toNat < frag.stop.toNat then frag.stop.toNat
        else s.romDataNotUnknownMax.toInt.toNat := by
  have value := toUInt32_toNat nonneg
  have stop := toInt32_toInt small
  have guard : s.romDataNotUnknownMax.toUInt32 < frag.stop ↔
      s.romDataNotUnknownMax.toInt.toNat < frag.stop.toNat := by
    rw [UInt32.lt_iff_toNat_lt]
    omega
  by_cases less : s.romDataNotUnknownMax.toInt.toNat < frag.stop.toNat
  · simp only [bounded, if_pos (guard.mpr less), if_pos less, stop]
    omega
  · simp only [bounded, if_neg (guard.not.mpr less), if_neg less]
    exact ⟨nonneg, trivial⟩

/-! ## The loop -/

theorem storeByte_out {frag : RomFragment} {i : Nat} (out : ¬ (frag.index i).toNat < n.val)
    (s : Store n) :
    (storeByte frag i).run s = .error (.outOfBounds (frag.index i).toNat) s := by
  simp only [storeByte, readCell, EStateM.run_bind, EStateM.run_get, dif_neg out, throw_run]

/-- One iteration inside the array stores the byte; only stderr depends on the
    cell that was there. -/
theorem storeByte_in {frag : RomFragment} {i : Nat} {b : UInt8}
    (inside : (frag.index i).toNat < n.val) (byte : frag.bytes[i]? = some b) (s : Store n) :
    ∃ log, (storeByte frag i).run s = .ok () { s with
      romData := Function.update s.romData ⟨(frag.index i).toNat, inside⟩ (cell b)
      stderr := log } := by
  have incoming := fun t : Store n => readAt_present byte t
  by_cases known : s.romData ⟨(frag.index i).toNat, inside⟩ = romByteUnknown
  · exact ⟨s.stderr, by simp [storeByte, readCell, writeCell, inside, known, incoming]⟩
  · by_cases same : (s.romData ⟨(frag.index i).toNat, inside⟩).toInt = b.toNat
    · exact ⟨s.stderr, by simp [storeByte, readCell, writeCell, inside, known, incoming, same]⟩
    · exact ⟨_, by simp [storeByte, readCell, writeCell, inside, known, incoming, same]; rfl⟩

/-- An iteration whose byte cannot be read stores nothing. -/
theorem storeByte_short {frag : RomFragment} {i : Nat} (short : frag.bytes[i]? = none)
    (s : Store n) : after (storeByte frag i) s = s := by
  have missing := fun t : Store n => readAt_absent (List.getElem?_eq_none_iff.mp short) t
  by_cases inside : (frag.index i).toNat < n.val
  · apply after_error (e := .outOfBounds i)
    by_cases known : s.romData ⟨(frag.index i).toNat, inside⟩ = romByteUnknown
    · simp [storeByte, readCell, inside, known, missing]
    · simp [storeByte, readCell, inside, known, missing]
  · exact after_error (storeByte_out inside s)

end AssistedDump.RomStore
