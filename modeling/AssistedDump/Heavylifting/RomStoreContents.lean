import AssistedDump.Heavylifting.RomStore

/-! # What the rom store contains

The history of stored fragments is a list of patches. `Represents` says that a
store is the overlay of its history and that its bounds are the span of it; each
call of `store_rom_fragment` with a fragment that fits keeps this, so the
contents after any sequence of fragments are those of the overlay.
-/

namespace AssistedDump.RomStore

open CSemantics Machine

variable {n : MaxRomSize}

/-- The cell of a position whose last stored byte is given. -/
def cellOf : Option UInt8 → Int16
  | some b => cell b
  | none => romByteUnknown

theorem cell_toInt (b : UInt8) : (cell b).toInt = b.toNat := by
  have small := b.toNat_lt
  have same : cell b = Int16.ofNat b.toNat := by
    rw [cell, ← UInt16.toInt16_ofNat', ← UInt8.toNat_toUInt16, UInt16.ofNat_toNat]
  rw [same, Int16.toInt_ofNat_of_lt (by omega)]

/-- No byte collides with the sentinel, 0xFF does not either. -/
theorem cell_ne_unknown (b : UInt8) : cell b ≠ romByteUnknown := by
  intro same
  have value := congrArg Int16.toInt same
  rw [cell_toInt] at value
  have sentinel : romByteUnknown.toInt = -1 := by decide
  omega

theorem cellOf_eq_unknown_iff {o : Option UInt8} : cellOf o = romByteUnknown ↔ o = none := by
  cases o with
  | none => simp [cellOf]
  | some b => simp [cellOf, cell_ne_unknown b]

/-- The fragment lies in the array as exact integers and has its documented length. -/
structure Fits (n : MaxRomSize) (frag : RomFragment) : Prop where
  positive : 1 ≤ frag.nBytes.toInt
  inside : frag.offset.toNat + frag.nBytes.toInt ≤ n.val
  length : frag.bytes.length = frag.nBytes.toInt

def RomFragment.patch (frag : RomFragment) : Patch UInt8 := ⟨frag.offset.toNat, frag.bytes⟩

namespace Fits

variable {frag : RomFragment}

theorem count_eq (h : Fits n frag) : (frag.count : Int) = frag.nBytes.toInt :=
  Int.toNat_of_nonneg (by have := h.positive; omega)

theorem index_eq (h : Fits n frag) {i : Nat} (before : i < frag.count) :
    (frag.index i).toNat = frag.offset.toNat + i ∧ frag.offset.toNat + i < n.val := by
  have := h.count_eq
  have := h.inside
  have := n.property
  rw [frag.index_toNat]
  omega

theorem nBytes_pos (h : Fits n frag) : frag.nBytes > 0 :=
  count_pos.mpr (by have := h.count_eq; have := h.positive; omega)

theorem stop_eq (h : Fits n frag) : frag.stop.toNat = frag.patch.stop := by
  have := h.count_eq
  have := h.inside
  have := h.length
  have := n.property
  rw [RomFragment.stop_toNat h.nBytes_pos]
  simp only [RomFragment.patch, Patch.stop]
  omega

theorem stop_le (h : Fits n frag) : frag.patch.stop ≤ n.val := by
  have := h.inside
  have := h.length
  simp only [RomFragment.patch, Patch.stop]
  omega

theorem passes (h : Fits n frag) : Passes n frag := by
  refine ⟨h.nBytes_pos, UInt32.le_iff_toNat_le.mpr ?_⟩
  rw [h.stop_eq, size_toNat]
  exact h.stop_le

end Fits

/-! ## One call -/

/-- What the store loop leaves after `k` iterations: the bytes read so far overlay the cells. -/
structure Overlaid (frag : RomFragment) (s : Store n) (k : Nat) (t : Store n) : Prop where
  min : t.romDataNotUnknownMin = s.romDataNotUnknownMin
  max : t.romDataNotUnknownMax = s.romDataNotUnknownMax
  cells : ∀ j : Fin n.val, t.romData j =
    ((⟨frag.offset.toNat, frag.bytes.take k⟩ : Patch UInt8).at? j).elim (s.romData j) cell

theorem storeByte_overlaid {frag : RomFragment} {k : Nat}
    (index : (frag.index k).toNat = frag.offset.toNat + k) (room : frag.offset.toNat + k < n.val)
    (long : k < frag.bytes.length) {s t : Store n} (before : Overlaid frag s k t) :
    ∃ u, (storeByte frag k).run t = .ok () u ∧ Overlaid frag s (k + 1) u := by
  obtain ⟨b, byte⟩ : ∃ b, frag.bytes[k]? = some b := ⟨_, List.getElem?_eq_getElem long⟩
  have cellIn : (frag.index k).toNat < n.val := by omega
  obtain ⟨log, stored⟩ := storeByte_in cellIn byte t
  refine ⟨_, stored, before.min, before.max, fun j => ?_⟩
  rw [Patch.at?_take_succ byte]
  by_cases here : (j : Nat) = frag.offset.toNat + k
  · obtain rfl : j = ⟨(frag.index k).toNat, cellIn⟩ := Fin.ext (here.trans index.symm)
    simp only [if_pos here, Option.elim_some, Function.update_self]
  · have other : j ≠ ⟨(frag.index k).toNat, cellIn⟩ := by
      rintro rfl
      exact here index
    simp only [if_neg here, Function.update_of_ne other, before.cells j]

/-- A fragment that fits is stored: its bytes overlay the cells, the bounds move. -/
theorem store_fits {frag : RomFragment} (fits : Fits n frag) (s : Store n) :
    ∃ t, (storeRomFragment frag).run s = .ok () t ∧
      t.romDataNotUnknownMin = (bounded frag s).romDataNotUnknownMin ∧
      t.romDataNotUnknownMax = (bounded frag s).romDataNotUnknownMax ∧
      ∀ j, t.romData j = (frag.patch.at? j).elim (s.romData j) cell := by
  have length := fits.length
  have count := fits.count_eq
  have start : Overlaid frag (bounded frag s) 0 (bounded frag s) :=
    ⟨rfl, rfl, fun j => by simp [Patch.at?]⟩
  have steps : ∀ i < frag.count, ∀ t, Overlaid frag (bounded frag s) i t →
      ∃ u, (storeByte frag i).run t = .ok () u ∧ Overlaid frag (bounded frag s) (i + 1) u :=
    fun i before t overlaid =>
      storeByte_overlaid (fits.index_eq before).1 (fits.index_eq before).2 (by omega) overlaid
  obtain ⟨t, run, low, high, cells⟩ := forLoop_run start steps
  have whole : (⟨frag.offset.toNat, frag.bytes.take frag.count⟩ : Patch UInt8) = frag.patch :=
    congrArg (Patch.mk frag.offset.toNat) (List.take_of_length_le (by omega))
  rw [whole] at cells
  exact ⟨t, by rw [storeRomFragment_passes fits.passes, run], low, high, cells⟩

/-! ## Runs -/

/-- The store is the overlay of its history, the bounds are the span of it. -/
structure Represents (s : Store n) (history : List (Patch UInt8)) : Prop where
  cells : ∀ i : Fin n.val, s.romData i = cellOf (overlay history i)
  minNonneg : 0 ≤ s.romDataNotUnknownMin.toInt
  maxNonneg : 0 ≤ s.romDataNotUnknownMax.toInt
  spans : Spans n.val history s.romDataNotUnknownMin.toInt.toNat s.romDataNotUnknownMax.toInt.toNat

theorem represents_init (n : MaxRomSize) : Represents (heavyliftingInit n) [] := by
  have low : (heavyliftingInit n).romDataNotUnknownMin.toInt = n.val := n.int_toInt
  have high : (heavyliftingInit n).romDataNotUnknownMax.toInt = 0 := Int32.toInt_zero
  refine ⟨fun i => rfl, by omega, by omega, ?_⟩
  rw [low, high]
  exact .nil n.val

/-- The step lemma: a fragment that fits is the last of the history. -/
theorem store_represents {frag : RomFragment} {s : Store n} {history : List (Patch UInt8)}
    (h : Represents s history) (fits : Fits n frag) :
    ∃ t, (storeRomFragment frag).run s = .ok () t ∧ Represents t (history ++ [frag.patch]) := by
  obtain ⟨t, run, low, high, cells⟩ := store_fits fits s
  have room := n.property
  have stop := fits.stop_eq
  have stopLe := fits.stop_le
  have startLe : frag.offset.toNat ≤ frag.patch.stop := Nat.le_add_right _ _
  obtain ⟨minNonneg, minEq⟩ := bounded_min frag h.minNonneg (by omega)
  obtain ⟨maxNonneg, maxEq⟩ := bounded_max frag h.maxNonneg (by omega)
  refine ⟨t, run, fun i => ?_, ?_, ?_, ?_⟩
  · rw [cells i, overlay_snoc]
    cases frag.patch.at? i with
    | none => exact h.cells i
    | some b => rfl
  · rw [low]
    exact minNonneg
  · rw [high]
    exact maxNonneg
  · rw [low, high, minEq, maxEq, stop]
    exact h.spans.snoc (startLe.trans stopLe)

/-- The run lemma: fragments that all fit are all stored. -/
theorem run_represents {frags : List RomFragment} {s : Store n} {history : List (Patch UInt8)}
    (h : Represents s history) (fits : ∀ f ∈ frags, Fits n f) :
    ∃ t, Reaches storeRomFragment s frags t ∧
      Represents t (history ++ frags.map RomFragment.patch) := by
  induction frags generalizing s history with
  | nil => exact ⟨s, .refl, by simpa using h⟩
  | cons frag rest ih =>
      obtain ⟨u, first, hu⟩ := store_represents h (fits frag (by simp))
      obtain ⟨t, run, ht⟩ := ih hu (fun f member => fits f (by simp [member]))
      exact ⟨t, .step first run, by simpa using ht⟩

/-! ## The contents in the terms of the fragments -/

/-- The fragment covers position `i`, as exact integers. -/
def RomFragment.Covers (frag : RomFragment) (i : Nat) : Prop :=
  frag.offset.toNat ≤ i ∧ i < frag.offset.toNat + frag.nBytes.toInt

theorem Fits.covers_iff {frag : RomFragment} (h : Fits n frag) (i : Nat) :
    frag.patch.Covers i ↔ frag.Covers i := by
  have := h.length
  simp only [RomFragment.patch, Patch.Covers, Patch.stop, RomFragment.Covers]
  omega

theorem Fits.filled {frag : RomFragment} (h : Fits n frag) : frag.patch.data ≠ [] := by
  have := h.length
  have := h.positive
  apply List.length_pos_iff.mp
  simp only [RomFragment.patch]
  omega

/-- What the store is after a sequence of fragments. -/
structure Contents (frags : List RomFragment) (s : Store n) : Prop where
  uncovered : ∀ i : Fin n.val, (∀ f ∈ frags, ¬ f.Covers i) → s.romData i = romByteUnknown
  lastWriter : ∀ (i : Fin n.val) pre f post, frags = pre ++ f :: post → f.Covers i →
    (∀ g ∈ post, ¬ g.Covers i) →
    ∃ b, f.bytes[i.val - f.offset.toNat]? = some b ∧ (s.romData i).toInt = b.toNat
  known : ∀ i : Fin n.val, (∃ f ∈ frags, f.Covers i) →
    0 ≤ (s.romData i).toInt ∧ (s.romData i).toInt ≤ 255 ∧ s.romData i ≠ romByteUnknown
  empty : frags = [] → s.romDataNotUnknownMin.toInt = n.val ∧ s.romDataNotUnknownMax.toInt = 0
  least : frags ≠ [] →
    IsLeast {o : Int | ∃ f ∈ frags, f.offset.toNat = o} s.romDataNotUnknownMin.toInt
  greatest : frags ≠ [] →
    IsGreatest {e : Int | ∃ f ∈ frags, f.offset.toNat + f.nBytes.toInt = e}
      s.romDataNotUnknownMax.toInt
  stored : s.romDataNotUnknownMin < s.romDataNotUnknownMax ↔ frags ≠ []
  outside : ∀ i : Fin n.val,
    ¬ (s.romDataNotUnknownMin.toInt ≤ i.val ∧ i.val < s.romDataNotUnknownMax.toInt) →
    s.romData i = romByteUnknown
  ends : frags ≠ [] → ∀ i : Fin n.val,
    (i.val : Int) = s.romDataNotUnknownMin.toInt ∨
      (i.val : Int) = s.romDataNotUnknownMax.toInt - 1 →
    s.romData i ≠ romByteUnknown

theorem patches_filled {frags : List RomFragment} (fits : ∀ f ∈ frags, Fits n f) :
    ∀ p ∈ frags.map RomFragment.patch, p.data ≠ [] :=
  List.forall_mem_map.mpr fun f member => (fits f member).filled

namespace Represents

variable {frags : List RomFragment} {s : Store n}
  (h : Represents s (frags.map RomFragment.patch)) (fits : ∀ f ∈ frags, Fits n f)

include h

theorem unknown_iff (i : Fin n.val) :
    s.romData i = romByteUnknown ↔ overlay (frags.map RomFragment.patch) i = none := by
  rw [h.cells i, cellOf_eq_unknown_iff]

theorem least (nonempty : frags ≠ []) :
    IsLeast {o : Int | ∃ f ∈ frags, f.offset.toNat = o} s.romDataNotUnknownMin.toInt := by
  have nonneg := h.minNonneg
  obtain ⟨⟨p, member, start⟩, least⟩ := h.spans.least (List.map_eq_nil_iff.not.mpr nonempty)
  obtain ⟨f, stored, rfl⟩ := List.mem_map.mp member
  simp only [RomFragment.patch] at start
  refine ⟨⟨f, stored, by omega⟩, ?_⟩
  intro o attained
  obtain ⟨g, other, rfl⟩ := attained
  have below := least ⟨g.patch, List.mem_map_of_mem other, rfl⟩
  simp only [RomFragment.patch] at below
  omega

include fits

theorem unknown_iff_uncovered (i : Fin n.val) :
    s.romData i = romByteUnknown ↔ ∀ f ∈ frags, ¬ f.Covers i := by
  rw [h.unknown_iff, overlay_eq_none_iff, List.forall_mem_map]
  exact forall₂_congr fun f member => ((fits f member).covers_iff i).not

theorem lastWriter {i : Fin n.val} {pre post : List RomFragment} {f : RomFragment}
    (split : frags = pre ++ f :: post) (covered : f.Covers i) (later : ∀ g ∈ post, ¬ g.Covers i) :
    ∃ b, f.bytes[i.val - f.offset.toNat]? = some b ∧ (s.romData i).toInt = b.toNat := by
  have fitting : ∀ g ∈ f :: post, Fits n g := fun g member =>
    fits g (by rw [split]; exact List.mem_append_right _ member)
  obtain ⟨b, byte⟩ := Option.isSome_iff_exists.mp
    (Patch.at?_isSome_iff.mpr (((fitting f (by simp)).covers_iff i).mpr covered))
  have value : overlay (frags.map RomFragment.patch) i.val = some b := by
    refine overlay_eq_some_iff.mpr
      ⟨pre.map RomFragment.patch, f.patch, post.map RomFragment.patch, by simp [split], byte, ?_⟩
    rw [List.forall_mem_map]
    exact fun g member hit => later g member (((fitting g (by simp [member])).covers_iff i).mp hit)
  have start : f.offset.toNat ≤ i.val := covered.1
  refine ⟨b, ?_, ?_⟩
  · change (if f.offset.toNat ≤ i.val then f.bytes[i.val - f.offset.toNat]? else none) = some b at byte
    rwa [if_pos start] at byte
  · rw [h.cells i, value]
    exact cell_toInt b

theorem known {i : Fin n.val} (covered : ∃ f ∈ frags, f.Covers i) :
    0 ≤ (s.romData i).toInt ∧ (s.romData i).toInt ≤ 255 ∧ s.romData i ≠ romByteUnknown := by
  obtain ⟨f, member, covers⟩ := covered
  have present : s.romData i ≠ romByteUnknown := fun unknown =>
    (h.unknown_iff_uncovered fits i).mp unknown f member covers
  obtain ⟨b, value⟩ := Option.ne_none_iff_exists'.mp ((h.unknown_iff i).not.mp present)
  have small := b.toNat_lt
  have byte : (s.romData i).toInt = b.toNat := by
    rw [h.cells i, value]
    exact cell_toInt b
  exact ⟨by omega, by omega, present⟩

theorem greatest (nonempty : frags ≠ []) :
    IsGreatest {e : Int | ∃ f ∈ frags, f.offset.toNat + f.nBytes.toInt = e}
      s.romDataNotUnknownMax.toInt := by
  have nonneg := h.maxNonneg
  obtain ⟨⟨p, member, stop⟩, greatest⟩ := h.spans.greatest (List.map_eq_nil_iff.not.mpr nonempty)
  obtain ⟨f, stored, rfl⟩ := List.mem_map.mp member
  have length := (fits f stored).length
  simp only [RomFragment.patch, Patch.stop] at stop
  refine ⟨⟨f, stored, by omega⟩, ?_⟩
  intro e attained
  obtain ⟨g, other, rfl⟩ := attained
  have length := (fits g other).length
  have above := greatest ⟨g.patch, List.mem_map_of_mem other, rfl⟩
  simp only [RomFragment.patch, Patch.stop] at above
  omega

theorem stored : s.romDataNotUnknownMin < s.romDataNotUnknownMax ↔ frags ≠ [] := by
  have minNonneg := h.minNonneg
  have maxNonneg := h.maxNonneg
  rw [Int32.lt_iff_toInt_lt, ne_eq, ← List.map_eq_nil_iff (f := RomFragment.patch), ← ne_eq,
    ← h.spans.lt_iff (patches_filled fits)]
  omega

theorem ends (nonempty : frags ≠ []) {i : Fin n.val}
    (atEnd : (i.val : Int) = s.romDataNotUnknownMin.toInt ∨
      (i.val : Int) = s.romDataNotUnknownMax.toInt - 1) : s.romData i ≠ romByteUnknown := by
  have minNonneg := h.minNonneg
  have maxNonneg := h.maxNonneg
  have some : frags.map RomFragment.patch ≠ [] := List.map_eq_nil_iff.not.mpr nonempty
  rw [ne_eq, h.unknown_iff]
  cases atEnd with
  | inl low =>
      have same : i.val = s.romDataNotUnknownMin.toInt.toNat := by omega
      rw [same]
      exact h.spans.lo_known (patches_filled fits) some
  | inr high =>
      have same : i.val = s.romDataNotUnknownMax.toInt.toNat - 1 := by omega
      rw [same]
      exact h.spans.hi_known (patches_filled fits) some

/-- A store that represents the patches of fragments has their contents. -/
theorem contents : Contents frags s where
  uncovered i none := (h.unknown_iff_uncovered fits i).mpr none
  lastWriter _ _ _ _ split covered later := h.lastWriter fits split covered later
  known _ covered := h.known fits covered
  empty none := by
    have minNonneg := h.minNonneg
    have maxNonneg := h.maxNonneg
    obtain ⟨low, high⟩ := h.spans.empty (List.map_eq_nil_iff.mpr none)
    omega
  least := h.least
  greatest := h.greatest fits
  stored := h.stored fits
  outside i out := by
    have minNonneg := h.minNonneg
    have maxNonneg := h.maxNonneg
    exact (h.unknown_iff i).mpr (h.spans.outside (by omega))
  ends nonempty _ atEnd := h.ends fits nonempty atEnd

end Represents

/-- After `heavylifting_init` and any fragments that fit, in any order and with any
    overlaps, the store has their contents, and a fragment whose assertions fail
    changes neither the data nor the bounds. -/
theorem romStore_contents (n : MaxRomSize) (frags : List RomFragment)
    (fits : ∀ f ∈ frags, Fits n f) :
    ∃ s, Reaches storeRomFragment (heavyliftingInit n) frags s ∧ Contents frags s ∧
      ∀ frag, ¬ Passes n frag →
        ∃ text t, (storeRomFragment frag).run s = .error (.assertion text) t ∧
          t.romData = s.romData ∧ t.romDataNotUnknownMin = s.romDataNotUnknownMin ∧
          t.romDataNotUnknownMax = s.romDataNotUnknownMax := by
  obtain ⟨s, run, represents⟩ := run_represents (represents_init n) fits
  rw [List.nil_append] at represents
  refine ⟨s, run, represents.contents fits, fun frag fails => ?_⟩
  obtain ⟨text, rejected⟩ := storeRomFragment_rejects fails s
  exact ⟨text, s, rejected, rfl, rfl, rfl⟩

/-- Two overlapping fragments that disagree. -/
theorem romStore_contents_overlap :
    ∃ s : Store ⟨8, by decide⟩,
      Reaches storeRomFragment (heavyliftingInit _) [⟨1, 3, [10, 11, 12]⟩, ⟨3, 2, [99, 13]⟩] s ∧
        Contents [⟨1, 3, [10, 11, 12]⟩, ⟨3, 2, [99, 13]⟩] s := by
  obtain ⟨s, run, contents, -⟩ := romStore_contents ⟨8, by decide⟩
    [⟨1, 3, [10, 11, 12]⟩, ⟨3, 2, [99, 13]⟩] (by
      simp only [List.forall_mem_cons, List.not_mem_nil, false_implies, implies_true, and_true]
      exact ⟨⟨by decide, by decide, by decide⟩, ⟨by decide, by decide, by decide⟩⟩)
  exact ⟨s, run, contents⟩

end AssistedDump.RomStore
