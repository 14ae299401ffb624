import AssistedDump.Qrencode.FrameFill
import AssistedDump.Qrencode.Mask

/-! # What the frames hold

The frame of every version is evaluated once. Its function patterns lie inside of
it and cover what the filler leaves out, and the modules they leave are as many as
the table of capacities promises.
-/

namespace AssistedDump.QrSpec

open Mask (formatWrites)
open QrEncode (marks unmarked unmarked_congr unmarked_iff unmarked_lt)
open QrEncode.FrameFiller

/-- Where the alignment patterns start. -/
def markers (version width : Nat) : List Nat :=
  let (first, second) := alignmentPattern.getD version (0, 0)
  let d := second - first
  let w := if second < first then 2 else (width - first) / d + 2
  let marker (ox oy : Nat) := (oy - 2) * width + ox - 2
  if version < 2 then []
  else if w * w - 3 = 1 then [marker first first]
  else
    ((List.range (w - 2)).flatMap fun x => [marker 6 (first + x * d), marker (first + x * d) 6]) ++
    (List.range (w - 1)).flatMap fun y => (List.range (w - 1)).map fun x =>
      marker (first + x * d) (first + y * d)

theorem putAlignmentPattern_eq (version width : Nat) : putAlignmentPattern version width =
    (markers version width).flatMap fun start => putSquare alignmentMarker 5 start width := by
  rw [putAlignmentPattern, markers]
  generalize alignmentPattern.getD version (0, 0) = pattern
  obtain ⟨first, second⟩ := pattern
  simp only
  generalize (if second < first then 2 else _) = w
  split
  · rfl
  · split
    · exact (List.flatMap_singleton ..).symm
    · simp only [List.flatMap_append, List.flatMap_assoc, List.flatMap_map, List.flatMap_cons,
        List.flatMap_nil, List.append_nil, putAlignmentMarker]

/-- The modules of the function patterns, in an order that is easy to evaluate. -/
def covered (version : Nat) : List Nat :=
  let width := getWidth version
  square width 7 7 0 <| square width 7 7 (width - 7) <| square width 7 7 (width * (width - 7)) <|
  run width 7 7 <| run width 7 (width - 8) <| run width 7 (width * (width - 7) + 7) <|
  run 1 8 (width * 7) <| run 1 8 (width * 8 - 8) <| run 1 8 (width * (width - 8)) <|
  run 1 9 (width * 8) <| run 1 8 (width * 9 - 8) <|
  run width 8 8 <| run width 7 (width * (width - 7) + 8) <|
  run 1 (width - 16) (width * 6 + 8) <| run width (width - 16) (width * 8 + 6) <|
  (markers version width).foldr (square width 5 5)
    (indices (createFrame.information version width))

theorem mem_indices_putSquare {pattern : List UInt8} {size start width i : Nat} :
    i ∈ indices (putSquare pattern size start width) ↔
      ∃ y < size, ∃ x < size, start + y * width + x = i := by
  simp [indices, putSquare, List.map_flatMap, List.mem_flatMap]

theorem mem_foldr_square {width i : Nat} {starts rest : List Nat} :
    i ∈ starts.foldr (square width 5 5) rest ↔
      i ∈ indices (starts.flatMap fun start => putSquare alignmentMarker 5 start width) ∨
        i ∈ rest := by
  induction starts with
  | nil => simp [indices]
  | cons start starts ih =>
      rw [List.foldr_cons, mem_square, ih, List.flatMap_cons, indices_append, List.mem_append,
        mem_indices_putSquare, or_assoc]

theorem mem_covered {version i : Nat} :
    i ∈ covered version ↔ i ∈ indices (createFrame version) := by
  simp only [covered, mem_square, mem_run, mem_foldr_square, ← putAlignmentPattern_eq, createFrame,
    createFrame.patterns, List.flatten_cons, List.flatten_nil, List.append_nil, indices_append, List.mem_append,
    putFinderPattern, mem_indices_putSquare]
  simp only [indices, memset, List.map_map, List.mem_map, List.mem_range, List.map_flatMap, List.mem_flatMap,
    List.map_cons, List.map_nil, List.mem_cons, List.not_mem_nil, or_false, Function.comp_apply]
  generalize getWidth version = width
  have column (k c : Nat) : k * width + c = c + k * width := Nat.add_comm _ _
  have lower (k : Nat) : width * (width - 7) + k * width + 7 = width * (width - 7) + 7 + k * width :=
    Nat.add_right_comm _ _ _
  simp only [eq_comm (a := i), and_or_left, exists_or, or_assoc, Nat.mul_one, Nat.zero_mul,
    Nat.zero_add, Nat.add_zero, Nat.mul_comm (width - 7), lower, column _ 7, column _ (width - 8)]

/-- The modules of the function patterns, as bits, and how many they are. -/
def occupied (version : Nat) : Nat × Nat := survey (covered version) 0 0

/-- What is evaluated about the frame of a version. -/
def Evaluated (version : Nat) : Prop :=
  (21 ≤ getWidth version ∧ getWidth version % 4 = 1 ∧ getWidth version ≤ 177) ∧
  (occupied version).1 < 2 ^ (getWidth version * getWidth version) ∧
  (occupied version).2 + (8 * (capacity version).words + getRemainder version) =
    getWidth version * getWidth version ∧
  (∀ y < getWidth version, (occupied version).1.testBit (y * getWidth version + 6) = true) ∧
  (∀ y < 9, (occupied version).1.testBit (y * getWidth version + 4) = true ∧
    (occupied version).1.testBit (y * getWidth version + 5) = true) ∧
  ¬ (occupied version).1.testBit
    ((getWidth version - 1) * getWidth version + (getWidth version - 1)) = true ∧
  (∀ i ∈ indices (formatWrites (getWidth version) 0), (occupied version).1.testBit i = true) ∧
  (survey (indices (createFrame.information version (getWidth version)) ++
    indices (formatWrites (getWidth version) 0)) 0 0).2 =
      (indices (createFrame.information version (getWidth version)) ++
        indices (formatWrites (getWidth version) 0)).length

instance (version : Nat) : Decidable (Evaluated version) := inferInstanceAs (Decidable (_ ∧ _))

theorem evaluated : ∀ version < 41, 1 ≤ version → Evaluated version := by decide +kernel

/-- How the function patterns of a version lie. -/
structure Layout (version : Nat) : Prop where
  wide : Wide (getWidth version)
  most : getWidth version ≤ 177
  inside : ∀ i ∈ indices (createFrame version), i < getWidth version * getWidth version
  count : (indices (createFrame version)).toFinset.card +
    (8 * (capacity version).words + getRemainder version) = getWidth version * getWidth version
  column : ∀ y < getWidth version, y * getWidth version + 6 ∈ indices (createFrame version)
  skipped : ∀ y < 9, ∀ x, 4 ≤ x → x < 6 →
    y * getWidth version + x ∈ indices (createFrame version)
  corner : (getWidth version - 1) * getWidth version + (getWidth version - 1) ∉
    indices (createFrame version)
  format : ∀ i ∈ indices (formatWrites (getWidth version) 0), i ∈ indices (createFrame version)
  formatOnce : (indices (formatWrites (getWidth version) 0)).Nodup
  informationOnce : (indices (createFrame.information version (getWidth version))).Nodup
  apart : ∀ i ∈ indices (createFrame.information version (getWidth version)),
    i ∉ indices (formatWrites (getWidth version) 0)

theorem occupied_testBit (version i : Nat) :
    (occupied version).1.testBit i = true ↔ i ∈ indices (createFrame version) :=
  (survey_testBit _ i).trans mem_covered

theorem layout {version : Nat} (known : Version version) : Layout version := by
  obtain ⟨⟨least, four, most⟩, bits, count, column, skipped, corner, format, different⟩ :=
    evaluated version (Nat.lt_succ_of_le known.most) known.positive
  simp only [occupied_testBit] at column skipped corner format
  obtain ⟨once, formatOnce, apart⟩ := List.nodup_append'.mp (nodup_of_survey different)
  refine ⟨⟨least, four⟩, most, ?_, ?_, column, ?_, corner, format, formatOnce, once,
    fun i here there => apart here there⟩
  · intro i member
    by_contra outside
    have large := Nat.pow_le_pow_right (by decide : 0 < 2) (Nat.not_lt.mp outside)
    have clear := Nat.testBit_lt_two_pow (lt_of_lt_of_le bits large)
    rw [(occupied_testBit version i).mpr member] at clear
    cases clear
  · have same : (indices (createFrame version)).toFinset = (covered version).toFinset := by
      ext i
      rw [List.mem_toFinset, List.mem_toFinset, mem_covered]
    rw [same, ← survey_count]
    exact count
  · intro y high x low below
    obtain rfl | rfl : x = 4 ∨ x = 5 := by omega
    · exact (skipped y high).1
    · exact (skipped y high).2

/-! ## The frame of a version -/

def blank (width : Nat) : Frame := List.replicate (width * width) 0

/-- The frame is there, and its unmarked modules are the ones of no function pattern. -/
theorem newFrame_some {version : Nat} (known : Version version) :
    ∃ frame, newFrame version = some frame ∧
      frame = applied (createFrame version) (blank (getWidth version)) ∧
      frame.length = getWidth version * getWidth version ∧
      ∀ i < getWidth version * getWidth version,
        unmarked frame i = true ↔ i ∉ indices (createFrame version) := by
  have inRange : ¬ (version < 1 ∨ version > versionMax) := by
    have := known.positive
    have := known.most
    omega
  have sized : (blank (getWidth version)).length = getWidth version * getWidth version :=
    List.length_replicate
  refine ⟨_, ?_, rfl, by rw [applied_length, sized], ?_⟩
  · rw [newFrame, if_neg inRange]
    apply stored_eq
    rw [List.length_replicate]
    exact (layout known).inside
  · intro i inside
    constructor
    · intro free touched
      obtain ⟨value, member, present⟩ := applied_touched touched (sized ▸ inside)
      exact createFrame_marked version _ member ((unmarked_iff present).mp free)
    · intro untouched
      have zero : (applied (createFrame version) (blank (getWidth version)))[i]? = some 0 := by
        rw [applied_untouched untouched, blank, List.getElem?_replicate, if_pos inside]
      exact (unmarked_iff zero).mpr rfl

/-- The way of the filler leads to every module of no function pattern. -/
theorem mem_freeIndices {version : Nat} (known : Version version) {frame : Frame}
    (shown : newFrame version = some frame) {i : Nat} :
    i ∈ freeIndices frame (getWidth version) ↔
      i < getWidth version * getWidth version ∧ i ∉ indices (createFrame version) := by
  obtain ⟨_, same, _, sized, free⟩ := newFrame_some known
  obtain rfl := Option.some.inj (shown.symm.trans same)
  have lay := layout known
  rw [freeIndices, List.mem_filter]
  constructor
  · rintro ⟨_, here⟩
    have inside : i < getWidth version * getWidth version := sized ▸ unmarked_lt here
    exact ⟨inside, (free i inside).mp here⟩
  · rintro ⟨inside, untouched⟩
    have positive : 0 < getWidth version := lt_of_lt_of_le (by decide) lay.wide.least
    have inX := Nat.mod_lt i positive
    have inY := Nat.div_lt_of_lt_mul inside
    have place : i / getWidth version * getWidth version + i % getWidth version = i :=
      Nat.div_add_mod' i _
    refine ⟨?_, (free i inside).mpr untouched⟩
    rw [← place, mem_trailIndices lay.wide inX inY]
    constructor
    · intro six
      apply untouched
      rw [← place, six]
      exact lay.column _ inY
    · rintro ⟨low, high, top⟩
      apply untouched
      rw [← place]
      exact lay.skipped _ top _ low high

theorem freeIndices_nodup {width : Nat} (wide : Wide width) (frame : Frame) :
    (freeIndices frame width).Nodup := (trailIndices_nodup wide).filter _

/-- The modules on the way are exactly as many as the codewords and the remainder need. -/
theorem freeIndices_length {version : Nat} (known : Version version) {frame : Frame}
    (shown : newFrame version = some frame) :
    (freeIndices frame (getWidth version)).length =
      8 * (capacity version).words + getRemainder version := by
  have lay := layout known
  have free : (freeIndices frame (getWidth version)).toFinset =
      Finset.range (getWidth version * getWidth version) \
        (indices (createFrame version)).toFinset := by
    ext i
    simp only [List.mem_toFinset, mem_freeIndices known shown, Finset.mem_sdiff, Finset.mem_range]
  have within : (indices (createFrame version)).toFinset ⊆
      Finset.range (getWidth version * getWidth version) := by
    intro i member
    exact Finset.mem_range.mpr (lay.inside i (List.mem_toFinset.mp member))
  have count := lay.count
  rw [← List.toFinset_card_of_nodup (freeIndices_nodup lay.wide frame), free,
    Finset.card_sdiff_of_subset within, Finset.card_range]
  omega

/-- The filler leads to them from its start. -/
theorem leads_newFrame {version : Nat} (known : Version version) {frame : Frame}
    (shown : newFrame version = some frame) :
    Leads frame (set (getWidth version)) (freeIndices frame (getWidth version)) := by
  obtain ⟨_, same, _, sized, free⟩ := newFrame_some known
  obtain rfl := Option.some.inj (shown.symm.trans same)
  have lay := layout known
  have least := lay.wide.least
  have inside : (getWidth version - 1) * getWidth version + (getWidth version - 1) <
      getWidth version * getWidth version := CSemantics.rowMajor_lt (by omega) (by omega)
  exact leads_set lay.wide sized ((free _ inside).mpr lay.corner)

/-- In a frame of a version, empty or with values in it, the filler comes to every module of no
    function pattern once before it ends, and they are as many as the codewords need. -/
theorem filler_covers {version : Nat} (known : Version version) {empty : Frame}
    (shown : newFrame version = some empty) {frame : Frame} (same : marks frame = marks empty) :
    ∃ way, Leads frame (set (getWidth version)) way ∧ way.Nodup ∧
      (∀ i, i ∈ way ↔ unmarked frame i = true) ∧
      way.length = 8 * (capacity version).words + getRemainder version := by
  obtain ⟨_, again, _, sized, free⟩ := newFrame_some known
  obtain rfl := Option.some.inj (shown.symm.trans again)
  refine ⟨_, (leads_newFrame known shown).congr same.symm, freeIndices_nodup (layout known).wide _,
    fun i => ?_, freeIndices_length known shown⟩
  rw [mem_freeIndices known shown, unmarked_congr same]
  constructor
  · rintro ⟨inside, untouched⟩
    exact (free i inside).mpr untouched
  · intro here
    have inside : i < getWidth version * getWidth version := sized ▸ unmarked_lt here
    exact ⟨inside, (free i inside).mp here⟩

theorem filler_covers_least : ∃ frame way, newFrame 1 = some frame ∧ Leads frame (set 21) way ∧
    way.Nodup ∧ (∀ i, i ∈ way ↔ unmarked frame i = true) ∧ way.length = 208 := by
  have known : Version 1 := ⟨by decide, by decide⟩
  obtain ⟨frame, shown, _⟩ := newFrame_some known
  obtain ⟨way, leads⟩ := filler_covers known shown (Eq.refl (marks frame))
  exact ⟨frame, way, shown, leads⟩

end AssistedDump.QrSpec
