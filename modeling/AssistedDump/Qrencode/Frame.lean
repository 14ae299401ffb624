import AssistedDump.General.Writes
import AssistedDump.Qrencode.QrSpec

/-! # The empty frame of qrspec.c

A frame is the row-major list of its modules. The bit `0x80` marks the modules of
the function patterns, which are the ones that are written to here. The functions
read nothing, so each is the list of its writes, a pointer being an index.
-/

namespace AssistedDump.QrSpec

open CSemantics

abbrev Frame := List UInt8

abbrev FrameWrites := List (Nat × UInt8)

def memset (start : Nat) (value : UInt8) (count : Nat) : FrameWrites :=
  (List.range count).map fun i => (start + i, value)

/-- A square of modules, copied row by row. -/
def putSquare (pattern : List UInt8) (size start width : Nat) : FrameWrites :=
  (List.range size).flatMap fun y => (List.range size).map fun x =>
    (start + y * width + x, pattern.getD (y * size + x) 0)

def alignmentMarker : List UInt8 := [
  0xa1, 0xa1, 0xa1, 0xa1, 0xa1,
  0xa1, 0xa0, 0xa0, 0xa0, 0xa1,
  0xa1, 0xa0, 0xa1, 0xa0, 0xa1,
  0xa1, 0xa0, 0xa0, 0xa0, 0xa1,
  0xa1, 0xa1, 0xa1, 0xa1, 0xa1]

def putAlignmentMarker (width ox oy : Nat) : FrameWrites :=
  putSquare alignmentMarker 5 ((oy - 2) * width + ox - 2) width

def putAlignmentPattern (version width : Nat) : FrameWrites :=
  let (first, second) := alignmentPattern.getD version (0, 0)
  let d := second - first
  let w := if second < first then 2 else (width - first) / d + 2
  if version < 2 then []
  else if w * w - 3 = 1 then putAlignmentMarker width first first
  else
    ((List.range (w - 2)).flatMap fun x =>
      putAlignmentMarker width 6 (first + x * d) ++ putAlignmentMarker width (first + x * d) 6) ++
    (List.range (w - 1)).flatMap fun y => (List.range (w - 1)).flatMap fun x =>
      putAlignmentMarker width (first + x * d) (first + y * d)

def finder : List UInt8 := [
  0xc1, 0xc1, 0xc1, 0xc1, 0xc1, 0xc1, 0xc1,
  0xc1, 0xc0, 0xc0, 0xc0, 0xc0, 0xc0, 0xc1,
  0xc1, 0xc0, 0xc1, 0xc1, 0xc1, 0xc0, 0xc1,
  0xc1, 0xc0, 0xc1, 0xc1, 0xc1, 0xc0, 0xc1,
  0xc1, 0xc0, 0xc1, 0xc1, 0xc1, 0xc0, 0xc1,
  0xc1, 0xc0, 0xc0, 0xc0, 0xc0, 0xc0, 0xc1,
  0xc1, 0xc1, 0xc1, 0xc1, 0xc1, 0xc1, 0xc1]

def putFinderPattern (width ox oy : Nat) : FrameWrites :=
  putSquare finder 7 (oy * width + ox) width

/-- The module of bit `k` of the version information. -/
def versionModule (verinfo : UInt32) (k : Nat) : UInt8 :=
  0x88 ||| ((verinfo >>> UInt32.ofNat k) &&& 1).toUInt8

def putVersionInformation (width : Nat) (verinfo : UInt32) : FrameWrites :=
  ((List.range 6).flatMap fun x => (List.range 3).map fun y =>
    (width * (width - 11) + width * y + x, versionModule verinfo (3 * x + y))) ++
  (List.range 6).flatMap fun y => (List.range 3).map fun x =>
    (width - 11 + y * width + x, versionModule verinfo (3 * y + x))

/-- `QRspec_createFrame` up to its alignment patterns. -/
def createFrame.patterns (version width : Nat) : FrameWrites := List.flatten [
  -- finder patterns
  putFinderPattern width 0 0,
  putFinderPattern width (width - 7) 0,
  putFinderPattern width 0 (width - 7),
  -- separators
  (List.range 7).flatMap fun y =>
    [(y * width + 7, 0xc0), (y * width + (width - 8), 0xc0),
      (width * (width - 7) + y * width + 7, 0xc0)],
  memset (width * 7) 0xc0 8,
  memset (width * 8 - 8) 0xc0 8,
  memset (width * (width - 8)) 0xc0 8,
  -- format information area
  memset (width * 8) 0x84 9,
  memset (width * 9 - 8) 0x84 8,
  (List.range 8).map fun y => (8 + y * width, 0x84),
  (List.range 7).map fun y => (width * (width - 7) + 8 + y * width, 0x84),
  -- timing patterns, from `x = 1` on
  (List.range (width - 16)).flatMap fun i =>
    [(width * 6 + 8 + i, 0x90 ||| UInt8.ofNat ((i + 1) % 2)),
      (width * 8 + 6 + i * width, 0x90 ||| UInt8.ofNat ((i + 1) % 2))],
  putAlignmentPattern version width]

/-- The rest of `QRspec_createFrame`. -/
def createFrame.information (version width : Nat) : FrameWrites :=
  (if version ≥ 7 then putVersionInformation width (getVersionPattern version) else []) ++
  [(width * (width - 8) + 8, 0x81)]

def createFrame (version : Nat) : FrameWrites :=
  let width := getWidth version
  createFrame.patterns version width ++ createFrame.information version width

/-- A frame that is not there is `NULL`. -/
def newFrame (version : Nat) : Option Frame :=
  if version < 1 ∨ version > versionMax then none
  else stored (createFrame version) (List.replicate (getWidth version * getWidth version) 0)

/-! ## Marks -/

/-- Every module that is written to gets the mark of a function pattern. -/
def Marked (writes : FrameWrites) : Prop := ∀ w ∈ writes, w.2 &&& 0x80 ≠ 0

theorem Marked.append {front back : FrameWrites} (one : Marked front) (two : Marked back) :
    Marked (front ++ back) := by
  intro w member
  exact (List.mem_append.mp member).elim (one w) (two w)

theorem Marked.flatMap {items : List Nat} {f : Nat → FrameWrites} (each : ∀ i, Marked (f i)) :
    Marked (items.flatMap f) := by
  intro w member
  obtain ⟨i, _, inside⟩ := List.mem_flatMap.mp member
  exact each i w inside

theorem Marked.map {items : List Nat} {index : Nat → Nat} {value : Nat → UInt8}
    (each : ∀ i ∈ items, value i &&& 0x80 ≠ 0) : Marked (items.map fun i => (index i, value i)) := by
  intro w member
  obtain ⟨i, inside, rfl⟩ := List.mem_map.mp member
  exact each i inside

theorem Marked.ite {condition : Prop} [Decidable condition] {front back : FrameWrites}
    (one : Marked front) (two : Marked back) : Marked (if condition then front else back) := by
  split
  · exact one
  · exact two

theorem Marked.nil : Marked [] := fun _ member => absurd member List.not_mem_nil

theorem Marked.cons {i : Nat} {value : UInt8} {rest : FrameWrites} (one : value &&& 0x80 ≠ 0)
    (two : Marked rest) : Marked ((i, value) :: rest) := List.forall_mem_cons.mpr ⟨one, two⟩

theorem putSquare_marked {pattern : List UInt8} {size : Nat}
    (each : ∀ y < size, ∀ x < size, pattern.getD (y * size + x) 0 &&& 0x80 ≠ 0) (start width : Nat) :
    Marked (putSquare pattern size start width) := by
  intro w member
  simp only [putSquare, List.mem_flatMap, List.mem_map, List.mem_range] at member
  obtain ⟨y, inY, x, inX, rfl⟩ := member
  exact each y inY x inX

theorem putAlignmentMarker_marked (width ox oy : Nat) : Marked (putAlignmentMarker width ox oy) :=
  putSquare_marked (by decide) _ width

theorem putAlignmentPattern_marked (version width : Nat) :
    Marked (putAlignmentPattern version width) := by
  simp only [putAlignmentPattern]
  apply Marked.nil.ite
  apply (putAlignmentMarker_marked _ _ _).ite
  apply Marked.append
  · exact .flatMap fun x =>
      (putAlignmentMarker_marked _ _ _).append (putAlignmentMarker_marked _ _ _)
  · exact .flatMap fun y => .flatMap fun x => putAlignmentMarker_marked _ _ _

theorem or_marked : ∀ n < 256,
    (0x88 ||| UInt8.ofNat n) &&& 0x80 ≠ 0 ∧ (0x90 ||| UInt8.ofNat n) &&& 0x80 ≠ 0 := by
  decide +kernel

theorem versionModule_marked (verinfo : UInt32) (k : Nat) : versionModule verinfo k &&& 0x80 ≠ 0 := by
  have some := or_marked _ ((verinfo >>> UInt32.ofNat k) &&& 1).toUInt8.toNat_lt
  rw [UInt8.ofNat_toNat] at some
  exact some.1

theorem putVersionInformation_marked (width : Nat) (verinfo : UInt32) :
    Marked (putVersionInformation width verinfo) := by
  apply Marked.append
  · exact .flatMap fun x => .map fun y _ => versionModule_marked _ _
  · exact .flatMap fun y => .map fun x _ => versionModule_marked _ _

theorem memset_marked {value : UInt8} (marked : value &&& 0x80 ≠ 0) (start count : Nat) :
    Marked (memset start value count) := .map fun _ _ => marked

theorem timing_marked (i : Nat) : (0x90 ||| UInt8.ofNat (i % 2)) &&& 0x80 ≠ 0 :=
  (or_marked (i % 2) (by omega)).2

theorem patterns_marked (version width : Nat) : Marked (createFrame.patterns version width) := by
  have finder (ox oy : Nat) : Marked (putFinderPattern width ox oy) :=
    putSquare_marked (by decide) _ width
  apply (finder _ _).append
  apply (finder _ _).append
  apply (finder _ _).append
  apply Marked.append (.flatMap fun y => .cons (by decide) (.cons (by decide) (.cons (by decide) .nil)))
  apply (memset_marked (by decide) _ _).append
  apply (memset_marked (by decide) _ _).append
  apply (memset_marked (by decide) _ _).append
  apply (memset_marked (by decide) _ _).append
  apply (memset_marked (by decide) _ _).append
  apply Marked.append (.map fun _ _ => by decide)
  apply Marked.append (.map fun _ _ => by decide)
  apply Marked.append (.flatMap fun i => .cons (timing_marked _) (.cons (timing_marked _) .nil))
  exact (putAlignmentPattern_marked _ _).append .nil

/-- `QRspec_createFrame` marks every module it writes. -/
theorem createFrame_marked (version : Nat) : Marked (createFrame version) := by
  apply (patterns_marked _ _).append
  apply Marked.append
  · exact (putVersionInformation_marked _ _).ite .nil
  · exact .cons (by decide) .nil

end AssistedDump.QrSpec
