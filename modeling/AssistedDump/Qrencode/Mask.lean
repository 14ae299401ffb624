import AssistedDump.Qrencode.Frame

/-! # The masks of mask.c

`Mask_mask` tries eight masks and keeps the one with the least demerit. The sums a
loop of the source accumulates are written as sums over its range.
-/

namespace AssistedDump.Mask

open DumpLoop (QRecLevel)
open QrSpec

/-- A module of the format information, for bit `k` of its word. -/
def formatModule (format : UInt32) (k : Nat) : UInt8 :=
  if (format >>> UInt32.ofNat k) &&& 1 ≠ 0 then 0x85 else 0x84

/-- The writes of `Mask_writeFormatInformation`. -/
def formatWrites (width : Nat) (format : UInt32) : FrameWrites :=
  ((List.range 8).flatMap fun i =>
    [(width * 8 + width - 1 - i, formatModule format i),
      (if i < 6 then width * i + 8 else width * (i + 1) + 8, formatModule format i)]) ++
  (List.range 7).flatMap fun i =>
    [(width * (width - 7 + i) + 8, formatModule format (8 + i)),
      (if i = 0 then width * 8 + 7 else width * 8 + 6 - i, formatModule format (8 + i))]

def formatBlacks (format : UInt32) : Nat :=
  2 * (List.range 15).countP fun k => (format >>> UInt32.ofNat k) &&& 1 ≠ 0

/-- The frame with its format information and the black modules of the latter. -/
def writeFormatInformation (width : Nat) (frame : Frame) (mask : Nat) (level : QRecLevel) :
    Option (Frame × Nat) := do
  let format := getFormatInfo mask level
  let frame ← stored (formatWrites width format) frame
  some (frame, formatBlacks format)

def maskModule (expression : Nat → Nat → Nat) (width i : Nat) (s : UInt8) : UInt8 :=
  if s &&& 0x80 ≠ 0 then s else s ^^^ (if expression (i % width) (i / width) = 0 then 1 else 0)

/-- `MASKMAKER`: the masked frame and its black modules. -/
def maskMaker (expression : Nat → Nat → Nat) (width : Nat) (frame : Frame) : Frame × Nat :=
  let masked := frame.mapIdx (maskModule expression width)
  (masked, masked.countP fun d => d &&& 1 ≠ 0)

def mask0 (x y : Nat) : Nat := (x + y) &&& 1

def mask1 (_ y : Nat) : Nat := y &&& 1

def mask2 (x _ : Nat) : Nat := x % 3

def mask3 (x y : Nat) : Nat := (x + y) % 3

def mask4 (x y : Nat) : Nat := (y / 2 + x / 3) &&& 1

def mask5 (x y : Nat) : Nat := (x * y &&& 1) + x * y % 3

def mask6 (x y : Nat) : Nat := ((x * y &&& 1) + x * y % 3) &&& 1

def mask7 (x y : Nat) : Nat := (x * y % 3 + ((x + y) &&& 1)) &&& 1

def maskNum : Nat := 8

def maskMakers : List (Nat → Nat → Nat) := [mask0, mask1, mask2, mask3, mask4, mask5, mask6, mask7]

/-- The frame under a mask, with the format information that names it, and its black modules
    counted as the two functions count them. -/
def masked (width : Nat) (frame : Frame) (mask : Nat) (level : QRecLevel) :
    Option (Frame × Nat) := do
  let expression ← maskMakers[mask]?
  let (frame, blacks) := maskMaker expression width frame
  let (frame, more) ← writeFormatInformation width frame mask level
  some (frame, blacks + more)

def makeMask (width : Nat) (frame : Frame) (mask : Nat) (level : QRecLevel) : Option Frame :=
  if mask ≥ maskNum then none else (masked width frame mask level).map Prod.fst

/-! ## The demerit of a symbol -/

def n1 : Int := 3

def n2 : Int := 3

def n3 : Int := 40

def n4 : Int := 10

/-- What the run at `i` adds for its length. -/
def longRun (runLength : List Int) (i : Nat) : Int :=
  let run := runLength.getD i 0
  if run ≥ 5 then n1 + (run - 5) else 0

/-- What the run at `i` adds as the middle of a finder-like pattern. -/
def finderLike (runLength : List Int) (i : Nat) : Int :=
  let run := fun j => runLength.getD j 0
  let length := runLength.length
  let fact := run i / 3
  if i % 2 = 1 ∧ i ≥ 3 ∧ i < length - 2 ∧ run i % 3 = 0 ∧
      run (i - 2) = fact ∧ run (i - 1) = fact ∧ run (i + 1) = fact ∧ run (i + 2) = fact ∧
      (i = 3 ∨ run (i - 3) ≥ 4 * fact ∨ i + 4 ≥ length ∨ run (i + 3) ≥ 4 * fact) then n3
  else 0

def calcN1N3 (runLength : List Int) : Int :=
  ((List.range runLength.length).map fun i => longRun runLength i + finderLike runLength i).sum

/-- The block whose lower right module is at `x`, `y`. -/
def block (width : Nat) (frame : Frame) (x y : Nat) : Int :=
  let p := fun k => frame.getD (y * width + x - k) 0
  let b22 := p 0 &&& p 1 &&& p width &&& p (width + 1)
  let w22 := p 0 ||| p 1 ||| p width ||| p (width + 1)
  if (b22 ||| (w22 ^^^ 1)) &&& 1 ≠ 0 then n2 else 0

def calcN2 (width : Nat) (frame : Frame) : Int :=
  ((List.range' 1 (width - 1)).map fun y =>
    ((List.range' 1 (width - 1)).map fun x => block width frame x y).sum).sum

/-- The runs of a line after a run of `length` modules that ends with `prev`. -/
def runs (prev : UInt8) (length : Int) : List UInt8 → List Int
  | [] => [length]
  | m :: line => if (m ^^^ prev) &&& 1 ≠ 0 then length :: runs m 1 line else runs prev (length + 1) line

/-- `Mask_calcRunLengthH` and `Mask_calcRunLengthV`, for the line they walk along. -/
def calcRunLength : List UInt8 → List Int
  | [] => []
  | m :: line => if m &&& 1 ≠ 0 then -1 :: runs m 1 line else runs m 1 line

def row (width : Nat) (frame : Frame) (y : Nat) : List UInt8 := (frame.drop (y * width)).take width

def column (width : Nat) (frame : Frame) (x : Nat) : List UInt8 :=
  (List.range width).map fun y => frame.getD (y * width + x) 0

def evaluateSymbol (width : Nat) (frame : Frame) : Int :=
  calcN2 width frame +
    ((List.range width).map fun y => calcN1N3 (calcRunLength (row width frame y))).sum +
    ((List.range width).map fun x => calcN1N3 (calcRunLength (column width frame x))).sum

/-- The demerit of a masked frame with so many black modules. -/
def demerit (width : Nat) (frame : Frame) (blacks : Nat) : Int :=
  let w2 : Int := width * width
  let bratio := (200 * blacks + w2) / w2 / 2
  (bratio - 50).natAbs / 5 * n4 + evaluateSymbol width frame

def intMax : Int := 2 ^ 31 - 1

/-- A pass of the loop of `Mask_mask` over `minDemerit` and `bestMask`, which has no content
    before a mask is copied to it. -/
def maskStep (width : Nat) (frame : Frame) (level : QRecLevel) (best : Int × Option Frame)
    (i : Nat) : Option (Int × Option Frame) := do
  let (mask, blacks) ← masked width frame i level
  let demerit := demerit width mask blacks
  some (if demerit < best.1 then (demerit, some mask) else best)

def mask (width : Nat) (frame : Frame) (level : QRecLevel) : Option Frame := do
  let best ← (List.range maskNum).foldlM (maskStep width frame level) (intMax, none)
  best.2

/-! ## Masking twice -/

theorem marked_xor_one (s : UInt8) : (s ^^^ 1) &&& 0x80 = s &&& 0x80 := by
  have each : ∀ n < 256, (UInt8.ofNat n ^^^ 1) &&& 0x80 = UInt8.ofNat n &&& 0x80 := by
    decide +kernel
  simpa only [UInt8.ofNat_toNat] using each s.toNat s.toNat_lt

theorem maskModule_marked {s : UInt8} (expression : Nat → Nat → Nat) (width i : Nat) :
    maskModule expression width i s &&& 0x80 = s &&& 0x80 := by
  rw [maskModule]
  split
  · rfl
  · split
    · exact marked_xor_one s
    · rw [UInt8.xor_zero]

/-- A mask is its own inverse. -/
theorem maskModule_involutive (expression : Nat → Nat → Nat) (width i : Nat) (s : UInt8) :
    maskModule expression width i (maskModule expression width i s) = s := by
  by_cases marked : s &&& 0x80 = 0
  · have still := (maskModule_marked (s := s) expression width i).trans marked
    rw [maskModule, if_neg (not_not.mpr still), maskModule, if_neg (not_not.mpr marked),
      UInt8.xor_assoc, UInt8.xor_self, UInt8.xor_zero]
  · rw [maskModule, maskModule, if_pos marked, if_pos marked]

/-! ## The choice of a mask -/

/-- Keeping what is strictly less than all before it leads to the first of the least. -/
theorem keepLeast {β : Type} (cost : Nat → Int) (item : Nat → β) {limit : Int} {n : Nat}
    (low : ∀ i < n, cost i < limit) (positive : 0 < n) :
    ∃ k < n, (∀ j < n, cost k ≤ cost j) ∧ (∀ j < k, cost k < cost j) ∧
      (List.range n).foldl
        (fun best i => if cost i < best.1 then (cost i, some (item i)) else best) (limit, none) =
          (cost k, some (item k)) := by
  induction n with
  | zero => exact absurd positive (lt_irrefl 0)
  | succ n ih =>
      rw [List.range_succ, List.foldl_append, List.foldl_cons, List.foldl_nil]
      rcases Nat.eq_zero_or_pos n with rfl | some
      · refine ⟨0, positive, fun j below => ?_, fun j below => absurd below (Nat.not_lt_zero j), ?_⟩
        · rw [Nat.lt_one_iff.mp below]
        · exact if_pos (low 0 positive)
      · obtain ⟨k, inside, least, first, fold⟩ := ih (fun i below => low i (by omega)) some
        rw [fold]
        by_cases less : cost n < cost k
        · refine ⟨n, Nat.lt_succ_self n, fun j below => ?_, fun j below => ?_, if_pos less⟩
          · rcases Nat.lt_succ_iff_lt_or_eq.mp below with before | rfl
            · exact less.le.trans (least j before)
            · exact le_refl _
          · exact lt_of_lt_of_le less (least j below)
        · refine ⟨k, Nat.lt_succ_of_lt inside, fun j below => ?_, first, if_neg less⟩
          rcases Nat.lt_succ_iff_lt_or_eq.mp below with before | rfl
          · exact least j before
          · exact Int.not_lt.mp less

/-! ## Bounds of the demerit -/

theorem runs_shape (prev : UInt8) {length : Int} (positive : 0 < length) (line : List UInt8) :
    (runs prev length line).sum = length + line.length ∧
      (runs prev length line).length ≤ line.length + 1 ∧ ∀ run ∈ runs prev length line, 0 < run := by
  induction line generalizing prev length with
  | nil => simp [runs, positive]
  | cons m line ih =>
      rw [runs]
      split
      · obtain ⟨sum, count, each⟩ := ih m (show (0 : Int) < 1 by decide)
        refine ⟨?_, ?_, ?_⟩
        · rw [List.sum_cons, sum, List.length_cons]
          push_cast
          ring
        · simpa using count
        · exact List.forall_mem_cons.mpr ⟨positive, each⟩
      · obtain ⟨sum, count, each⟩ := ih prev (show 0 < length + 1 by omega)
        refine ⟨?_, ?_, each⟩
        · rw [sum, List.length_cons]
          push_cast
          ring
        · simpa using Nat.le_succ_of_le count

/-- What a run adds for its length alone. -/
def longRunOf (run : Int) : Int := if run ≥ 5 then n1 + (run - 5) else 0

theorem longRun_sum (runLength : List Int) :
    ((List.range runLength.length).map (longRun runLength)).sum = (runLength.map longRunOf).sum := by
  congr 1
  apply List.ext_getElem (by simp)
  intro i _ inside
  rw [List.length_map] at inside
  simp [longRun, longRunOf, inside]

theorem longRunOf_le {run : Int} (positive : 0 < run) : longRunOf run ≤ run := by
  simp only [longRunOf, n1]
  split <;> omega

theorem finderLike_le (runLength : List Int) (i : Nat) : finderLike runLength i ≤ n3 := by
  rw [finderLike]
  split
  · exact le_refl _
  · decide

theorem sum_map_le {α : Type} {f : α → Int} {bound : Int} {items : List α}
    (each : ∀ x ∈ items, f x ≤ bound) : (items.map f).sum ≤ items.length * bound := by
  have sum := List.sum_le_card_nsmul (items.map f) bound (List.forall_mem_map.mpr each)
  rwa [List.length_map, nsmul_eq_mul] at sum

theorem calcRunLength_shape {line : List UInt8} (filled : line ≠ []) :
    ((calcRunLength line).map longRunOf).sum ≤ line.length ∧
      (calcRunLength line).length ≤ line.length + 1 := by
  obtain ⟨m, line, rfl⟩ := List.exists_cons_of_ne_nil filled
  obtain ⟨sum, count, each⟩ := runs_shape m (by decide : (0 : Int) < 1) line
  have long : ((runs m 1 line).map longRunOf).sum ≤ (m :: line).length := by
    calc ((runs m 1 line).map longRunOf).sum
        ≤ ((runs m 1 line).map id).sum :=
          List.sum_le_sum fun run member => longRunOf_le (each run member)
      _ = (m :: line).length := by
          rw [List.map_id, sum, List.length_cons]
          push_cast
          ring
  rw [calcRunLength]
  split
  · refine ⟨?_, by simpa using count⟩
    rw [List.map_cons, List.sum_cons]
    exact (zero_add _).le.trans long
  · exact ⟨long, by simpa using Nat.le_succ_of_le count⟩

/-- A line adds less than its length for long runs and a constant for each run. -/
theorem calcN1N3_le {line : List UInt8} (filled : line ≠ []) :
    calcN1N3 (calcRunLength line) ≤ line.length + (line.length + 1) * n3 := by
  obtain ⟨long, count⟩ := calcRunLength_shape filled
  have finders := sum_map_le fun i (_ : i ∈ List.range (calcRunLength line).length) =>
    finderLike_le (calcRunLength line) i
  rw [calcN1N3, List.sum_map_add, longRun_sum]
  apply add_le_add long
  apply finders.trans
  apply mul_le_mul_of_nonneg_right _ (by decide)
  rw [List.length_range]
  exact_mod_cast count

theorem calcN2_le (width : Nat) (frame : Frame) : calcN2 width frame ≤ width * (width * n2) := by
  have each (x y : Nat) : block width frame x y ≤ n2 := by
    rw [block]
    split
    · exact le_refl _
    · decide
  have inner (y : Nat) :
      ((List.range' 1 (width - 1)).map fun x => block width frame x y).sum ≤ width * n2 := by
    apply (sum_map_le fun x _ => each x y).trans
    apply mul_le_mul_of_nonneg_right _ (by decide)
    simp
  apply (sum_map_le fun y _ => inner y).trans
  apply mul_le_mul_of_nonneg_right _ (by simp [n2])
  simp

theorem row_length {width y : Nat} {frame : Frame} (sized : frame.length = width * width)
    (inside : y < width) : (row width frame y).length = width := by
  have room : y * width + width ≤ width * width := by
    rw [← Nat.succ_mul]
    exact Nat.mul_le_mul_right width inside
  rw [row, List.length_take, List.length_drop, sized]
  omega

theorem column_length (width : Nat) (frame : Frame) (x : Nat) :
    (column width frame x).length = width := by
  rw [column, List.length_map, List.length_range]

/-- The lines of one direction of a symbol of at most the largest width. -/
theorem lines_le {width : Nat} (positive : 0 < width) (most : width ≤ 177) {line : Nat → List UInt8}
    (sized : ∀ k < width, (line k).length = width) :
    ((List.range width).map fun k => calcN1N3 (calcRunLength (line k))).sum ≤ 177 * 7297 := by
  have each : ∀ k ∈ List.range width, calcN1N3 (calcRunLength (line k)) ≤ 7297 := by
    intro k member
    have length := sized k (List.mem_range.mp member)
    have bound := calcN1N3_le (List.length_pos_iff.mp (length ▸ positive))
    rw [length, n3] at bound
    omega
  have sum := sum_map_le each
  rw [List.length_range] at sum
  omega

theorem bratio_le {w2 blacks : Int} (nonneg : 0 ≤ w2) (counted : 0 ≤ blacks) :
    ((200 * blacks + w2) / w2 / 2 - 50).natAbs ≤ 200 * blacks + w2 + 50 := by
  have low : 0 ≤ (200 * blacks + w2) / w2 / 2 :=
    Int.ediv_nonneg (Int.ediv_nonneg (by omega) nonneg) (by decide)
  have half := Int.ediv_le_self 2 (Int.ediv_nonneg (show 0 ≤ 200 * blacks + w2 by omega) nonneg)
  have whole := Int.ediv_le_self w2 (show 0 ≤ 200 * blacks + w2 by omega)
  omega

/-- Every demerit of a symbol of at most the largest width is below the initial minimum. -/
theorem demerit_lt {width : Nat} (positive : 0 < width) (most : width ≤ 177) {frame : Frame}
    (sized : frame.length = width * width) {blacks : Nat} (few : blacks ≤ width * width + 30) :
    demerit width frame blacks < intMax := by
  have square : width * width ≤ 177 * 177 := Nat.mul_le_mul most most
  have rows := lines_le positive most fun y inside => row_length sized inside
  have columns := lines_le positive most fun x _ => column_length width frame x
  have blocks := calcN2_le width frame
  have ratio := bratio_le (show 0 ≤ (width : Int) * width by positivity) (Int.natCast_nonneg blacks)
  have area : (width : Int) * width ≤ 177 * 177 := by exact_mod_cast square
  simp only [demerit, evaluateSymbol, intMax, n4]
  rw [n2, ← mul_assoc] at blocks
  omega

/-! ## The mask that is chosen -/

theorem indices_formatWrites (width : Nat) (format : UInt32) :
    indices (formatWrites width format) = indices (formatWrites width 0) := rfl

/-- The format information lies inside of every symbol. -/
theorem formatWrites_inside {width : Nat} (wide : 21 ≤ width) (format : UInt32) {i : Nat}
    (member : i ∈ indices (formatWrites width format)) : i < width * width := by
  have square : 21 * width ≤ width * width := Nat.mul_le_mul_right width wide
  simp only [indices, formatWrites, List.map_append, List.map_flatMap, List.map_cons, List.map_nil,
    List.mem_append, List.mem_flatMap, List.mem_range, List.mem_cons, List.not_mem_nil,
    or_false] at member
  rcases member with ⟨k, below, rfl | rfl⟩ | ⟨k, below, rfl | rfl⟩
  · omega
  · split
    · have := Nat.mul_le_mul_left width (show k ≤ 8 by omega)
      omega
    · have := Nat.mul_le_mul_left width (show k + 1 ≤ 8 by omega)
      omega
  · have last := Nat.mul_le_mul_left width (show width - 7 + k ≤ width - 1 by omega)
    rw [Nat.mul_sub_one] at last
    omega
  · split <;> omega

/-- The demerit of a frame under one of the masks. -/
def maskDemerit (width : Nat) (frame : Frame) (level : QRecLevel) (i : Nat) : Option Int :=
  (masked width frame i level).map fun m => demerit width m.1 m.2

theorem masked_some {width i : Nat} (wide : 21 ≤ width) {frame : Frame}
    (sized : frame.length = width * width) (level : QRecLevel) (known : i < maskNum) :
    ∃ expression, maskMakers[i]? = some expression ∧
      masked width frame i level = some
        (applied (formatWrites width (getFormatInfo i level)) (maskMaker expression width frame).1,
          (maskMaker expression width frame).2 + formatBlacks (getFormatInfo i level)) := by
  have entry : maskMakers[i]? = some maskMakers[i] := List.getElem?_eq_getElem known
  refine ⟨_, entry, ?_⟩
  have inside : ∀ k ∈ indices (formatWrites width (getFormatInfo i level)),
      k < (maskMaker maskMakers[i] width frame).1.length := fun k member => by
    simpa [maskMaker, sized] using formatWrites_inside wide _ member
  have done := stored_eq inside
  simp only [masked, writeFormatInformation, entry, Option.bind_eq_bind, Option.bind_some, done]

/-- Masking a masked frame again leaves the frame with the format information. -/
theorem makeMask_twice {width i : Nat} (wide : 21 ≤ width) {frame shown : Frame}
    (sized : frame.length = width * width) {level : QRecLevel}
    (done : makeMask width frame i level = some shown) :
    makeMask width shown i level =
      some (applied (formatWrites width (getFormatInfo i level)) frame) := by
  have known : ¬ i ≥ maskNum := by
    intro large
    simp [makeMask, large] at done
  obtain ⟨expression, entry, first⟩ := masked_some wide sized level (Nat.not_le.mp known)
  rw [makeMask, if_neg known, first, Option.map_some, Option.some.injEq] at done
  have again : shown.length = width * width := by simp [← done, maskMaker, sized]
  obtain ⟨same, entry', second⟩ := masked_some wide again level (Nat.not_le.mp known)
  obtain rfl : expression = same := Option.some.inj (entry.symm.trans entry')
  rw [makeMask, if_neg known, second, Option.map_some, Option.some.injEq]
  apply applied_congr
  · simp [maskMaker, again, sized]
  · intro k untouched
    rw [maskMaker, List.getElem?_mapIdx, ← done, applied_untouched untouched, maskMaker,
      List.getElem?_mapIdx, Option.map_map]
    simp [Function.comp_def, maskModule_involutive]

theorem maskDemerit_some {width i : Nat} (wide : 21 ≤ width) (most : width ≤ 177) {frame : Frame}
    (sized : frame.length = width * width) (level : QRecLevel) (known : i < maskNum) :
    ∃ shown blacks, masked width frame i level = some (shown, blacks) ∧
      makeMask width frame i level = some shown ∧
      maskDemerit width frame level i = some (demerit width shown blacks) ∧
      demerit width shown blacks < intMax := by
  obtain ⟨expression, _, done⟩ := masked_some wide sized level known
  refine ⟨_, _, done, ?_, ?_, ?_⟩
  · rw [makeMask, if_neg (Nat.not_le.mpr known), done, Option.map_some]
  · rw [maskDemerit, done, Option.map_some]
  · apply demerit_lt (by omega) most (by simp [maskMaker, sized])
    have black := List.countP_le_length (l := (maskMaker expression width frame).1)
      (p := fun d => d &&& 1 ≠ 0)
    have format := List.countP_le_length (l := List.range 15)
      (p := fun k => (getFormatInfo i level >>> UInt32.ofNat k) &&& 1 ≠ 0)
    rw [List.length_range] at format
    simp only [maskMaker, List.length_mapIdx, sized] at black ⊢
    rw [formatBlacks]
    omega

theorem foldlM_some {α β : Type} {f : β → α → Option β} {g : β → α → β} {items : List α}
    (each : ∀ x ∈ items, ∀ b, f b x = some (g b x)) (start : β) :
    items.foldlM f start = some (items.foldl g start) := by
  induction items generalizing start with
  | nil => rfl
  | cons x items ih =>
      rw [List.foldlM_cons, each x List.mem_cons_self, List.foldl_cons]
      exact ih (fun y member => each y (List.mem_cons_of_mem _ member)) _

/-- `Mask_mask` returns the first of the eight masked frames with the least demerit. -/
theorem mask_least {width : Nat} (wide : 21 ≤ width) (most : width ≤ 177) {frame : Frame}
    (sized : frame.length = width * width) (level : QRecLevel) :
    ∃ choice < maskNum, ∃ least,
      (∃ shown, mask width frame level = some shown ∧
        makeMask width frame choice level = some shown) ∧
      maskDemerit width frame level choice = some least ∧
      ∀ other < maskNum, ∃ d, maskDemerit width frame level other = some d ∧ least ≤ d ∧
        (other < choice → least < d) := by
  have each : ∀ i, ∃ shown : Frame × Nat, i < maskNum → masked width frame i level = some shown ∧
      makeMask width frame i level = some shown.1 ∧
      maskDemerit width frame level i = some (demerit width shown.1 shown.2) ∧
      demerit width shown.1 shown.2 < intMax := by
    intro i
    by_cases known : i < maskNum
    · obtain ⟨shown, blacks, done⟩ := maskDemerit_some wide most sized level known
      exact ⟨(shown, blacks), fun _ => done⟩
    · exact ⟨([], 0), fun other => absurd other known⟩
  choose shown done using each
  obtain ⟨choice, known, least, first, fold⟩ :=
    keepLeast (fun i => demerit width (shown i).1 (shown i).2) (fun i => (shown i).1)
      (fun i known => (done i known).2.2.2) (by decide)
  refine ⟨choice, known, _, ⟨(shown choice).1, ?_, (done choice known).2.1⟩,
    (done choice known).2.2.1, ?_⟩
  · rw [mask, foldlM_some (fun i member best => ?_), fold]
    · rfl
    · rw [maskStep, (done i (List.mem_range.mp member)).1]
      rfl
  · intro other inside
    exact ⟨_, (done other inside).2.2.1, least other inside, first other⟩

end AssistedDump.Mask
