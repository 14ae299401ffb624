import AssistedDump.Qrencode.Frame

/-! # The frame filler of qrencode.c

The filler runs up and down through pairs of columns, from the lower right corner
of a symbol on, and stops at the modules of no function pattern. Column 6 is left
out, with the upper ends of the two columns that follow it.
-/

namespace AssistedDump.QrEncode

open QrSpec

structure FrameFiller where
  width : Int
  x : Int
  y : Int
  dir : Int
  bit : Int
  deriving DecidableEq

namespace FrameFiller

def set (width : Nat) : FrameFiller := ⟨width, width - 1, width - 1, -1, -1⟩

/-- `FrameFiller_next` from the copies of the fields to the assignment back to them. `none` is
    `NULL`. -/
def advance (filler : FrameFiller) : Option FrameFiller :=
  let (x, y, bit) :=
    if filler.bit = 0 then (filler.x - 1, filler.y, filler.bit + 1)
    else (filler.x + 1, filler.y + filler.dir, filler.bit - 1)
  let (x, y, dir) :=
    if filler.dir < 0 then
      if y < 0 then
        if x - 2 = 6 then (x - 2 - 1, 9, 1) else (x - 2, 0, 1)
      else (x, y, filler.dir)
    else if y = filler.width then
      if x - 2 = 6 then (x - 2 - 1, filler.width - 1 - 8, -1) else (x - 2, filler.width - 1, -1)
    else (x, y, filler.dir)
  if x < 0 ∨ y < 0 then none else some { filler with x := x, y := y, dir := dir, bit := bit }

/-- The index of a module, as an offset from the start of the frame. -/
def index (filler : FrameFiller) : Nat := (filler.y * filler.width + filler.x).toNat

/-- `FrameFiller_next` once `bit` is set, for at most so many calls of itself. A module outside of
    the frame is not read. -/
def seek : Nat → Frame → FrameFiller → Option (Nat × FrameFiller)
  | 0, _, _ => none
  | calls + 1, frame, filler => do
      let filler ← advance filler
      let m ← frame[filler.index]?
      if m &&& 0x80 ≠ 0 then seek calls frame filler else some (filler.index, filler)

/-- `FrameFiller_next`, with the index it points to. Every call of itself moves to another module,
    so there are fewer of them than modules. -/
def next (filler : FrameFiller) (frame : Frame) : Option (Nat × FrameFiller) :=
  if filler.bit = -1 then some (filler.index, { filler with bit := 0 })
  else seek frame.length frame filler

end FrameFiller

/-- Values put one after another where the filler leads. -/
def fill : FrameFiller → Frame → List UInt8 → Option (FrameFiller × Frame)
  | filler, frame, [] => some (filler, frame)
  | filler, frame, value :: values => do
      let (index, filler) ← filler.next frame
      let frame ← stored [(index, value)] frame
      fill filler frame values

namespace FrameFiller

/-! ## The four moves -/

variable {w x y d : Int}

theorem advance_left (positive : 0 < x) (low : 0 ≤ y) (high : y < w) :
    advance ⟨w, x, y, d, 0⟩ = some ⟨w, x - 1, y, d, 1⟩ := by
  simp only [advance, if_true, if_neg (not_lt.mpr low), if_neg high.ne, ite_self]
  exact if_neg (by omega)

theorem advance_row (nonneg : 0 ≤ x) (low : 0 ≤ y + d) (high : y + d < w) :
    advance ⟨w, x, y, d, 1⟩ = some ⟨w, x + 1, y + d, d, 0⟩ := by
  simp only [advance, one_ne_zero, if_false, if_neg (not_lt.mpr low), if_neg high.ne, ite_self]
  exact if_neg (by omega)

theorem advance_top (nonneg : 0 < x) :
    advance ⟨w, x, 0, -1, 1⟩ =
      some (if x = 7 then ⟨w, 5, 9, 1, 0⟩ else ⟨w, x - 1, 0, 1, 0⟩) := by
  by_cases skipping : x = 7
  · subst skipping
    rfl
  · have other : ¬ x + 1 - 2 = 6 := by omega
    simp [advance, other, skipping]
    omega

theorem advance_bottom (tall : 8 < w) (nonneg : 0 < x) (other : x ≠ 7) :
    advance ⟨w, x, w - 1, 1, 1⟩ = some ⟨w, x - 1, w - 1, -1, 0⟩ := by
  have elsewhere : ¬ x + 1 - 2 = 6 := by omega
  simp [advance, elsewhere]
  omega

/-- The way ends at the left edge. -/
theorem advance_end (last : y + d < 0 ∧ d < 0 ∨ y + d = w ∧ 0 < d) :
    advance ⟨w, 0, y, d, 1⟩ = none := by
  rcases last with ⟨top, up⟩ | ⟨bottom, down⟩
  · simp [advance, top, up]
  · simp [advance, bottom, not_lt.mpr down.le]

/-! ## The way of the filler -/

/-- The first of the column pairs left of column 6. -/
def turn (width : Nat) : Nat := (width - 7) / 2

/-- The right column of a pair. -/
def right (width p : Nat) : Nat := width - 1 - 2 * p - if turn width ≤ p then 1 else 0

/-- The module the filler passes as number `q` of column pair `p`. -/
def cell (width p q : Nat) : Nat × Nat :=
  (right width p - q % 2, if p % 2 = 0 then width - 1 - q / 2 else q / 2)

/-- The upper end of the columns after column 6 is not passed. -/
def entry (width p : Nat) : Nat := if p = turn width then 18 else 0

def pairs (width : Nat) : Nat := (width - 1) / 2

/-- The width of a symbol, of any version. -/
structure Wide (width : Nat) : Prop where
  least : 21 ≤ width
  four : width % 4 = 1

/-- The filler at a module. -/
def stateAt (width p q : Nat) : FrameFiller where
  width := width
  x := (cell width p q).1
  y := (cell width p q).2
  dir := if p % 2 = 0 then -1 else 1
  bit := (q % 2 : Nat)

variable {width p q : Nat}

theorem right_spec (wide : Wide width) (pair : p < pairs width) :
    1 ≤ right width p ∧ (p < turn width → right width p = width - 1 - 2 * p) ∧
      (turn width ≤ p → right width p = width - 2 - 2 * p) ∧ turn width % 2 = 1 ∧
      2 * turn width = width - 7 ∧ turn width < pairs width := by
  obtain ⟨least, four⟩ := wide
  by_cases after : turn width ≤ p
  · simp only [right, if_pos after]
    simp only [pairs, turn] at *
    omega
  · simp only [right, if_neg after]
    simp only [pairs, turn] at *
    omega

/-- Inside a pair of columns the filler goes on by one module. -/
theorem advance_within (wide : Wide width) (pair : p < pairs width) (inside : q + 1 < 2 * width) :
    advance (stateAt width p q) = some (stateAt width p (q + 1)) := by
  obtain ⟨positive, _⟩ := right_spec wide pair
  rcases Nat.mod_two_eq_zero_or_one q with even | odd
  · have next : (q + 1) % 2 = 1 := by omega
    have same : (q + 1) / 2 = q / 2 := by omega
    have move := advance_left (w := width) (x := right width p) (y := (cell width p q).2)
      (d := if p % 2 = 0 then -1 else 1) (by omega) (by omega)
      (by simp only [cell]; split <;> omega)
    simp only [stateAt, cell, even, next, same, Nat.sub_zero] at move ⊢
    refine move.trans ?_
    congr 2
    omega
  · have next : (q + 1) % 2 = 0 := by omega
    have below : (q + 1) / 2 = q / 2 + 1 := by omega
    have move := advance_row (w := width) (x := (right width p - 1 : Nat))
      (y := (cell width p q).2) (d := if p % 2 = 0 then -1 else 1) (by omega)
      (by simp only [cell]; split <;> omega) (by simp only [cell]; split <;> omega)
    simp only [stateAt, cell, odd, next, below, Nat.sub_zero] at move ⊢
    refine move.trans ?_
    congr 2
    · omega
    · split <;> omega

/-- Every pair but the last has another one on its left. -/
theorem right_succ (wide : Wide width) (pair : p + 1 < pairs width) :
    2 < right width p ∧ (p + 1 = turn width → right width p = 8 ∧ right width (p + 1) = 5) ∧
      (p + 1 ≠ turn width → right width p ≠ 8 ∧ right width (p + 1) + 2 = right width p) := by
  obtain ⟨_, before, after, _, middle, _⟩ := right_spec wide (Nat.lt_of_succ_lt pair)
  obtain ⟨_, before', after', _⟩ := right_spec wide pair
  have := wide.least
  have := wide.four
  simp only [pairs] at pair
  rcases Nat.lt_trichotomy (p + 1) (turn width) with early | here | late
  · have := before (by omega)
    have := before' early
    omega
  · have := before (by omega)
    have := after' here.ge
    omega
  · have := after (by omega)
    have := after' late.le
    omega

/-- At the end of a pair the filler turns to the next one. -/
theorem advance_turn (wide : Wide width) (pair : p + 1 < pairs width) :
    advance (stateAt width p (2 * width - 1)) =
      some (stateAt width (p + 1) (entry width (p + 1))) := by
  have least := wide.least
  have half : (2 * width - 1) / 2 = width - 1 := by omega
  have odd : (2 * width - 1) % 2 = 1 := by omega
  have turned := (right_spec wide pair).2.2.2.1
  obtain ⟨two, skipping, going⟩ := right_succ wide pair
  rcases Nat.mod_two_eq_zero_or_one p with up | down
  · have next : (p + 1) % 2 = 1 := by omega
    have move := advance_top (w := width) (x := (right width p - 1 : Nat)) (by omega)
    simp only [stateAt, cell, half, odd, up, next, if_true, Nat.sub_self, one_ne_zero, if_false]
    refine move.trans ?_
    by_cases here : p + 1 = turn width
    · obtain ⟨eight, five⟩ := skipping here
      simp only [entry, if_pos here, eight, five]
      rfl
    · obtain ⟨other, below⟩ := going here
      have elsewhere : ¬ ((right width p - 1 : Nat) : Int) = 7 := by omega
      have column : ((right width p - 1 : Nat) : Int) - 1 = right width (p + 1) := by omega
      simp [entry, here, elsewhere, column]
  · have next : (p + 1) % 2 = 0 := by omega
    have here : p + 1 ≠ turn width := by omega
    obtain ⟨other, below⟩ := going here
    have move := advance_bottom (w := width) (x := (right width p - 1 : Nat)) (by omega) (by omega)
      (by omega)
    have column : ((right width p - 1 : Nat) : Int) - 1 = right width (p + 1) := by omega
    have bottom : ((width - 1 : Nat) : Int) = width - 1 := by omega
    simp only [stateAt, cell, half, odd, down, next, if_true, one_ne_zero, if_false, bottom]
    refine move.trans ?_
    simp [entry, here, column, bottom]

theorem advance_last (wide : Wide width) (pair : p + 1 = pairs width) :
    advance (stateAt width p (2 * width - 1)) = none := by
  have least := wide.least
  have half : (2 * width - 1) / 2 = width - 1 := by omega
  have odd : (2 * width - 1) % 2 = 1 := by omega
  obtain ⟨_, before, after, _, middle, _⟩ := right_spec wide (Nat.lt_of_succ_le pair.le)
  have one : right width p - 1 = 0 := by
    have := wide.four
    simp only [pairs] at pair
    rw [after (by omega)]
    omega
  simp only [stateAt, cell, half, odd, one]
  apply advance_end
  split
  · left
    omega
  · right
    omega

/-- The fillers a filler becomes by its moves, until the end. -/
def Walks : FrameFiller → List FrameFiller → Prop
  | filler, [] => advance filler = none
  | filler, next :: rest => advance filler = some next ∧ Walks next rest

def sweepStates (width p : Nat) : List FrameFiller :=
  (List.range' (entry width p) (2 * width - entry width p)).map (stateAt width p)

def trail (width : Nat) : List FrameFiller := (List.range' 0 (pairs width)).flatMap (sweepStates width)

/-- The rest of a pair, and what follows its last module. -/
theorem walks_sweep (wide : Wide width) (pair : p < pairs width) {rest : List FrameFiller}
    (after : Walks (stateAt width p (2 * width - 1)) rest) {n : Nat} (whole : q + n + 1 = 2 * width) :
    Walks (stateAt width p q) ((List.range' (q + 1) n).map (stateAt width p) ++ rest) := by
  induction n generalizing q with
  | zero =>
      obtain rfl : q = 2 * width - 1 := by omega
      exact after
  | succ n ih =>
      rw [List.range'_succ, List.map_cons, List.cons_append]
      exact ⟨advance_within wide pair (by omega), ih (by omega)⟩

theorem sweepStates_cons (wide : Wide width) (p : Nat) :
    sweepStates width p = stateAt width p (entry width p) ::
      (List.range' (entry width p + 1) (2 * width - entry width p - 1)).map (stateAt width p) := by
  have short : entry width p < 2 * width := by
    have := wide.least
    simp only [entry]
    split <;> omega
  obtain ⟨n, length⟩ : ∃ n, 2 * width - entry width p = n + 1 :=
    ⟨2 * width - entry width p - 1, by omega⟩
  rw [sweepStates, length, List.range'_succ, List.map_cons, Nat.add_sub_cancel]

theorem entry_lt (wide : Wide width) (p : Nat) : entry width p < 2 * width := by
  have := wide.least
  simp only [entry]
  split <;> omega

/-- The rest of the way from the end of a pair. -/
theorem walks_pairs (wide : Wide width) {m : Nat} (whole : p + 1 + m = pairs width) :
    Walks (stateAt width p (2 * width - 1))
      ((List.range' (p + 1) m).flatMap (sweepStates width)) := by
  induction m generalizing p with
  | zero => exact advance_last wide whole
  | succ m ih =>
      have short := entry_lt wide (p + 1)
      rw [List.range'_succ, List.flatMap_cons, sweepStates_cons wide, List.cons_append]
      refine ⟨advance_turn wide (by omega), ?_⟩
      exact walks_sweep wide (by omega) (ih (by omega)) (by omega)

theorem start_spec (wide : Wide width) :
    0 < pairs width ∧ entry width 0 = 0 ∧ right width 0 = width - 1 := by
  have least := wide.least
  have some : 0 < pairs width := by
    simp only [pairs]
    omega
  obtain ⟨_, before, _, turned, _, _⟩ := right_spec wide some
  exact ⟨some, if_neg (by omega), by rw [before (by omega)]; omega⟩

/-- From the lower right corner the filler passes the whole trail. -/
theorem walks_trail (wide : Wide width) :
    ∃ rest, trail width = stateAt width 0 0 :: rest ∧ Walks (stateAt width 0 0) rest := by
  obtain ⟨some, start, _⟩ := start_spec wide
  have least := wide.least
  obtain ⟨m, count⟩ : ∃ m, pairs width = m + 1 := ⟨pairs width - 1, by omega⟩
  have split : trail width = stateAt width 0 0 ::
      ((List.range' 1 (2 * width - 1)).map (stateAt width 0) ++
        (List.range' 1 m).flatMap (sweepStates width)) := by
    rw [trail, count, List.range'_succ, List.flatMap_cons, sweepStates_cons wide, start,
      List.cons_append]
    rfl
  refine ⟨_, split, walks_sweep wide some (walks_pairs wide (by omega)) (by omega)⟩

theorem set_eq (wide : Wide width) : { set width with bit := 0 } = stateAt width 0 0 := by
  obtain ⟨_, _, column⟩ := start_spec wide
  have least := wide.least
  simp only [set, stateAt, cell, column]
  congr 1
  · omega
  · simp
    omega

/-! ## The modules on the way -/

theorem cell_lt (wide : Wide width) (pair : p < pairs width) (inside : q < 2 * width) :
    (cell width p q).1 < width ∧ (cell width p q).2 < width := by
  obtain ⟨positive, before, after, _, middle, _⟩ := right_spec wide pair
  have least := wide.least
  have column : right width p < width := by
    rcases Nat.lt_or_ge p (turn width) with early | late
    · rw [before early]
      omega
    · rw [after late]
      omega
  simp only [cell]
  split <;> omega

theorem index_stateAt (width p q : Nat) :
    (stateAt width p q).index = (cell width p q).2 * width + (cell width p q).1 := by
  simp only [index, stateAt]
  omega

/-- A pair is told by its columns, a module by its place in the pair. -/
theorem cell_injective (wide : Wide width) {p' q' : Nat} (pair : p < pairs width)
    (pair' : p' < pairs width) (inside : q < 2 * width) (inside' : q' < 2 * width)
    (same : cell width p q = cell width p' q') : p = p' ∧ q = q' := by
  obtain ⟨_, before, after, _, middle, _⟩ := right_spec wide pair
  obtain ⟨_, before', after', _, _, _⟩ := right_spec wide pair'
  have least := wide.least
  obtain ⟨column, row⟩ := Prod.mk.inj same
  simp only [pairs] at pair pair'
  have equal : p = p' := by
    rcases Nat.lt_or_ge p (turn width) with early | late <;>
      rcases Nat.lt_or_ge p' (turn width) with early' | late'
    · rw [before early, before' early'] at column
      omega
    · rw [before early, after' late'] at column
      omega
    · rw [after late, before' early'] at column
      omega
    · rw [after late, after' late'] at column
      omega
  subst equal
  refine ⟨rfl, ?_⟩
  by_cases up : p % 2 = 0
  · rw [if_pos up, if_pos up] at row
    omega
  · rw [if_neg up, if_neg up] at row
    omega

theorem mem_trail (wide : Wide width) {filler : FrameFiller} :
    filler ∈ trail width ↔ ∃ p q, p < pairs width ∧ entry width p ≤ q ∧ q < 2 * width ∧
      stateAt width p q = filler := by
  have short := entry_lt wide
  simp only [trail, sweepStates, List.mem_flatMap, List.mem_map, List.mem_range'_1]
  constructor
  · rintro ⟨p, ⟨_, pair⟩, q, ⟨low, high⟩, rfl⟩
    exact ⟨p, q, by omega, low, by have := short p; omega, rfl⟩
  · rintro ⟨p, q, pair, low, high, rfl⟩
    exact ⟨p, ⟨Nat.zero_le p, by omega⟩, q, ⟨low, by omega⟩, rfl⟩

/-- The indices of the modules on the way. -/
def trailIndices (width : Nat) : List Nat := (trail width).map index

/-- An index tells its row and its column. -/
theorem rowMajor_injective {x y x' y' : Nat} (inX : x < width) (inX' : x' < width)
    (same : y * width + x = y' * width + x') : x = x' ∧ y = y' := by
  have positive : 0 < width := Nat.zero_lt_of_lt inX
  constructor
  · have columns := congrArg (· % width) same
    simpa only [Nat.mul_add_mod_self_right, Nat.mod_eq_of_lt inX, Nat.mod_eq_of_lt inX'] using columns
  · have rows := congrArg (· / width) same
    simpa only [Nat.add_comm (_ * width), Nat.add_mul_div_right _ _ positive,
      Nat.div_eq_of_lt inX, Nat.div_eq_of_lt inX', Nat.zero_add] using rows

theorem index_injective (wide : Wide width) {p' q' : Nat} (pair : p < pairs width)
    (pair' : p' < pairs width) (inside : q < 2 * width) (inside' : q' < 2 * width)
    (same : (stateAt width p q).index = (stateAt width p' q').index) : p = p' ∧ q = q' := by
  rw [index_stateAt, index_stateAt] at same
  obtain ⟨columns, rows⟩ := rowMajor_injective (cell_lt wide pair inside).1
    (cell_lt wide pair' inside').1 same
  exact cell_injective wide pair pair' inside inside' (Prod.ext columns rows)

/-- No module is passed twice. -/
theorem trailIndices_nodup (wide : Wide width) : (trailIndices width).Nodup := by
  have within (p q : Nat) (member : q ∈ List.range' (entry width p) (2 * width - entry width p)) :
      q < 2 * width := by
    have := entry_lt wide p
    rw [List.mem_range'_1] at member
    omega
  rw [trailIndices, trail, List.map_flatMap, List.nodup_flatMap]
  constructor
  · intro p member
    have pair : p < pairs width := by simpa using member
    rw [sweepStates, List.map_map]
    apply List.Nodup.map_on _ List.nodup_range'
    intro q inside q' inside' same
    exact (index_injective wide pair pair (within p q inside) (within p q' inside') same).2
  · apply List.Nodup.pairwise_of_forall_ne List.nodup_range'
    intro p member p' member' different i shared shared'
    have pair : p < pairs width := by simpa using member
    have pair' : p' < pairs width := by simpa using member'
    simp only [sweepStates, List.map_map, List.mem_map, Function.comp_apply] at shared shared'
    obtain ⟨q, inside, rfl⟩ := shared
    obtain ⟨q', inside', same⟩ := shared'
    exact different (index_injective wide pair' pair (within p' q' inside') (within p q inside) same).1.symm

/-- The way leads to every module beside column 6 and the modules that are skipped after it. -/
theorem mem_trailIndices (wide : Wide width) {x y : Nat} (inX : x < width) (inY : y < width) :
    y * width + x ∈ trailIndices width ↔ x ≠ 6 ∧ ¬ (4 ≤ x ∧ x < 6 ∧ y < 9) := by
  have least := wide.least
  have four := wide.four
  simp only [trailIndices, List.mem_map, mem_trail wide]
  constructor
  · rintro ⟨_, ⟨p, q, pair, low, high, rfl⟩, same⟩
    rw [index_stateAt] at same
    obtain ⟨column, row⟩ := rowMajor_injective (cell_lt wide pair high).1 inX same
    obtain ⟨_, before, after, turned, middle, _⟩ := right_spec wide pair
    simp only [cell, entry] at column row low
    rcases Nat.lt_or_ge p (turn width) with early | late
    · rw [before early] at column
      omega
    · rw [after late] at column
      split at low <;> split at row <;> omega
  · intro outside
    obtain ⟨p, bit, pair, small, column⟩ : ∃ p bit, p < pairs width ∧ bit < 2 ∧
        right width p = x + bit := by
      have reached : ∀ p, p < pairs width → (p < turn width → width - 1 - 2 * p = x + x % 2) →
          (turn width ≤ p → width - 2 - 2 * p = x + (1 - x % 2)) →
          ∃ p bit, p < pairs width ∧ bit < 2 ∧ right width p = x + bit := by
        intro p pair early late
        obtain ⟨_, before, after, _⟩ := right_spec wide pair
        rcases Nat.lt_or_ge p (turn width) with inEarly | inLate
        · exact ⟨p, x % 2, pair, by omega, by rw [before inEarly, early inEarly]⟩
        · exact ⟨p, 1 - x % 2, pair, by omega, by rw [after inLate, late inLate]⟩
      rcases Nat.lt_or_ge x 7 with low | high
      · apply reached ((width - 2 - x) / 2) <;> simp only [pairs, turn] <;> omega
      · apply reached ((width - 1 - x) / 2) <;> simp only [pairs, turn] <;> omega
    obtain ⟨_, before, after, turned, middle, _⟩ := right_spec wide pair
    refine ⟨_, ⟨p, 2 * (if p % 2 = 0 then width - 1 - y else y) + bit, pair, ?_, ?_, rfl⟩, ?_⟩
    · simp only [entry]
      split
      · next here =>
          have five := after here.ge
          rw [if_neg (by omega)]
          omega
      · exact Nat.zero_le _
    · split <;> omega
    · have place : cell width p (2 * (if p % 2 = 0 then width - 1 - y else y) + bit) = (x, y) := by
        apply Prod.ext
        · simp only [cell, column]
          omega
        · simp only [cell]
          split <;> omega
      rw [index_stateAt, place]

end FrameFiller

end AssistedDump.QrEncode
