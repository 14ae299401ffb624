import Mathlib.Data.List.Nodup
import Mathlib.Data.List.Perm.Subperm
import Mathlib.Data.List.Range
import Mathlib.Tactic.Common
import Mathlib.Tactic.Ring

/-! # Pieces of a list and the columns of ragged rows

A list in pieces of one length. Rows of `size` elements followed by rows of one
element more, one after another in memory, and the order that takes the elements
column by column.
-/

namespace AssistedDump

variable {α : Type}

/-- The pieces of `size` elements, in order. -/
def pieces (size count : Nat) (items : List α) : List (List α) :=
  (List.range count).map fun i => (items.drop (size * i)).take size

theorem pieces_flatten (size count : Nat) (items : List α) :
    (pieces size count items).flatten = items.take (size * count) := by
  induction count with
  | zero => rw [Nat.mul_zero, List.take_zero]; rfl
  | succ count ih =>
      rw [pieces, List.range_succ, List.map_append, List.flatten_append, ← pieces, ih,
        List.map_singleton, List.flatten_singleton, Nat.mul_succ, List.take_add]

/-- An element of lists of one length in a row. -/
theorem getElem?_flatMap {β : Type} {f : α → List β} {size : Nat} (sized : ∀ x, (f x).length = size)
    (items : List α) (i : Nat) {j : Nat} (inside : j < size) :
    (items.flatMap f)[size * i + j]? = (items[i]?).bind fun x => (f x)[j]? := by
  induction items generalizing i with
  | nil => simp
  | cons x items ih =>
      rw [List.flatMap_cons]
      cases i with
      | zero =>
          rw [Nat.mul_zero, Nat.zero_add, List.getElem?_append_left (by rw [sized]; exact inside)]
          rfl
      | succ i =>
          rw [List.getElem?_append_right (by rw [sized, Nat.mul_succ]; omega), sized, Nat.mul_succ,
            List.getElem?_cons_succ, ← ih i]
          congr 1
          omega

namespace Ragged

/-- `short` rows of `size` elements and `long` rows of `size + 1`. -/
structure Shape where
  short : Nat
  long : Nat
  size : Nat

namespace Shape

variable (shape : Shape)

def rows : Nat := shape.short + shape.long

def total : Nat := shape.short * shape.size + shape.long * (shape.size + 1)

def width (row : Nat) : Nat := if row < shape.short then shape.size else shape.size + 1

/-- Where a row starts in memory. -/
def start (row : Nat) : Nat := shape.size * row + (row - shape.short)

/-- The column and the row of the element that is taken as number `i`. -/
def column (i : Nat) : Nat := i / shape.rows

def row (i : Nat) : Nat :=
  i % shape.rows + if shape.column i ≥ shape.size then shape.short else 0

def place (i : Nat) : Nat := shape.start (shape.row i) + shape.column i

theorem total_eq : shape.total = shape.rows * shape.size + shape.long := by
  rw [total, rows]
  ring

theorem start_succ (row : Nat) : shape.start (row + 1) = shape.start row + shape.width row := by
  rw [start, start, width, Nat.mul_succ]
  split <;> omega

theorem start_mono {first second : Nat} (before : first ≤ second) :
    shape.start first ≤ shape.start second :=
  Nat.add_le_add (Nat.mul_le_mul_left _ before) (Nat.sub_le_sub_right before _)

theorem start_rows : shape.start shape.rows = shape.total := by
  rw [start, total_eq, rows, Nat.add_sub_cancel_left, Nat.mul_comm]

variable {shape}

theorem column_le {i : Nat} (inside : i < shape.total) : shape.column i ≤ shape.size := by
  have rows := shape.total_eq
  have long : shape.long ≤ shape.rows := Nat.le_add_left _ _
  apply Nat.le_of_lt_succ
  apply Nat.div_lt_of_lt_mul
  rw [Nat.mul_succ]
  omega

/-- Past the last column of the short rows only long rows are left. -/
theorem last_column {i : Nat} (inside : i < shape.total) (last : shape.column i ≥ shape.size) :
    i % shape.rows < shape.long := by
  have split := Nat.div_add_mod i shape.rows
  have low := Nat.mul_le_mul_left shape.rows last
  have rows := shape.total_eq
  rw [column] at low
  omega

theorem row_lt {i : Nat} (inside : i < shape.total) : shape.row i < shape.rows := by
  by_cases last : shape.column i ≥ shape.size
  · have few := last_column inside last
    have rows : shape.rows = shape.short + shape.long := rfl
    rw [row, if_pos last]
    omega
  · have positive : 0 < shape.rows := by
      by_contra none
      obtain ⟨short, long⟩ := Nat.add_eq_zero_iff.mp (Nat.eq_zero_of_not_pos none)
      simp [total, short, long] at inside
    rw [row, if_neg last, Nat.add_zero]
    exact Nat.mod_lt i positive

theorem column_lt {i : Nat} (inside : i < shape.total) :
    shape.column i < shape.width (shape.row i) := by
  have most := column_le inside
  by_cases last : shape.column i ≥ shape.size
  · rw [width, row, if_pos last, if_neg (by omega)]
    omega
  · rw [width]
    split <;> omega

theorem place_lt {i : Nat} (inside : i < shape.total) : shape.place i < shape.total := by
  have before := shape.start_mono (Nat.succ_le_of_lt (row_lt inside))
  have within := column_lt inside
  rw [Nat.succ_eq_add_one, start_succ, start_rows] at before
  rw [place]
  omega

/-- A place tells the row and the column. -/
theorem start_add_injective {row row' column column' : Nat} (inside : column < shape.width row)
    (inside' : column' < shape.width row')
    (same : shape.start row + column = shape.start row' + column') :
    row = row' ∧ column = column' := by
  have rows : row = row' := by
    by_contra different
    rcases Nat.lt_or_gt_of_ne different with before | before
    · have := shape.start_mono (Nat.succ_le_of_lt before)
      rw [Nat.succ_eq_add_one, start_succ] at this
      omega
    · have := shape.start_mono (Nat.succ_le_of_lt before)
      rw [Nat.succ_eq_add_one, start_succ] at this
      omega
  subst rows
  exact ⟨rfl, Nat.add_left_cancel same⟩

theorem place_injective {i j : Nat} (inside : i < shape.total) (inside' : j < shape.total)
    (same : shape.place i = shape.place j) : i = j := by
  obtain ⟨rows, columns⟩ := start_add_injective (column_lt inside) (column_lt inside') same
  rw [row, row, columns] at rows
  have rest := Nat.add_right_cancel rows
  have first := Nat.div_add_mod i shape.rows
  have second := Nat.div_add_mod j shape.rows
  rw [column, column] at columns
  rw [← first, ← second, columns, rest]

/-- The order by columns leads to every element once. -/
theorem places_perm (shape : Shape) :
    ((List.range shape.total).map shape.place).Perm (List.range shape.total) := by
  have once : ((List.range shape.total).map shape.place).Nodup := by
    apply List.Nodup.map_on _ List.nodup_range
    intro i inside j inside' same
    exact place_injective (List.mem_range.mp inside) (List.mem_range.mp inside') same
  apply (List.subperm_of_subset once ?_).perm_of_length_le (by rw [List.length_map])
  intro p member
  obtain ⟨i, inside, rfl⟩ := List.mem_map.mp member
  exact List.mem_range.mpr (place_lt (List.mem_range.mp inside))

theorem exists_place {p : Nat} (inside : p < shape.total) :
    ∃ i < shape.total, shape.place i = p := by
  have member := (places_perm shape).mem_iff.mpr (List.mem_range.mpr inside)
  obtain ⟨i, below, here⟩ := List.mem_map.mp member
  exact ⟨i, List.mem_range.mp below, here⟩

/-- The rows in memory are the whole of it. -/
theorem rows_flatMap (shape : Shape) (items : List α) (count : Nat) :
    ((List.range count).flatMap fun row => (items.drop (shape.start row)).take (shape.width row)) =
      items.take (shape.start count) := by
  induction count with
  | zero => simp [start]
  | succ count ih =>
      rw [List.range_succ, List.flatMap_append, ih, List.flatMap_singleton, start_succ, List.take_add]

/-- The number under which an element of a row is taken. -/
def number (shape : Shape) (row column : Nat) : Nat :=
  shape.rows * column + if column < shape.size then row else row - shape.short

theorem number_split {row col : Nat} (inRows : row < shape.rows) (inside : col < shape.width row) :
    shape.column (shape.number row col) = col ∧ shape.row (shape.number row col) = row := by
  have rows : shape.rows = shape.short + shape.long := rfl
  rw [width] at inside
  have small : (if col < shape.size then row else row - shape.short) < shape.rows := by
    split <;> omega
  have columns : shape.column (shape.number row col) = col := by
    rw [column, number, Nat.mul_add_div (Nat.zero_lt_of_lt inRows), Nat.div_eq_of_lt small,
      Nat.add_zero]
  refine ⟨columns, ?_⟩
  rw [Shape.row, columns, number, Nat.mul_add_mod, Nat.mod_eq_of_lt small]
  split at inside <;> split <;> split <;> omega

theorem place_number {row col : Nat} (inRows : row < shape.rows) (inside : col < shape.width row) :
    shape.place (shape.number row col) = shape.start row + col := by
  obtain ⟨columns, rows⟩ := number_split inRows inside
  rw [place, rows, columns]

theorem number_lt {row col : Nat} (inRows : row < shape.rows) (inside : col < shape.width row) :
    shape.number row col < shape.total := by
  have rows : shape.rows = shape.short + shape.long := rfl
  rw [width] at inside
  rw [number, total_eq]
  split
  · next early =>
      have := Nat.mul_le_mul_left shape.rows (Nat.succ_le_of_lt early)
      rw [Nat.mul_succ] at this
      omega
  · next late =>
      have last : col = shape.size := by split at inside <;> omega
      rw [last]
      split at inside <;> omega

end Shape

end Ragged

end AssistedDump
