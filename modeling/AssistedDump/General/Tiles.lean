import Mathlib.Algebra.Order.Ring.Int
import Mathlib.Tactic.Linarith

/-! # Painting the tiles of a grid

A grid cuts the plane into equal tiles. No point lies in two of them, so when tiles are
painted one after another, in any order, each of those painted so far shows its own
colour and the rest of the plane is as it was.
-/

namespace AssistedDump.Tiles

structure Rect where
  x : Int
  y : Int
  width : Int
  height : Int
  deriving Repr, DecidableEq

def Rect.Contains (r : Rect) (px py : Int) : Prop :=
  r.x ≤ px ∧ px < r.x + r.width ∧ r.y ≤ py ∧ py < r.y + r.height

instance (r : Rect) (px py : Int) : Decidable (r.Contains px py) :=
  inferInstanceAs (Decidable (_ ∧ _ ∧ _ ∧ _))

def Rect.Within (r outer : Rect) : Prop :=
  outer.x ≤ r.x ∧ r.x + r.width ≤ outer.x + outer.width ∧
    outer.y ≤ r.y ∧ r.y + r.height ≤ outer.y + outer.height

structure Grid where
  left : Int
  top : Int
  width : Int
  height : Int
  widthPos : 0 < width
  heightPos : 0 < height

variable {κ : Type}

def paint (r : Rect) (colour : κ) (plane : Int → Int → κ) : Int → Int → κ := fun px py =>
  if r.Contains px py then colour else plane px py

namespace Grid

def tile (g : Grid) (column row : Nat) : Rect where
  x := g.left + column * g.width
  y := g.top + row * g.height
  width := g.width
  height := g.height

/-- The tiles of the first columns and rows. -/
def block (g : Grid) (columns rows : Nat) : Rect where
  x := g.left
  y := g.top
  width := columns * g.width
  height := rows * g.height

variable {g : Grid}

/-- Intervals of one length that share a point are the same. -/
theorem step_unique {start length p : Int} (positive : 0 < length) {i j : Nat}
    (low : start + i * length ≤ p) (high : p < start + i * length + length)
    (low' : start + j * length ≤ p) (high' : p < start + j * length + length) : i = j := by
  have below : (i : Int) * length < (j + 1) * length := by linarith
  have above : (j : Int) * length < (i + 1) * length := by linarith
  have lt := lt_of_mul_lt_mul_right below positive.le
  have gt := lt_of_mul_lt_mul_right above positive.le
  omega

/-- No point lies in two tiles. -/
theorem tile_unique {column row column' row' : Nat} {px py : Int}
    (first : (g.tile column row).Contains px py) (second : (g.tile column' row').Contains px py) :
    column = column' ∧ row = row' :=
  ⟨step_unique g.widthPos first.1 first.2.1 second.1 second.2.1,
    step_unique g.heightPos first.2.2.1 first.2.2.2 second.2.2.1 second.2.2.2⟩

theorem tile_corner (column row : Nat) :
    (g.tile column row).Contains (g.tile column row).x (g.tile column row).y :=
  ⟨Int.le_refl _, Int.lt_add_of_pos_right _ g.widthPos, Int.le_refl _,
    Int.lt_add_of_pos_right _ g.heightPos⟩

theorem step_within (start : Int) {length : Int} (positive : 0 < length) {i count : Nat}
    (before : i < count) :
    start ≤ start + i * length ∧ start + i * length + length ≤ start + count * length := by
  have low : 0 ≤ (i : Int) * length := Int.mul_nonneg (Int.natCast_nonneg i) positive.le
  have next : ((i : Int) + 1) * length ≤ count * length :=
    Int.mul_le_mul_of_nonneg_right (by omega) positive.le
  rw [add_mul, one_mul] at next
  constructor <;> omega

theorem tile_within {column row columns rows : Nat} (inColumns : column < columns)
    (inRows : row < rows) : (g.tile column row).Within (g.block columns rows) := by
  have horizontal := step_within g.left g.widthPos inColumns
  have vertical := step_within g.top g.heightPos inRows
  exact ⟨horizontal.1, horizontal.2, vertical.1, vertical.2⟩

end Grid

theorem Rect.Within.trans {r s t : Rect} (first : r.Within s) (second : s.Within t) :
    r.Within t := by
  simp only [Rect.Within] at *
  omega

/-- The tiles done show their colours, the rest of the plane is background. -/
structure Painted (g : Grid) (colour : Nat → Nat → κ) (background : κ)
    (done : Nat → Nat → Prop) (plane : Int → Int → κ) : Prop where
  tiles : ∀ column row, done column row → ∀ px py, (g.tile column row).Contains px py →
    plane px py = colour column row
  rest : ∀ px py, (∀ column row, done column row → ¬ (g.tile column row).Contains px py) →
    plane px py = background

namespace Painted

variable {g : Grid} {colour : Nat → Nat → κ} {background : κ} {done later : Nat → Nat → Prop}
  {plane : Int → Int → κ}

theorem congr (h : Painted g colour background done plane)
    (same : ∀ column row, later column row ↔ done column row) :
    Painted g colour background later plane where
  tiles column row member := h.tiles column row ((same column row).mp member)
  rest px py apart := h.rest px py fun column row member =>
    apart column row ((same column row).mpr member)

/-- One more tile. -/
theorem paint (h : Painted g colour background done plane) {column row : Nat}
    (more : ∀ c r, later c r ↔ done c r ∨ c = column ∧ r = row) :
    Painted g colour background later
      (Tiles.paint (g.tile column row) (colour column row) plane) where
  tiles c r member px py inside := by
    by_cases here : (g.tile column row).Contains px py
    · obtain ⟨rfl, rfl⟩ := Grid.tile_unique inside here
      simp only [Tiles.paint, if_pos here]
    · simp only [Tiles.paint, if_neg here]
      cases (more c r).mp member with
      | inl earlier => exact h.tiles c r earlier px py inside
      | inr last =>
          obtain ⟨rfl, rfl⟩ := last
          exact absurd inside here
  rest px py apart := by
    have here := apart column row ((more column row).mpr (.inr ⟨rfl, rfl⟩))
    simp only [Tiles.paint, if_neg here]
    exact h.rest px py fun c r member => apart c r ((more c r).mpr (.inl member))

end Painted

end AssistedDump.Tiles
