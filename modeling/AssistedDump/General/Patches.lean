import Mathlib.Order.Bounds.Basic
import Mathlib.Tactic.Common

/-! # Patches over an unknown sequence

A patch gives consecutive positions of a sequence values. A history of patches
overlays them: a position has the value of the last patch that covers it and is
unknown when none does. The span of a history is the interval from its least
start to its greatest stop.
-/

namespace AssistedDump

structure Patch (β : Type) where
  start : Nat
  data : List β
  deriving Repr, DecidableEq

variable {β : Type}

namespace Patch

def stop (p : Patch β) : Nat := p.start + p.data.length

def Covers (p : Patch β) (i : Nat) : Prop := p.start ≤ i ∧ i < p.stop

instance (p : Patch β) (i : Nat) : Decidable (p.Covers i) :=
  inferInstanceAs (Decidable (_ ∧ _))

/-- The value the patch gives position `i`. -/
def at? (p : Patch β) (i : Nat) : Option β :=
  if p.start ≤ i then p.data[i - p.start]? else none

theorem at?_isSome_iff {p : Patch β} {i : Nat} : (p.at? i).isSome ↔ p.Covers i := by
  by_cases reached : p.start ≤ i
  · simp only [at?, if_pos reached, isSome_getElem?, Covers, stop]
    omega
  · simp [at?, Covers, reached]

theorem at?_eq_none_iff {p : Patch β} {i : Nat} : p.at? i = none ↔ ¬ p.Covers i := by
  rw [← at?_isSome_iff, Option.not_isSome_iff_eq_none]

theorem at?_add {p : Patch β} {k : Nat} : p.at? (p.start + k) = p.data[k]? := by
  simp [at?]

/-- One more value in a patch. -/
theorem at?_take_succ {start k : Nat} {data : List β} {b : β} (h : data[k]? = some b) (i : Nat) :
    (⟨start, data.take (k + 1)⟩ : Patch β).at? i =
      if i = start + k then some b else (⟨start, data.take k⟩ : Patch β).at? i := by
  by_cases reached : start ≤ i
  · obtain ⟨j, rfl⟩ := Nat.exists_eq_add_of_le reached
    simp only [at?, if_pos reached, Nat.add_sub_cancel_left, Nat.add_left_cancel_iff]
    split
    · subst j
      rw [List.getElem?_take_of_lt (Nat.lt_succ_self k), h]
    · simp only [List.getElem?_take]
      split <;> split <;> first | rfl | omega
  · have other : i ≠ start + k := by omega
    simp only [at?, if_neg reached, if_neg other]

/-- A nonempty patch covers its two ends. -/
theorem covers_ends {p : Patch β} (filled : p.data ≠ []) :
    p.Covers p.start ∧ p.Covers (p.stop - 1) := by
  have := List.length_pos_iff.mpr filled
  simp only [Covers, stop]
  omega

end Patch

/-- The value of position `i` after a history of patches, the last one at the end. -/
def overlay (ps : List (Patch β)) (i : Nat) : Option β :=
  ps.reverse.findSome? (·.at? i)

@[simp] theorem overlay_nil (i : Nat) : overlay ([] : List (Patch β)) i = none := rfl

theorem overlay_snoc (ps : List (Patch β)) (p : Patch β) (i : Nat) :
    overlay (ps ++ [p]) i = (p.at? i).or (overlay ps i) := by
  simp only [overlay, List.reverse_append, List.reverse_singleton, List.singleton_append,
    List.findSome?_cons]
  cases p.at? i <;> rfl

theorem overlay_eq_none_iff {ps : List (Patch β)} {i : Nat} :
    overlay ps i = none ↔ ∀ p ∈ ps, ¬ p.Covers i := by
  simp only [overlay, List.findSome?_eq_none_iff, List.mem_reverse, Patch.at?_eq_none_iff]

/-- The last writer wins: a value comes from a covering patch after which no
    patch covers the position. -/
theorem overlay_eq_some_iff {ps : List (Patch β)} {i : Nat} {b : β} :
    overlay ps i = some b ↔
      ∃ pre p post, ps = pre ++ p :: post ∧ p.at? i = some b ∧ ∀ q ∈ post, ¬ q.Covers i := by
  simp only [overlay, List.findSome?_eq_some_iff]
  constructor
  · intro found
    obtain ⟨post, p, pre, split, value, later⟩ := found
    refine ⟨pre.reverse, p, post.reverse, ?_, value, ?_⟩
    · simpa using congrArg List.reverse split
    · intro q member
      exact Patch.at?_eq_none_iff.mp (later q (List.mem_reverse.mp member))
  · intro lastWriter
    obtain ⟨pre, p, post, rfl, value, later⟩ := lastWriter
    refine ⟨post.reverse, p, pre.reverse, by simp, value, ?_⟩
    intro q member
    exact Patch.at?_eq_none_iff.mpr (later q (List.mem_reverse.mp member))

/-- Where all patches agree on a position they overlay to nothing but that value. -/
theorem overlay_agrees {ps : List (Patch β)} {i : Nat} {v : β}
    (agree : ∀ p ∈ ps, ∀ b, p.at? i = some b → b = v) {b : β}
    (value : overlay ps i = some b) : b = v := by
  obtain ⟨pre, p, post, rfl, value, -⟩ := overlay_eq_some_iff.mp value
  exact agree p (by simp) b value

/-- `lo` and `hi` are the least start and the greatest stop of a history, and
    `bound` and `0` where it is empty. -/
structure Spans (bound : Nat) (ps : List (Patch β)) (lo hi : Nat) : Prop where
  empty : ps = [] → lo = bound ∧ hi = 0
  least : ps ≠ [] → IsLeast {o | ∃ p ∈ ps, p.start = o} lo
  greatest : ps ≠ [] → IsGreatest {o | ∃ p ∈ ps, p.stop = o} hi

namespace Spans

variable {bound lo hi : Nat} {ps : List (Patch β)}

theorem nil (bound : Nat) : Spans bound ([] : List (Patch β)) bound 0 :=
  ⟨fun _ => ⟨rfl, rfl⟩, fun h => absurd rfl h, fun h => absurd rfl h⟩

theorem lo_le_start (h : Spans bound ps lo hi) {p : Patch β} (member : p ∈ ps) : lo ≤ p.start :=
  (h.least (List.ne_nil_of_mem member)).2 ⟨p, member, rfl⟩

theorem stop_le_hi (h : Spans bound ps lo hi) {p : Patch β} (member : p ∈ ps) : p.stop ≤ hi :=
  (h.greatest (List.ne_nil_of_mem member)).2 ⟨p, member, rfl⟩

theorem hi_le (h : Spans bound ps lo hi) (inside : ∀ p ∈ ps, p.stop ≤ bound) : hi ≤ bound := by
  by_cases none : ps = []
  · rw [(h.empty none).2]
    exact Nat.zero_le bound
  · obtain ⟨p, member, stop⟩ := (h.greatest none).1
    rw [← stop]
    exact inside p member

theorem least_snoc (h : Spans bound ps lo hi) {p : Patch β} (inside : p.start ≤ bound) :
    IsLeast {o | ∃ q ∈ ps ++ [p], q.start = o} (if p.start < lo then p.start else lo) := by
  constructor
  · split
    · exact ⟨p, by simp, rfl⟩
    · cases eq_or_ne ps [] with
      | inl none =>
          obtain ⟨rfl, -⟩ := h.empty none
          exact ⟨p, by simp, by omega⟩
      | inr some =>
          obtain ⟨q, member, start⟩ := (h.least some).1
          exact ⟨q, by simp [member], start⟩
  · intro o attained
    obtain ⟨q, member, rfl⟩ := attained
    cases List.mem_append.mp member with
    | inl earlier =>
        have := h.lo_le_start earlier
        split <;> omega
    | inr last =>
        obtain rfl := List.mem_singleton.mp last
        split <;> omega

theorem greatest_snoc (h : Spans bound ps lo hi) (p : Patch β) :
    IsGreatest {o | ∃ q ∈ ps ++ [p], q.stop = o} (if hi < p.stop then p.stop else hi) := by
  constructor
  · split
    · exact ⟨p, by simp, rfl⟩
    · cases eq_or_ne ps [] with
      | inl none =>
          obtain ⟨-, rfl⟩ := h.empty none
          exact ⟨p, by simp, by omega⟩
      | inr some =>
          obtain ⟨q, member, stop⟩ := (h.greatest some).1
          exact ⟨q, by simp [member], stop⟩
  · intro o attained
    obtain ⟨q, member, rfl⟩ := attained
    cases List.mem_append.mp member with
    | inl earlier =>
        have := h.stop_le_hi earlier
        split <;> omega
    | inr last =>
        obtain rfl := List.mem_singleton.mp last
        split <;> omega

/-- One more patch moves each end by the comparison a running bound makes. -/
theorem snoc (h : Spans bound ps lo hi) {p : Patch β} (inside : p.start ≤ bound) :
    Spans bound (ps ++ [p]) (if p.start < lo then p.start else lo)
      (if hi < p.stop then p.stop else hi) where
  empty none := absurd none (by simp)
  least _ := h.least_snoc inside
  greatest _ := h.greatest_snoc p

theorem outside (h : Spans bound ps lo hi) {i : Nat} (out : ¬ (lo ≤ i ∧ i < hi)) :
    overlay ps i = none := by
  apply overlay_eq_none_iff.mpr
  intro p member covered
  apply out
  have := h.lo_le_start member
  have := h.stop_le_hi member
  have := covered.1
  have := covered.2
  omega

variable (filled : ∀ p ∈ ps, p.data ≠ [])
include filled

theorem lo_known (h : Spans bound ps lo hi) (some : ps ≠ []) : overlay ps lo ≠ none := by
  obtain ⟨p, member, rfl⟩ := (h.least some).1
  intro unknown
  exact overlay_eq_none_iff.mp unknown p member (Patch.covers_ends (filled p member)).1

theorem hi_known (h : Spans bound ps lo hi) (some : ps ≠ []) : overlay ps (hi - 1) ≠ none := by
  obtain ⟨p, member, rfl⟩ := (h.greatest some).1
  intro unknown
  exact overlay_eq_none_iff.mp unknown p member (Patch.covers_ends (filled p member)).2

theorem lt_iff (h : Spans bound ps lo hi) : lo < hi ↔ ps ≠ [] := by
  constructor
  · intro lt none
    obtain ⟨rfl, rfl⟩ := h.empty none
    omega
  · intro some
    obtain ⟨p, member, start⟩ := (h.least some).1
    have := h.stop_le_hi member
    have := List.length_pos_iff.mpr (filled p member)
    simp only [Patch.stop] at *
    omega

end Spans

end AssistedDump
