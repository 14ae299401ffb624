import AssistedDump.Qrencode.FrameFiller

/-! # Filling a frame

The filler leads to the unmarked modules on its way, in order. What is put there
has no mark, so it leads to the same modules of a frame that is filled already.
-/

namespace AssistedDump.QrEncode

open QrSpec

/-- The modules of a frame that belong to a function pattern. -/
def marks (frame : Frame) : List UInt8 := frame.map (· &&& 0x80)

/-- Whether an index is one of a module of no function pattern. -/
def unmarked (frame : Frame) (i : Nat) : Bool := (frame.map (· &&& 0x80))[i]? == some 0

theorem unmarked_iff {frame : Frame} {i : Nat} {m : UInt8} (present : frame[i]? = some m) :
    unmarked frame i = true ↔ m &&& 0x80 = 0 := by
  simp [unmarked, present]

theorem unmarked_congr {frame frame' : Frame} (same : marks frame = marks frame') (i : Nat) :
    unmarked frame i = unmarked frame' i := by
  rw [unmarked, unmarked, ← marks, ← marks, same]

theorem unmarked_lt {frame : Frame} {i : Nat} (free : unmarked frame i) : i < frame.length := by
  by_contra outside
  simp [unmarked, List.getElem?_eq_none (Nat.not_lt.mp outside)] at free

namespace FrameFiller

theorem seek_congr {frame frame' : Frame} (same : marks frame = marks frame') (calls : Nat)
    (filler : FrameFiller) : seek calls frame filler = seek calls frame' filler := by
  induction calls generalizing filler with
  | zero => rfl
  | succ calls ih =>
      cases moved : advance filler with
      | none => simp [seek, moved]
      | some next =>
          have module := congrArg (·[next.index]?) same
          simp only [marks, List.getElem?_map] at module
          cases left : frame[next.index]? <;> cases right : frame'[next.index]? <;>
            simp_all [seek]

theorem next_congr {frame frame' : Frame} (same : marks frame = marks frame')
    (filler : FrameFiller) : filler.next frame = filler.next frame' := by
  have length : frame.length = frame'.length := by
    simpa [marks] using congrArg List.length same
  rw [next, next, length, seek_congr same]

/-- The indices the filler yields until its end. -/
def Leads (frame : Frame) : FrameFiller → List Nat → Prop
  | filler, [] => filler.next frame = none
  | filler, i :: rest => ∃ next, filler.next frame = some (i, next) ∧ Leads frame next rest

theorem Leads.congr {frame frame' : Frame} (same : marks frame = marks frame')
    {filler : FrameFiller} {indices : List Nat} (leads : Leads frame filler indices) :
    Leads frame' filler indices := by
  induction indices generalizing filler with
  | nil => exact (next_congr same filler).symm.trans leads
  | cons i rest ih =>
      obtain ⟨next, found, later⟩ := leads
      exact ⟨next, by rw [← next_congr same, found], ih later⟩

/-- From where it stands the filler goes on to the first unmarked module before it. -/
theorem seek_free {frame : Frame} {states : List FrameFiller} {filler : FrameFiller}
    (walks : Walks filler states) (inside : ∀ g ∈ states, g.index < frame.length) {calls : Nat}
    (enough : states.length ≤ calls) {i : Nat} {rest : List Nat}
    (first : (states.map index).filter (unmarked frame) = i :: rest) :
    ∃ next later, seek calls frame filler = some (i, next) ∧ next ∈ states ∧ Walks next later ∧
      later <:+ states ∧ (later.map index).filter (unmarked frame) = rest := by
  induction states generalizing filler calls with
  | nil => simp at first
  | cons g states ih =>
      obtain ⟨moved, walks⟩ := walks
      obtain ⟨calls, rfl⟩ : ∃ n, calls = n + 1 :=
        ⟨calls - 1, by rw [List.length_cons] at enough; omega⟩
      have bound : g.index < frame.length := inside g List.mem_cons_self
      have here := List.getElem?_eq_getElem bound
      by_cases free : unmarked frame g.index
      · have plain := (unmarked_iff here).mp free
        rw [List.map_cons, List.filter_cons_of_pos free] at first
        obtain ⟨rfl, rest⟩ := List.cons.inj first
        refine ⟨g, states, ?_, List.mem_cons_self, walks, List.suffix_cons g states, rest⟩
        simp [seek, moved, here, plain]
      · have marked : frame[g.index] &&& 0x80 ≠ 0 := fun zero => free ((unmarked_iff here).mpr zero)
        rw [List.map_cons, List.filter_cons_of_neg free] at first
        obtain ⟨next, later, found, member, walks, suffix, rest⟩ :=
          ih walks (fun g member => inside g (List.mem_cons_of_mem _ member))
            (Nat.le_of_succ_le_succ enough) first
        refine ⟨next, later, ?_, List.mem_cons_of_mem _ member, walks,
          suffix.trans (List.suffix_cons g states), rest⟩
        simp [seek, moved, here, marked, found]

/-- Where only marked modules are left before it, the filler comes to its end. -/
theorem seek_end {frame : Frame} {states : List FrameFiller} {filler : FrameFiller}
    (walks : Walks filler states) (inside : ∀ g ∈ states, g.index < frame.length)
    (marked : (states.map index).filter (unmarked frame) = []) (calls : Nat) :
    seek calls frame filler = none := by
  induction states generalizing filler calls with
  | nil =>
      have stopped : advance filler = none := walks
      cases calls with
      | zero => rfl
      | succ calls => simp [seek, stopped]
  | cons g states ih =>
      obtain ⟨moved, walks⟩ := walks
      have bound : g.index < frame.length := inside g List.mem_cons_self
      have here := List.getElem?_eq_getElem bound
      have busy : ¬ unmarked frame g.index := by
        intro free
        rw [List.map_cons, List.filter_cons_of_pos free] at marked
        cases marked
      have module : frame[g.index] &&& 0x80 ≠ 0 := fun zero => busy ((unmarked_iff here).mpr zero)
      rw [List.map_cons, List.filter_cons_of_neg busy] at marked
      cases calls with
      | zero => rfl
      | succ calls =>
          simp [seek, moved, here, module,
            ih walks (fun g member => inside g (List.mem_cons_of_mem _ member)) marked calls]

theorem leads_of_walks {frame : Frame} {states : List FrameFiller} {filler : FrameFiller}
    (walks : Walks filler states) (started : filler.bit ≠ -1)
    (good : ∀ g ∈ states, g.index < frame.length ∧ g.bit ≠ -1)
    (enough : states.length ≤ frame.length) :
    Leads frame filler ((states.map index).filter (unmarked frame)) := by
  generalize free : (states.map index).filter (unmarked frame) = indices
  induction indices generalizing filler states with
  | nil =>
      have ended := seek_end walks (fun g member => (good g member).1) free frame.length
      exact (if_neg started).trans ended
  | cons i rest ih =>
      obtain ⟨next, later, found, member, walks, suffix, remaining⟩ :=
        seek_free walks (fun g member => (good g member).1) enough free
      refine ⟨next, by rw [FrameFiller.next, if_neg started, found], ?_⟩
      apply ih walks (good next member).2 _ (suffix.length_le.trans enough) remaining
      exact fun g member => good g (suffix.subset member)

/-- The way of a symbol of this width. -/
def freeIndices (frame : Frame) (width : Nat) : List Nat :=
  (trailIndices width).filter (unmarked frame)

theorem trailIndices_lt {width : Nat} (wide : Wide width) {i : Nat} (member : i ∈ trailIndices width) :
    i < width * width := by
  obtain ⟨filler, passed, rfl⟩ := List.mem_map.mp member
  obtain ⟨p, q, pair, _, high, rfl⟩ := (mem_trail wide).mp passed
  obtain ⟨inX, inY⟩ := cell_lt wide pair high
  rw [index_stateAt]
  exact CSemantics.rowMajor_lt inX inY

theorem trail_short {width : Nat} (wide : Wide width) : (trail width).length ≤ width * width := by
  have bound : (trailIndices width).toFinset ⊆ Finset.range (width * width) := by
    intro i member
    exact Finset.mem_range.mpr (trailIndices_lt wide (List.mem_toFinset.mp member))
  have card := Finset.card_le_card bound
  rwa [List.toFinset_card_of_nodup (trailIndices_nodup wide), Finset.card_range, trailIndices,
    List.length_map] at card

/-- From its start the filler leads to all unmarked modules on its way. -/
theorem leads_set {width : Nat} (wide : Wide width) {frame : Frame}
    (sized : frame.length = width * width)
    (corner : unmarked frame ((width - 1) * width + (width - 1))) :
    Leads frame (set width) (freeIndices frame width) := by
  obtain ⟨rest, split, walks⟩ := walks_trail wide
  have first : (stateAt width 0 0).index = (width - 1) * width + (width - 1) := by
    rw [index_stateAt, cell, (start_spec wide).2.2]
    rfl
  have good : ∀ g ∈ trail width, g.index < frame.length ∧ g.bit ≠ -1 := by
    intro g member
    refine ⟨sized ▸ trailIndices_lt wide (List.mem_map_of_mem member), ?_⟩
    obtain ⟨p, q, _, _, _, rfl⟩ := (mem_trail wide).mp member
    simp only [stateAt]
    omega
  have short := trail_short wide
  rw [split] at good short
  rw [freeIndices, trailIndices, split, List.map_cons, List.filter_cons_of_pos (first ▸ corner)]
  refine ⟨stateAt width 0 0, ?_, ?_⟩
  · rw [← set_eq wide]
    rfl
  · apply leads_of_walks walks (good _ List.mem_cons_self).2
      (fun g member => good g (List.mem_cons_of_mem _ member))
    rw [List.length_cons] at short
    omega

end FrameFiller

open FrameFiller

theorem marks_set {frame : Frame} {i : Nat} {value : UInt8} (plain : value &&& 0x80 = 0)
    (free : unmarked frame i) : marks (frame.set i value) = marks frame := by
  have zero : (marks frame)[i]? = some 0 := by simpa [unmarked, marks] using free
  obtain ⟨inside, here⟩ := List.getElem?_eq_some_iff.mp zero
  rw [marks, List.map_set, plain, ← marks, ← here, List.set_getElem_self]

theorem fill_append (filler : FrameFiller) (frame : Frame) (front back : List UInt8) :
    fill filler frame (front ++ back) =
      (fill filler frame front).bind fun s => fill s.1 s.2 back := by
  induction front generalizing filler frame with
  | nil => rfl
  | cons value front ih =>
      cases found : filler.next frame with
      | none => simp [fill, found]
      | some step =>
          cases put : stored [(step.1, value)] frame <;> simp [fill, found, put, ih]

/-- Values without a mark are put to the indices the filler leads to. -/
theorem fill_leads {indices : List Nat} {values : List UInt8} {frame : Frame} {filler : FrameFiller}
    (leads : Leads frame filler indices) (room : values.length ≤ indices.length)
    (plain : ∀ value ∈ values, value &&& 0x80 = 0) (free : ∀ i ∈ indices, unmarked frame i) :
    ∃ last, fill filler frame values = some (last, applied (indices.zip values) frame) ∧
      marks (applied (indices.zip values) frame) = marks frame := by
  induction values generalizing indices frame filler with
  | nil => exact ⟨filler, by simp [fill, applied], by simp [applied]⟩
  | cons value values ih =>
      cases indices with
      | nil => simp at room
      | cons i indices =>
          obtain ⟨next, found, later⟩ := leads
          have here := free i List.mem_cons_self
          have same := marks_set (plain value List.mem_cons_self) here
          obtain ⟨last, filled, kept⟩ := ih (later.congr same.symm) (Nat.le_of_succ_le_succ room)
            (fun v member => plain v (List.mem_cons_of_mem _ member))
            (fun j member => (unmarked_congr same j).trans (free j (List.mem_cons_of_mem _ member)))
          have put : stored [(i, value)] frame = some (frame.set i value) := by
            apply stored_eq
            intro j member
            rw [List.mem_singleton.mp member]
            exact unmarked_lt here
          refine ⟨last, ?_, kept.trans same⟩
          simp only [fill, found, put, Option.bind_eq_bind, Option.bind_some]
          exact filled

end AssistedDump.QrEncode
