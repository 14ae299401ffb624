import AssistedDump.Qrencode.Decoder

/-! # What the decoder reads back

A symbol of the encoder shows its version and its mask where the decoder looks for
them. Without the mask the decoder comes past the modules in the order they were
filled, so it finds the bits of the data.
-/

namespace AssistedDump.Decoder

open BitStream QrSpec
open DumpLoop (QRecLevel)
open QrEncode QrEncode.FrameFiller

/-! ## Words in single modules -/

def wordOf (modules : List UInt8) : UInt32 :=
  modules.foldl (fun v m => (v <<< 1) ||| (m &&& 1).toUInt32) 0

/-- A word is read from cells that are known to be shown. -/
theorem readWord_lookup {β : Type} {cells : List (Nat × β)} (value : β → UInt8) {data : List UInt8}
    (shown : ∀ c ∈ cells, data[c.1]? = some (value c.2)) {indices : List Nat} {found : List β}
    (lookedUp : indices.mapM (fun i => cells.lookup i) = some found) :
    readWord data indices = some (wordOf (found.map value)) := by
  have each (v : UInt32) : indices.foldlM
      (fun (v : UInt32) i => (data[i]?).map fun m => (v <<< 1) ||| (m &&& 1).toUInt32) v = some
        ((found.map value).foldl (fun (v : UInt32) m => (v <<< 1) ||| (m &&& 1).toUInt32) v) := by
    induction indices generalizing found v with
    | nil =>
        cases lookedUp
        rfl
    | cons i indices ih =>
        rw [List.mapM_cons] at lookedUp
        obtain ⟨x, here, lookedUp⟩ := Option.bind_eq_some_iff.mp lookedUp
        obtain ⟨rest, later, same⟩ := Option.bind_eq_some_iff.mp lookedUp
        cases same
        have member : (i, x) ∈ cells := by
          obtain ⟨front, back, rfl, _⟩ := List.lookup_eq_some_iff.mp here
          simp
        rw [List.foldlM_cons, shown _ member]
        exact ih later _
  exact each 0

/-! ## The version -/

theorem version_evaluated : ∀ version < 41, 1 ≤ version →
    let width := getWidth version
    let cells := createFrame.information version width
    if version < 7 then width < 45 ∧ ((width : Int) - 21).tdiv 4 + 1 = version
    else 45 ≤ width ∧
      (((versionIndices1 width).mapM (fun i => cells.lookup i)).map wordOf) =
        some (getVersionPattern version) ∧
      (((versionIndices2 width).mapM (fun i => cells.lookup i)).map wordOf) =
        some (getVersionPattern version) ∧
      (getVersionPattern version >>> 12).toNat = version := by
  decide +kernel

theorem decodeVersion_shown {version : Nat} (known : Version version) {data : List UInt8}
    (shown : ∀ c ∈ createFrame.information version (getWidth version), data[c.1]? = some c.2) :
    decodeVersion ⟨getWidth version, data⟩ = some (version : Int) := by
  have evaluated := version_evaluated version (Nat.lt_succ_of_le known.most) known.positive
  simp only at evaluated
  rw [decodeVersion]
  split at evaluated
  · rw [if_pos evaluated.1, evaluated.2]
  · obtain ⟨wide, first, second, top⟩ := evaluated
    obtain ⟨found, lookedUp, word⟩ := Option.map_eq_some_iff.mp first
    obtain ⟨found', lookedUp', word'⟩ := Option.map_eq_some_iff.mp second
    have one := readWord_lookup id shown lookedUp
    have two := readWord_lookup id shown lookedUp'
    rw [List.map_id, word] at one
    rw [List.map_id, word'] at two
    rw [if_neg (Nat.not_lt.mpr wide)]
    simp only [one, two, Option.bind_eq_bind, Option.bind_some, ne_eq, not_true_eq_false, if_false,
      top]

/-! ## The format -/

/-- The modules of the format information, with the bits they show. -/
def formatBits (width : Nat) : List (Nat × Nat) :=
  ((List.range 8).flatMap fun i =>
    [(width * 8 + width - 1 - i, i), (if i < 6 then width * i + 8 else width * (i + 1) + 8, i)]) ++
  (List.range 7).flatMap fun i =>
    [(width * (width - 7 + i) + 8, 8 + i),
      (if i = 0 then width * 8 + 7 else width * 8 + 6 - i, 8 + i)]

theorem formatBits_writes (width : Nat) (format : UInt32) :
    Mask.formatWrites width format =
      (formatBits width).map fun c => (c.1, Mask.formatModule format c.2) := by
  simp only [Mask.formatWrites, formatBits, List.map_append, List.map_flatMap, List.map_cons,
    List.map_nil]

theorem format_evaluated : ∀ version < 41, 1 ≤ version →
    let width := getWidth version
    (formatIndices1 width).mapM (fun i => (formatBits width).lookup i) =
      some (List.range 15).reverse ∧
    (formatIndices2 width).mapM (fun i => (formatBits width).lookup i) =
      some (List.range 15).reverse := by
  decide +kernel

theorem formats_evaluated : ∀ mask < Mask.maskNum, ∀ level ∈ levels,
    let format := getFormatInfo mask level
    let word := wordOf ((List.range 15).reverse.map (Mask.formatModule format))
    let v := (word ^^^ 0x5412) >>> 10
    levelOf ((v >>> 3) &&& 3) = level ∧ (v &&& 7).toNat = mask := by
  decide +kernel

theorem decodeFormat_shown {version : Nat} (known : Version version) {data : List UInt8}
    {mask : Nat} (masked : mask < Mask.maskNum) {level : QRecLevel}
    (shown : ∀ c ∈ Mask.formatWrites (getWidth version) (getFormatInfo mask level),
      data[c.1]? = some c.2) :
    decodeFormat ⟨getWidth version, data⟩ = some (level, mask) := by
  obtain ⟨first, second⟩ := format_evaluated version (Nat.lt_succ_of_le known.most) known.positive
  have cells : ∀ c ∈ formatBits (getWidth version),
      data[c.1]? = some (Mask.formatModule (getFormatInfo mask level) c.2) := by
    intro c member
    apply shown (c.1, Mask.formatModule (getFormatInfo mask level) c.2)
    rw [formatBits_writes]
    exact List.mem_map_of_mem member
  have one := readWord_lookup _ cells first
  have two := readWord_lookup _ cells second
  obtain ⟨sameLevel, sameMask⟩ := formats_evaluated mask masked level (mem_levels level)
  simp only [decodeFormat, one, two, Option.bind_eq_bind, Option.bind_some, ne_eq,
    not_true_eq_false, if_false, sameLevel, sameMask]

/-! ## The bits of the data -/

def bitAt (frame : Frame) (i : Nat) : Bool := decide (frame.getD i 0 &&& 1 ≠ 0)

section Extract

variable {frame : Frame} {way : List Nat} {filler : FrameFiller} {bits : List (Option Bool)}

theorem extractBit_leads {i : Nat} {rest : List Nat} (leads : Leads frame filler (i :: rest))
    (free : unmarked frame i) {q j : Nat} (inside : q + j < bits.length) :
    ∃ next, extractBit frame q (filler, bits) j =
      some (next, bits.set (q + j) (some (bitAt frame i))) ∧ Leads frame next rest := by
  obtain ⟨next, found, later⟩ := leads
  have within := unmarked_lt free
  have present : frame[i]? = some frame[i] := List.getElem?_eq_getElem within
  have bit : bitAt frame i = decide (frame[i] &&& 1 ≠ 0) := by
    rw [bitAt, List.getD_eq_getElem?_getD, present, Option.getD_some]
  have put : stored [(q + j, some (bitAt frame i))] bits =
      some (bits.set (q + j) (some (bitAt frame i))) := by
    apply stored_eq
    intro k member
    rw [List.mem_singleton.mp member]
    exact inside
  refine ⟨next, ?_, later⟩
  simp only [extractBit, found, present, ← bit, put, Option.bind_eq_bind, Option.bind_some]

/-- The loop over the bits of a codeword, from bit `first` on. -/
theorem extractBit_loop (free : ∀ i ∈ way, unmarked frame i) {q base first count : Nat}
    (leads : Leads frame filler (way.drop (base + first)))
    (room : base + first + count ≤ way.length) (inside : q + first + count ≤ bits.length) :
    ∃ next, (List.range' first count).foldlM (extractBit frame q) (filler, bits) =
      some (next, applied ((List.range' first count).map fun j =>
        (q + j, some (bitAt frame (way.getD (base + j) 0)))) bits) ∧
      Leads frame next (way.drop (base + first + count)) := by
  induction count generalizing first filler bits with
  | zero => exact ⟨filler, rfl, leads⟩
  | succ count ih =>
      have here : base + first < way.length := by omega
      rw [List.drop_eq_getElem_cons here] at leads
      obtain ⟨next, step, later⟩ := extractBit_leads leads (free _ (List.getElem_mem here))
        (show q + first < bits.length by omega)
      have inside' : q + (first + 1) + count ≤
          (bits.set (q + first) (some (bitAt frame way[base + first]))).length := by
        rw [List.length_set]
        omega
      have later' : Leads frame next (way.drop (base + (first + 1))) := later
      obtain ⟨last, run, rest⟩ := ih later' (by omega) inside'
      have value : way.getD (base + first) 0 = way[base + first] := by
        rw [List.getD_eq_getElem?_getD, List.getElem?_eq_getElem here, Option.getD_some]
      refine ⟨last, ?_, by rwa [← Nat.add_assoc, Nat.add_right_comm] at rest⟩
      rw [List.range'_succ, List.foldlM_cons, step, List.map_cons, value]
      exact run

/-- The loop over the codewords, from word `first` on. -/
theorem extractByte_loop (free : ∀ i ∈ way, unmarked frame i) {q : Nat → Nat} {first count : Nat}
    (leads : Leads frame filler (way.drop (8 * first)))
    (room : 8 * (first + count) ≤ way.length)
    (inside : ∀ i, i < first + count → q i * 8 + 8 ≤ bits.length) :
    ∃ next, (List.range' first count).foldlM (fun s i => extractByte frame (q i * 8) s)
      (filler, bits) =
      some (next, applied ((List.range' first count).flatMap fun i => (List.range 8).map fun j =>
        (q i * 8 + j, some (bitAt frame (way.getD (8 * i + j) 0)))) bits) := by
  induction count generalizing first filler bits with
  | zero => exact ⟨filler, rfl⟩
  | succ count ih =>
      have enough : 8 * first + 0 + 8 ≤ way.length := by omega
      obtain ⟨next, byte, later⟩ := extractBit_loop free (show Leads frame filler
        (way.drop (8 * first + 0)) from leads) enough (inside first (by omega))
      rw [← List.range_eq_range', ← extractByte] at byte
      have later' : Leads frame next (way.drop (8 * (first + 1))) := later
      obtain ⟨last, run⟩ := ih later' (by omega) fun i below => by
        rw [applied_length]
        exact inside i (by omega)
      refine ⟨last, ?_⟩
      rw [List.range'_succ, List.foldlM_cons, List.flatMap_cons, applied_append, byte]
      exact run

theorem mapM_id_some (items : List Bool) : (items.map some).mapM id = some items := by
  induction items with
  | nil => rfl
  | cons x items ih =>
      rw [List.map_cons, List.mapM_cons, ih]
      rfl

theorem codewordIndex_eq (spec : EccSpec) (i : Nat) :
    codewordIndex spec i = (shape spec).place i := by
  have past (row : Nat) : (if row > spec.rsBlockNum1 then row - spec.rsBlockNum1 else 0) =
      row - spec.rsBlockNum1 := by
    split <;> omega
  simp only [codewordIndex, past]
  exact Nat.add_right_comm _ _ _

/-- Writes that agree with a list and come to all of it leave the list. -/
theorem applied_eq_map {writes : List (Nat × Option Bool)} {items : List Bool}
    (agree : ∀ w ∈ writes, items[w.1]?.map some = some w.2)
    (every : ∀ k < items.length, k ∈ indices writes) {start : List (Option Bool)}
    (sized : start.length = items.length) : applied writes start = items.map some := by
  apply List.ext_getElem?
  intro k
  rw [List.getElem?_map]
  by_cases inside : k < items.length
  · obtain ⟨value, member, present⟩ := applied_touched (every k inside) (sized ▸ inside)
    rw [present, agree _ member]
  · rw [List.getElem?_eq_none (by rw [applied_length]; omega),
      List.getElem?_eq_none (Nat.not_lt.mp inside)]
    rfl

/-- The codewords the decoder comes past make up the data, in the order of the blocks. -/
theorem extractBits_eq {version : Nat} {level : QRecLevel} (known : Blocks version level)
    (free : ∀ i ∈ way, unmarked frame i)
    (leads : Leads frame (FrameFiller.set (getWidth version)) way) {data : List UInt8}
    (sized : data.length = (getEccSpec version level).rsDataLength)
    (room : 8 * data.length ≤ way.length)
    (reads : ∀ i < data.length, ∀ j < 8,
      (writeBytes data)[8 * (shape (getEccSpec version level)).place i + j]? =
        some (bitAt frame (way.getD (8 * i + j) 0))) :
    extractBits (getWidth version) frame (getEccSpec version level) = some (writeBytes data) := by
  have total : (shape (getEccSpec version level)).total = data.length := by
    rw [shape_total known, sized]
  have enough : 8 * (0 + data.length) ≤ way.length := by omega
  have first : Leads frame (FrameFiller.set (getWidth version)) (way.drop (8 * 0)) := leads
  obtain ⟨last, run⟩ := extractByte_loop free first enough
    (show ∀ i, i < 0 + data.length → (shape (getEccSpec version level)).place i * 8 + 8 ≤
        (List.replicate (data.length * 8) (none : Option Bool)).length by
      intro i below
      rw [Nat.zero_add, ← total] at below
      have := Ragged.Shape.place_lt below
      rw [List.length_replicate]
      omega)
  rw [← List.range_eq_range'] at run
  simp only [extractBits, codewordIndex_eq, ← sized, run, Option.bind_eq_bind, Option.bind_some]
  rw [applied_eq_map _ _ (by rw [List.length_replicate, writeBytes_length, Nat.mul_comm]),
    mapM_id_some]
  · intro w member
    simp only [List.mem_flatMap, List.mem_map, List.mem_range] at member
    obtain ⟨i, below, j, small, rfl⟩ := member
    rw [Nat.mul_comm _ 8, reads i below j small]
    rfl
  · intro k inside
    rw [writeBytes_length] at inside
    obtain ⟨i, below, place⟩ := Ragged.Shape.exists_place
      (show k / 8 < (shape (getEccSpec version level)).total by omega)
    rw [total] at below
    simp only [indices, List.mem_map, List.mem_flatMap, List.mem_range]
    refine ⟨_, ⟨i, below, k % 8, Nat.mod_lt k (by decide), rfl⟩, ?_⟩
    simp only [place]
    omega

end Extract

/-! ## A masked frame -/

/-- The frame of an input under one of the masks. -/
structure Masked (raw : QRRawCode) (version : Nat) (level : QRecLevel) (blank frame : Frame)
    (choice : Nat) (shown : Frame) : Prop where
  filled : Filled raw version blank frame
  known : choice < Mask.maskNum
  done : Mask.makeMask (getWidth version) frame choice level = some shown

namespace Masked

variable {raw : QRRawCode} {version : Nat} {level : QRecLevel} {blank frame : Frame} {choice : Nat}
variable {shown : Frame} (masked : Masked raw version level blank frame choice shown)

include masked

theorem untouched {i : Nat} (pattern : i ∈ indices (createFrame version)) :
    frame[i]? = blank[i]? := by
  have filled := masked.filled
  rw [filled.put]
  apply applied_untouched
  intro member
  obtain ⟨w, inside, rfl⟩ := List.mem_map.mp member
  have free := (List.of_mem_zip inside).1
  exact ((mem_freeIndices filled.known filled.started).mp free).2 pattern

theorem blank_marked {i : Nat} (pattern : i ∈ indices (createFrame version)) :
    ∃ m, blank[i]? = some m ∧ m &&& 0x80 ≠ 0 := by
  obtain ⟨_, same, put, sized, _⟩ := newFrame_some masked.filled.known
  obtain rfl := Option.some.inj (masked.filled.started.symm.trans same)
  have inside : i < (QrSpec.blank (getWidth version)).length := by
    rw [QrSpec.blank, List.length_replicate]
    exact (layout masked.filled.known).inside i pattern
  obtain ⟨m, member, present⟩ := applied_touched pattern inside
  exact ⟨m, by rw [put, present], createFrame_marked version _ member⟩

theorem shown_eq : ∃ expression : Nat → Nat → Nat,
    shown = applied (Mask.formatWrites (getWidth version) (getFormatInfo choice level))
      (Mask.maskMaker expression (getWidth version) frame).1 := by
  have lay := layout masked.filled.known
  obtain ⟨expression, _, first⟩ :=
    Mask.masked_some lay.wide.least masked.filled.length level masked.known
  have done := masked.done
  rw [Mask.makeMask, if_neg (Nat.not_le.mpr masked.known), first, Option.map_some,
    Option.some.injEq] at done
  exact ⟨expression, by rw [← done]⟩

/-- The version information is shown as it was put into the frame. -/
theorem shown_information : ∀ c ∈ createFrame.information version (getWidth version),
    shown[c.1]? = some c.2 := by
  intro c member
  have lay := layout masked.filled.known
  obtain ⟨_, same, put, sized, _⟩ := newFrame_some masked.filled.known
  obtain rfl := Option.some.inj (masked.filled.started.symm.trans same)
  have pattern : c.1 ∈ indices (createFrame version) := by
    rw [createFrame, indices_append]
    exact List.mem_append_right _ (List.mem_map_of_mem member)
  have inside := lay.inside _ pattern
  have present : blank[c.1]? = some c.2 := by
    rw [put, createFrame, applied_append]
    apply applied_once lay.informationOnce member
    rw [applied_length, QrSpec.blank, List.length_replicate]
    exact inside
  obtain ⟨expression, equal⟩ := masked.shown_eq
  have marked := createFrame_marked version _ (List.mem_append_right _ member)
  have apart := lay.apart c.1 (List.mem_map_of_mem member)
  rw [equal, applied_untouched (by rwa [Mask.indices_formatWrites]), Mask.maskMaker,
    List.getElem?_mapIdx, masked.untouched pattern, present, Option.map_some, Mask.maskModule, if_pos marked]

theorem shown_format : ∀ c ∈ Mask.formatWrites (getWidth version) (getFormatInfo choice level),
    shown[c.1]? = some c.2 := by
  intro c member
  have lay := layout masked.filled.known
  obtain ⟨expression, equal⟩ := masked.shown_eq
  rw [equal]
  apply applied_once (by rw [Mask.indices_formatWrites]; exact lay.formatOnce) member
  rw [Mask.maskMaker, List.length_mapIdx, masked.filled.length]
  exact Mask.formatWrites_inside lay.wide.least _ (List.mem_map_of_mem member)

end Masked

theorem marked_eq : ∀ n < 256, UInt8.ofNat n &&& 0x80 ≠ 0 → UInt8.ofNat n &&& 0x80 = 0x80 := by
  decide +kernel

theorem formatModule_marked (format : UInt32) (k : Nat) :
    Mask.formatModule format k &&& 0x80 = 0x80 := by
  rw [Mask.formatModule]
  split <;> rfl

theorem format_marked {width : Nat} {format : UInt32} :
    ∀ c ∈ Mask.formatWrites width format, c.2 &&& 0x80 = 0x80 := by
  intro c member
  rw [formatBits_writes] at member
  obtain ⟨b, _, rfl⟩ := List.mem_map.mp member
  exact formatModule_marked format b.2

namespace Masked

variable {raw : QRRawCode} {version : Nat} {level : QRecLevel} {blank frame : Frame} {choice : Nat}
variable {shown : Frame} (masked : Masked raw version level blank frame choice shown)

include masked

/-- The frame the decoder unmasks. -/
theorem unmask_eq : unmask ⟨getWidth version, shown⟩ level choice =
    some (applied (Mask.formatWrites (getWidth version) (getFormatInfo choice level)) frame) :=
  Mask.makeMask_twice (layout masked.filled.known).wide.least masked.filled.length masked.done

/-- With the format information in it, what has the marks of the frame has those of its version. -/
theorem formatted_marks {other : Frame} (same : marks other = marks frame) :
    marks (applied (Mask.formatWrites (getWidth version) (getFormatInfo choice level)) other) =
      marks blank := by
  have kept := same.trans masked.filled.kept
  apply List.ext_getElem?
  intro i
  rw [← kept, marks, marks, List.getElem?_map, List.getElem?_map]
  by_cases touched :
      i ∈ indices (Mask.formatWrites (getWidth version) (getFormatInfo choice level))
  · have lay := layout masked.filled.known
    have inside : i < other.length := by
      have sized := congrArg List.length same
      simp only [marks, List.length_map, masked.filled.length] at sized
      rw [sized]
      exact Mask.formatWrites_inside lay.wide.least _ touched
    obtain ⟨value, member, present⟩ := applied_touched touched inside
    have pattern := lay.format i (by rwa [← Mask.indices_formatWrites])
    obtain ⟨m, here, marked⟩ := masked.blank_marked pattern
    have full := marked_eq m.toNat m.toNat_lt
    rw [UInt8.ofNat_toNat] at full
    have mark := congrArg (·[i]?) kept
    simp only [marks, List.getElem?_map, here, Option.map_some] at mark
    rw [present, mark, Option.map_some, format_marked _ member, full marked]
  · rw [applied_untouched touched]

/-- Without its mask it has the marks of the frame that was filled. -/
theorem unmask_marks :
    marks (applied (Mask.formatWrites (getWidth version) (getFormatInfo choice level)) frame) =
      marks blank := masked.formatted_marks rfl

/-- A module the filler leads to has the value that was put there. -/
theorem unmask_value {k : Nat} {i : Nat} {value : UInt8}
    (here : (freeIndices blank (getWidth version))[k]? = some i)
    (put : (values raw)[k]? = some value) :
    (applied (Mask.formatWrites (getWidth version) (getFormatInfo choice level)) frame)[i]? =
      some value := by
  have filled := masked.filled
  have lay := layout filled.known
  have free := (mem_freeIndices filled.known filled.started).mp (List.mem_of_getElem? here)
  have apart : i ∉ indices (Mask.formatWrites (getWidth version) (getFormatInfo choice level)) := by
    rw [Mask.indices_formatWrites]
    exact fun member => free.2 (lay.format i member)
  have zipped : ((freeIndices blank (getWidth version)).zip (values raw))[k]? = some (i, value) :=
    List.getElem?_zip_eq_some.mpr ⟨here, put⟩
  have once : (indices ((freeIndices blank (getWidth version)).zip (values raw))).Nodup := by
    rw [indices, List.map_fst_zip filled.size.ge]
    exact freeIndices_nodup lay.wide blank
  have sized : blank.length = getWidth version * getWidth version := by
    have length := congrArg List.length filled.put
    rw [applied_length, filled.length] at length
    exact length.symm
  rw [applied_untouched apart, filled.put]
  exact applied_once once (List.mem_of_getElem? zipped) (sized ▸ free.1)

end Masked

/-! ## The round trip -/

theorem codeModules_bits : ∀ n < 256,
    (codeModules 0 (UInt8.ofNat n)).map (fun m => decide (m &&& 1 ≠ 0)) = Bits.ofNat 8 n ∧
    (codeModules 0x02 (UInt8.ofNat n)).map (fun m => decide (m &&& 1 ≠ 0)) = Bits.ofNat 8 n := by
  decide +kernel

open QrInput (QRinput Stream getByteStream chunkBits)

/-- The values of a codeword, which is one of the data or one of the check bytes. -/
theorem values_code (raw : QRRawCode) {i j : Nat} (below : i < raw.dataLength + raw.eccLength)
    (small : j < 8) : ∃ flag : UInt8, (flag = 0 ∨ flag = 0x02) ∧
      (values raw)[8 * i + j]? = (codeModules flag (raw.codeAt i))[j]? := by
  have eight (flag : UInt8) (k : Nat) : (codeModules flag (raw.codeAt k)).length = 8 := by
    simp [codeModules]
  have first := flatMap_codeModules_length 0 (List.range raw.dataLength) raw.codeAt
  have second := flatMap_codeModules_length 0x02 (List.range' raw.dataLength raw.eccLength) raw.codeAt
  rw [List.length_range] at first
  rw [List.length_range'] at second
  rw [values, List.append_assoc]
  by_cases early : i < raw.dataLength
  · refine ⟨0, .inl rfl, ?_⟩
    rw [List.getElem?_append_left (by omega), getElem?_flatMap (eight 0) _ _ small,
      List.getElem?_range early, Option.bind_some]
  · obtain ⟨k, rfl⟩ := Nat.exists_eq_add_of_le (Nat.not_lt.mp early)
    have place : 8 * (raw.dataLength + k) + j - 8 * raw.dataLength = 8 * k + j := by omega
    refine ⟨0x02, .inr rfl, ?_⟩
    rw [List.getElem?_append_right (by omega), first, place,
      List.getElem?_append_left (by omega), getElem?_flatMap (eight 0x02) _ _ small,
      List.getElem?_range' (by omega), Nat.one_mul, Option.bind_some]

/-- The modules of a codeword show its bits. -/
theorem reads_code {raw : QRRawCode} {version : Nat} {level : QRecLevel} {blank frame shown : Frame}
    {choice : Nat} (masked : Masked raw version level blank frame choice shown) {i j : Nat}
    (below : i < raw.dataLength + raw.eccLength) (small : j < 8) :
    (Bits.ofNat 8 (raw.codeAt i).toNat)[j]? = some (bitAt
      (applied (Mask.formatWrites (getWidth version) (getFormatInfo choice level)) frame)
      ((freeIndices blank (getWidth version)).getD (8 * i + j) 0)) := by
  obtain ⟨flag, either, put⟩ := values_code raw below small
  have bits : (codeModules flag (raw.codeAt i)).map (fun m => decide (m &&& 1 ≠ 0)) =
      Bits.ofNat 8 (raw.codeAt i).toNat := by
    have both := codeModules_bits (raw.codeAt i).toNat (raw.codeAt i).toNat_lt
    rw [UInt8.ofNat_toNat] at both
    rcases either with rfl | rfl
    · exact both.1
    · exact both.2
  obtain ⟨m, module⟩ : ∃ m, (codeModules flag (raw.codeAt i))[j]? = some m :=
    ⟨_, List.getElem?_eq_getElem (by simpa [codeModules] using small)⟩
  rw [module] at put
  obtain ⟨place, here⟩ : ∃ place, (freeIndices blank (getWidth version))[8 * i + j]? = some place := by
    refine ⟨_, List.getElem?_eq_getElem ?_⟩
    rw [← masked.filled.size]
    exact (List.getElem?_eq_some_iff.mp put).1
  have value := masked.unmask_value here put
  rw [← bits, List.getElem?_map, module, List.getD_eq_getElem?_getD, here, Option.getD_some, bitAt,
    List.getD_eq_getElem?_getD, value]
  rfl

/-- The modules of the first codewords show the bits of the data. -/
theorem reads_data {raw : QRRawCode} {version : Nat} {level : QRecLevel} {data : List UInt8}
    {blank frame shown : Frame} {choice : Nat} (made : raw.Made version level data)
    (masked : Masked raw version level blank frame choice shown)
    (sized : data.length = (getEccSpec version level).rsDataLength) {i j : Nat}
    (below : i < data.length) (small : j < 8) :
    (writeBytes data)[8 * (shape (getEccSpec version level)).place i + j]? = some (bitAt
      (applied (Mask.formatWrites (getWidth version) (getFormatInfo choice level)) frame)
      ((freeIndices blank (getWidth version)).getD (8 * i + j) 0)) := by
  have known := blocks masked.filled.known level
  have count : i < raw.dataLength := by rwa [made.dataLength, ← sized]
  have eight (byte : UInt8) : (Bits.ofNat 8 byte.toNat).length = 8 := Bits.ofNat_length _ _
  rw [writeBytes_eq, getElem?_flatMap eight _ _ small,
    QRRawCode.codeAt_data made known sized count, Option.bind_some]
  exact reads_code masked (Nat.lt_add_right _ count) small

/-- The bits that are extracted are those of the data. -/
theorem extracted_masked {input final : QRinput} {data : List UInt8} {chunks : List (List UInt8)}
    {raw : QRRawCode} {blank frame shown : Frame} {choice : Nat}
    (stream : Stream input final data chunks) (made : raw.Made final.version input.level data)
    (masked : Masked raw final.version input.level blank frame choice shown) :
    extracted ⟨getWidth final.version, shown⟩ =
      some (final.version, input.level, writeBytes data) := by
  have known := blocks stream.known input.level
  have sized := stream.length.trans known.data.symm
  have positive : ¬ (final.version : Int) < 1 := by
    have := stream.known.positive
    omega
  have free : ∀ i ∈ freeIndices blank (getWidth final.version), unmarked
      (applied (Mask.formatWrites (getWidth final.version) (getFormatInfo choice input.level)) frame)
      i := by
    intro i member
    rw [unmarked_congr masked.unmask_marks]
    exact (List.mem_filter.mp member).2
  have leads := (leads_newFrame stream.known masked.filled.started).congr masked.unmask_marks.symm
  have room : 8 * data.length ≤ (freeIndices blank (getWidth final.version)).length := by
    rw [← masked.filled.size, values_length, made.dataLength, sized]
    omega
  have bits := extractBits_eq known free leads sized room
    fun i below j small => reads_data made masked sized below small
  simp only [extracted, decodeVersion_shown stream.known masked.shown_information,
    decodeFormat_shown stream.known masked.known masked.shown_format, masked.unmask_eq,
    if_neg positive, Int.toNat_natCast, bits, Option.bind_eq_bind, Option.bind_some]

/-- The chunks come back, and the check of the remainder accepts what is left. -/
theorem decode_masked {input final : QRinput} {data : List UInt8} {chunks : List (List UInt8)}
    {raw : QRRawCode} {blank frame shown : Frame} {choice : Nat}
    (stream : Stream input final data chunks) (made : raw.Made final.version input.level data)
    (masked : Masked raw final.version input.level blank frame choice shown) :
    decode ⟨getWidth final.version, shown⟩ = some {
      version := final.version
      level := input.level
      chunks
      data := concatChunkList chunks } ∧
    checkRemainderWords (writeBytes data)
      (decodeBitStream (writeBytes data) final.version).2.length = 0 := by
  obtain ⟨tail, bits, terminated⟩ := stream.bits
  obtain ⟨left, read, checked⟩ := decodeBitStream_chunks stream.short terminated
  rw [← bits] at read
  constructor
  · rw [decode, decodeBits, extracted_masked stream made masked]
    simp only [Option.map_some, read]
  · rw [read, bits]
    exact checked _

theorem concatChunkList_getD (chunks : List (List UInt8)) :
    (concatChunkList chunks).getD [] = chunks.flatten := by
  rw [concatChunkList, ← List.length_flatten]
  split
  · next none => rw [List.length_eq_zero_iff.mp none, Option.getD_none]
  · rfl

end AssistedDump.Decoder
