import AssistedDump.Heavylifting.RomStoreContents

/-! # The page's view of the rom store

`send_rom_data` of wrap_heavylifting_worker.js posts the cells of the store below its upper
bound, and `received_rom_data` of main.js makes two things of them: the text of the hex
view and the bytes of the file to download. Strings are lists of characters.
-/

namespace AssistedDump.RomView

open CSemantics Machine RomStore

variable {n : MaxRomSize}

/-- The cells are a view of the memory at `rom_data_ptr`, and the snapshot is a copy of it. -/
def sendRomData : C (Store n) (List Int16) := do
  let s ← get
  if s.romDataNotUnknownMin < s.romDataNotUnknownMax then
    (List.range s.romDataNotUnknownMax.toInt.toNat).mapM fun i => readCell (UInt32.ofNat i)
  else
    pure []

def charsPerLine : Nat := 64

/-- `b.toString(16)`. -/
def toString16 (b : Int16) : List Char :=
  let digits := Nat.toDigits 16 b.toInt.natAbs
  if b.toInt < 0 then '-' :: digits else digits

/-- What the iteration for the entry at `i` adds to `text`. -/
def entryText (i : Nat) (b : Int16) : List Char :=
  (if b = -1 then ['?', '?'] else (toString16 b).leftpad 2 '0') ++ ' ' ::
    if i % charsPerLine = charsPerLine - 1 then ['\n'] else []

/-- What the iterations from `i` on add. -/
def textFrom (i : Nat) : List Int16 → List Char
  | [] => []
  | b :: rest => entryText i b ++ textFrom (i + 1) rest

/-- A number stored in a `Uint8Array`, modulo 256. -/
def toUint8 (b : Int16) : UInt8 := UInt8.ofInt b.toInt

structure Received where
  text : List Char
  romdataBytes : List UInt8
  deriving Repr, DecidableEq

def receivedRomData (romData : List Int16) : Received where
  text := textFrom 0 romData
  romdataBytes := romData.map fun b => toUint8 (if b = -1 then 0 else b)

/-! ## The snapshot -/

/-- An unknown cell or a byte. -/
def IsEntry (b : Int16) : Prop := b = -1 ∨ 0 ≤ b.toInt ∧ b.toInt ≤ 255

instance (b : Int16) : Decidable (IsEntry b) := inferInstanceAs (Decidable (_ ∨ _))

theorem cellOf_isEntry (o : Option UInt8) : IsEntry (cellOf o) := by
  cases o with
  | none => exact .inl rfl
  | some b =>
      have small := b.toNat_lt
      have value := cell_toInt b
      exact .inr (by simp only [cellOf]; omega)

/-- The snapshot of a store that represents a history. -/
theorem sendRomData_represents {s : Store n} {history : List (Patch UInt8)}
    (h : Represents s history) (inside : ∀ p ∈ history, p.stop ≤ n.val) :
    ∃ romData, sendRomData.run s = .ok romData s ∧
      romData.length = (if s.romDataNotUnknownMin < s.romDataNotUnknownMax then
        s.romDataNotUnknownMax.toInt.toNat else 0) ∧
      ∀ i b, romData[i]? = some b → b = cellOf (overlay history i) := by
  by_cases stored : s.romDataNotUnknownMin < s.romDataNotUnknownMax
  · have maxLe : s.romDataNotUnknownMax.toInt.toNat ≤ n.val := h.spans.hi_le inside
    have room := n.property
    have reads : ∀ i < s.romDataNotUnknownMax.toInt.toNat, ∃ b,
        (readCell (UInt32.ofNat i)).run s = .ok b s ∧ b = cellOf (overlay history i) := by
      intro i before
      have index : (UInt32.ofNat i).toNat = i :=
        UInt32.toNat_ofNat_of_lt' (show i < 4294967296 by omega)
      have inArray : (UInt32.ofNat i).toNat < n.val := by omega
      refine ⟨s.romData ⟨(UInt32.ofNat i).toNat, inArray⟩, ?_, ?_⟩
      · simp only [readCell, EStateM.run_bind, EStateM.run_get, dif_pos inArray, EStateM.run_pure]
      · exact (h.cells _).trans (congrArg (fun j => cellOf (overlay history j)) index)
    obtain ⟨romData, run, length, cells⟩ := mapM_reads reads
    refine ⟨romData, ?_, by rw [if_pos stored, length], cells⟩
    rw [sendRomData, EStateM.run_bind, EStateM.run_get]
    simp only [if_pos stored, run]
  · refine ⟨[], ?_, by rw [if_neg stored]; rfl, fun i b none => by simp at none⟩
    rw [sendRomData, EStateM.run_bind, EStateM.run_get]
    simp only [if_neg stored, EStateM.run_pure]

/-! ## The hex view -/

/-- The two characters an entry is shown as. -/
def characters (b : Int16) : List Char :=
  if b = -1 then ['?', '?']
  else [Nat.digitChar (b.toInt.toNat / 16), Nat.digitChar (b.toInt.toNat % 16)]

theorem padded_digits {v : Nat} (small : v ≤ 255) :
    (Nat.toDigits 16 v).leftpad 2 '0' = [Nat.digitChar (v / 16), Nat.digitChar (v % 16)] := by
  by_cases single : v < 16
  · rw [Nat.toDigits_of_lt_base single, Nat.div_eq_of_lt single, Nat.mod_eq_of_lt single]
    rfl
  · have low : 16 ≤ v := Nat.not_lt.mp single
    rw [Nat.toDigits_of_base_le (by decide) low, Nat.toDigits_of_lt_base (by omega)]
    rfl

theorem IsEntry.byte {b : Int16} (entry : IsEntry b) (known : b ≠ -1) :
    0 ≤ b.toInt ∧ b.toInt ≤ 255 := by
  cases entry with
  | inl unknown => exact absurd unknown known
  | inr byte => exact byte

theorem entryText_eq {b : Int16} (entry : IsEntry b) (i : Nat) :
    entryText i b = characters b ++ ' ' :: if i % 64 = 63 then ['\n'] else [] := by
  by_cases unknown : b = -1
  · simp only [entryText, characters, if_pos unknown]
    rfl
  · obtain ⟨low, high⟩ := entry.byte unknown
    have value : b.toInt.natAbs = b.toInt.toNat := by omega
    simp only [entryText, characters, if_neg unknown, toString16, if_neg (Int.not_lt.mpr low), value,
      padded_digits (show b.toInt.toNat ≤ 255 by omega)]
    rfl

theorem characters_length (b : Int16) : (characters b).length = 2 := by
  simp only [characters]
  split <;> rfl

/-- Three characters for each entry and one at the end of each full line. -/
theorem textFrom_length {romData : List Int16} (entries : ∀ b ∈ romData, IsEntry b) (i : Nat) :
    (textFrom i romData).length + i / 64 = 3 * romData.length + (i + romData.length) / 64 := by
  induction romData generalizing i with
  | nil => simp [textFrom]
  | cons b rest ih =>
      obtain ⟨first, later⟩ := List.forall_mem_cons.mp entries
      have tail := ih later (i + 1)
      have head : (entryText i b).length = 3 + if i % 64 = 63 then 1 else 0 := by
        rw [entryText_eq first]
        split <;> simp [characters_length]
      simp only [textFrom, List.length_append, List.length_cons, head]
      split <;> omega

theorem textFrom_append (i : Nat) (front back : List Int16) :
    textFrom i (front ++ back) = textFrom i front ++ textFrom (i + front.length) back := by
  induction front generalizing i with
  | nil => rfl
  | cons b rest ih =>
      simp only [List.cons_append, textFrom, ih, List.append_assoc, List.length_cons]
      rw [Nat.add_right_comm, Nat.add_assoc]

/-- Where an entry stands in the text. -/
theorem textFrom_entry {romData : List Int16} (entries : ∀ b ∈ romData, IsEntry b) {i : Nat}
    {b : Int16} (entry : romData[i]? = some b) :
    ((textFrom 0 romData).drop (3 * i + i / 64)).take 2 = characters b := by
  obtain ⟨before, here⟩ := List.getElem?_eq_some_iff.mp entry
  have split : romData = romData.take i ++ b :: romData.drop (i + 1) := by
    rw [← here, List.getElem_cons_drop, List.take_append_drop]
  have earlier : ∀ c ∈ romData.take i, IsEntry c := fun c member =>
    entries c (List.mem_of_mem_take member)
  have front := textFrom_length earlier 0
  rw [List.length_take_of_le before.le] at front
  rw [split, textFrom_append, List.drop_left' (by omega), textFrom,
    entryText_eq (entries b (List.mem_of_getElem? entry)), List.append_assoc,
    List.take_left' (characters_length b)]

/-! ## Reading the text back -/

/-- The value of a lower-case hex digit. -/
def hexValue (c : Char) : Option Nat :=
  if '0' ≤ c ∧ c ≤ '9' then some (c.toNat - '0'.toNat)
  else if 'a' ≤ c ∧ c ≤ 'f' then some (c.toNat - 'a'.toNat + 10)
  else none

def parseEntry (high low : Char) : Option Int16 :=
  if high = '?' ∧ low = '?' then some (-1)
  else do
    let h ← hexValue high
    let l ← hexValue low
    pure (Int16.ofNat (16 * h + l))

/-- Two characters and a space for each entry, where line breaks are passed over. -/
def parseText : List Char → Option (List Int16)
  | [] => some []
  | '\n' :: rest => parseText rest
  | high :: low :: ' ' :: rest => do
      let b ← parseEntry high low
      let romData ← parseText rest
      pure (b :: romData)
  | _ => none

theorem hexValue_digitChar : ∀ v < 16, hexValue (Nat.digitChar v) = some v := by decide

theorem digitChar_plain : ∀ v < 16, Nat.digitChar v ≠ '?' ∧ Nat.digitChar v ≠ '\n' := by decide

theorem parseEntry_characters {b : Int16} (entry : IsEntry b) :
    ∃ high low, characters b = [high, low] ∧ high ≠ '\n' ∧ parseEntry high low = some b := by
  by_cases unknown : b = -1
  · exact ⟨'?', '?', by rw [characters, if_pos unknown], by decide, by rw [unknown]; rfl⟩
  · obtain ⟨low, high⟩ := entry.byte unknown
    have first : b.toInt.toNat / 16 < 16 := by omega
    have second : b.toInt.toNat % 16 < 16 := Nat.mod_lt _ (by decide)
    have value : Int16.ofNat (16 * (b.toInt.toNat / 16) + b.toInt.toNat % 16) = b := by
      rw [← Int16.toInt_inj, Int16.toInt_ofNat_of_lt (by omega)]
      omega
    refine ⟨_, _, by rw [characters, if_neg unknown], (digitChar_plain _ first).2, ?_⟩
    rw [parseEntry, if_neg fun marks => (digitChar_plain _ first).1 marks.1,
      hexValue_digitChar _ first, hexValue_digitChar _ second]
    exact congrArg some value

theorem parseText_textFrom {romData : List Int16} (entries : ∀ b ∈ romData, IsEntry b) (i : Nat) :
    parseText (textFrom i romData) = some romData := by
  induction romData generalizing i with
  | nil => rfl
  | cons b rest ih =>
      obtain ⟨first, later⟩ := List.forall_mem_cons.mp entries
      obtain ⟨high, low, shown, plain, parsed⟩ := parseEntry_characters first
      have newline : parseText ((if i % 64 = 63 then ['\n'] else []) ++ textFrom (i + 1) rest) =
          some rest := by
        split
        · exact ih later (i + 1)
        · exact ih later (i + 1)
      rw [textFrom, entryText_eq first, shown, List.append_assoc, List.cons_append]
      simp only [List.cons_append, List.nil_append]
      rw [parseText, parsed, newline]
      · rfl
      · exact plain

/-! ## The file -/

theorem toUint8_toNat {b : Int16} (low : 0 ≤ b.toInt) (high : b.toInt ≤ 255) :
    ((toUint8 b).toNat : Int) = b.toInt := by
  have small : (b.toInt % 2 ^ 8).toNat < UInt8.size := by
    simp only [UInt8.size]
    omega
  rw [toUint8, UInt8.ofInt, UInt8.toNat_ofNat_of_lt' small]
  omega

theorem romdataBytes_entry {romData : List Int16} {i : Nat} {b : Int16}
    (entry : romData[i]? = some b) (valid : IsEntry b) :
    ∃ byte, (receivedRomData romData).romdataBytes[i]? = some byte ∧
      (byte.toNat : Int) = if b = -1 then 0 else b.toInt := by
  refine ⟨toUint8 (if b = -1 then 0 else b), ?_, ?_⟩
  · simp only [receivedRomData, List.getElem?_map, entry, Option.map_some]
  · by_cases unknown : b = -1
    · rw [if_pos unknown, if_pos unknown]
      rfl
    · rw [if_neg unknown, if_neg unknown]
      exact toUint8_toNat (valid.byte unknown).1 (valid.byte unknown).2

/-! ## The agreement -/

/-- What the page makes of a snapshot agrees with it. -/
structure Agrees (romData : List Int16) (received : Received) : Prop where
  textLength : received.text.length = 3 * romData.length + romData.length / 64
  textEntry : ∀ (i : Nat) (b : Int16), romData[i]? = some b →
    (received.text.drop (3 * i + i / 64)).take 2 = characters b
  parsed : parseText received.text = some romData
  distinct : ∀ other, (∀ b ∈ other, IsEntry b) → (receivedRomData other).text = received.text →
    other = romData
  fileLength : received.romdataBytes.length = romData.length
  fileByte : ∀ (i : Nat) (b : Int16), romData[i]? = some b →
    ∃ byte : UInt8, received.romdataBytes[i]? = some byte ∧
      (byte.toNat : Int) = if b = -1 then 0 else b.toInt

theorem receivedRomData_agrees {romData : List Int16} (entries : ∀ b ∈ romData, IsEntry b) :
    Agrees romData (receivedRomData romData) where
  textLength := by simpa [receivedRomData] using textFrom_length entries 0
  textEntry i b entry := textFrom_entry entries entry
  parsed := parseText_textFrom entries 0
  distinct other valid same := by
    have back := parseText_textFrom valid 0
    rw [show textFrom 0 other = textFrom 0 romData from same, parseText_textFrom entries 0] at back
    exact (Option.some.inj back).symm
  fileLength := by simp only [receivedRomData, List.length_map]
  fileByte i b entry := romdataBytes_entry entry (entries b (List.mem_of_getElem? entry))

example : receivedRomData [-1, 10, -1, 255] =
    ⟨['?', '?', ' ', '0', 'a', ' ', '?', '?', ' ', 'f', 'f', ' '], [0, 10, 0, 255]⟩ := by decide

/-- The snapshot of every state the store reaches ends at the upper bound of what is known,
    and the hex view and the file of every snapshot agree with it. -/
theorem romView_agrees {n : MaxRomSize} {frags : List RomFragment} {s : Store n}
    (fits : ∀ f ∈ frags, Fits n f) (run : Reaches storeRomFragment (heavyliftingInit n) frags s) :
    (∃ romData, sendRomData.run s = .ok romData s ∧
      (romData.length : Int) = (if frags = [] then 0 else s.romDataNotUnknownMax.toInt) ∧
      (∀ (i : Fin n.val) b, romData[i.val]? = some b → b = s.romData i) ∧
      ∀ b ∈ romData, IsEntry b) ∧
    ∀ romData, (∀ b ∈ romData, IsEntry b) → Agrees romData (receivedRomData romData) := by
  refine ⟨?_, fun romData entries => receivedRomData_agrees entries⟩
  obtain ⟨t, stores, represents⟩ := run_represents (represents_init n) fits
  obtain rfl := run.unique stores
  rw [List.nil_append] at represents
  have inside : ∀ p ∈ frags.map RomFragment.patch, p.stop ≤ n.val :=
    List.forall_mem_map.mpr fun f member => (fits f member).stop_le
  obtain ⟨romData, snapshot, length, cells⟩ := sendRomData_represents represents inside
  refine ⟨romData, snapshot, ?_, ?_, ?_⟩
  · have nonneg := represents.maxNonneg
    have stored := represents.stored fits
    by_cases none : frags = []
    · rw [if_neg fun less => stored.mp less none] at length
      rw [if_pos none, length]
      rfl
    · rw [if_pos (stored.mpr none)] at length
      rw [if_neg none, length]
      exact Int.toNat_of_nonneg nonneg
  · intro i b entry
    rw [cells i b entry]
    exact (represents.cells i).symm
  · intro b member
    obtain ⟨i, entry⟩ := List.mem_iff_getElem?.mp member
    rw [cells i b entry]
    exact cellOf_isEntry _

/-- Two fragments with an unknown cell before and between them. -/
theorem romView_agrees_gap :
    ∃ s : Store ⟨8, by decide⟩,
      Reaches storeRomFragment (heavyliftingInit _) [⟨1, 1, [10]⟩, ⟨3, 1, [255]⟩] s ∧
      (∃ romData, sendRomData.run s = .ok romData s ∧
        (romData.length : Int) = s.romDataNotUnknownMax.toInt ∧ ∀ b ∈ romData, IsEntry b) ∧
      Agrees [-1, 10, -1, 255] (receivedRomData [-1, 10, -1, 255]) := by
  have fits : ∀ f ∈ [(⟨1, 1, [10]⟩ : RomFragment), ⟨3, 1, [255]⟩], Fits ⟨8, by decide⟩ f := by
    simp only [List.forall_mem_cons, List.not_mem_nil, false_implies, implies_true, and_true]
    exact ⟨⟨by decide, by decide, by decide⟩, ⟨by decide, by decide, by decide⟩⟩
  obtain ⟨s, run, -⟩ := run_represents (represents_init ⟨8, by decide⟩) fits
  obtain ⟨⟨romData, snapshot, length, -, entries⟩, agrees⟩ := romView_agrees fits run
  have shown : ∀ b ∈ [(-1 : Int16), 10, -1, 255], IsEntry b := by
    simp only [List.forall_mem_cons, List.not_mem_nil, false_implies, implies_true, and_true]
    exact ⟨.inl rfl, .inr (by decide), .inl rfl, .inr (by decide)⟩
  exact ⟨s, run, ⟨romData, snapshot, length, entries⟩, agrees _ shown⟩

end AssistedDump.RomView
