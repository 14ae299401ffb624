import AssistedDump.Heavylifting.Dispatch

/-! # The way of an image to zbar

A frame of the page is copied three times: `process_frame` of wrap_heavylifting_worker.js
puts it into the memory of the module, `heavylifting_process_frame` of heavylifting_main.c
puts it behind the header of a message to a worker, and `heavylifting_decode_image` of
heavylifting_imgdec.c makes a gray image of it. `malloc` is a parameter, and the objects it
returns may contain anything.
-/

namespace AssistedDump.ImageTransport

open CSemantics RomStore ByteOrder
open ImageDecoder (intBytes intBytes_length readWord readWord_leading promoted)
open Dispatch (Heavylifting nImgdecWorkers)

/-- What the page hands over, four bytes for each pixel. -/
structure FrameImageData where
  width : Nat
  height : Nat
  data : List UInt8
  deriving Repr, DecidableEq

/-- What `malloc` returns for a size. -/
abbrev Malloc := Nat → Option (List UInt8)

/-- `offsetof(struct image_data, rgba_data)` for 4-byte ints. -/
def offsetofRgbaData : Nat := 4 + 4

variable {σ : Type} {n : MaxRomSize}

/-- `4 * width * height` -/
def rgbaSize (width height : Int32) : C σ Int32 := do
  mulInt (← mulInt 4 width) height

/-- The part of `heavylifting_process_frame` that makes the message for a worker. -/
def imageData (malloc : Malloc) (width height : Int32) (imageDataRgba : List Int8) :
    C σ (List UInt8) := do
  let size ← rgbaSize width height
  let imgdMemsize := (UInt32.ofNat offsetofRgbaData + size.toUInt32).toInt32
  let imgd ← allocated "imgd != NULL" (malloc imgdMemsize.toUInt32.toNat)
  let imgd ← overwrite imgd 0 (intBytes width)
  let imgd ← overwrite imgd 4 (intBytes height)
  let rgba ← readFirst imageDataRgba size.toUInt32.toNat
  let imgd ← overwrite imgd offsetofRgbaData (rgba.map Int8.toUInt8)
  readFirst imgd imgdMemsize.toUInt32.toNat

/-- The search for the worker repeats the assertion, which cannot fail there. -/
def heavyliftingProcessFrame (malloc : Malloc) (width height : Int32) (imageDataRgba : List Int8) :
    C (Heavylifting (List UInt8) n) Unit := do
  assert "is_initialized" (← get).isInitialized
  let imgd ← imageData malloc width height imageDataRgba
  Dispatch.heavyliftingProcessFrame imgd

/-- A byte stored through `HEAP8`. -/
def heap8 (value : UInt8) : Int8 := Int8.ofNat value.toNat

def processFrame (malloc : Malloc) (frame : FrameImageData) :
    C (Heavylifting (List UInt8) n) Unit :=
  heavyliftingProcessFrame malloc (Int32.ofNat frame.width) (Int32.ofNat frame.height)
    (frame.data.map heap8)

/-- The arguments `decode_qr_code_image` gets. -/
structure GrayImage where
  width : Int32
  height : Int32
  imageDataGray : List UInt8
  deriving Repr, DecidableEq

/-- `y * width + x` -/
def pixelIndex (width : Int32) (x y : Nat) : C σ Int32 := do
  addInt (← mulInt (Int32.ofNat y) width) (Int32.ofNat x)

/-- `imgd->rgba_data[4 * (y * width + x) + k]`, read from the message. -/
def channel (data : List UInt8) (width : Int32) (x y : Nat) (k : Int32) : C σ Int32 := do
  let index ← addInt (← mulInt 4 (← pixelIndex width x y)) k
  let value ← readAt data (offsetofRgbaData + index.toInt.toNat)
  pure (promoted value)

/-- `gray`, with the two assertions about it. -/
def grayValue (data : List UInt8) (width : Int32) (x y : Nat) : C σ Int32 := do
  let r ← channel data width x y 0
  let g ← channel data width x y 1
  let b ← channel data width x y 2
  let sum ← addInt (← addInt r g) b
  let gray := sum / 3
  assert "gray >= 0" (gray ≥ 0)
  assert "gray <= 255" (gray ≤ 255)
  pure gray

/-- The body of the two loops, on `image_data_gray`. -/
def grayPixel (data : List UInt8) (width : Int32) (x y : Nat) : C (List UInt8) Unit := do
  let gray ← grayValue data width x y
  let index ← pixelIndex width x y
  writeAt index.toInt.toNat gray.toUInt32.toUInt8

/-- The part of `heavylifting_decode_image` in front of `decode_qr_code_image`. -/
def grayImage (malloc : Malloc) (data : List UInt8) : C σ GrayImage := do
  assert "size >= sizeof(struct image_data_header)" (data.length ≥ offsetofRgbaData)
  let width := (← readWord data 0).toInt32
  let height := (← readWord data 4).toInt32
  let size ← rgbaSize width height
  assert "data + size >= (char *)imgd->rgba_data + 4 * width * height"
    (data.length ≥ offsetofRgbaData + size.toInt)
  let nPixels ← mulInt width height
  let imageDataGray ← allocated "image_data_gray != NULL" (malloc nPixels.toUInt32.toNat)
  let imageDataGray ← withArray imageDataGray
    (forLoop (fun y => forLoop (fun x => grayPixel data width x y) width.toInt.toNat)
      height.toInt.toNat)
  pure ⟨width, height, imageDataGray⟩

/-- The worker's function, where `zbar` is the data of the symbols in a gray image. -/
def heavyliftingDecodeImage (malloc : Malloc) (zbar : GrayImage → List (List UInt8))
    (data : List UInt8) : C σ (List UInt8) := do
  let image ← grayImage malloc data
  ImageDecoder.heavyliftingDecodeImage (zbar image)

/-! ## The message -/

theorem heap8_byte (value : UInt8) : (heap8 value).toUInt8 = value :=
  UInt8.ofNat_toNat

theorem heap8_bytes (data : List UInt8) : (data.map heap8).map Int8.toUInt8 = data := by
  rw [List.map_map]
  exact (List.map_congr_left fun value _ => heap8_byte value).trans (List.map_id data)

/-- The bytes of a `struct image_data`. -/
def message (width height : Nat) (rgba : List UInt8) : List UInt8 :=
  intBytes (Int32.ofNat width) ++ (intBytes (Int32.ofNat height) ++ rgba)

section
variable {width height : Nat} {rgba : List UInt8}

theorem message_length : (message width height rgba).length = offsetofRgbaData + rgba.length := by
  simp only [message, List.length_append, intBytes_length, offsetofRgbaData]
  omega

/-- `imgd_memsize` is exact. -/
theorem imgdMemsize_toNat {size : Nat} (small : 8 + size < 2 ^ 31) :
    (UInt32.ofNat offsetofRgbaData + (Int32.ofNat size).toUInt32).toInt32.toUInt32.toNat =
      8 + size := by
  rw [UInt32.toUInt32_toInt32, UInt32.toNat_add, ofNat_toUInt32_toNat (by omega)]
  change (8 + size) % 2 ^ 32 = _
  omega

/-- The parts of a new object the members of `struct image_data` are stored in. -/
theorem imgd_parts {block : List UInt8} {size : Nat} (length : block.length = 8 + size) :
    ∃ hdr₀ hdr₄ old, block = hdr₀ ++ (hdr₄ ++ old) ∧ hdr₀.length = 4 ∧ hdr₄.length = 4 ∧
      old.length = size := by
  refine ⟨block.take 4, (block.drop 4).take 4, (block.drop 4).drop 4, ?_, ?_, ?_, ?_⟩
  · rw [List.take_append_drop, List.take_append_drop]
  all_goals simp only [List.length_take, List.length_drop]; omega

theorem rgba_area (width height : Nat) : 4 * width * height = 4 * (height * width) := by
  rw [Nat.mul_assoc, Nat.mul_comm width]

variable (wide : 1 ≤ width) (tall : 1 ≤ height) (small : 8 + 4 * width * height < 2 ^ 31)

include wide tall small

theorem sizes_lt :
    width < 2 ^ 31 ∧ height < 2 ^ 31 ∧ 4 * width < 2 ^ 31 ∧ height * width < 2 ^ 31 := by
  have first : 4 * width ≤ 4 * width * height := Nat.le_mul_of_pos_right _ tall
  have second : height ≤ height * width := Nat.le_mul_of_pos_right _ wide
  have area := rgba_area width height
  omega

theorem rgbaSize_run (s : σ) :
    (rgbaSize (Int32.ofNat width) (Int32.ofNat height)).run s =
      .ok (Int32.ofNat (4 * width * height)) s := by
  obtain ⟨widthLt, heightLt, first, -⟩ := sizes_lt wide tall small
  have four : (4 : Int32) = Int32.ofNat 4 := rfl
  rw [rgbaSize, four, EStateM.run_bind, mulInt_ofNat (by decide) widthLt first]
  exact mulInt_ofNat first heightLt (by omega) s

/-- The message holds the frame, whatever the object was before. -/
theorem imageData_run {malloc : Malloc} {block : List UInt8}
    (succeeds : malloc (8 + 4 * width * height) = some block)
    (size : block.length = 8 + 4 * width * height)
    (whole : rgba.length = 4 * width * height) (s : σ) :
    (imageData malloc (Int32.ofNat width) (Int32.ofNat height) (rgba.map heap8)).run s =
      .ok (message width height rgba) s := by
  have memsize := imgdMemsize_toNat small
  have count := ofNat_toUInt32_toNat (show 4 * width * height < 2 ^ 31 by omega)
  obtain ⟨hdr₀, hdr₄, old, rfl, first, second, third⟩ := imgd_parts size
  have widthSet : (overwrite (hdr₀ ++ (hdr₄ ++ old)) 0 (intBytes (Int32.ofNat width))).run s =
      .ok (intBytes (Int32.ofNat width) ++ (hdr₄ ++ old)) s :=
    overwrite_run [] (hdr₄ ++ old) rfl ((intBytes_length _).trans first.symm) s
  have heightSet : (overwrite (intBytes (Int32.ofNat width) ++ (hdr₄ ++ old)) 4
      (intBytes (Int32.ofNat height))).run s =
      .ok (message width height old) s :=
    overwrite_run (intBytes (Int32.ofNat width)) old rfl ((intBytes_length _).trans second.symm) s
  have copied : (overwrite (message width height old) offsetofRgbaData rgba).run s =
      .ok (message width height rgba) s := by
    have copy := overwrite_run (intBytes (Int32.ofNat width) ++ intBytes (Int32.ofNat height)) []
      (show offsetofRgbaData = _ from rfl) (whole.trans third.symm) s
    simpa only [message, List.append_nil, List.append_assoc] using copy
  have source := readFirst_whole (whole.symm.trans (List.length_map heap8).symm) s
  have sent : (readFirst (message width height rgba) (8 + 4 * width * height)).run s =
      .ok (message width height rgba) s := by
    apply readFirst_whole
    rw [message_length, whole]
    rfl
  rw [imageData, EStateM.run_bind, rgbaSize_run wide tall small]
  simp only [EStateM.run_bind, memsize, succeeds, allocated, EStateM.run_pure, widthSet, heightSet,
    count, source, heap8_bytes, copied]
  exact sent

end

/-! ## The gray image -/

theorem promoted_ofNat (b : UInt8) : promoted b = Int32.ofNat b.toNat := by
  rw [promoted, ← UInt32.toInt32_ofNat', ← UInt8.toNat_toUInt32, UInt32.ofNat_toNat]

/-- A third of the sum of three bytes is a byte, as an `int` and as a `uint8_t`. -/
theorem gray_byte (r g b : UInt8) :
    Int32.ofNat (r.toNat + g.toNat + b.toNat) / 3 ≥ 0 ∧
      Int32.ofNat (r.toNat + g.toNat + b.toNat) / 3 ≤ 255 ∧
      (Int32.ofNat (r.toNat + g.toNat + b.toNat) / 3).toUInt32.toUInt8 =
        UInt8.ofNat ((r.toNat + g.toNat + b.toNat) / 3) := by
  have small₁ := r.toNat_lt
  have small₂ := g.toNat_lt
  have small₃ := b.toNat_lt
  have third : Int32.ofNat (r.toNat + g.toNat + b.toNat) / 3 =
      Int32.ofNat ((r.toNat + g.toNat + b.toNat) / 3) :=
    (Int32.ofNat_div (by omega) (by decide)).symm
  have value : (Int32.ofNat ((r.toNat + g.toNat + b.toNat) / 3)).toInt =
      (r.toNat + g.toNat + b.toNat) / 3 :=
    Int32.toInt_ofNat_of_lt (by omega)
  rw [third]
  refine ⟨?_, ?_, ?_⟩
  · rw [ge_iff_le, Int32.le_iff_toInt_le, value, Int32.toInt_zero]
    omega
  · have most : (255 : Int32).toInt = 255 := by decide
    rw [Int32.le_iff_toInt_le, value, most]
    omega
  · rw [Int32.toUInt32_ofNat', UInt32.toUInt8_ofNat']

/-- The gray value of a pixel, given by its row-major index. -/
def grayAt (rgba : List UInt8) (pixel : Nat) : UInt8 :=
  UInt8.ofNat (((rgba.getD (4 * pixel) 0).toNat + (rgba.getD (4 * pixel + 1) 0).toNat +
    (rgba.getD (4 * pixel + 2) 0).toNat) / 3)

/-- The first pixels of a gray image of some size are set. -/
structure Grayed (rgba : List UInt8) (size done : Nat) (gray : List UInt8) : Prop where
  length : gray.length = size
  pixels : ∀ i < done, gray[i]? = some (grayAt rgba i)

theorem Grayed.set {rgba gray : List UInt8} {size done : Nat} (h : Grayed rgba size done gray)
    (inside : done < size) : Grayed rgba size (done + 1) (gray.set done (grayAt rgba done)) where
  length := List.length_set.trans h.length
  pixels i before := by
    have bound := h.length
    by_cases last : i = done
    · subst last
      rw [List.getElem?_set_self (by omega)]
    · rw [List.getElem?_set_ne fun same => last same.symm]
      exact h.pixels i (by omega)

section
variable {width height : Nat} {rgba : List UInt8}

theorem message_rgba (i : Nat) : (message width height rgba)[offsetofRgbaData + i]? = rgba[i]? := by
  rw [message, ← List.append_assoc]
  exact List.getElem?_append_right (Nat.le_add_right _ _) |>.trans
    (congrArg (fun j => rgba[j]?) (Nat.add_sub_cancel_left _ _))

variable (wide : 1 ≤ width) (tall : 1 ≤ height) (small : 8 + 4 * width * height < 2 ^ 31)

include wide tall small

/-- The index of a pixel is exact and inside the image. -/
theorem pixelIndex_run {x y : Nat} (inX : x < width) (inY : y < height) (s : σ) :
    (pixelIndex (Int32.ofNat width) x y).run s = .ok (Int32.ofNat (y * width + x)) s ∧
      4 * (y * width + x) + 4 ≤ 4 * width * height := by
  obtain ⟨widthLt, heightLt, -, -⟩ := sizes_lt wide tall small
  have inside := rowMajor_lt inX inY
  have area := rgba_area width height
  refine ⟨?_, by omega⟩
  rw [pixelIndex, EStateM.run_bind, mulInt_ofNat (by omega) widthLt (by omega)]
  exact addInt_ofNat (by omega) s

/-- A channel of a pixel is read inside the message. -/
theorem channel_run (whole : rgba.length = 4 * width * height) {x y k : Nat} (inX : x < width)
    (inY : y < height) (inPixel : k < 4) (s : σ) :
    (channel (message width height rgba) (Int32.ofNat width) x y (Int32.ofNat k)).run s =
      .ok (Int32.ofNat (rgba.getD (4 * (y * width + x) + k) 0).toNat) s := by
  obtain ⟨run, inside⟩ := pixelIndex_run wide tall small inX inY s
  have index := ofNat_toInt_toNat (show 4 * (y * width + x) + k < 2 ^ 31 by omega)
  have inRgba : 4 * (y * width + x) + k < rgba.length := by omega
  have read : (readAt (message width height rgba) (offsetofRgbaData + (4 * (y * width + x) + k))).run s =
      .ok (rgba.getD (4 * (y * width + x) + k) 0) s := by
    apply readAt_present
    rw [message_rgba, List.getElem?_eq_getElem inRgba, List.getD_eq_getElem _ _ inRgba]
  have four : (4 : Int32) = Int32.ofNat 4 := rfl
  rw [channel, EStateM.run_bind, run]
  simp only [EStateM.run_bind]
  rw [four, mulInt_ofNat (by decide) (by omega) (by omega)]
  simp only [addInt_ofNat (show 4 * (y * width + x) + k < 2 ^ 31 by omega), index, read,
    EStateM.run_pure, promoted_ofNat]

variable (whole : rgba.length = 4 * width * height)

include whole

theorem grayValue_run {x y : Nat} (inX : x < width) (inY : y < height) (s : σ) :
    ∃ gray, (grayValue (message width height rgba) (Int32.ofNat width) x y).run s = .ok gray s ∧
      gray.toUInt32.toUInt8 = grayAt rgba (y * width + x) := by
  have r := channel_run wide tall small whole inX inY (show 0 < 4 by decide) s
  have g := channel_run wide tall small whole inX inY (show 1 < 4 by decide) s
  have b := channel_run wide tall small whole inX inY (show 2 < 4 by decide) s
  have rLt := (rgba.getD (4 * (y * width + x) + 0) 0).toNat_lt
  have gLt := (rgba.getD (4 * (y * width + x) + 1) 0).toNat_lt
  have bLt := (rgba.getD (4 * (y * width + x) + 2) 0).toNat_lt
  obtain ⟨low, high, byte⟩ := gray_byte (rgba.getD (4 * (y * width + x) + 0) 0)
    (rgba.getD (4 * (y * width + x) + 1) 0) (rgba.getD (4 * (y * width + x) + 2) 0)
  have firstTwo : (rgba.getD (4 * (y * width + x) + 0) 0).toNat +
      (rgba.getD (4 * (y * width + x) + 1) 0).toNat < 2 ^ 31 := by omega
  have total : (rgba.getD (4 * (y * width + x) + 0) 0).toNat +
      (rgba.getD (4 * (y * width + x) + 1) 0).toNat +
      (rgba.getD (4 * (y * width + x) + 2) 0).toNat < 2 ^ 31 := by omega
  refine ⟨_, ?_, byte⟩
  change (channel _ _ x y 0).run s = _ at r
  change (channel _ _ x y 1).run s = _ at g
  change (channel _ _ x y 2).run s = _ at b
  simp only [grayValue, EStateM.run_bind, r, g, b, addInt_ofNat firstTwo, addInt_ofNat total,
    assert_holds low, assert_holds high, EStateM.run_pure]

/-- The body of the loops sets one more pixel. -/
theorem grayPixel_run {x y : Nat} (inX : x < width) (inY : y < height) {gray : List UInt8}
    (grayed : Grayed rgba (height * width) (y * width + x) gray) :
    ∃ t, (grayPixel (message width height rgba) (Int32.ofNat width) x y).run gray = .ok () t ∧
      Grayed rgba (height * width) (y * width + (x + 1)) t := by
  have inside := rowMajor_lt inX inY
  obtain ⟨value, read, byte⟩ := grayValue_run wide tall small whole inX inY gray
  obtain ⟨run, bound⟩ := pixelIndex_run wide tall small inX inY gray
  have index := ofNat_toInt_toNat (show y * width + x < 2 ^ 31 by omega)
  have inImage : y * width + x < gray.length := by rwa [grayed.length]
  refine ⟨_, ?_, grayed.set inside⟩
  rw [grayPixel, EStateM.run_bind, read]
  simp only [EStateM.run_bind, run, index, byte, writeAt_inside inImage]

/-- The inner loop sets the pixels of a row. -/
theorem grayRow_run {y : Nat} (inY : y < height) {gray : List UInt8}
    (grayed : Grayed rgba (height * width) (y * width) gray) :
    ∃ t, (forLoop (fun x => grayPixel (message width height rgba) (Int32.ofNat width) x y) width).run
        gray = .ok () t ∧ Grayed rgba (height * width) ((y + 1) * width) t := by
  rw [Nat.succ_mul]
  exact forLoop_run (I := fun x t => Grayed rgba (height * width) (y * width + x) t) grayed
    fun x inX t before => grayPixel_run wide tall small whole inX inY before

theorem grayLoops_run {gray : List UInt8} (length : gray.length = height * width) :
    ∃ t, (forLoop (fun y => forLoop (fun x =>
        grayPixel (message width height rgba) (Int32.ofNat width) x y) width) height).run gray =
        .ok () t ∧ Grayed rgba (height * width) (height * width) t := by
  have start : Grayed rgba (height * width) (0 * width) gray :=
    ⟨length, fun i before => by omega⟩
  exact forLoop_run (I := fun y t => Grayed rgba (height * width) (y * width) t) start
    fun y inY t before => grayRow_run wide tall small whole inY before

/-- A worker makes the gray image of the frame in its message. -/
theorem grayImage_run {malloc : Malloc} {block : List UInt8}
    (succeeds : malloc (width * height) = some block) (size : block.length = width * height) (s : σ) :
    ∃ gray, (grayImage malloc (message width height rgba)).run s =
        .ok ⟨Int32.ofNat width, Int32.ofNat height, gray⟩ s ∧
      Grayed rgba (height * width) (height * width) gray := by
  obtain ⟨widthLt, heightLt, -, area⟩ := sizes_lt wide tall small
  rw [Nat.mul_comm] at area
  obtain ⟨gray, loops, grayed⟩ := grayLoops_run wide tall small whole
    (size.trans (Nat.mul_comm width height))
  refine ⟨gray, ?_, grayed⟩
  have long : (message width height rgba).length ≥ offsetofRgbaData := by
    rw [message_length]
    omega
  have readWidth : (readWord (message width height rgba) 0).run s =
      .ok (Int32.ofNat width).toUInt32 s := readWord_leading _ rfl s
  have readHeight : (readWord (message width height rgba) 4).run s =
      .ok (Int32.ofNat height).toUInt32 s := readWord_leading _ rfl s
  have rgbaInside : ((message width height rgba).length : Int) ≥
      offsetofRgbaData + (Int32.ofNat (4 * width * height)).toInt := by
    rw [message_length, whole, Int32.toInt_ofNat_of_lt (by omega)]
    omega
  simp only [grayImage, EStateM.run_bind, assert_holds long, readWidth, readHeight,
    Int32.toInt32_toUInt32, rgbaSize_run wide tall small, assert_holds rgbaInside,
    mulInt_ofNat widthLt heightLt area, ofNat_toUInt32_toNat area, succeeds, allocated,
    EStateM.run_pure, ofNat_toInt_toNat widthLt, ofNat_toInt_toNat heightLt, withArray_run loops]

end

/-! ## The transport -/

/-- A frame whose message has less than 2^31 bytes. -/
structure Transportable (frame : FrameImageData) : Prop where
  wide : 1 ≤ frame.width
  tall : 1 ≤ frame.height
  small : 8 + 4 * frame.width * frame.height < 2 ^ 31
  whole : frame.data.length = 4 * frame.width * frame.height

/-- The allocation of an object of this size succeeds. -/
def Succeeds (malloc : Malloc) (size : Nat) : Prop :=
  ∃ block, malloc size = some block ∧ block.length = size

/-- The image has the size of the frame and the gray value of every pixel. -/
structure GrayOf (frame : FrameImageData) (image : GrayImage) : Prop where
  width : image.width.toInt = frame.width
  height : image.height.toInt = frame.height
  length : image.imageDataGray.length = frame.width * frame.height
  pixels : ∀ y < frame.height, ∀ x < frame.width, ∃ r g b gray : UInt8,
    frame.data[4 * (y * frame.width + x)]? = some r ∧
    frame.data[4 * (y * frame.width + x) + 1]? = some g ∧
    frame.data[4 * (y * frame.width + x) + 2]? = some b ∧
    image.imageDataGray[y * frame.width + x]? = some gray ∧
    gray.toNat = (r.toNat + g.toNat + b.toNat) / 3

/-- The frames differ in their alpha bytes only. -/
structure SameColors (frame other : FrameImageData) : Prop where
  width : other.width = frame.width
  height : other.height = frame.height
  length : other.data.length = frame.data.length
  colors : ∀ i, i % 4 ≠ 3 → other.data[i]? = frame.data[i]?

def FrameImageData.grayImage (frame : FrameImageData) : GrayImage where
  width := Int32.ofNat frame.width
  height := Int32.ofNat frame.height
  imageDataGray := (List.range (frame.height * frame.width)).map (grayAt frame.data)

namespace Transportable

variable {frame : FrameImageData} (transportable : Transportable frame)

include transportable

/-- The frame arrives at the worker with the smallest backlog. -/
theorem processFrame_run {malloc : Malloc}
    (succeeds : Succeeds malloc (8 + 4 * frame.width * frame.height))
    {h : Heavylifting (List UInt8) n} (ready : h.isInitialized) :
    ∃ i : Fin nImgdecWorkers, Dispatch.FirstLeast h.queueSizes (nImgdecWorkers - 1) i ∧
      (processFrame malloc frame).run h = .ok () (h.setWorker i
        ((h.imgdecWorkers i).enqueue (message frame.width frame.height frame.data))) := by
  obtain ⟨block, allocates, size⟩ := succeeds
  have copied := imageData_run transportable.wide transportable.tall transportable.small allocates
    size transportable.whole h
  obtain ⟨i, least, sent⟩ := Dispatch.heavyliftingProcessFrame_run ready
    (message frame.width frame.height frame.data)
  refine ⟨i, least, ?_⟩
  simp only [processFrame, heavyliftingProcessFrame, EStateM.run_bind, EStateM.run_get,
    assert_holds ready, copied, sent]

theorem grayImage_run {malloc : Malloc} (succeeds : Succeeds malloc (frame.width * frame.height))
    (s : σ) :
    (grayImage malloc (message frame.width frame.height frame.data)).run s =
      .ok frame.grayImage s := by
  obtain ⟨block, allocates, size⟩ := succeeds
  obtain ⟨gray, run, grayed⟩ := ImageTransport.grayImage_run transportable.wide transportable.tall
    transportable.small transportable.whole allocates size s
  have same : gray = (List.range (frame.height * frame.width)).map (grayAt frame.data) := by
    apply List.ext_getElem?
    intro i
    by_cases inside : i < frame.height * frame.width
    · rw [grayed.pixels i inside, List.getElem?_map, List.getElem?_range inside]
      rfl
    · have length := grayed.length
      rw [List.getElem?_eq_none (by omega), List.getElem?_eq_none (by simp; omega)]
  rw [run, same]
  rfl

theorem grayOf : GrayOf frame frame.grayImage := by
  obtain ⟨widthLt, heightLt, -, -⟩ :=
    sizes_lt transportable.wide transportable.tall transportable.small
  refine ⟨Int32.toInt_ofNat_of_lt widthLt, Int32.toInt_ofNat_of_lt heightLt, ?_, ?_⟩
  · simp only [FrameImageData.grayImage, List.length_map, List.length_range, Nat.mul_comm]
  · intro y inY x inX
    have inside := rowMajor_lt inX inY
    have whole := transportable.whole
    have area := rgba_area frame.width frame.height
    have red : 4 * (y * frame.width + x) < frame.data.length := by omega
    have green : 4 * (y * frame.width + x) + 1 < frame.data.length := by omega
    have blue : 4 * (y * frame.width + x) + 2 < frame.data.length := by omega
    refine ⟨_, _, _, grayAt frame.data (y * frame.width + x), List.getElem?_eq_getElem red,
      List.getElem?_eq_getElem green, List.getElem?_eq_getElem blue, ?_, ?_⟩
    · rw [FrameImageData.grayImage, List.getElem?_map, List.getElem?_range inside]
      rfl
    · rw [grayAt, List.getD_eq_getElem _ _ red, List.getD_eq_getElem _ _ green,
        List.getD_eq_getElem _ _ blue]
      have r := (frame.data[4 * (y * frame.width + x)]).toNat_lt
      have g := (frame.data[4 * (y * frame.width + x) + 1]).toNat_lt
      have b := (frame.data[4 * (y * frame.width + x) + 2]).toNat_lt
      apply UInt8.toNat_ofNat_of_lt'
      simp only [UInt8.size]
      omega

end Transportable

namespace SameColors

variable {frame other : FrameImageData} (same : SameColors frame other)

include same

theorem transportable (transportable : Transportable frame) : Transportable other where
  wide := same.width ▸ transportable.wide
  tall := same.height ▸ transportable.tall
  small := by rw [same.width, same.height]; exact transportable.small
  whole := by rw [same.width, same.height, same.length]; exact transportable.whole

theorem grayImage : other.grayImage = frame.grayImage := by
  have value : grayAt other.data = grayAt frame.data := by
    funext pixel
    simp only [grayAt, List.getD_eq_getElem?_getD, same.colors (4 * pixel) (by omega),
      same.colors (4 * pixel + 1) (by omega), same.colors (4 * pixel + 2) (by omega)]
  simp only [FrameImageData.grayImage, same.width, same.height, value]

end SameColors

/-- Where the allocations succeed, a frame reaches zbar with its size and its gray values: one
    worker gets the message, and decoding it passes every assertion and reads nothing else.
    Other alpha bytes make no difference to the image. -/
theorem imageTransport {frame : FrameImageData} (transportable : Transportable frame)
    {mallocMain mallocWorker : Malloc}
    (main : Succeeds mallocMain (8 + 4 * frame.width * frame.height))
    (worker : Succeeds mallocWorker (frame.width * frame.height))
    {h : Heavylifting (List UInt8) n} (ready : h.isInitialized) :
    ∃ image, GrayOf frame image ∧ ∀ other, SameColors frame other →
      ∃ (i : Fin nImgdecWorkers) (imgd : List UInt8),
        (processFrame mallocMain other).run h =
          .ok () (h.setWorker i ((h.imgdecWorkers i).enqueue imgd)) ∧
        imgd.length = 8 + 4 * frame.width * frame.height ∧
        (∀ {σ : Type} (s : σ), (grayImage mallocWorker imgd).run s = .ok image s) ∧
        ∀ {σ : Type} (zbar : GrayImage → List (List UInt8)) (s : σ),
          (heavyliftingDecodeImage mallocWorker zbar imgd).run s =
            (ImageDecoder.heavyliftingDecodeImage (zbar image)).run s := by
  refine ⟨frame.grayImage, transportable.grayOf, ?_⟩
  intro other same
  have arrives := same.transportable transportable
  have mainOther : Succeeds mallocMain (8 + 4 * other.width * other.height) := by
    rwa [same.width, same.height]
  have workerOther : Succeeds mallocWorker (other.width * other.height) := by
    rwa [same.width, same.height]
  obtain ⟨i, -, sent⟩ := arrives.processFrame_run mainOther ready
  have gray : ∀ {σ : Type} (s : σ), (grayImage mallocWorker
      (message other.width other.height other.data)).run s = .ok frame.grayImage s := by
    intro σ s
    rw [arrives.grayImage_run workerOther s, same.grayImage]
  refine ⟨i, _, sent, ?_, gray, ?_⟩
  · rw [message_length, arrives.whole, same.width, same.height]
    rfl
  · intro σ zbar s
    simp only [heavyliftingDecodeImage, EStateM.run_bind, gray]

/-- Two pixels, one of them with channel values above 127. -/
theorem imageTransport_twoPixels :
    ∃ image, GrayOf ⟨2, 1, [200, 255, 129, 0, 1, 2, 4, 255]⟩ image ∧
      ∃ (i : Fin nImgdecWorkers) (imgd : List UInt8),
        (processFrame (fun size => some (List.replicate size 7))
            ⟨2, 1, [200, 255, 129, 0, 1, 2, 4, 255]⟩).run
            (Dispatch.initialized (List UInt8) workerMaxRomSize) =
          .ok () ((Dispatch.initialized (List UInt8) workerMaxRomSize).setWorker i
            (((Dispatch.initialized (List UInt8) workerMaxRomSize).imgdecWorkers i).enqueue imgd)) ∧
        imgd.length = 16 ∧
        (grayImage (fun size => some (List.replicate size 7)) imgd).run () = .ok image () := by
  have transportable : Transportable ⟨2, 1, [200, 255, 129, 0, 1, 2, 4, 255]⟩ :=
    ⟨by decide, by decide, by decide, rfl⟩
  have succeeds : ∀ size, Succeeds (fun size => some (List.replicate size 7)) size :=
    fun size => ⟨_, rfl, List.length_replicate⟩
  obtain ⟨image, gray, transported⟩ := imageTransport transportable (succeeds _) (succeeds _)
    (h := Dispatch.initialized (List UInt8) workerMaxRomSize) rfl
  obtain ⟨i, imgd, sent, length, run, -⟩ := transported _ ⟨rfl, rfl, rfl, fun _ _ => rfl⟩
  exact ⟨image, gray, i, imgd, sent, length, run ()⟩

end AssistedDump.ImageTransport
