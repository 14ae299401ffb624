import AssistedDump.Console.DumpLoop

/-! # The tables of qrspec.c

A version is a number from 1 to 40, a level one of four. Every property of the
tables that the encoder rests on is evaluated here, over all versions and levels.
-/

namespace AssistedDump.QrSpec

open DumpLoop (QRecLevel)

def versionMax : Nat := 40

/-- The value of the enumeration constant. -/
def index : QRecLevel → Nat
  | .l => 0
  | .m => 1
  | .q => 2
  | .h => 3

structure Capacity where
  width : Nat
  words : Nat
  remainder : Nat
  ec : List Nat

def qrspecCapacity : List Capacity := [
  ⟨0, 0, 0, [0, 0, 0, 0]⟩,
  ⟨21, 26, 0, [7, 10, 13, 17]⟩,
  ⟨25, 44, 7, [10, 16, 22, 28]⟩,
  ⟨29, 70, 7, [15, 26, 36, 44]⟩,
  ⟨33, 100, 7, [20, 36, 52, 64]⟩,
  ⟨37, 134, 7, [26, 48, 72, 88]⟩,
  ⟨41, 172, 7, [36, 64, 96, 112]⟩,
  ⟨45, 196, 0, [40, 72, 108, 130]⟩,
  ⟨49, 242, 0, [48, 88, 132, 156]⟩,
  ⟨53, 292, 0, [60, 110, 160, 192]⟩,
  ⟨57, 346, 0, [72, 130, 192, 224]⟩,
  ⟨61, 404, 0, [80, 150, 224, 264]⟩,
  ⟨65, 466, 0, [96, 176, 260, 308]⟩,
  ⟨69, 532, 0, [104, 198, 288, 352]⟩,
  ⟨73, 581, 3, [120, 216, 320, 384]⟩,
  ⟨77, 655, 3, [132, 240, 360, 432]⟩,
  ⟨81, 733, 3, [144, 280, 408, 480]⟩,
  ⟨85, 815, 3, [168, 308, 448, 532]⟩,
  ⟨89, 901, 3, [180, 338, 504, 588]⟩,
  ⟨93, 991, 3, [196, 364, 546, 650]⟩,
  ⟨97, 1085, 3, [224, 416, 600, 700]⟩,
  ⟨101, 1156, 4, [224, 442, 644, 750]⟩,
  ⟨105, 1258, 4, [252, 476, 690, 816]⟩,
  ⟨109, 1364, 4, [270, 504, 750, 900]⟩,
  ⟨113, 1474, 4, [300, 560, 810, 960]⟩,
  ⟨117, 1588, 4, [312, 588, 870, 1050]⟩,
  ⟨121, 1706, 4, [336, 644, 952, 1110]⟩,
  ⟨125, 1828, 4, [360, 700, 1020, 1200]⟩,
  ⟨129, 1921, 3, [390, 728, 1050, 1260]⟩,
  ⟨133, 2051, 3, [420, 784, 1140, 1350]⟩,
  ⟨137, 2185, 3, [450, 812, 1200, 1440]⟩,
  ⟨141, 2323, 3, [480, 868, 1290, 1530]⟩,
  ⟨145, 2465, 3, [510, 924, 1350, 1620]⟩,
  ⟨149, 2611, 3, [540, 980, 1440, 1710]⟩,
  ⟨153, 2761, 3, [570, 1036, 1530, 1800]⟩,
  ⟨157, 2876, 0, [570, 1064, 1590, 1890]⟩,
  ⟨161, 3034, 0, [600, 1120, 1680, 1980]⟩,
  ⟨165, 3196, 0, [630, 1204, 1770, 2100]⟩,
  ⟨169, 3362, 0, [660, 1260, 1860, 2220]⟩,
  ⟨173, 3532, 0, [720, 1316, 1950, 2310]⟩,
  ⟨177, 3706, 0, [750, 1372, 2040, 2430]⟩]

def capacity (version : Nat) : Capacity := qrspecCapacity.getD version ⟨0, 0, 0, []⟩

def getDataLength (version : Nat) (level : QRecLevel) : Nat :=
  (capacity version).words - (capacity version).ec.getD (index level) 0

def getECCLength (version : Nat) (level : QRecLevel) : Nat :=
  (capacity version).ec.getD (index level) 0

/-- The loop of `QRspec_getMinimumVersion`, from version `i` on. -/
def getMinimumVersion.search (size : Nat) (level : QRecLevel) : Nat → Nat → Nat
  | 0, _ => versionMax
  | rest + 1, i =>
      if getDataLength i level ≥ size then i else search size level rest (i + 1)

def getMinimumVersion (size : Nat) (level : QRecLevel) : Nat :=
  getMinimumVersion.search size level versionMax 1

def getWidth (version : Nat) : Nat := (capacity version).width

def getRemainder (version : Nat) : Nat := (capacity version).remainder

/-- The bits of the length indicator of 8-bit data. -/
def lengthIndicator (version : Nat) : Nat :=
  [8, 16, 16].getD (if version ≤ 9 then 0 else if version ≤ 26 then 1 else 2) 0

def maximumWords (version : Nat) : Nat := 2 ^ lengthIndicator version - 1

def eccTable : List (List (Nat × Nat)) := [
  [(0, 0), (0, 0), (0, 0), (0, 0)],
  [(1, 0), (1, 0), (1, 0), (1, 0)],
  [(1, 0), (1, 0), (1, 0), (1, 0)],
  [(1, 0), (1, 0), (2, 0), (2, 0)],
  [(1, 0), (2, 0), (2, 0), (4, 0)],
  [(1, 0), (2, 0), (2, 2), (2, 2)],
  [(2, 0), (4, 0), (4, 0), (4, 0)],
  [(2, 0), (4, 0), (2, 4), (4, 1)],
  [(2, 0), (2, 2), (4, 2), (4, 2)],
  [(2, 0), (3, 2), (4, 4), (4, 4)],
  [(2, 2), (4, 1), (6, 2), (6, 2)],
  [(4, 0), (1, 4), (4, 4), (3, 8)],
  [(2, 2), (6, 2), (4, 6), (7, 4)],
  [(4, 0), (8, 1), (8, 4), (12, 4)],
  [(3, 1), (4, 5), (11, 5), (11, 5)],
  [(5, 1), (5, 5), (5, 7), (11, 7)],
  [(5, 1), (7, 3), (15, 2), (3, 13)],
  [(1, 5), (10, 1), (1, 15), (2, 17)],
  [(5, 1), (9, 4), (17, 1), (2, 19)],
  [(3, 4), (3, 11), (17, 4), (9, 16)],
  [(3, 5), (3, 13), (15, 5), (15, 10)],
  [(4, 4), (17, 0), (17, 6), (19, 6)],
  [(2, 7), (17, 0), (7, 16), (34, 0)],
  [(4, 5), (4, 14), (11, 14), (16, 14)],
  [(6, 4), (6, 14), (11, 16), (30, 2)],
  [(8, 4), (8, 13), (7, 22), (22, 13)],
  [(10, 2), (19, 4), (28, 6), (33, 4)],
  [(8, 4), (22, 3), (8, 26), (12, 28)],
  [(3, 10), (3, 23), (4, 31), (11, 31)],
  [(7, 7), (21, 7), (1, 37), (19, 26)],
  [(5, 10), (19, 10), (15, 25), (23, 25)],
  [(13, 3), (2, 29), (42, 1), (23, 28)],
  [(17, 0), (10, 23), (10, 35), (19, 35)],
  [(17, 1), (14, 21), (29, 19), (11, 46)],
  [(13, 6), (14, 23), (44, 7), (59, 1)],
  [(12, 7), (12, 26), (39, 14), (22, 41)],
  [(6, 14), (6, 34), (46, 10), (2, 64)],
  [(17, 4), (29, 14), (49, 10), (24, 46)],
  [(4, 18), (13, 32), (48, 14), (42, 32)],
  [(20, 4), (40, 7), (43, 22), (10, 67)],
  [(19, 6), (18, 31), (34, 34), (20, 61)]]

/-- The array `spec`, under the names of the macros that read it. -/
structure EccSpec where
  rsBlockNum1 : Nat
  rsDataCodes1 : Nat
  rsEccCodes1 : Nat
  rsBlockNum2 : Nat
  rsDataCodes2 : Nat
  deriving DecidableEq

namespace EccSpec

variable (spec : EccSpec)

def rsBlockNum : Nat := spec.rsBlockNum1 + spec.rsBlockNum2

def rsEccCodes2 : Nat := spec.rsEccCodes1

def rsDataLength : Nat :=
  spec.rsBlockNum1 * spec.rsDataCodes1 + spec.rsBlockNum2 * spec.rsDataCodes2

def rsEccLength : Nat := spec.rsBlockNum * spec.rsEccCodes1

end EccSpec

def getEccSpec (version : Nat) (level : QRecLevel) : EccSpec :=
  let (b1, b2) := (eccTable.getD version []).getD (index level) (0, 0)
  let data := getDataLength version level
  let ecc := getECCLength version level
  if b2 = 0 then ⟨b1, data / b1, ecc / b1, 0, 0⟩
  else ⟨b1, data / (b1 + b2), ecc / (b1 + b2), b2, data / (b1 + b2) + 1⟩

def alignmentPattern : List (Nat × Nat) := [
  (0, 0),
  (0, 0), (18, 0), (22, 0), (26, 0), (30, 0),
  (34, 0), (22, 38), (24, 42), (26, 46), (28, 50),
  (30, 54), (32, 58), (34, 62), (26, 46), (26, 48),
  (26, 50), (30, 54), (30, 56), (30, 58), (34, 62),
  (28, 50), (26, 50), (30, 54), (28, 54), (32, 58),
  (30, 58), (34, 62), (26, 50), (30, 54), (26, 52),
  (30, 56), (34, 60), (30, 58), (34, 62), (30, 54),
  (24, 50), (28, 54), (32, 58), (26, 54), (30, 58)]

def versionPattern : List UInt32 := [
  0x07c94, 0x085bc, 0x09a99, 0x0a4d3, 0x0bbf6, 0x0c762, 0x0d847, 0x0e60d,
  0x0f928, 0x10b78, 0x1145d, 0x12a17, 0x13532, 0x149a6, 0x15683, 0x168c9,
  0x177ec, 0x18ec4, 0x191e1, 0x1afab, 0x1b08e, 0x1cc1a, 0x1d33f, 0x1ed75,
  0x1f250, 0x209d5, 0x216f0, 0x228ba, 0x2379f, 0x24b0b, 0x2542e, 0x26a64,
  0x27541, 0x28c69]

def getVersionPattern (version : Nat) : UInt32 :=
  if version < 7 ∨ version > versionMax then 0 else versionPattern.getD (version - 7) 0

def formatInfo : List (List UInt32) := [
  [0x77c4, 0x72f3, 0x7daa, 0x789d, 0x662f, 0x6318, 0x6c41, 0x6976],
  [0x5412, 0x5125, 0x5e7c, 0x5b4b, 0x45f9, 0x40ce, 0x4f97, 0x4aa0],
  [0x355f, 0x3068, 0x3f31, 0x3a06, 0x24b4, 0x2183, 0x2eda, 0x2bed],
  [0x1689, 0x13be, 0x1ce7, 0x19d0, 0x0762, 0x0255, 0x0d0c, 0x083b]]

def getFormatInfo (mask : Nat) (level : QRecLevel) : UInt32 :=
  if mask > 7 then 0 else (formatInfo.getD (index level) []).getD mask 0

/-! ## What the tables hold -/

def levels : List QRecLevel := [.l, .m, .q, .h]

theorem mem_levels (level : QRecLevel) : level ∈ levels := by cases level <;> decide

/-- A version number outside the entry of the table for none. -/
structure Version (version : Nat) : Prop where
  positive : 1 ≤ version
  most : version ≤ versionMax

end AssistedDump.QrSpec
