import SsmIaas.Player.BitReader

/-!
# The code tables of the video player

A table of `jsmpg.js` is a binary tree in an array of triples: where a 0 and where a 1 leads
to, or two zeros and the value of a leaf.  `readCode` walks from the root to a leaf.  An
illegal bit leads to `-1`; the walk is over then as well, and the value is what stands at
position 1 of the table.

`Codeword` are the words of a table, with their values.  `reads_readCode`: with a word of the
table ahead, `readCode` returns its value and is behind the word, whatever follows.  So no
word is the beginning of another, and every sequence of words is read back.
-/

namespace SsmIaas.Player

open Lib

/-- `MACROBLOCK_ADDRESS_INCREMENT`; stuffing is 34 and an escape is 35. -/
def macroblockAddressIncrement : List ℤ := [
  3, 6, 0,  9, 12, 0,  0, 0, 1,  15, 18, 0,  21, 24, 0,  27, 30, 0,
  33, 36, 0,  0, 0, 3,  0, 0, 2,  39, 42, 0,  45, 48, 0,  0, 0, 5,
  0, 0, 4,  51, 54, 0,  57, 60, 0,  0, 0, 7,  0, 0, 6,  63, 66, 0,
  69, 72, 0,  75, 78, 0,  81, 84, 0,  -1, 87, 0,  -1, 90, 0,  93, 96, 0,
  99, 102, 0,  105, 108, 0,  111, 114, 0,  0, 0, 9,  0, 0, 8,  117, 120, 0,
  123, 126, 0,  129, 132, 0,  135, 138, 0,  0, 0, 15,  0, 0, 14,  0, 0, 13,
  0, 0, 12,  0, 0, 11,  0, 0, 10,  141, -1, 0,  -1, 144, 0,  147, 150, 0,
  153, 156, 0,  159, 162, 0,  165, 168, 0,  171, 174, 0,  177, 180, 0,  183, -1, 0,
  -1, 186, 0,  189, 192, 0,  195, 198, 0,  201, 204, 0,  207, 210, 0,  213, 216, 0,
  219, 222, 0,  0, 0, 21,  0, 0, 20,  0, 0, 19,  0, 0, 18,  0, 0, 17,
  0, 0, 16,  0, 0, 35,  0, 0, 34,  0, 0, 33,  0, 0, 32,  0, 0, 31,
  0, 0, 30,  0, 0, 29,  0, 0, 28,  0, 0, 27,  0, 0, 26,  0, 0, 25,
  0, 0, 24,  0, 0, 23,  0, 0, 22]

/-- `MACROBLOCK_TYPE_I` -/
def macroblockTypeI : List ℤ := [
  3, 6, 0,  -1, 9, 0,  0, 0, 0x01,  0, 0, 0x11]

/-- `MACROBLOCK_TYPE_P` -/
def macroblockTypeP : List ℤ := [
  3, 6, 0,  9, 12, 0,  0, 0, 0x0a,  15, 18, 0,  0, 0, 0x02,  21, 24, 0,
  0, 0, 0x08,  27, 30, 0,  33, 36, 0,  -1, 39, 0,  0, 0, 0x12,  0, 0, 0x1a,
  0, 0, 0x01,  0, 0, 0x11]

/-- `CODE_BLOCK_PATTERN` -/
def codeBlockPattern : List ℤ := [
  6, 3, 0,  9, 18, 0,  12, 15, 0,  24, 33, 0,  36, 39, 0,  27, 21, 0,
  30, 42, 0,  60, 57, 0,  54, 48, 0,  69, 51, 0,  81, 75, 0,  63, 84, 0,
  45, 66, 0,  72, 78, 0,  0, 0, 60,  105, 120, 0,  132, 144, 0,  114, 108, 0,
  126, 141, 0,  87, 93, 0,  117, 96, 0,  0, 0, 32,  135, 138, 0,  99, 123, 0,
  129, 102, 0,  0, 0, 4,  90, 111, 0,  0, 0, 8,  0, 0, 16,  0, 0, 44,
  150, 168, 0,  0, 0, 28,  0, 0, 52,  0, 0, 62,  183, 177, 0,  156, 180, 0,
  0, 0, 1,  165, 162, 0,  0, 0, 61,  0, 0, 56,  171, 174, 0,  0, 0, 2,
  0, 0, 40,  153, 186, 0,  0, 0, 48,  192, 189, 0,  147, 159, 0,  0, 0, 20,
  0, 0, 12,  240, 249, 0,  0, 0, 63,  231, 225, 0,  195, 219, 0,  252, 198, 0,
  0, 0, 24,  0, 0, 36,  0, 0, 3,  207, 261, 0,  243, 237, 0,  204, 213, 0,
  210, 234, 0,  201, 228, 0,  216, 222, 0,  258, 255, 0,  264, 246, 0,  -1, 282, 0,
  285, 291, 0,  0, 0, 33,  0, 0, 9,  318, 330, 0,  306, 348, 0,  0, 0, 5,
  0, 0, 10,  279, 267, 0,  0, 0, 6,  0, 0, 18,  0, 0, 17,  0, 0, 34,
  339, 357, 0,  309, 312, 0,  270, 276, 0,  327, 321, 0,  351, 354, 0,  303, 297, 0,
  294, 288, 0,  300, 273, 0,  342, 345, 0,  315, 324, 0,  336, 333, 0,  363, 375, 0,
  0, 0, 41,  0, 0, 14,  0, 0, 21,  372, 366, 0,  360, 369, 0,  0, 0, 11,
  0, 0, 19,  0, 0, 7,  0, 0, 35,  0, 0, 13,  0, 0, 50,  0, 0, 49,
  0, 0, 58,  0, 0, 37,  0, 0, 25,  0, 0, 45,  0, 0, 57,  0, 0, 26,
  0, 0, 29,  0, 0, 38,  0, 0, 53,  0, 0, 23,  0, 0, 43,  0, 0, 46,
  0, 0, 42,  0, 0, 22,  0, 0, 54,  0, 0, 51,  0, 0, 15,  0, 0, 30,
  0, 0, 39,  0, 0, 47,  0, 0, 55,  0, 0, 27,  0, 0, 59,  0, 0, 31]

/-- `MOTION` -/
def motion : List ℤ := [
  3, 6, 0,  12, 9, 0,  0, 0, 0,  18, 15, 0,  24, 21, 0,  0, 0, -1,
  0, 0, 1,  27, 30, 0,  36, 33, 0,  0, 0, 2,  0, 0, -2,  42, 45, 0,
  48, 39, 0,  60, 54, 0,  0, 0, 3,  0, 0, -3,  51, 57, 0,  -1, 69, 0,
  81, 75, 0,  78, 63, 0,  72, 66, 0,  96, 84, 0,  87, 93, 0,  -1, 99, 0,
  108, 105, 0,  0, 0, -4,  90, 102, 0,  0, 0, 4,  0, 0, -7,  0, 0, 5,
  111, 123, 0,  0, 0, -5,  0, 0, 7,  114, 120, 0,  126, 117, 0,  0, 0, -6,
  0, 0, 6,  153, 162, 0,  150, 147, 0,  135, 138, 0,  156, 141, 0,  129, 159, 0,
  132, 144, 0,  0, 0, 10,  0, 0, 9,  0, 0, 8,  0, 0, -8,  171, 198, 0,
  0, 0, -9,  180, 192, 0,  168, 183, 0,  165, 186, 0,  174, 189, 0,  0, 0, -10,
  177, 195, 0,  0, 0, 12,  0, 0, 16,  0, 0, 13,  0, 0, 14,  0, 0, 11,
  0, 0, 15,  0, 0, -16,  0, 0, -12,  0, 0, -14,  0, 0, -15,  0, 0, -11,
  0, 0, -13]

/-- `DCT_DC_SIZE_LUMINANCE` -/
def dctDcSizeLuminance : List ℤ := [
  6, 3, 0,  18, 15, 0,  9, 12, 0,  0, 0, 1,  0, 0, 2,  27, 24, 0,
  21, 30, 0,  0, 0, 0,  36, 33, 0,  0, 0, 4,  0, 0, 3,  39, 42, 0,
  0, 0, 5,  0, 0, 6,  48, 45, 0,  51, -1, 0,  0, 0, 7,  0, 0, 8]

/-- `DCT_DC_SIZE_CHROMINANCE` -/
def dctDcSizeChrominance : List ℤ := [
  6, 3, 0,  12, 9, 0,  18, 15, 0,  24, 21, 0,  0, 0, 2,  0, 0, 1,
  0, 0, 0,  30, 27, 0,  0, 0, 3,  36, 33, 0,  0, 0, 4,  42, 39, 0,
  0, 0, 5,  48, 45, 0,  0, 0, 6,  51, -1, 0,  0, 0, 7,  0, 0, 8]

/-- `DCT_COEFF`: the run times 256 and the level; an escape is `0xffff`. -/
def dctCoeff : List ℤ := [
  3, 6, 0,  12, 9, 0,  0, 0, 0x0001,  21, 24, 0,  18, 15, 0,  39, 27, 0,
  33, 30, 0,  42, 36, 0,  0, 0, 0x0101,  60, 66, 0,  54, 63, 0,  48, 57, 0,
  0, 0, 0x0201,  51, 45, 0,  0, 0, 0x0002,  0, 0, 0x0003,  81, 75, 0,  87, 93, 0,
  72, 78, 0,  96, 90, 0,  0, 0, 0x0401,  69, 84, 0,  0, 0, 0x0301,  0, 0, 0x0102,
  0, 0, 0x0701,  0, 0, 0xffff,  0, 0, 0x0601,  111, 108, 0,  0, 0, 0x0501,  105, 102, 0,
  117, 114, 0,  99, 126, 0,  120, 123, 0,  156, 150, 0,  162, 159, 0,  144, 147, 0,
  129, 135, 0,  138, 132, 0,  0, 0, 0x0801,  0, 0, 0x0004,  0, 0, 0x0202,  0, 0, 0x0901,
  153, 141, 0,  165, 171, 0,  180, 168, 0,  177, 174, 0,  183, 186, 0,  0, 0, 0x0a01,
  0, 0, 0x0d01,  0, 0, 0x0006,  0, 0, 0x0103,  0, 0, 0x0005,  0, 0, 0x0302,  0, 0, 0x0b01,
  0, 0, 0x0c01,  228, 225, 0,  201, 210, 0,  219, 213, 0,  234, 222, 0,  216, 231, 0,
  207, 192, 0,  204, 189, 0,  198, 195, 0,  243, 261, 0,  273, 240, 0,  246, 237, 0,
  249, 258, 0,  279, 276, 0,  252, 255, 0,  270, 282, 0,  264, 267, 0,  0, 0, 0x0203,
  0, 0, 0x0104,  0, 0, 0x0007,  0, 0, 0x0402,  0, 0, 0x0502,  0, 0, 0x1001,  0, 0, 0x0f01,
  0, 0, 0x0e01,  315, 321, 0,  333, 342, 0,  312, 291, 0,  375, 357, 0,  288, 294, 0,
  -1, 369, 0,  285, 303, 0,  318, 363, 0,  297, 306, 0,  339, 309, 0,  336, 348, 0,
  330, 300, 0,  372, 345, 0,  351, 366, 0,  327, 354, 0,  360, 324, 0,  381, 408, 0,
  417, 420, 0,  390, 378, 0,  435, 438, 0,  384, 387, 0,  0, 0, 0x0802,  396, 402, 0,
  465, 462, 0,  0, 0, 0x0008,  411, 399, 0,  429, 432, 0,  453, 414, 0,  426, 423, 0,
  0, 0, 0x000a,  0, 0, 0x0009,  0, 0, 0x000b,  0, 0, 0x1501,  0, 0, 0x0602,  0, 0, 0x0303,
  0, 0, 0x1401,  0, 0, 0x0702,  0, 0, 0x1101,  0, 0, 0x1201,  0, 0, 0x1301,  444, 456, 0,
  0, 0, 0x0403,  459, 450, 0,  0, 0, 0x0105,  393, 405, 0,  0, 0, 0x0204,  447, 441, 0,
  516, 519, 0,  486, 474, 0,  510, 483, 0,  504, 498, 0,  471, 537, 0,  507, 501, 0,
  522, 513, 0,  534, 531, 0,  468, 477, 0,  492, 495, 0,  549, 546, 0,  525, 528, 0,
  0, 0, 0x0107,  0, 0, 0x0a02,  0, 0, 0x0902,  0, 0, 0x1601,  0, 0, 0x1701,  0, 0, 0x1901,
  0, 0, 0x1801,  0, 0, 0x0503,  0, 0, 0x0304,  0, 0, 0x000d,  0, 0, 0x000c,  0, 0, 0x000e,
  0, 0, 0x000f,  0, 0, 0x0205,  0, 0, 0x1a01,  0, 0, 0x0106,  540, 543, 0,  480, 489, 0,
  588, 597, 0,  0, 0, 0x001b,  609, 555, 0,  606, 603, 0,  0, 0, 0x0013,  0, 0, 0x0016,
  591, 621, 0,  0, 0, 0x0012,  573, 576, 0,  564, 570, 0,  0, 0, 0x0014,  552, 582, 0,
  0, 0, 0x0015,  558, 579, 0,  0, 0, 0x0017,  612, 594, 0,  0, 0, 0x0019,  0, 0, 0x0018,
  600, 615, 0,  0, 0, 0x001f,  0, 0, 0x001e,  0, 0, 0x001c,  0, 0, 0x001d,  0, 0, 0x001a,
  0, 0, 0x0011,  0, 0, 0x0010,  567, 618, 0,  561, 585, 0,  654, 633, 0,  0, 0, 0x0025,
  645, 648, 0,  0, 0, 0x0024,  630, 636, 0,  0, 0, 0x0022,  639, 627, 0,  663, 666, 0,
  657, 624, 0,  651, 642, 0,  669, 660, 0,  0, 0, 0x0023,  0, 0, 0x010b,  0, 0, 0x0028,
  0, 0, 0x010c,  0, 0, 0x010a,  0, 0, 0x0020,  0, 0, 0x0108,  0, 0, 0x0109,  0, 0, 0x0026,
  0, 0, 0x010d,  0, 0, 0x010e,  0, 0, 0x0021,  0, 0, 0x0027,  0, 0, 0x1f01,  0, 0, 0x1b01,
  0, 0, 0x1e01,  0, 0, 0x1002,  0, 0, 0x1d01,  0, 0, 0x1c01,  0, 0, 0x010f,  0, 0, 0x0112,
  0, 0, 0x0111,  0, 0, 0x0110,  0, 0, 0x0603,  0, 0, 0x0b02,  0, 0, 0x0e02,  0, 0, 0x0d02,
  0, 0, 0x0c02,  0, 0, 0x0f02]

/-! ## Walking through a table -/

section

variable (table : List ℤ)

/-- `codeTable[i]` -/
def entry (i : ℤ) : ℤ := table.getD i.toNat 0

/-- The loop of `readCode`, which takes one bit in every round. -/
def readCodeFrom : ℕ → ℤ → Parser ℤ
  | 0, _ => failure
  | fuel + 1, state => do
      let bit ← getBits 1
      let state := entry table (state + bit)
      if state ≥ 0 ∧ entry table state ≠ 0 then readCodeFrom fuel state
      else return entry table (state + 2)

/-- `readCode (codeTable)`; no walk through a tree is longer than its table. -/
def readCode : Parser ℤ := readCodeFrom table table.length 0

/-- The value of a word that leads from a node to a leaf. -/
def follow : ℤ → List Bool → Option ℤ
  | _, [] => none
  | state, bit :: rest =>
      let next := entry table (state + (bit.toNat : ℤ))
      if next < 0 then none
      else if entry table next ≠ 0 then follow next rest
      else if rest = [] then some (entry table (next + 2))
      else none

/-- A word of the table, with its value. -/
def Codeword (word : List Bool) (value : ℤ) : Prop :=
  word.length ≤ table.length ∧ follow table 0 word = some value

instance (word : List Bool) (value : ℤ) : Decidable (Codeword table word value) :=
  inferInstanceAs (Decidable (_ ∧ _))

variable {table}

theorem reads_readCodeFrom {fuel : ℕ} {state : ℤ} {word : List Bool} {value : ℤ}
    (hfuel : word.length ≤ fuel) (h : follow table state word = some value) :
    Reads (readCodeFrom table fuel state) word value := by
  induction word generalizing fuel state with
  | nil => simp [follow] at h
  | cons bit rest ih =>
      cases fuel with
      | zero => simp at hfuel
      | succ fuel =>
          rw [follow] at h
          rw [readCodeFrom]
          refine (reads_bit bit).bind ?_
          dsimp only at h ⊢
          split at h
          · simp at h
          · split at h
            · rename_i hlegal hinner
              rw [if_pos ⟨by omega, hinner⟩]
              exact ih (by simpa using hfuel) h
            · -- the bit leads to a leaf
              rename_i hleaf
              rw [if_neg (fun hinner => hleaf hinner.2)]
              split at h
              · rename_i hrest
                rw [hrest, ← Option.some.inj h]
                exact reads_pure _
              · simp at h

/-- What holds of the leaves that can be reached from some nodes holds of every value. -/
theorem follow_forall {P : ℤ → Prop} (nodes : List ℤ)
    (h : ∀ state ∈ nodes, ∀ bit : Bool, 0 ≤ entry table (state + (bit.toNat : ℤ)) →
      if entry table (entry table (state + (bit.toNat : ℤ))) ≠ 0 then
        entry table (state + (bit.toNat : ℤ)) ∈ nodes
      else P (entry table (entry table (state + (bit.toNat : ℤ)) + 2)))
    {state : ℤ} (hstate : state ∈ nodes) {word : List Bool} {value : ℤ}
    (hfollow : follow table state word = some value) : P value := by
  induction word generalizing state with
  | nil => simp [follow] at hfollow
  | cons bit rest ih =>
      have hnext := h state hstate bit
      rw [follow] at hfollow
      split at hfollow
      · simp at hfollow
      rename_i hneg
      have hnext := hnext (not_lt.mp hneg)
      split at hfollow
      · rename_i hnode
        rw [if_pos hnode] at hnext
        exact ih hnext hfollow
      · rename_i hleaf
        rw [if_neg hleaf] at hnext
        split at hfollow
        · exact Option.some.inj hfollow ▸ hnext
        · simp at hfollow

theorem Codeword.length_pos {word : List Bool} {value : ℤ} (h : Codeword table word value) :
    0 < word.length := by
  cases word with
  | nil => simp [Codeword, follow] at h
  | cons bit rest => simp

/-- **Codes.**  A word of a table is read to its end, whatever follows. -/
theorem reads_readCode {word : List Bool} {value : ℤ} (h : Codeword table word value) :
    Reads (readCode table) word value :=
  reads_readCodeFrom h.1 h.2

end

end SsmIaas.Player
