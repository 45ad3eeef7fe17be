import SsmIaas.Lib.Segment
import Mathlib.Data.BitVec
import Mathlib.Tactic.IntervalCases
import Mathlib.Tactic.Linarith
import Mathlib.Tactic.Ring

/-!
# Motion compensation

`copyMacroblock` of `jsmpg.js` predicts a macroblock from the picture before: each pixel is
the mean of one, two or four pixels there, as the motion vector goes to pixels or between
them.  The program writes four pixels at a time, as a 32-bit word that it puts together with
shifts and masks of sums.  Where the vector is odd it carries the sum of a column over to the
next pixel.

`copyMacroblock_eq_halfPel`: the result is the mean at every pixel of the macroblock, in all
three planes, and nothing else is written.
-/

namespace SsmIaas.Player

open Lib

/-! ## The program -/

/-- `plane[i]`, which is `undefined` outside. -/
def pixel (plane : List UInt8) (i : ℤ) : Option ℕ :=
  if 0 ≤ i then (plane[i.toNat]?).map UInt8.toNat else none

/-- A sum; with `undefined` it is `NaN`. -/
def plus (a b : Option ℕ) : Option ℕ := do return (← a) + (← b)

/-- The operand of a shift or a bitwise operation; `undefined` and `NaN` count as 0. -/
def toInt32 (value : Option ℕ) : BitVec 32 := BitVec.ofNat 32 (value.getD 0)

/-- Four sums that are `2 ^ shift` times a pixel, as the bytes of a word. -/
def packShifted (shift : ℕ) (a b c d : Option ℕ) : BitVec 32 :=
  ((toInt32 a >>> shift) &&& 0xff) ||| ((toInt32 b <<< (8 - shift)) &&& 0xff00) |||
    ((toInt32 c <<< (16 - shift)) &&& 0xff0000) |||
    ((toInt32 d <<< (24 - shift)) &&& 0xff000000)

/-- Four pixels as the bytes of a word. -/
def pack (a b c d : Option ℕ) : BitVec 32 :=
  toInt32 a ||| toInt32 b <<< 8 ||| toInt32 c <<< 16 ||| toInt32 d <<< 24

/-- The bytes of a word in memory. -/
def wordBytes (word : BitVec 32) : List UInt8 :=
  [⟨word.setWidth 8⟩, ⟨(word >>> 8).setWidth 8⟩, ⟨(word >>> 16).setWidth 8⟩,
    ⟨(word >>> 24).setWidth 8⟩]

/-- An element of the `Uint32Array` over the bytes of a plane is set.  There is none outside. -/
def writeWord (bytes : List UInt8) (dest : ℕ) (word : BitVec 32) : List UInt8 :=
  if 4 * dest + 4 ≤ bytes.length then overwrite bytes (wordBytes word) (4 * dest) else bytes

/-- The plane that is written, and the positions that the loops go on with. -/
structure Cursor where
  bytes : List UInt8
  dest : ℕ
  src : ℤ

def Cursor.put (c : Cursor) (word : BitVec 32) : Cursor :=
  ⟨writeWord c.bytes c.dest word, c.dest + 1, c.src + 4⟩

/-- The body of the loop over a row for an odd vector: `y1` is carried over. -/
def carriedWord (sample : ℤ → Option ℕ) (round shift : ℕ) (src : ℤ) (y1 : Option ℕ) :
    BitVec 32 × Option ℕ :=
  let y2 := sample src
  let a := plus (plus y1 y2) (some round)
  let y1 := sample (src + 1)
  let b := plus (plus y1 y2) (some round)
  let y2 := sample (src + 2)
  let c := plus (plus y1 y2) (some round)
  let y1 := sample (src + 3)
  let d := plus (plus y1 y2) (some round)
  (packShifted shift a b c d, y1)

def carriedWords (sample : ℤ → Option ℕ) (round shift : ℕ) : ℕ → Option ℕ → Cursor → Cursor
  | 0, _, c => c
  | n + 1, y1, c =>
      let result := carriedWord sample round shift c.src y1
      carriedWords sample round shift n result.2 (c.put result.1)

/-- A row of the macroblock for an odd vector. -/
def carriedRow (sample : ℤ → Option ℕ) (round shift words width : ℕ) (c : Cursor) : Cursor :=
  let y1 := sample c.src
  let c := carriedWords sample round shift words y1 { c with src := c.src + 1 }
  let scan := width - 4 * words
  { c with dest := c.dest + scan / 4, src := c.src + ((scan : ℤ) - 1) }

def directWords (word : ℤ → BitVec 32) : ℕ → Cursor → Cursor
  | 0, c => c
  | n + 1, c => directWords word n (c.put (word c.src))

/-- A row of the macroblock for an even vector. -/
def directRow (word : ℤ → BitVec 32) (words width : ℕ) (c : Cursor) : Cursor :=
  let c := directWords word words c
  let scan := width - 4 * words
  { c with dest := c.dest + scan / 4, src := c.src + scan }

/-- `plane[i] + plane[i + width]`. -/
def column (plane : List UInt8) (width : ℕ) (i : ℤ) : Option ℕ :=
  plus (pixel plane i) (pixel plane (i + width))

/-- The four branches. -/
def copyRow (oddH oddV : Bool) (plane : List UInt8) (words width : ℕ) : Cursor → Cursor :=
  match oddH, oddV with
  | true, true => carriedRow (column plane width) 2 2 words width
  | true, false => carriedRow (pixel plane) 1 1 words width
  | false, true =>
      let sum := fun i => plus (column plane width i) (some 1)
      directRow (fun i => packShifted 1 (sum i) (sum (i + 1)) (sum (i + 2)) (sum (i + 3)))
        words width
  | false, false =>
      directRow (fun i => pack (pixel plane i) (pixel plane (i + 1)) (pixel plane (i + 2))
        (pixel plane (i + 3))) words width

/-- `while (dest < last)`. -/
def copyRows (row : Cursor → Cursor) (last : ℕ) : ℕ → Cursor → Option Cursor
  | 0, _ => none
  | fuel + 1, c => if c.dest < last then copyRows row last fuel (row c) else some c

/-- The prediction in one plane, for a macroblock of `4 * words` pixels a side. -/
def copyPlane (words width mbRow mbCol : ℕ) (H V : ℤ) (oddH oddV : Bool)
    (plane current : List UInt8) : Option (List UInt8) :=
  let src := ((4 * words * mbRow : ℕ) + V) * width + (4 * words * mbCol : ℕ) + H
  let dest := (mbRow * width + mbCol) * words
  let last := dest + width * words
  (copyRows (copyRow oddH oddV plane words width) last (last + 1) ⟨current, dest, src⟩).map
    Cursor.bytes

/-- The planes of a picture. -/
structure Frame where
  Y : List UInt8
  Cr : List UInt8
  Cb : List UInt8
  deriving DecidableEq, Repr

/-- `copyMacroblock`.  The vector of the chrominance is half of that of the luminance; a shift
drops the half that is left, towards zero. -/
def copyMacroblock (mbWidth mbRow mbCol : ℕ) (motionH motionV : ℤ) (forward current : Frame) :
    Option Frame := do
  let codedWidth := 16 * mbWidth
  let Y ← copyPlane 4 codedWidth mbRow mbCol (motionH / 2) (motionV / 2) (motionH % 2 = 1)
    (motionV % 2 = 1) forward.Y current.Y
  let halfWidth := 8 * mbWidth
  let halfH := motionH.tdiv 2
  let halfV := motionV.tdiv 2
  let Cr ← copyPlane 2 halfWidth mbRow mbCol (halfH / 2) (halfV / 2) (halfH % 2 = 1)
    (halfV % 2 = 1) forward.Cr current.Cr
  let Cb ← copyPlane 2 halfWidth mbRow mbCol (halfH / 2) (halfV / 2) (halfH % 2 = 1)
    (halfV % 2 = 1) forward.Cb current.Cb
  return ⟨Y, Cr, Cb⟩

/-! ## Means of pixels -/

/-- The positions that a pixel is the mean of. -/
def neighbours (oddH oddV : Bool) (width : ℕ) (i : ℤ) : List ℤ :=
  match oddH, oddV with
  | false, false => [i]
  | true, false => [i, i + 1]
  | false, true => [i, i + width]
  | true, true => [i, i + 1, i + width, i + width + 1]

/-- The mean of pixels, rounded up from a half; 0 if one of them is not there. -/
def mean (plane : List UInt8) (positions : List ℤ) : UInt8 :=
  match positions.mapM (pixel plane) with
  | none => 0
  | some values => UInt8.ofNat ((values.sum + values.length / 2) / values.length)

def halfPel (oddH oddV : Bool) (plane : List UInt8) (width : ℕ) (i : ℤ) : UInt8 :=
  mean plane (neighbours oddH oddV width i)

theorem pixel_le {plane : List UInt8} {i : ℤ} {value : ℕ} (h : pixel plane i = some value) :
    value ≤ 255 := by
  unfold pixel at h
  split at h
  · obtain ⟨byte, -, rfl⟩ := Option.map_eq_some_iff.mp h
    have hlt := byte.toNat_lt
    omega
  · simp at h

@[simp] theorem plus_none_left (a : Option ℕ) : plus none a = none := rfl

@[simp] theorem plus_none_right (a : Option ℕ) : plus a none = none := by cases a <;> rfl

@[simp] theorem plus_some (a b : ℕ) : plus (some a) (some b) = some (a + b) := rfl

theorem plus_comm (a b : Option ℕ) : plus a b = plus b a := by
  cases a <;> cases b <;> simp [Nat.add_comm]

/-! ## Words -/

/-- The masks keep the bytes apart. -/
theorem bytes_packed {shift : ℕ} (hshift : shift ≤ 2) (a b c d : BitVec 32) :
    let word := ((a >>> shift) &&& 0xff) ||| ((b <<< (8 - shift)) &&& 0xff00) |||
      ((c <<< (16 - shift)) &&& 0xff0000) ||| ((d <<< (24 - shift)) &&& 0xff000000)
    word.setWidth 8 = (a >>> shift).setWidth 8 ∧
      (word >>> 8).setWidth 8 = (b >>> shift).setWidth 8 ∧
      (word >>> 16).setWidth 8 = (c >>> shift).setWidth 8 ∧
      (word >>> 24).setWidth 8 = (d >>> shift).setWidth 8 := by
  intro word
  refine ⟨?_, ?_, ?_, ?_⟩
  all_goals
    refine BitVec.eq_of_getLsbD_eq fun i hi => ?_
    simp only [word, BitVec.getLsbD_setWidth, BitVec.getLsbD_ushiftRight, BitVec.getLsbD_or,
      BitVec.getLsbD_and, BitVec.getLsbD_shiftLeft]
    interval_cases shift <;> interval_cases i <;> simp

/-- Bytes that are put next to each other. -/
theorem bytes_joined (a b c d : BitVec 8) :
    let word := a.setWidth 32 ||| b.setWidth 32 <<< 8 ||| c.setWidth 32 <<< 16 |||
      d.setWidth 32 <<< 24
    word.setWidth 8 = a ∧ (word >>> 8).setWidth 8 = b ∧ (word >>> 16).setWidth 8 = c ∧
      (word >>> 24).setWidth 8 = d := by
  intro word
  refine ⟨?_, ?_, ?_, ?_⟩
  all_goals
    refine BitVec.eq_of_getLsbD_eq fun i hi => ?_
    simp only [word, BitVec.getLsbD_setWidth, BitVec.getLsbD_ushiftRight, BitVec.getLsbD_or,
      BitVec.getLsbD_shiftLeft]
    interval_cases i <;> simp

theorem byte_shifted {shift : ℕ} {sum : Option ℕ} (h : sum.getD 0 < 2 ^ 32) :
    UInt8.ofBitVec ((toInt32 sum >>> shift).setWidth 8) = UInt8.ofNat (sum.getD 0 / 2 ^ shift) := by
  refine UInt8.toBitVec_inj.mp (BitVec.eq_of_toNat_eq ?_)
  rw [UInt8.toBitVec_ofBitVec, BitVec.toNat_setWidth, BitVec.toNat_ushiftRight, toInt32,
    BitVec.toNat_ofNat, Nat.mod_eq_of_lt h, Nat.shiftRight_eq_div_pow]
  simp

/-- The word that is written holds four values. -/
def IsWord (value : ℤ → UInt8) (word : ℤ → BitVec 32) : Prop :=
  ∀ i, wordBytes (word i) = [value i, value (i + 1), value (i + 2), value (i + 3)]

theorem isWord_packShifted {shift : ℕ} (hshift : shift ≤ 2) {value : ℤ → UInt8}
    (sum : ℤ → Option ℕ) (hlt : ∀ i, (sum i).getD 0 < 2 ^ 32)
    (hvalue : ∀ i, UInt8.ofNat ((sum i).getD 0 / 2 ^ shift) = value i) :
    IsWord value fun i =>
      packShifted shift (sum i) (sum (i + 1)) (sum (i + 2)) (sum (i + 3)) := by
  intro i
  obtain ⟨ha, hb, hc, hd⟩ := bytes_packed hshift (toInt32 (sum i)) (toInt32 (sum (i + 1)))
    (toInt32 (sum (i + 2))) (toInt32 (sum (i + 3)))
  simp only [wordBytes, packShifted]
  rw [ha, hb, hc, hd]
  simp only [byte_shifted (hlt _), hvalue]

theorem toInt32_pixel (plane : List UInt8) (i : ℤ) :
    toInt32 (pixel plane i) = (BitVec.ofNat 8 ((pixel plane i).getD 0)).setWidth 32 := by
  refine BitVec.eq_of_toNat_eq ?_
  have hle : (pixel plane i).getD 0 ≤ 255 := by
    cases hpixel : pixel plane i with
    | none => simp
    | some value => exact pixel_le hpixel
  rw [toInt32, BitVec.toNat_setWidth, BitVec.toNat_ofNat, BitVec.toNat_ofNat,
    Nat.mod_eq_of_lt (by omega), Nat.mod_eq_of_lt (show (pixel plane i).getD 0 < 2 ^ 8 by omega),
    Nat.mod_eq_of_lt (by omega)]

theorem isWord_pack (plane : List UInt8) :
    IsWord (fun i => UInt8.ofNat ((pixel plane i).getD 0)) fun i =>
      pack (pixel plane i) (pixel plane (i + 1)) (pixel plane (i + 2)) (pixel plane (i + 3)) := by
  intro i
  simp only [pack, toInt32_pixel, wordBytes]
  obtain ⟨ha, hb, hc, hd⟩ := bytes_joined (BitVec.ofNat 8 ((pixel plane i).getD 0))
    (BitVec.ofNat 8 ((pixel plane (i + 1)).getD 0)) (BitVec.ofNat 8 ((pixel plane (i + 2)).getD 0))
    (BitVec.ofNat 8 ((pixel plane (i + 3)).getD 0))
  rw [ha, hb, hc, hd]
  rfl

/-! ## Carrying the sum over -/

/-- The sums that a carried sum is used for. -/
def pairSum (sample : ℤ → Option ℕ) (round : ℕ) (i : ℤ) : Option ℕ :=
  plus (plus (sample i) (sample (i + 1))) (some round)

/-- The word of four such sums. -/
def pairWord (sample : ℤ → Option ℕ) (round shift : ℕ) (i : ℤ) : BitVec 32 :=
  packShifted shift (pairSum sample round i) (pairSum sample round (i + 1))
    (pairSum sample round (i + 2)) (pairSum sample round (i + 3))

theorem carriedWord_eq (sample : ℤ → Option ℕ) (round shift : ℕ) (i : ℤ) :
    carriedWord sample round shift (i + 1) (sample i) =
      (pairWord sample round shift i, sample (i + 4)) := by
  have h2 : i + 1 + 1 = i + 2 := by ring
  have h3 : i + 1 + 2 = i + 3 := by ring
  have h4 : i + 1 + 3 = i + 4 := by ring
  have h3' : i + 2 + 1 = i + 3 := by ring
  have h4' : i + 3 + 1 = i + 4 := by ring
  simp only [carriedWord, pairWord, pairSum, h2, h3, h4, h3', h4']
  rw [plus_comm (sample (i + 2)) (sample (i + 1)), plus_comm (sample (i + 4)) (sample (i + 3))]

/-- With the sum carried over, the same words are written as without. -/
theorem carriedWords_eq (sample : ℤ → Option ℕ) (round shift n : ℕ) (c : Cursor) :
    carriedWords sample round shift n (sample c.src) { c with src := c.src + 1 } =
      { directWords (pairWord sample round shift) n c with
        src := (directWords (pairWord sample round shift) n c).src + 1 } := by
  induction n generalizing c with
  | zero => rfl
  | succ n ih =>
      rw [carriedWords, directWords, ← ih]
      simp only [carriedWord_eq, Cursor.put]
      rw [show c.src + 1 + 4 = c.src + 4 + 1 by ring]

theorem carriedRow_eq (sample : ℤ → Option ℕ) (round shift words width : ℕ) :
    carriedRow sample round shift words width =
      directRow (pairWord sample round shift) words width := by
  funext c
  simp only [carriedRow, carriedWords_eq, directRow]
  congr 1
  ring

/-! ## Rows -/

/-- Values in a row. -/
def rowOf (value : ℤ → UInt8) (src : ℤ) (n : ℕ) : List UInt8 :=
  (List.range n).map fun k : ℕ => value (src + k)

theorem rowOf_four_add (value : ℤ → UInt8) (src : ℤ) (n : ℕ) :
    rowOf value src (4 + n) =
      [value src, value (src + 1), value (src + 2), value (src + 3)] ++
        rowOf value (src + 4) n := by
  rw [rowOf, List.range_add, List.map_append, List.map_map, rowOf]
  congr 1
  · simp [List.range_succ]
  · refine List.map_congr_left fun k _ => ?_
    simp only [Function.comp_apply]
    push_cast
    rw [add_assoc]

theorem directWords_eq {value : ℤ → UInt8} {word : ℤ → BitVec 32} (h : IsWord value word) (n : ℕ)
    {c : Cursor} (hfits : 4 * (c.dest + n) ≤ c.bytes.length) :
    directWords word n c =
      ⟨overwrite c.bytes (rowOf value c.src (4 * n)) (4 * c.dest), c.dest + n, c.src + 4 * n⟩ := by
  induction n generalizing c with
  | zero => simp [directWords, rowOf, overwrite]
  | succ n ih =>
      have hput : c.put (word c.src) =
          ⟨overwrite c.bytes (wordBytes (word c.src)) (4 * c.dest), c.dest + 1, c.src + 4⟩ := by
        rw [Cursor.put, writeWord, if_pos (by omega)]
      have hlength : (wordBytes (word c.src)).length = 4 := rfl
      rw [directWords, hput, ih (by
        dsimp only
        rw [length_overwrite (by omega)]
        omega)]
      dsimp only
      rw [show 4 * (c.dest + 1) = 4 * c.dest + (wordBytes (word c.src)).length by omega,
        overwrite_overwrite, h c.src, ← rowOf_four_add]
      · congr 1
        · rw [show 4 + 4 * n = 4 * (n + 1) by ring]
        · omega
        · push_cast; ring
      · rw [List.length_append, hlength, rowOf, List.length_map, List.length_range]
        omega

theorem directRow_eq {value : ℤ → UInt8} {word : ℤ → BitVec 32} (h : IsWord value word)
    {words width : ℕ} (hwidth : 4 ∣ width) (hle : 4 * words ≤ width) {c : Cursor}
    (hfits : 4 * (c.dest + words) ≤ c.bytes.length) :
    directRow word words width c =
      ⟨overwrite c.bytes (rowOf value c.src (4 * words)) (4 * c.dest), c.dest + width / 4,
        c.src + width⟩ := by
  rw [directRow, directWords_eq h words hfits]
  dsimp only
  congr 1
  · omega
  · omega

/-! ## The four branches -/

theorem mapM_pixel {plane : List UInt8} {positions : List ℤ} {values : List ℕ}
    (h : positions.mapM (pixel plane) = some values) :
    values.length = positions.length ∧ values.sum ≤ 255 * positions.length := by
  induction positions generalizing values with
  | nil =>
      obtain rfl : values = [] := by simpa using h.symm
      simp
  | cons i rest ih =>
      rw [List.mapM_cons] at h
      simp only [Option.bind_eq_bind, Option.bind_eq_some_iff, Option.pure_def,
        Option.some.injEq] at h
      obtain ⟨value, hvalue, others, hothers, rfl⟩ := h
      obtain ⟨hlength, hsum⟩ := ih hothers
      have hle := pixel_le hvalue
      simp only [List.length_cons, List.sum_cons]
      omega

/-- A sum of pixels that is rounded and shifted is their mean. -/
theorem mean_eq {plane : List UInt8} {positions : List ℤ} {sum : Option ℕ} {shift : ℕ}
    (hshift : shift ≤ 2) (hlength : positions.length = 2 ^ shift)
    (hsum : sum = (positions.mapM (pixel plane)).map fun values => values.sum + 2 ^ shift / 2) :
    sum.getD 0 < 2 ^ 32 ∧ UInt8.ofNat (sum.getD 0 / 2 ^ shift) = mean plane positions := by
  unfold mean
  rw [hsum]
  cases hvalues : positions.mapM (pixel plane) with
  | none => simp
  | some values =>
      obtain ⟨hvaluesLength, hle⟩ := mapM_pixel hvalues
      have hpow : 2 ^ shift ≤ 2 ^ 2 := Nat.pow_le_pow_right (by decide) hshift
      simp only [Option.map_some, Option.getD_some]
      rw [hvaluesLength, hlength]
      rw [hlength] at hle
      generalize 2 ^ shift = count at *
      exact ⟨by omega, rfl⟩

theorem isWord_of_sum {oddH oddV : Bool} {plane : List UInt8} {width shift : ℕ}
    (hshift : shift ≤ 2) (sum : ℤ → Option ℕ)
    (hlength : ∀ i, (neighbours oddH oddV width i).length = 2 ^ shift)
    (hsum : ∀ i, sum i = ((neighbours oddH oddV width i).mapM (pixel plane)).map
      fun values => values.sum + 2 ^ shift / 2) :
    IsWord (halfPel oddH oddV plane width) fun i =>
      packShifted shift (sum i) (sum (i + 1)) (sum (i + 2)) (sum (i + 3)) :=
  isWord_packShifted hshift sum (fun i => (mean_eq hshift (hlength i) (hsum i)).1)
    fun i => (mean_eq hshift (hlength i) (hsum i)).2

/-- In each branch the rows are written directly, with words of the means. -/
theorem copyRow_eq (oddH oddV : Bool) (plane : List UInt8) (words width : ℕ) :
    ∃ word, IsWord (halfPel oddH oddV plane width) word ∧
      copyRow oddH oddV plane words width = directRow word words width := by
  cases oddH with
  | true =>
      cases oddV with
      | true =>
          refine ⟨pairWord (column plane width) 2 2, ?_, carriedRow_eq _ _ _ _ _⟩
          refine isWord_of_sum (by decide) _ (fun i => rfl) fun i => ?_
          simp only [pairSum, column, neighbours, add_right_comm i 1, List.mapM_cons,
            List.mapM_nil]
          cases pixel plane i <;> cases pixel plane (i + 1) <;> cases pixel plane (i + width) <;>
            cases pixel plane (i + width + 1) <;> simp
          omega
      | false =>
          refine ⟨pairWord (pixel plane) 1 1, ?_, carriedRow_eq _ _ _ _ _⟩
          refine isWord_of_sum (by decide) _ (fun i => rfl) fun i => ?_
          simp only [pairSum, neighbours, List.mapM_cons, List.mapM_nil]
          cases pixel plane i <;> cases pixel plane (i + 1) <;> simp
  | false =>
      cases oddV with
      | true =>
          refine ⟨_, ?_, rfl⟩
          refine isWord_of_sum (by decide) _ (fun i => rfl) fun i => ?_
          simp only [column, neighbours, List.mapM_cons, List.mapM_nil]
          cases pixel plane i <;> cases pixel plane (i + width) <;> simp
      | false =>
          refine ⟨_, ?_, rfl⟩
          have hvalue : halfPel false false plane width =
              fun i => UInt8.ofNat ((pixel plane i).getD 0) := by
            funext i
            cases hpixel : pixel plane i <;> simp [halfPel, mean, neighbours, hpixel]
          rw [hvalue]
          exact isWord_pack plane

/-! ## The macroblock -/

/-- Rows that are written one below the other. -/
def writeRows (value : ℤ → UInt8) (side width : ℕ) : ℕ → List UInt8 → ℕ → ℤ → List UInt8
  | 0, bytes, _, _ => bytes
  | n + 1, bytes, position, src =>
      writeRows value side width n (overwrite bytes (rowOf value src side) position)
        (position + width) (src + width)

theorem length_rowOf (value : ℤ → UInt8) (src : ℤ) (n : ℕ) : (rowOf value src n).length = n := by
  rw [rowOf, List.length_map, List.length_range]

variable {value : ℤ → UInt8} {side width n position : ℕ} {bytes : List UInt8} {src : ℤ}

theorem getElem?_overwrite_row (h : position + side ≤ bytes.length) (i : ℕ) :
    (overwrite bytes (rowOf value src side) position)[i]? =
      if position ≤ i ∧ i < position + side then some (value (src + (i - position : ℕ)))
      else bytes[i]? := by
  rw [getElem?_overwrite (by rwa [length_rowOf]), length_rowOf]
  split
  · rw [rowOf, List.getElem?_map, List.getElem?_range (by omega), Option.map_some]
  · rfl

/-- What no row covers is kept. -/
theorem getElem?_writeRows_of_outside {i : ℕ}
    (hfits : ∀ r < n, position + r * width + side ≤ bytes.length)
    (hout : ∀ r < n, ¬ (position + r * width ≤ i ∧ i < position + r * width + side)) :
    (writeRows value side width n bytes position src)[i]? = bytes[i]? := by
  induction n generalizing bytes position src with
  | zero => rfl
  | succ n ih =>
      have hrow : position + side ≤ bytes.length := by simpa using hfits 0 (Nat.succ_pos n)
      have hnext : ∀ r, position + width + r * width = position + (r + 1) * width := by
        intro r; ring
      rw [writeRows, ih, getElem?_overwrite_row hrow,
        if_neg (by simpa using hout 0 (Nat.succ_pos n))]
      · intro r hr
        rw [length_overwrite (by rwa [length_rowOf]), hnext]
        exact hfits (r + 1) (by omega)
      · intro r hr
        rw [hnext]
        exact hout (r + 1) (by omega)

theorem length_writeRows (hfits : ∀ r < n, position + r * width + side ≤ bytes.length) :
    (writeRows value side width n bytes position src).length = bytes.length := by
  induction n generalizing bytes position src with
  | zero => rfl
  | succ n ih =>
      have hrow : position + side ≤ bytes.length := by simpa using hfits 0 (Nat.succ_pos n)
      have hlength : (overwrite bytes (rowOf value src side) position).length = bytes.length :=
        length_overwrite (by rwa [length_rowOf])
      rw [writeRows, ih, hlength]
      intro r hr
      rw [hlength, show position + width + r * width = position + (r + 1) * width by ring]
      exact hfits (r + 1) (by omega)

/-- What a row covers is as written. -/
theorem getElem?_writeRows (hside : side ≤ width) {r c : ℕ} (hr : r < n) (hc : c < side)
    (hfits : ∀ r < n, position + r * width + side ≤ bytes.length) :
    (writeRows value side width n bytes position src)[position + r * width + c]? =
      some (value (src + r * width + c)) := by
  induction n generalizing bytes position src r with
  | zero => omega
  | succ n ih =>
      have hrow : position + side ≤ bytes.length := by simpa using hfits 0 (Nat.succ_pos n)
      have hnext : ∀ r, position + width + r * width = position + (r + 1) * width := by
        intro r; ring
      have hfits' : ∀ r < n, position + width + r * width + side ≤
          (overwrite bytes (rowOf value src side) position).length := by
        intro r hr
        rw [length_overwrite (by rwa [length_rowOf]), hnext]
        exact hfits (r + 1) (by omega)
      rw [writeRows]
      cases r with
      | zero =>
          rw [getElem?_writeRows_of_outside hfits', getElem?_overwrite_row hrow, if_pos (by omega)]
          · simp
          · intro r _
            have hpos : 0 ≤ r * width := Nat.zero_le _
            omega
      | succ r =>
          rw [← hnext, ih (by omega) hfits']
          congr 2
          push_cast
          ring

theorem copyRows_eq {word : ℤ → BitVec 32} (h : IsWord value word) {words last fuel : ℕ}
    (hwidth : 4 ∣ width) (hpos : 0 < width) (hle : 4 * words ≤ width) {c : Cursor}
    (hlast : last = c.dest + n * (width / 4)) (hfuel : n < fuel)
    (hfits : ∀ r < n, 4 * c.dest + r * width + 4 * words ≤ c.bytes.length) :
    ∃ result, copyRows (directRow word words width) last fuel c = some result ∧
      result.bytes = writeRows value (4 * words) width n c.bytes (4 * c.dest) c.src := by
  induction n generalizing c fuel with
  | zero =>
      obtain ⟨fuel, rfl⟩ : ∃ k, fuel = k + 1 := ⟨fuel - 1, by omega⟩
      exact ⟨c, by rw [copyRows, if_neg (by omega)], rfl⟩
  | succ n ih =>
      obtain ⟨fuel, rfl⟩ : ∃ k, fuel = k + 1 := ⟨fuel - 1, by omega⟩
      obtain ⟨quarter, rfl⟩ := hwidth
      have hquarter : 4 * quarter / 4 = quarter := Nat.mul_div_cancel_left _ (by decide)
      rw [hquarter] at hlast
      have hrow : 4 * (c.dest + words) ≤ c.bytes.length := by
        have hfirst := hfits 0 (Nat.succ_pos n)
        omega
      have hlt : c.dest < last := by
        rw [hlast, Nat.succ_mul]
        omega
      rw [copyRows, if_pos hlt, directRow_eq h ⟨quarter, rfl⟩ hle hrow, hquarter]
      obtain ⟨result, hresult, hbytes⟩ := @ih fuel
        ⟨overwrite c.bytes (rowOf value c.src (4 * words)) (4 * c.dest), c.dest + quarter,
          c.src + (4 * quarter : ℕ)⟩
        (by dsimp only; rw [hlast, hquarter]; ring) (by omega) (by
          intro r hr
          dsimp only
          rw [length_overwrite (by rw [length_rowOf]; omega)]
          have hnext := hfits (r + 1) (by omega)
          rw [Nat.add_mul, Nat.one_mul] at hnext
          omega)
      refine ⟨result, hresult, ?_⟩
      rw [hbytes, writeRows]
      dsimp only
      rw [Nat.mul_add]

/-- A plane after the prediction of a macroblock of `side` pixels a side. -/
structure Predicted (oddH oddV : Bool) (H V : ℤ) (side width mbRow mbCol : ℕ)
    (plane current result : List UInt8) : Prop where
  length : result.length = current.length
  inside : ∀ r < side, ∀ c < side,
    result[(side * mbRow + r) * width + (side * mbCol + c)]? =
      some (halfPel oddH oddV plane width
        ((((side * mbRow + r : ℕ) : ℤ) + V) * width + ((side * mbCol + c : ℕ) : ℤ) + H))
  outside : ∀ i, (∀ r < side, ∀ c < side,
      i ≠ (side * mbRow + r) * width + (side * mbCol + c)) → result[i]? = current[i]?

/-- The macroblock lies in the plane. -/
theorem macroblock_fits {side mbWidth mbHeight mbRow mbCol r : ℕ} (hcol : mbCol < mbWidth)
    (hrow : mbRow < mbHeight) (hr : r < side) :
    (side * mbRow + r) * (side * mbWidth) + side * mbCol + side ≤
      side * mbWidth * (side * mbHeight) := by
  have hright : side * mbCol + side ≤ side * mbWidth := Nat.mul_le_mul_left side hcol
  have hbottom : side * mbRow + side ≤ side * mbHeight := Nat.mul_le_mul_left side hrow
  calc (side * mbRow + r) * (side * mbWidth) + side * mbCol + side
      ≤ (side * mbRow + r) * (side * mbWidth) + side * mbWidth := by omega
    _ = (side * mbRow + r + 1) * (side * mbWidth) := by ring
    _ ≤ side * mbHeight * (side * mbWidth) := Nat.mul_le_mul_right _ (by omega)
    _ = side * mbWidth * (side * mbHeight) := Nat.mul_comm _ _

theorem copyPlane_predicted {words mbWidth mbHeight mbRow mbCol : ℕ} (H V : ℤ)
    (oddH oddV : Bool) (plane : List UInt8) {current : List UInt8} (hwords : 0 < words)
    (hcol : mbCol < mbWidth)
    (hrow : mbRow < mbHeight)
    (hlength : current.length = 4 * words * mbWidth * (4 * words * mbHeight)) :
    ∃ result,
      copyPlane words (4 * words * mbWidth) mbRow mbCol H V oddH oddV plane current =
        some result ∧
      Predicted oddH oddV H V (4 * words) (4 * words * mbWidth) mbRow mbCol plane current
        result := by
  obtain ⟨word, hword, hcopyRow⟩ := copyRow_eq oddH oddV plane words (4 * words * mbWidth)
  have hside : 4 * words ≤ 4 * words * mbWidth := Nat.le_mul_of_pos_right _ (by omega)
  have hposition : ∀ r, 4 * ((mbRow * (4 * words * mbWidth) + mbCol) * words) +
      r * (4 * words * mbWidth) =
        (4 * words * mbRow + r) * (4 * words * mbWidth) + 4 * words * mbCol := by
    intro r; ring
  have hfits : ∀ r < 4 * words, 4 * ((mbRow * (4 * words * mbWidth) + mbCol) * words) +
      r * (4 * words * mbWidth) + 4 * words ≤ current.length := by
    intro r hr
    rw [hposition, hlength]
    exact macroblock_fits hcol hrow hr
  have hquarter : 4 * words * mbWidth / 4 = words * mbWidth := by
    rw [Nat.mul_assoc, Nat.mul_div_cancel_left _ (by decide)]
  have hlast : (mbRow * (4 * words * mbWidth) + mbCol) * words + 4 * words * mbWidth * words =
      (mbRow * (4 * words * mbWidth) + mbCol) * words +
        4 * words * (4 * words * mbWidth / 4) := by
    rw [hquarter]; ring
  have hfuel : 4 * words < (mbRow * (4 * words * mbWidth) + mbCol) * words +
      4 * words * mbWidth * words + 1 := by
    have hmore : 4 * words * mbWidth ≤ 4 * words * mbWidth * words :=
      Nat.le_mul_of_pos_right _ hwords
    omega
  obtain ⟨result, hresult, hbytes⟩ := @copyRows_eq _ _ (4 * words) _ hword words _ _
    ⟨words * mbWidth, by ring⟩ (by omega) hside
    ⟨current, (mbRow * (4 * words * mbWidth) + mbCol) * words,
      ((4 * words * mbRow : ℕ) + V) * (4 * words * mbWidth : ℕ) + (4 * words * mbCol : ℕ) + H⟩
    hlast hfuel hfits
  dsimp only at hbytes
  refine ⟨result.bytes, ?_, ?_, ?_, ?_⟩
  · simp only [copyPlane, hcopyRow, hresult, Option.map_some]
  · rw [hbytes, length_writeRows hfits]
  · intro r hr c hc
    rw [hbytes, ← add_assoc, ← hposition, getElem?_writeRows hside hr hc hfits]
    congr 2
    push_cast
    ring
  · intro i hi
    rw [hbytes]
    refine getElem?_writeRows_of_outside hfits fun r hr hin => ?_
    rw [hposition] at hin
    refine hi r hr (i - ((4 * words * mbRow + r) * (4 * words * mbWidth) + 4 * words * mbCol))
      (by omega) (by omega)

/-- The prediction of a macroblock: in each plane its pixels are the means that the motion
vector asks for, and nothing else is written. -/
theorem copyMacroblock_eq_halfPel (mbWidth mbHeight mbRow mbCol : ℕ) (motionH motionV : ℤ)
    (forward current : Frame) (hcol : mbCol < mbWidth) (hrow : mbRow < mbHeight)
    (hY : current.Y.length = 16 * mbWidth * (16 * mbHeight))
    (hCr : current.Cr.length = 8 * mbWidth * (8 * mbHeight))
    (hCb : current.Cb.length = 8 * mbWidth * (8 * mbHeight)) :
    ∃ result, copyMacroblock mbWidth mbRow mbCol motionH motionV forward current = some result ∧
      Predicted (motionH % 2 = 1) (motionV % 2 = 1) (motionH / 2) (motionV / 2) 16 (16 * mbWidth)
        mbRow mbCol forward.Y current.Y result.Y ∧
      Predicted (motionH.tdiv 2 % 2 = 1) (motionV.tdiv 2 % 2 = 1) (motionH.tdiv 2 / 2)
        (motionV.tdiv 2 / 2) 8 (8 * mbWidth) mbRow mbCol forward.Cr current.Cr result.Cr ∧
      Predicted (motionH.tdiv 2 % 2 = 1) (motionV.tdiv 2 % 2 = 1) (motionH.tdiv 2 / 2)
        (motionV.tdiv 2 / 2) 8 (8 * mbWidth) mbRow mbCol forward.Cb current.Cb result.Cb := by
  obtain ⟨Y, hcopyY, hpredictedY⟩ := copyPlane_predicted (motionH / 2) (motionV / 2)
    (motionH % 2 = 1) (motionV % 2 = 1) forward.Y (show 0 < 4 by decide) hcol hrow hY
  obtain ⟨Cr, hcopyCr, hpredictedCr⟩ := copyPlane_predicted (motionH.tdiv 2 / 2)
    (motionV.tdiv 2 / 2) (motionH.tdiv 2 % 2 = 1) (motionV.tdiv 2 % 2 = 1) forward.Cr
    (show 0 < 2 by decide) hcol hrow hCr
  obtain ⟨Cb, hcopyCb, hpredictedCb⟩ := copyPlane_predicted (motionH.tdiv 2 / 2)
    (motionV.tdiv 2 / 2) (motionH.tdiv 2 % 2 = 1) (motionV.tdiv 2 % 2 = 1) forward.Cb
    (show 0 < 2 by decide) hcol hrow hCb
  refine ⟨⟨Y, Cr, Cb⟩, ?_, hpredictedY, hpredictedCr, hpredictedCb⟩
  simp only [copyMacroblock]
  rw [hcopyY, hcopyCr, hcopyCb]
  rfl

end SsmIaas.Player
