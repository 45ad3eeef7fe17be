import SsmIaas.Lib.BitString
import Mathlib.Data.BitVec
import Mathlib.Tactic.IntervalCases
import Mathlib.Tactic.Positivity

/-!
# The bit reader of the video player

`BitReader` of `jsmpg.js` takes fields of any width out of a buffer of bytes.  A field that
ends in another byte than it begins in is put together with shifts of 32-bit numbers.

`nextBits_eq`: for up to 31 bits the result is the number that the bits of the field stand
for.  The parsers of the player are then described by `Reads`: with these bits ahead, the
parser returns this value and is behind them.
-/

namespace SsmIaas.Player

open Lib

/-- `BitReader`; its `length` is the length of `bytes`. -/
structure BitReader where
  bytes : List UInt8
  writePos : ℕ
  /-- the position in bits -/
  index : ℕ
  deriving DecidableEq, Repr

namespace BitReader

/-- `this.bytes[i]` as an operand of a shift or a bitwise operation; `undefined` counts as 0. -/
def byte (r : BitReader) (i : ℕ) : BitVec 32 := (r.bytes.getD i 0).toBitVec.setWidth 32

/-- `nextBits (count)`. -/
def nextBits (r : BitReader) (count : ℕ) : ℤ :=
  let byteOffset := r.index / 8
  let room := 8 - r.index % 8
  if count ≤ room then
    ((r.byte byteOffset >>> (room - count)) &&& ((0xff : BitVec 32) >>> (8 - count))).toInt
  else
    let leftover := (r.index + count) % 8
    let last := (r.index + count - 1) / 8
    let value := r.byte byteOffset &&& ((0xff : BitVec 32) >>> (8 - room))
    let value := (List.range' (byteOffset + 1) (last - (byteOffset + 1))).foldl
      (fun (value : BitVec 32) i => value <<< 8 ||| r.byte i) value
    if 0 < leftover then (value <<< leftover ||| r.byte last >>> (8 - leftover)).toInt
    else (value <<< 8 ||| r.byte last).toInt

def skip (r : BitReader) (count : ℕ) : BitReader := { r with index := r.index + count }

/-! ## Fields -/

/-- The next bits. -/
def ahead (r : BitReader) (width : ℕ) : List Bool := bitField r.bytes r.index width

theorem toNat_byte (r : BitReader) (i : ℕ) : (r.byte i).toNat = (r.bytes.getD i 0).toNat := by
  have hlt := (r.bytes.getD i 0).toNat_lt
  rw [byte, BitVec.toNat_setWidth, UInt8.toNat_toBitVec, Nat.mod_eq_of_lt (by omega)]

/-- The masks are those for the low bits. -/
theorem toNat_mask {width : ℕ} (h : width ≤ 8) :
    ((0xff : BitVec 32) >>> (8 - width)).toNat = 2 ^ width - 1 := by
  interval_cases width <;> rfl

theorem toNat_and_mask (value : BitVec 32) {width : ℕ} (h : width ≤ 8) :
    (value &&& ((0xff : BitVec 32) >>> (8 - width))).toNat = value.toNat % 2 ^ width := by
  rw [BitVec.toNat_and, toNat_mask h, Nat.and_two_pow_sub_one_eq_mod]

/-- Bits are put behind a number that leaves room for them. -/
theorem toNat_shift_or {value back : BitVec 32} {front n : ℕ} (hvalue : value.toNat < 2 ^ front)
    (hback : back.toNat < 2 ^ n) (h : front + n ≤ 32) :
    (value <<< n ||| back).toNat = value.toNat * 2 ^ n + back.toNat := by
  have hlt : value.toNat * 2 ^ n < 2 ^ 32 := calc
    value.toNat * 2 ^ n < 2 ^ front * 2 ^ n := Nat.mul_lt_mul_of_pos_right hvalue (by positivity)
    _ = 2 ^ (front + n) := (Nat.pow_add 2 front n).symm
    _ ≤ 2 ^ 32 := Nat.pow_le_pow_right (by decide) h
  rw [BitVec.toNat_or, BitVec.toNat_shiftLeft, Nat.shiftLeft_eq, Nat.mod_eq_of_lt hlt,
    ← Nat.shiftLeft_eq, ← Nat.shiftLeft_add_eq_or_of_lt hback]

/-- A number holds the field of some bits from a position on. -/
def Holds (r : BitReader) (value : BitVec 32) (position width : ℕ) : Prop :=
  value.toNat = ofBits (bitField r.bytes position width)

theorem Holds.lt {r : BitReader} {value : BitVec 32} {position width : ℕ}
    (h : r.Holds value position width) : value.toNat < 2 ^ width := by
  have hlt := ofBits_lt (bitField r.bytes position width)
  rwa [length_bitField, ← h] at hlt

theorem Holds.shift_or {r : BitReader} {value back : BitVec 32} {position m n : ℕ}
    (h : r.Holds value position m) (hback : r.Holds back (position + m) n) (hmn : m + n ≤ 32) :
    r.Holds (value <<< n ||| back) position (m + n) := by
  rw [Holds, toNat_shift_or h.lt hback.lt hmn, bitField_add, ofBits_append, length_bitField, ← h,
    ← hback]

theorem Holds.toInt {r : BitReader} {value : BitVec 32} {position width : ℕ}
    (h : r.Holds value position width) (hwidth : width ≤ 31) :
    value.toInt = ofBits (bitField r.bytes position width) := by
  have hpow : 2 ^ width ≤ 2 ^ 31 := Nat.pow_le_pow_right (by decide) hwidth
  have hlt := h.lt
  rw [BitVec.toInt_eq_toNat_of_lt (by omega), h]

/-- The high bits of a byte. -/
theorem holds_byte (r : BitReader) (k : ℕ) {width : ℕ} (h : width ≤ 8) :
    r.Holds (r.byte k >>> (8 - width)) (8 * k) width := by
  have hfield := ofBits_bitField_byte r.bytes k (show 0 + width ≤ 8 by omega)
  have hlt : (r.bytes.getD k 0).toNat / 2 ^ (8 - width) < 2 ^ width := by
    rw [Nat.div_lt_iff_lt_mul (by positivity), ← Nat.pow_add, show width + (8 - width) = 8 by omega]
    exact (r.bytes.getD k 0).toNat_lt
  rw [Nat.add_zero, Nat.sub_zero, Nat.mod_eq_of_lt hlt] at hfield
  rw [Holds, BitVec.toNat_ushiftRight, Nat.shiftRight_eq_div_pow, toNat_byte, hfield]

/-- The loop adds whole bytes. -/
theorem Holds.bytes {r : BitReader} {value : BitVec 32} {position width : ℕ} (first count : ℕ)
    (h : r.Holds value position width) (hfirst : position + width = 8 * first)
    (hwidth : width + 8 * count ≤ 32) :
    r.Holds ((List.range' first count).foldl
      (fun (value : BitVec 32) i => value <<< 8 ||| r.byte i) value) position
        (width + 8 * count) := by
  induction count generalizing value width first with
  | zero => exact h
  | succ count ih =>
      have hbyte : r.Holds (r.byte first) (position + width) 8 := by
        rw [hfirst]
        exact holds_byte r first (Nat.le_refl 8)
      have hnext : width + 8 * (count + 1) = width + 8 + 8 * count := by ring
      rw [List.range'_succ, List.foldl_cons, hnext]
      exact ih (first + 1) (h.shift_or hbyte (by omega)) (by omega) (by omega)

/-- **Fields.**  For up to 31 bits `nextBits` is the number that the next bits stand for. -/
theorem nextBits_eq (r : BitReader) {count : ℕ} (h : count ≤ 31) :
    r.nextBits count = ofBits (r.ahead count) := by
  have hindex : r.index = 8 * (r.index / 8) + r.index % 8 := (Nat.div_add_mod ..).symm
  simp only [nextBits, ahead]
  split
  · -- the field is within one byte
    rename_i hroom
    refine Holds.toInt ?_ h
    have hfield := ofBits_bitField_byte r.bytes (r.index / 8)
      (show r.index % 8 + count ≤ 8 by omega)
    rw [← hindex] at hfield
    rw [Holds, toNat_and_mask _ (by omega), BitVec.toNat_ushiftRight, Nat.shiftRight_eq_div_pow,
      toNat_byte, hfield]
  · rename_i hroom
    have hfirst : r.Holds (r.byte (r.index / 8) &&& ((0xff : BitVec 32) >>>
        (8 - (8 - r.index % 8)))) r.index (8 - r.index % 8) := by
      have hfield := ofBits_bitField_byte r.bytes (r.index / 8)
        (show r.index % 8 + (8 - r.index % 8) ≤ 8 by omega)
      rw [← hindex, Nat.sub_self, Nat.pow_zero, Nat.div_one] at hfield
      rw [Holds, toNat_and_mask _ (by omega), toNat_byte, hfield]
    have hbytes := hfirst.bytes (r.index / 8 + 1)
      ((r.index + count - 1) / 8 - (r.index / 8 + 1)) (by omega) (by omega)
    have hlast : r.index + (8 - r.index % 8 +
        8 * ((r.index + count - 1) / 8 - (r.index / 8 + 1))) =
          8 * ((r.index + count - 1) / 8) := by omega
    split
    · rename_i hleft
      have hback := holds_byte r ((r.index + count - 1) / 8)
        (show (r.index + count) % 8 ≤ 8 by omega)
      rw [← hlast] at hback
      have hall := hbytes.shift_or hback (by omega)
      rw [show 8 - r.index % 8 + 8 * ((r.index + count - 1) / 8 - (r.index / 8 + 1)) +
        (r.index + count) % 8 = count by omega] at hall
      exact hall.toInt h
    · rename_i hleft
      have hback := holds_byte r ((r.index + count - 1) / 8) (Nat.le_refl 8)
      rw [← hlast] at hback
      have hall := hbytes.shift_or hback (by omega)
      rw [show 8 - r.index % 8 + 8 * ((r.index + count - 1) / 8 - (r.index / 8 + 1)) + 8 =
        count by omega] at hall
      exact hall.toInt h

end BitReader

/-! ## Parsers -/

/-- A function of the player that takes bits from `this.buffer`; `none` if a loop did not come
to its end. -/
abbrev Parser := StateT BitReader Option

def advance (count : ℕ) : Parser Unit := modify fun r => r.skip count

def getBits (count : ℕ) : Parser ℤ := do
  let value := (← get).nextBits count
  advance count
  return value

/-- These bits are ahead of the reader. -/
def BitReader.Ahead (r : BitReader) (bits : List Bool) : Prop := r.ahead bits.length = bits

instance (r : BitReader) (bits : List Bool) : Decidable (r.Ahead bits) :=
  inferInstanceAs (Decidable (_ = _))

theorem BitReader.ahead_append {r : BitReader} {front back : List Bool} :
    r.Ahead (front ++ back) ↔ r.Ahead front ∧ (r.skip front.length).Ahead back := by
  rw [BitReader.Ahead, List.length_append, BitReader.ahead, bitField_add]
  refine ⟨fun h => List.append_inj h (length_bitField ..), ?_⟩
  rintro ⟨hfront, hback⟩
  exact congrArg₂ _ hfront hback

theorem BitReader.skip_skip (r : BitReader) (m n : ℕ) : (r.skip m).skip n = r.skip (m + n) := by
  simp only [BitReader.skip, Nat.add_assoc]

/-- With these bits ahead, the parser returns this value and is behind them. -/
def Reads {α : Type} (parser : Parser α) (bits : List Bool) (value : α) : Prop :=
  ∀ r : BitReader, r.Ahead bits → parser.run r = some (value, r.skip bits.length)

section

variable {α β : Type}

theorem reads_pure (value : α) : Reads (pure value) [] value := fun _ _ => rfl

theorem Reads.run_bind {parser : Parser α} {bits : List Bool} {value : α}
    (h : Reads parser bits value) {r : BitReader} (hahead : r.Ahead bits) (next : α → Parser β) :
    (parser >>= next).run r = (next value).run (r.skip bits.length) := by
  rw [StateT.run_bind, h r hahead]
  rfl

theorem Reads.bind {parser : Parser α} {next : α → Parser β} {front back : List Bool} {value : α}
    {result : β} (h : Reads parser front value) (hnext : Reads (next value) back result) :
    Reads (parser >>= next) (front ++ back) result := by
  intro r hahead
  obtain ⟨hfront, hback⟩ := BitReader.ahead_append.mp hahead
  rw [h.run_bind hfront, hnext _ hback, List.length_append, r.skip_skip]

/-- A parser that is followed by one that takes no bits. -/
theorem Reads.bind_nil {parser : Parser α} {next : α → Parser β} {bits : List Bool} {value : α}
    {result : β} (h : Reads parser bits value) (hnext : Reads (next value) [] result) :
    Reads (parser >>= next) bits result := by
  have hbind := h.bind hnext
  rwa [List.append_nil] at hbind

theorem reads_advance {count : ℕ} {bits : List Bool} (h : bits.length = count) :
    Reads (advance count) bits () := by
  rintro r -
  rw [← h]
  rfl

theorem reads_getBits {count : ℕ} {bits : List Bool} (h : bits.length = count)
    (hcount : count ≤ 31) : Reads (getBits count) bits (ofBits bits) := by
  subst h
  intro r hahead
  have hvalue := r.nextBits_eq hcount
  rw [hahead] at hvalue
  rw [← hvalue]
  rfl

theorem reads_toBits {width value : ℕ} (hwidth : width ≤ 31) (hvalue : value < 2 ^ width) :
    Reads (getBits width) (toBits width value) value := by
  have hread := reads_getBits (length_toBits width value) hwidth
  rwa [ofBits_toBits, Nat.mod_eq_of_lt hvalue] at hread

theorem reads_bit (bit : Bool) : Reads (getBits 1) [bit] bit.toNat := by
  have hread := reads_getBits (show [bit].length = 1 from rfl) (by decide)
  rwa [show ofBits [bit] = bit.toNat by simp [ofBits]] at hread

end

end SsmIaas.Player
