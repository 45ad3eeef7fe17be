import Mathlib.Data.Nat.Bitwise
import Mathlib.Tactic.Ring

/-!
# Bit strings

Bits in the order in which they are sent, the most significant first: the number that a
string of bits stands for, the bits of a number, and the bits of a sequence of bytes, of
which any field can be taken.
-/

namespace SsmIaas.Lib

/-- The number that bits stand for. -/
def ofBits (bits : List Bool) : ℕ := bits.foldl (fun value bit => 2 * value + bit.toNat) 0

/-- The low bits of a number. -/
def toBits : ℕ → ℕ → List Bool
  | 0, _ => []
  | width + 1, value => value.testBit width :: toBits width value

@[simp] theorem length_toBits (width value : ℕ) : (toBits width value).length = width := by
  induction width with
  | zero => rfl
  | succ width ih => rw [toBits, List.length_cons, ih]

@[simp] theorem ofBits_nil : ofBits [] = 0 := rfl

theorem foldl_bits (start : ℕ) (bits : List Bool) :
    bits.foldl (fun value bit => 2 * value + bit.toNat) start =
      start * 2 ^ bits.length + ofBits bits := by
  induction bits generalizing start with
  | nil => simp
  | cons bit rest ih =>
      rw [ofBits, List.foldl_cons, List.foldl_cons, ih, ih (2 * 0 + bit.toNat), List.length_cons]
      ring

theorem ofBits_append (front back : List Bool) :
    ofBits (front ++ back) = ofBits front * 2 ^ back.length + ofBits back := by
  rw [ofBits, List.foldl_append, foldl_bits]
  rfl

theorem ofBits_cons (bit : Bool) (rest : List Bool) :
    ofBits (bit :: rest) = bit.toNat * 2 ^ rest.length + ofBits rest := by
  rw [← List.singleton_append, ofBits_append]
  simp [ofBits]

theorem ofBits_lt (bits : List Bool) : ofBits bits < 2 ^ bits.length := by
  induction bits with
  | nil => simp
  | cons bit rest ih =>
      have hbit : bit.toNat * 2 ^ rest.length ≤ 1 * 2 ^ rest.length :=
        Nat.mul_le_mul_right _ (Bool.toNat_le bit)
      rw [ofBits_cons, List.length_cons, Nat.pow_succ]
      omega

theorem ofBits_toBits (width value : ℕ) : ofBits (toBits width value) = value % 2 ^ width := by
  induction width with
  | zero => simp [toBits, Nat.mod_one]
  | succ width ih =>
      rw [toBits, ofBits_cons, length_toBits, ih, Nat.mod_pow_succ, Nat.toNat_testBit, Nat.mul_comm,
        Nat.add_comm]

/-! ## The bits of bytes -/

/-- A bit of a sequence of bytes; zeros follow the last byte. -/
def bitAt (bytes : List UInt8) (k : ℕ) : Bool := (bytes.getD (k / 8) 0).toNat.testBit (7 - k % 8)

/-- A field of bits, from a position on. -/
def bitField (bytes : List UInt8) (position width : ℕ) : List Bool :=
  (List.range width).map fun j => bitAt bytes (position + j)

@[simp] theorem length_bitField (bytes : List UInt8) (position width : ℕ) :
    (bitField bytes position width).length = width := by
  simp [bitField]

theorem bitField_add (bytes : List UInt8) (position m n : ℕ) :
    bitField bytes position (m + n) =
      bitField bytes position m ++ bitField bytes (position + m) n := by
  simp only [bitField, List.range_add, List.map_append, List.map_map, Nat.add_assoc]
  rfl

theorem toBits_eq_map (width value : ℕ) :
    toBits width value = (List.range width).map fun j => value.testBit (width - 1 - j) := by
  induction width with
  | zero => rfl
  | succ width ih =>
      rw [toBits, ih, List.range_succ_eq_map, List.map_cons, List.map_map]
      refine congrArg₂ List.cons (by simp) (List.map_congr_left fun j hj => ?_)
      have hlt := List.mem_range.mp hj
      simp only [Function.comp_apply]
      congr 1
      omega

/-- A field within one byte. -/
theorem bitField_byte (bytes : List UInt8) (k : ℕ) {first width : ℕ} (h : first + width ≤ 8) :
    bitField bytes (8 * k + first) width =
      toBits width ((bytes.getD k 0).toNat / 2 ^ (8 - first - width)) := by
  rw [toBits_eq_map, bitField]
  refine List.map_congr_left fun j hj => ?_
  have hlt := List.mem_range.mp hj
  have hbyte : (8 * k + first + j) / 8 = k := by omega
  have hplace : 7 - (8 * k + first + j) % 8 = 8 - first - width + (width - 1 - j) := by omega
  rw [bitAt, hbyte, hplace, Nat.testBit_div_two_pow]
  congr 1
  omega

theorem ofBits_bitField_byte (bytes : List UInt8) (k : ℕ) {first width : ℕ}
    (h : first + width ≤ 8) :
    ofBits (bitField bytes (8 * k + first) width) =
      (bytes.getD k 0).toNat / 2 ^ (8 - first - width) % 2 ^ width := by
  rw [bitField_byte bytes k h, ofBits_toBits]

end SsmIaas.Lib
