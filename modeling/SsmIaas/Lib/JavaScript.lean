import Mathlib.Data.Rat.Defs
import Mathlib.Tactic.Common

/-!
# Values of JavaScript and their comparison with `true` and `false`

Request bodies are JSON values, and the programs compare what they get with `==`, which
converts before it compares.  This is what the language says of the two comparisons that
occur: a string is `== true` if it reads as the number 1, and a value is `== false` if it
reads as the number 0, where an array reads as the text of its only element.
-/

namespace SsmIaas.Lib

/-! ## Strings as numbers -/

/-- The white space and line ends that a conversion to a number ignores. -/
def isJsSpace (c : Char) : Bool :=
  let n := c.toNat
  (9 ≤ n && n ≤ 13) || n == 0x20 || n == 0xA0 || n == 0x1680 || (0x2000 ≤ n && n ≤ 0x200A) ||
    n == 0x2028 || n == 0x2029 || n == 0x202F || n == 0x205F || n == 0x3000 || n == 0xFEFF

/-- The value of a digit in a base up to 16. -/
def digitIn (base : ℕ) (c : Char) : Option ℕ :=
  let value :=
    if '0' ≤ c ∧ c ≤ '9' then c.toNat - '0'.toNat
    else if 'a' ≤ c ∧ c ≤ 'f' then c.toNat - 'a'.toNat + 10
    else if 'A' ≤ c ∧ c ≤ 'F' then c.toNat - 'A'.toNat + 10
    else base
  if value < base then some value else none

/-- A nonempty row of digits. -/
def digitsIn (base : ℕ) (digits : List Char) : Option ℕ :=
  if digits.isEmpty then none
  else digits.foldlM (fun value c => (digitIn base c).map (base * value + ·)) 0

/-- The exponent of a decimal literal, `e` and all; none at all counts as zero. -/
def exponentOf : List Char → Option ℤ
  | [] => some 0
  | _ :: '+' :: digits => (digitsIn 10 digits).map Int.ofNat
  | _ :: '-' :: digits => (digitsIn 10 digits).map fun n => -(n : ℤ)
  | _ :: digits => (digitsIn 10 digits).map Int.ofNat

/-- A decimal literal without its sign. -/
def decimalLiteral (text : List Char) : Option ℚ := do
  let (mantissa, exponent) := text.span fun c => c != 'e' && c != 'E'
  let (whole, fraction) := mantissa.span fun c => c != '.'
  let digits ← digitsIn 10 (whole ++ fraction.drop 1)
  let exponent ← exponentOf exponent
  return digits * (10 : ℚ) ^ (exponent - (fraction.drop 1).length)

/-- The number that a string reads as, before it is rounded; `none` is not a number, or
infinite. -/
def toNumber (text : String) : Option ℚ :=
  match (((text.toList.dropWhile isJsSpace).reverse).dropWhile isJsSpace).reverse with
  | [] => some 0
  | '0' :: 'x' :: digits => (digitsIn 16 digits).map fun n => (n : ℚ)
  | '0' :: 'X' :: digits => (digitsIn 16 digits).map fun n => (n : ℚ)
  | '0' :: 'o' :: digits => (digitsIn 8 digits).map fun n => (n : ℚ)
  | '0' :: 'O' :: digits => (digitsIn 8 digits).map fun n => (n : ℚ)
  | '0' :: 'b' :: digits => (digitsIn 2 digits).map fun n => (n : ℚ)
  | '0' :: 'B' :: digits => (digitsIn 2 digits).map fun n => (n : ℚ)
  | '+' :: literal => decimalLiteral literal
  | '-' :: literal => (decimalLiteral literal).map fun q => -q
  | literal => decimalLiteral literal

/-- The string reads as a number in the interval. -/
def readsBetween (lo hi : ℚ) (text : String) : Bool :=
  match toNumber text with
  | none => false
  | some q => lo ≤ q && q ≤ hi

/-- `text == true`.  The numbers in the interval are those whose nearest double is 1. -/
def looseEqTrue (text : String) : Bool := readsBetween (1 - 1 / 2 ^ 54) (1 + 1 / 2 ^ 53) text

/-- `text == false`.  The numbers in the interval are those whose nearest double is 0. -/
def looseEqFalse (text : String) : Bool := readsBetween (-(1 / 2 ^ 1075)) (1 / 2 ^ 1075) text

/-! ## JSON -/

mutual

/-- A value that `JSON.parse` can return. -/
inductive Json
  | null
  | bool (b : Bool)
  | num (n : ℚ)
  | str (text : String)
  | arr (items : Items)
  | obj (fields : Fields)
  deriving DecidableEq

/-- The elements of an array. -/
inductive Items
  | nil
  | cons (head : Json) (tail : Items)
  deriving DecidableEq

/-- The fields of an object, in order. -/
inductive Fields
  | nil
  | cons (key : String) (value : Json) (rest : Fields)
  deriving DecidableEq

end

mutual

/-- The text of an array element reads as zero; `null` has an empty text. -/
def Json.textIsZero : Json → Bool
  | .null => true
  | .bool _ => false
  | .num n => n = 0
  | .str text => looseEqFalse text
  | .arr items => items.textIsZero
  | .obj _ => false

/-- The text of an array, its elements with commas between them, reads as zero. -/
def Items.textIsZero : Items → Bool
  | .nil => true
  | .cons item .nil => item.textIsZero
  | .cons _ (.cons _ _) => false

end

/-- `value == false` -/
def Json.looseEqFalse : Json → Bool
  | .null => false
  | .bool b => !b
  | .num n => n = 0
  | .str text => Lib.looseEqFalse text
  | .arr items => items.textIsZero
  | .obj _ => false

end SsmIaas.Lib
