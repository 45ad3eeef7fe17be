import SsmIaas.LoadBalancer.Select

/-!
# `ImageDAO.js` and the two requests that use it

The collection `Images` has one document for every image a member created, and
`ImageIndexers` holds the counter its `Index` comes from.  `requestCreateOS` and
`requestDeleteOS` change the collection and send VMManager a message about the
same image, one after the other and with no look at how the first went.

A request body is JSON, so `ImageVersion` need not be a string, and the database
takes an object in its place as a query operator.  The model leaves the type of
these values open and asks for the two things that are done with them
(`ValueOps`).  `Index` is used by its text only, by `parseInt` for the database
and by `toString ()` for the wire.
-/

namespace SsmIaas.LoadBalancer

open Lib

/-! ## `parseInt` -/

/-- Skip the white space of JavaScript, in UTF-8. -/
def skipWhiteSpace : Bytes → Bytes
  | 0xC2 :: 0xA0 :: rest => skipWhiteSpace rest
  | 0xE1 :: 0x9A :: 0x80 :: rest => skipWhiteSpace rest
  | 0xE2 :: 0x81 :: 0x9F :: rest => skipWhiteSpace rest
  | 0xE3 :: 0x80 :: 0x80 :: rest => skipWhiteSpace rest
  | 0xEF :: 0xBB :: 0xBF :: rest => skipWhiteSpace rest
  | 0xE2 :: 0x80 :: b :: rest =>
      if 0x80 ≤ b ∧ b ≤ 0x8A ∨ b = 0xA8 ∨ b = 0xA9 ∨ b = 0xAF then skipWhiteSpace rest
      else 0xE2 :: 0x80 :: b :: rest
  | b :: rest => if isSpace b then skipWhiteSpace rest else b :: rest
  | [] => []

def hexValue (b : UInt8) : Option ℕ :=
  if isDigit b then some (b.toNat - 48)
  else if 97 ≤ b ∧ b ≤ 102 then some (b.toNat - 87)
  else if 65 ≤ b ∧ b ≤ 70 then some (b.toNat - 55)
  else none

/-- The value of the hexadecimal digits in front, `none` (NaN) when there are none. -/
def parseHex (text : Bytes) : Option ℕ :=
  match text.takeWhile fun b => (hexValue b).isSome with
  | [] => none
  | digits => some (digits.foldl (fun value b => 16 * value + (hexValue b).getD 0) 0)

def parseDecimal (text : Bytes) : Option ℕ :=
  match text.takeWhile isDigit with
  | [] => none
  | digits => some (digitsValue digits)

/-- A number without its sign. -/
def parseUnsigned : Bytes → Option ℕ
  | 48 :: 120 :: rest => parseHex rest
  | 48 :: 88 :: rest => parseHex rest
  | text => parseDecimal text

/-- `parseInt (text)`; `none` is NaN. -/
def parseInt (text : Bytes) : Option ℤ :=
  match skipWhiteSpace text with
  | 45 :: rest => (parseUnsigned rest).map fun n => -(n : ℤ)
  | 43 :: rest => (parseUnsigned rest).map fun n => (n : ℤ)
  | rest => (parseUnsigned rest).map fun n => (n : ℤ)

/-! ## The counter -/

/-- `ImageIndexers`: `seq` of the document `image_index`, when it exists. -/
abbrev Indexers := Option ℕ

/-- `initIndexers`: the insert fails when the `_id` is there. -/
def initIndexers (indexers : Indexers) : Indexers := some (indexers.getD 0)

/-- `getIndexers`: the incremented `seq`; without a document, `data.seq` throws. -/
def getIndexers : Indexers → Option (ℕ × Indexers)
  | none => none
  | some seq => some (seq + 1, some (seq + 1))

/-! ## The collection -/

/-- What is done with the values of a request body. -/
structure ValueOps (Value : Type*) where
  /-- the value as a string, if it is one: `switch` compares with `===` -/
  text : Value → Option String
  /-- does a query for the first value select a document that holds the second? -/
  selects : Value → Value → Bool

/-- Bodies whose values are strings: a query selects what is equal. -/
def strings : ValueOps String := ⟨some, fun query value => query == value⟩

/-- `getImageIndex (ImageVersion)`. -/
def ValueOps.osType {Value : Type*} (ops : ValueOps Value) (imageVersion : Value) : Option ℕ :=
  (ops.text imageVersion).bind getImageIndex

/-- A document of `Images`. -/
structure ImageRecord (Value : Type*) where
  index : ℕ
  email : JsText
  image : Value
  deriving DecidableEq, Repr

variable {Value : Type*}

def insertImage (images : List (ImageRecord Value)) (index : ℕ) (email : JsText) (image : Value) :
    List (ImageRecord Value) :=
  images ++ [⟨index, email, image⟩]

/-- The query of `deleteImage`.  `parseInt` of `undefined` and `null` is NaN. -/
def ValueOps.deletes (ops : ValueOps Value) (index email : JsText) (image : Value)
    (record : ImageRecord Value) : Bool :=
  index.bind parseInt == some (record.index : ℤ) && record.email == email &&
    ops.selects image record.image

/-- `deleteImage`: how many documents were removed, and the ones that are left. -/
def deleteImage (ops : ValueOps Value) (images : List (ImageRecord Value)) (index email : JsText)
    (image : Value) : ℕ × List (ImageRecord Value) :=
  ((images.filter (ops.deletes index email image)).length,
    images.filter fun record => !ops.deletes index email image record)

/-! ## The messages -/

/-- What `requestCreateOS` writes to VMManager. -/
def createMessage (ops : ValueOps Value) (imageVersion : Value) (index : ℕ) (email : JsText) :
    Option Bytes :=
  getSocketCreate (some (decimal 1)) ((ops.osType imageVersion).map decimal)
    (some (decimal index)) email

/-- What `requestDeleteOS` writes to VMManager: the `Index` of the body as it came. -/
def deleteMessage (ops : ValueOps Value) (imageVersion : Value) (index email : JsText) :
    Option Bytes :=
  getSocketDelete (some (decimal 2)) ((ops.osType imageVersion).map decimal) index email

theorem getImageIndex_lt {name : String} {n : ℕ} (h : getImageIndex name = some n) : n < 4 := by
  unfold getImageIndex at h
  split at h <;> simp_all <;> omega

theorem ValueOps.osType_lt {ops : ValueOps Value} {imageVersion : Value} {n : ℕ}
    (h : ops.osType imageVersion = some n) : n < 4 := by
  obtain ⟨name, -, hname⟩ := Option.bind_eq_some_iff.mp h
  exact getImageIndex_lt hname

/-- For a known OS and a member who is logged in, there is a message to send. -/
theorem createMessage_isSome {ops : ValueOps Value} {imageVersion : Value} {osType : ℕ}
    (hos : ops.osType imageVersion = some osType) (index : ℕ) (email : Bytes) :
    ∃ sent, createMessage ops imageVersion index (some email) = some sent := by
  simp [createMessage, getSocketCreate, hos]

theorem deleteMessage_isSome {ops : ValueOps Value} {imageVersion : Value} {osType : ℕ}
    (hos : ops.osType imageVersion = some osType) (index email : Bytes) :
    ∃ sent, deleteMessage ops imageVersion (some index) (some email) = some sent := by
  simp [deleteMessage, getSocketDelete, hos]

end SsmIaas.LoadBalancer
