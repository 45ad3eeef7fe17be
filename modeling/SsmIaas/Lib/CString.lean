import Mathlib.Data.List.Induction
import Mathlib.Data.List.TakeWhile
import Mathlib.Data.Nat.Basic
import Mathlib.Data.Nat.Digits.Defs
import Mathlib.Tactic.Common
import Mathlib.Tactic.IntervalCases

/-!
# Byte strings as C sees them

A C `char` buffer is a list of bytes with no length of its own: a string is
whatever stands between a pointer and the next NUL, and `strtok` cuts strings out
of a buffer by writing NULs into it.  This file has the three library functions
the modelled programs parse with, over buffers of any length and content:

* `atoi`, as `strtol` in base ten followed by the conversion to `int`;
* `cstr buffer pointer`, the string a pointer into a buffer denotes;
* `strtok`, over a `Tokenizer` holding the buffer and the saved position.

`strtok_token` is the only fact about `strtok` that a caller of a well-formed
message needs: a token that is followed by a delimiter is cut out without a look
at anything behind the delimiter.
-/

namespace SsmIaas.Lib

/-- Bytes of a buffer, a message or a file. -/
abbrev Bytes := List UInt8

/-- The delimiter of all messages. -/
def space : UInt8 := 32

/-- The string terminator. -/
def nul : UInt8 := 0

/-- The bytes of a string constant or of a string sent over a socket. -/
def utf8 (text : String) : Bytes := text.toUTF8.toList

/-- A string literal of the C source, whose characters are all bytes. -/
def ascii (text : String) : Bytes := text.toList.map fun c => UInt8.ofNat c.toNat

/-! ## The bytes of a text -/

theorem toList_loop (bytes : ByteArray) (i : ℕ) (r : List UInt8) :
    ByteArray.toList.loop bytes i r = r.reverse ++ bytes.data.toList.drop i := by
  fun_induction ByteArray.toList.loop bytes i r with
  | case1 i r hlt ih =>
      have hi : i < bytes.data.toList.length := by simpa using hlt
      rw [ih, List.reverse_cons, List.append_assoc, List.singleton_append,
        List.drop_eq_getElem_cons hi]
      congr 2
      simp only [ByteArray.get!, Array.getElem_toList]
      exact getElem!_pos _ _ _
  | case2 i r hge =>
      have hi : bytes.data.toList.length ≤ i := by simpa using hge
      rw [List.drop_eq_nil_of_le hi, List.append_nil]

theorem utf8_eq (text : String) : utf8 text = text.toList.flatMap String.utf8EncodeChar := by
  have hbytes : text.toByteArray = text.toList.utf8Encode := by
    rw [← String.toByteArray_ofList, String.ofList_toList]
  rw [utf8, ByteArray.toList, toList_loop, String.toUTF8_eq_toByteArray, hbytes, List.utf8Encode]
  simp

/-- A byte below 128 is a character of its own. -/
theorem mem_utf8 {text : String} {b : UInt8} (hb : b ∈ utf8 text) (hlt : b.toNat < 128) :
    ∃ c ∈ text.toList, c.toNat = b.toNat := by
  rw [utf8_eq] at hb
  obtain ⟨c, hc, hb⟩ := List.mem_flatMap.mp hb
  refine ⟨c, hc, ?_⟩
  show c.val.toNat = b.toNat
  simp only [String.utf8EncodeChar] at hb
  split_ifs at hb
  · rw [List.mem_singleton.mp hb, UInt8.toNat_ofNat']
    omega
  -- the bytes of longer encodings all have their highest bit set
  · simp only [List.mem_cons, List.not_mem_nil, or_false] at hb
    rcases hb with rfl | rfl <;> simp only [UInt8.toNat_ofNat'] at hlt <;> omega
  · simp only [List.mem_cons, List.not_mem_nil, or_false] at hb
    rcases hb with rfl | rfl | rfl <;> simp only [UInt8.toNat_ofNat'] at hlt <;> omega
  · simp only [List.mem_cons, List.not_mem_nil, or_false] at hb
    rcases hb with rfl | rfl | rfl | rfl <;> simp only [UInt8.toNat_ofNat'] at hlt <;> omega

/-! ## Decimal numerals -/

def isDigit (b : UInt8) : Bool := 48 ≤ b.toNat && b.toNat ≤ 57

/-- The value of a digit string, accumulated from the left as `strtol` does. -/
def digitsValue (digits : Bytes) : ℕ :=
  digits.foldl (fun value b => 10 * value + (b.toNat - 48)) 0

/-- `text` is a decimal numeral for `value`, leading zeros allowed. -/
structure Numeral (text : Bytes) (value : ℕ) : Prop where
  nonempty : text ≠ []
  digits : ∀ b ∈ text, isDigit b = true
  value_eq : digitsValue text = value

/-- The numeral printed for a number, without leading zeros. -/
def decimal (n : ℕ) : Bytes := (Nat.toDigits 10 n).map fun c => UInt8.ofNat c.toNat

theorem ofNat_digitChar {d : ℕ} (hd : d < 10) :
    UInt8.ofNat (Nat.digitChar d).toNat = UInt8.ofNat (48 + d) := by
  interval_cases d <;> rfl

theorem toNat_digit {d : ℕ} (hd : d < 10) : (UInt8.ofNat (48 + d)).toNat = 48 + d := by
  rw [UInt8.toNat_ofNat']
  omega

theorem decimal_of_lt {n : ℕ} (hlt : n < 10) : decimal n = [UInt8.ofNat (48 + n)] := by
  rw [decimal, Nat.toDigits_of_lt_base hlt, List.map_singleton, ofNat_digitChar hlt]

/-- The last digit comes off the end of a longer numeral. -/
theorem decimal_of_ge {n : ℕ} (hge : 10 ≤ n) :
    decimal n = decimal (n / 10) ++ [UInt8.ofNat (48 + n % 10)] := by
  have hdigit : n % 10 < 10 := Nat.mod_lt n (by omega)
  rw [decimal, Nat.toDigits_of_base_le (by omega) hge, List.map_append, List.map_singleton,
    ofNat_digitChar hdigit, ← decimal]

theorem digitsValue_append_singleton (digits : Bytes) (b : UInt8) :
    digitsValue (digits ++ [b]) = 10 * digitsValue digits + (b.toNat - 48) := by
  simp [digitsValue]

theorem digitsValue_append (front back : Bytes) :
    digitsValue (front ++ back) = digitsValue front * 10 ^ back.length + digitsValue back := by
  induction back using List.reverseRecOn with
  | nil => simp [digitsValue]
  | append_singleton back b ih =>
      rw [← List.append_assoc, digitsValue_append_singleton, ih, digitsValue_append_singleton,
        List.length_append, List.length_singleton, Nat.pow_succ]
      ring

theorem digitsValue_lt {digits : Bytes} (h : ∀ b ∈ digits, isDigit b = true) :
    digitsValue digits < 10 ^ digits.length := by
  induction digits using List.reverseRecOn with
  | nil => simp [digitsValue]
  | append_singleton front b ih =>
      have hfront := ih fun c hc => h c (List.mem_append_left _ hc)
      have hb : isDigit b = true := h b (by simp)
      simp only [isDigit, Bool.and_eq_true, decide_eq_true_eq] at hb
      rw [digitsValue_append_singleton, List.length_append, List.length_singleton, Nat.pow_succ]
      omega

theorem isDigit_ofNat {d : ℕ} (hd : d < 10) : isDigit (UInt8.ofNat (48 + d)) = true := by
  simp only [isDigit, toNat_digit hd, Bool.and_eq_true, decide_eq_true_eq]
  omega

theorem numeral_decimal (n : ℕ) : Numeral (decimal n) n := by
  induction n using Nat.strong_induction_on with
  | _ n ih =>
      rcases Nat.lt_or_ge n 10 with hlt | hge
      · rw [decimal_of_lt hlt]
        refine ⟨by simp, ?_, ?_⟩
        · simpa using isDigit_ofNat hlt
        · simp only [digitsValue, List.foldl_cons, List.foldl_nil, toNat_digit hlt]
          omega
      · have hdigit : n % 10 < 10 := Nat.mod_lt n (by omega)
        have hfront := ih (n / 10) (by omega)
        rw [decimal_of_ge hge]
        refine ⟨by simp, ?_, ?_⟩
        · intro b hb
          rcases List.mem_append.mp hb with hb | hb
          · exact hfront.digits b hb
          · rw [List.mem_singleton.mp hb]
            exact isDigit_ofNat hdigit
        · rw [digitsValue_append_singleton, hfront.value_eq, toNat_digit hdigit]
          omega

theorem decimal_injective : Function.Injective decimal := by
  intro m n h
  rw [← (numeral_decimal m).value_eq, h, (numeral_decimal n).value_eq]

theorem length_decimal_le {n k : ℕ} (hk : 0 < k) (h : n < 10 ^ k) : (decimal n).length ≤ k := by
  rw [decimal, List.length_map]
  exact Nat.toDigits_length 10 n k hk h

theorem isDigit_ne {b : UInt8} (hb : isDigit b = true) : b ≠ space ∧ b ≠ nul := by
  constructor <;> rintro rfl <;> simp [isDigit, space, nul] at hb

/-! ## `atoi` -/

/-- `isspace` in the C locale. -/
def isSpace (b : UInt8) : Bool := b == space || (9 ≤ b.toNat && b.toNat ≤ 13)

/-- The signed value at the start of a string, with no bound. -/
def signedValue : Bytes → ℤ
  | [] => 0
  | b :: rest =>
      if b = 45 then -(digitsValue (rest.takeWhile isDigit) : ℤ)
      else if b = 43 then digitsValue (rest.takeWhile isDigit)
      else digitsValue ((b :: rest).takeWhile isDigit)

/-- `atoi (s)` is `(int) strtol (s, NULL, 10)`: the value is clamped to `long` and
its low 32 bits are taken. -/
def atoi (s : Bytes) : ℤ :=
  Int.bmod (max (-(2 ^ 63)) (min (signedValue (s.dropWhile isSpace)) (2 ^ 63 - 1))) (2 ^ 32)

theorem isDigit_not_isSpace {b : UInt8} (hb : isDigit b = true) : isSpace b = false := by
  have hne := (isDigit_ne hb).1
  simp only [isDigit, Bool.and_eq_true, decide_eq_true_eq] at hb
  simp only [isSpace, Bool.or_eq_false_iff, beq_eq_false_iff_ne, Bool.and_eq_false_iff,
    decide_eq_false_iff_not]
  exact ⟨hne, Or.inr (by omega)⟩

/-- A numeral with anything behind it: digits that follow are read as well. -/
theorem signedValue_numeral_append {text : Bytes} {value : ℕ} (h : Numeral text value)
    (rest : Bytes) : signedValue ((text ++ rest).dropWhile isSpace) =
      digitsValue (text ++ rest.takeWhile isDigit) := by
  obtain ⟨hne, hdigits, -⟩ := h
  cases text with
  | nil => exact absurd rfl hne
  | cons b tail =>
      have hb : isDigit b = true := hdigits b (List.mem_cons_self ..)
      have hall : (b :: tail ++ rest).takeWhile isDigit = b :: tail ++ rest.takeWhile isDigit :=
        List.takeWhile_append_of_pos hdigits
      have hsign : b ≠ 45 ∧ b ≠ 43 := by
        constructor <;> rintro rfl <;> simp [isDigit] at hb
      rw [List.cons_append] at hall ⊢
      rw [List.dropWhile_cons_of_neg (by simp [isDigit_not_isSpace hb])]
      simp only [signedValue, if_neg hsign.1, if_neg hsign.2, hall]

theorem signedValue_numeral {text : Bytes} {value : ℕ} (h : Numeral text value) :
    signedValue (text.dropWhile isSpace) = value := by
  have happend := signedValue_numeral_append h []
  simpa [h.value_eq] using happend

/-- `atoi` of a numeral with anything behind it: the low 32 bits of the value of all
the digits, cut off at the largest `long`. -/
theorem atoi_numeral_append {text : Bytes} {value : ℕ} (h : Numeral text value) (rest : Bytes) :
    atoi (text ++ rest) =
      Int.bmod (min (digitsValue (text ++ rest.takeWhile isDigit)) (2 ^ 63 - 1) : ℕ) (2 ^ 32) := by
  unfold atoi
  rw [signedValue_numeral_append h]
  congr 1
  omega

theorem atoi_numeral {text : Bytes} {value : ℕ} (h : Numeral text value) :
    atoi text = Int.bmod (min value (2 ^ 63 - 1) : ℕ) (2 ^ 32) := by
  have happend := atoi_numeral_append h []
  simpa [h.value_eq] using happend

/-- A number as it is printed, with a sign if it is negative. -/
def signedDecimal (n : ℤ) : Bytes :=
  if n < 0 then 45 :: decimal n.natAbs else decimal n.natAbs

theorem atoi_signedDecimal {n : ℤ} (hlo : -(2 ^ 31) ≤ n) (hhi : n < 2 ^ 31) :
    atoi (signedDecimal n) = n := by
  have hvalue : signedValue ((signedDecimal n).dropWhile isSpace) = n := by
    have hnumeral := numeral_decimal n.natAbs
    unfold signedDecimal
    split
    · have hdigits : (decimal n.natAbs).takeWhile isDigit = decimal n.natAbs :=
        List.takeWhile_eq_self_iff.mpr hnumeral.digits
      have hminus : isSpace 45 = false := by decide
      rw [List.dropWhile_cons_of_neg (by simp [hminus])]
      simp only [signedValue, if_true, hdigits, hnumeral.value_eq]
      omega
    · rw [signedValue_numeral hnumeral]
      omega
  unfold atoi
  rw [hvalue, max_eq_right (by omega), min_eq_left (by omega), Int.bmod_eq_of_le (by omega)
    (by omega)]

/-! ## Strings in a buffer -/

/-- `read (fd, buffer, size)` of some bytes: what stands behind them in the buffer stays
as it was. -/
def readInto (size : ℕ) (buffer bytes : Bytes) : Bytes :=
  bytes.take size ++ buffer.drop (bytes.take size).length

theorem readInto_of_le {size : ℕ} (buffer : Bytes) {bytes : Bytes} (h : bytes.length ≤ size) :
    readInto size buffer bytes = bytes ++ buffer.drop bytes.length := by
  rw [readInto, List.take_of_length_le h]

theorem length_readInto {size : ℕ} {buffer : Bytes} (h : buffer.length = size) (bytes : Bytes) :
    (readInto size buffer bytes).length = size := by
  simp only [readInto, List.length_append, List.length_take, List.length_drop]
  omega

/-- The string that the pointer `buffer + pointer` denotes. -/
def cstr (buffer : Bytes) (pointer : ℕ) : Bytes :=
  (buffer.drop pointer).takeWhile fun b => b != nul

/-- A string without NUL, terminated in the buffer, reads back as itself. -/
theorem cstr_append {front text rest : Bytes} (htext : ∀ b ∈ text, b ≠ nul) :
    cstr (front ++ (text ++ nul :: rest)) front.length = text := by
  unfold cstr
  rw [List.drop_left, List.takeWhile_append_of_pos (by simpa using htext)]
  simp

/-! ## `strtok` -/

/-- What `strtok` keeps between calls: the buffer it writes into and the position
after the last token. -/
structure Tokenizer where
  buffer : Bytes
  save : ℕ
  deriving DecidableEq, Repr

/-- The tokenizer that has consumed `front` of a buffer and stands before `rest`. -/
def Tokenizer.between (front rest : Bytes) : Tokenizer := ⟨front ++ rest, front.length⟩

/-- The number of delimiters at the start of `rest`: `strspn (rest, " ")`. -/
def strspn (rest : Bytes) : ℕ := (rest.takeWhile fun b => b == space).length

/-- The number of bytes before the next delimiter or terminator:
`strcspn (rest, " ")`. -/
def strcspn (rest : Bytes) : ℕ := (rest.takeWhile fun b => b != space && b != nul).length

/-- `strtok (NULL, " ")`: skip delimiters, cut the next token off by a NUL and
return a pointer to it, or return `NULL` (`some none`) at the terminator.  The
result is `none` when the search leaves the buffer. -/
def strtok (t : Tokenizer) : Option (Option ℕ × Tokenizer) :=
  let start := t.save + strspn (t.buffer.drop t.save)
  match t.buffer[start]? with
  | none => none
  | some b =>
      if b = nul then some (none, { t with save := start })
      else
        let stop := start + strcspn (t.buffer.drop start)
        match t.buffer[stop]? with
        | none => none
        | some d =>
            if d = nul then some (some start, { t with save := stop })
            else some (some start, ⟨t.buffer.set stop nul, stop + 1⟩)

/-- A byte string `strtok` returns whole: not empty, no delimiter, no NUL. -/
structure Token (text : Bytes) : Prop where
  nonempty : text ≠ []
  clean : ∀ b ∈ text, b ≠ space ∧ b ≠ nul

theorem Token.singleton {b : UInt8} (hspace : b ≠ space) (hnul : b ≠ nul) : Token [b] where
  nonempty := List.cons_ne_nil b []
  clean := by simp [hspace, hnul]

theorem Token.ne_nul {text : Bytes} (h : Token text) : ∀ b ∈ text, b ≠ nul :=
  fun b hb => (h.clean b hb).2

theorem Token.space_notMem {text : Bytes} (h : Token text) : space ∉ text :=
  fun hmem => (h.clean _ hmem).1 rfl

theorem Numeral.token {text : Bytes} {value : ℕ} (h : Numeral text value) : Token text :=
  ⟨h.nonempty, fun b hb => isDigit_ne (h.digits b hb)⟩

theorem strspn_token {text rest : Bytes} (h : Token text) : strspn (text ++ rest) = 0 := by
  cases text with
  | nil => exact absurd rfl h.nonempty
  | cons b tail =>
      have hb := (h.clean b (List.mem_cons_self ..)).1
      simp [strspn, hb]

theorem strcspn_token {text rest : Bytes} (h : Token text) :
    strcspn (text ++ space :: rest) = text.length := by
  have hclean : ∀ b ∈ text, (b != space && b != nul) = true := by
    intro b hb
    simpa using h.clean b hb
  unfold strcspn
  rw [List.takeWhile_append_of_pos hclean]
  simp

/-- **One call of `strtok`.**  A token followed by a delimiter is returned whole
and terminated in place; nothing behind the delimiter is read. -/
theorem strtok_token {front text rest : Bytes} (h : Token text) :
    strtok (.between front (text ++ space :: rest)) =
      some (some front.length, .between (front ++ text ++ [nul]) rest) := by
  obtain ⟨b, tail, rfl⟩ := List.exists_cons_of_ne_nil h.nonempty
  have hb := (h.clean b (List.mem_cons_self ..)).2
  have hstop : (front ++ (b :: tail ++ space :: rest))[front.length + (b :: tail).length]? =
      some space := by
    rw [List.getElem?_append_right (by omega), List.getElem?_append_right (by omega)]
    simp
  have hset : (front ++ (b :: tail ++ space :: rest)).set
      (front.length + (b :: tail).length) nul = front ++ (b :: tail) ++ [nul] ++ rest := by
    rw [List.set_append_right _ _ (by omega), List.set_append_right _ _ (by omega)]
    simp
  have hdelim : space ≠ nul := by decide
  simp only [strtok, Tokenizer.between, List.drop_left, strspn_token h, Nat.add_zero,
    strcspn_token h, hstop, hset, if_neg hdelim]
  simp [hb, Nat.add_assoc]

theorem Token.head_ne {b : UInt8} {tail : Bytes} (h : Token (b :: tail)) : b ≠ space ∧ b ≠ nul :=
  h.clean b (List.mem_cons_self ..)

/-- There is a delimiter or a terminator, to end a token that runs on into these bytes. -/
def Ended (rest : Bytes) : Prop := ∃ b ∈ rest, b = space ∨ b = nul

/-- What `strtok` makes of a token that no delimiter was written behind: it runs on to
the next delimiter or terminator. -/
theorem exists_end_of_token {rest : Bytes} (h : Ended rest) :
    ∃ junk d after, rest = junk ++ d :: after ∧ (d = space ∨ d = nul) ∧
      junk = rest.takeWhile (fun b => b != space && b != nul) ∧
      ∀ b ∈ junk, b ≠ space ∧ b ≠ nul := by
  induction rest with
  | nil => exact absurd h (by simp [Ended])
  | cons b tail ih =>
      by_cases hb : b = space ∨ b = nul
      · refine ⟨[], b, tail, rfl, hb, ?_, by simp⟩
        rcases hb with rfl | rfl <;> simp
      · have htail : Ended tail := by
          obtain ⟨c, hc, hend⟩ := h
          rcases List.mem_cons.mp hc with rfl | hc
          · exact absurd hend hb
          · exact ⟨c, hc, hend⟩
        rw [not_or] at hb
        obtain ⟨junk, d, after, hsplit, hd, hjunk, hclean⟩ := ih htail
        refine ⟨b :: junk, d, after, by rw [hsplit]; rfl, hd, ?_, ?_⟩
        · rw [hjunk, List.takeWhile_cons_of_pos (by simp [hb])]
        · intro c hc
          rcases List.mem_cons.mp hc with rfl | hc
          · exact hb
          · exact hclean c hc

/-- A token that nothing ends takes the search out of the buffer. -/
theorem strtok_unended {front text rest : Bytes} (h : Token text) (hrest : ¬ Ended rest) :
    strtok (.between front (text ++ rest)) = none := by
  have hopen : ∀ b ∈ rest, b ≠ space ∧ b ≠ nul := by
    intro b hb
    exact not_or.mp fun hend => hrest ⟨b, hb, hend⟩
  have hcspn : strcspn (text ++ rest) = (text ++ rest).length := by
    unfold strcspn
    rw [List.takeWhile_eq_self_iff.mpr]
    intro b hb
    rcases List.mem_append.mp hb with hb | hb
    · simpa using h.clean b hb
    · simpa using hopen b hb
  obtain ⟨b, tail, rfl⟩ := List.exists_cons_of_ne_nil h.nonempty
  have hstart : (front ++ (b :: tail ++ rest))[front.length]? = some b := by simp
  have hstop : (front ++ (b :: tail ++ rest))[front.length + (b :: tail ++ rest).length]? =
      none := by
    rw [← List.length_append]
    exact List.getElem?_eq_none (le_refl _)
  simp only [strtok, Tokenizer.between, List.drop_left, strspn_token h, Nat.add_zero, hcspn,
    hstart, hstop, if_neg h.head_ne.2]

/-- A token at a terminator is returned as it stands. -/
theorem strtok_terminated {front text rest : Bytes} (h : Token text) :
    strtok (.between front (text ++ nul :: rest)) =
      some (some front.length, ⟨front ++ (text ++ nul :: rest), front.length + text.length⟩) := by
  obtain ⟨b, tail, rfl⟩ := List.exists_cons_of_ne_nil h.nonempty
  have hclean : ∀ c ∈ b :: tail, (c != space && c != nul) = true := by
    intro c hc
    simpa using h.clean c hc
  have hcspn : strcspn (b :: tail ++ nul :: rest) = (b :: tail).length := by
    unfold strcspn
    rw [List.takeWhile_append_of_pos hclean]
    simp
  have hstart : (front ++ (b :: tail ++ nul :: rest))[front.length]? = some b := by simp
  have hstop : (front ++ (b :: tail ++ nul :: rest))[front.length + (b :: tail).length]? =
      some nul := by
    rw [List.getElem?_append_right (by omega), List.getElem?_append_right (by omega)]
    simp
  simp only [strtok, Tokenizer.between, List.drop_left, strspn_token h, Nat.add_zero, hcspn, hstop,
    hstart, if_neg h.head_ne.2, if_true]

/-! ## Cutting at a delimiter -/

/-- Two texts with the same delimiter agree on both sides of its first occurrence. -/
theorem cut_inj {d : UInt8} {a b x y : Bytes} (ha : d ∉ a) (hb : d ∉ b) :
    a ++ d :: x = b ++ d :: y ↔ a = b ∧ x = y := by
  induction a generalizing b with
  | nil =>
      cases b with
      | nil => simp
      | cons c b =>
          have hne : d ≠ c := fun heq => hb (by simp [heq])
          simp [hne]
  | cons c a ih =>
      cases b with
      | nil =>
          have hne : c ≠ d := fun heq => ha (by simp [heq])
          simp [hne]
      | cons c' b =>
          have hcut := ih (fun hmem => ha (List.mem_cons_of_mem _ hmem))
            (fun hmem => hb (List.mem_cons_of_mem _ hmem))
          simp only [List.cons_append, List.cons.injEq, hcut, and_assoc]

/-- Lines that each end in a delimiter they do not contain can be told apart. -/
theorem lines_inj {d : UInt8} {lines lines' : List Bytes} (h : ∀ line ∈ lines, d ∉ line)
    (h' : ∀ line ∈ lines', d ∉ line)
    (heq : (lines.map (· ++ [d])).flatten = (lines'.map (· ++ [d])).flatten) :
    lines = lines' := by
  induction lines generalizing lines' with
  | nil =>
      cases lines' with
      | nil => rfl
      | cons line rest => simp at heq
  | cons line rest ih =>
      cases lines' with
      | nil => simp at heq
      | cons line' rest' =>
          simp only [List.map_cons, List.flatten_cons, List.append_assoc, List.singleton_append]
            at heq
          obtain ⟨rfl, hrest⟩ := (cut_inj (h _ (by simp)) (h' _ (by simp))).mp heq
          rw [ih (fun l hl => h l (List.mem_cons_of_mem _ hl))
            (fun l hl => h' l (List.mem_cons_of_mem _ hl)) hrest]

end SsmIaas.Lib
