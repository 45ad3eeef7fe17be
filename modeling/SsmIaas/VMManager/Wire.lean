import SsmIaas.LoadBalancer.SocketUtil
import SsmIaas.VMManager.Command

/-!
# From LoadBalancer's messages to `client_info`

`start_server ()` reads each request into one 500-byte buffer that is cleared
only once, before the accept loop, and takes it apart with `strtok` and `atoi`.
Neither the number of bytes read nor a terminator limits the parse: behind the
message stand the remains of earlier requests, with the NULs that `strtok` put
there.

What makes the parse sound is the space behind every field, the last one
included: `strtok` finds it before it looks at anything left over.  The theorem
`parse_message` says so for all messages of `SocketUtil.js` and all contents of
the buffer.

The `printf` of the raw buffer and of the fields is left out; it feeds nothing.
-/

namespace SsmIaas.VMManager

open Lib LoadBalancer

/-- The local `buffer[500]` of `start_server ()`. -/
structure Buffer where
  bytes : Bytes
  length_eq : bytes.length = 500

/-- The buffer after the `memset` before the accept loop. -/
def freshBuffer : Buffer := ⟨List.replicate 500 nul, List.length_replicate⟩

/-- `read (client_fd, buffer, 500)` of a message that arrives in one piece: the
bytes behind it stay as they were. -/
def Buffer.read (buffer : Buffer) (sent : Bytes) : Buffer where
  bytes := readInto 500 buffer.bytes sent
  length_eq := length_readInto buffer.length_eq sent

/-- How a parse can go wrong: `atoi (NULL)`, or a scan past the end of the buffer. -/
inductive Fault
  | nullToken
  | leftBuffer
  deriving DecidableEq, Repr

/-- `temp = strtok (NULL, " ")`. -/
def token (t : Tokenizer) : Except Fault (Option ℕ × Tokenizer) :=
  match strtok t with
  | none => .error .leftBuffer
  | some result => .ok result

/-- `temp = strtok (NULL, " ")` and `atoi (temp)`. -/
def number (t : Tokenizer) : Except Fault (ℤ × Tokenizer) := do
  let (temp, t) ← token t
  match temp with
  | none => .error .nullToken
  | some pointer => .ok (atoi (cstr t.buffer pointer), t)

/-- The fields after `index`.  `id` and `ip` stay pointers into the buffer, so
they are read from what it holds when the parse is over. -/
def parseRest (command osType index : UInt8) (t : Tokenizer) : Except Fault ClientInfo := do
  let (id, t) ← token t
  if command = 0 ∨ command = 3 then
    let (ip, t) ← token t
    let (connectType, t) ← number t
    let (portI, t) ← number t
    let (portA, t) ← number t
    let (portE, t) ← number t
    return {
      command, osType, index
      id := id.map (cstr t.buffer)
      connection := some {
        ip := ip.map (cstr t.buffer)
        connectType := .ofInt connectType
        portI := .ofInt portI
        portA := .ofInt portA
        portE := .ofInt portE } }
  else
    return { command, osType, index, id := id.map (cstr t.buffer), connection := none }

/-- The parse in `start_server ()`, from a buffer that a message was read into. -/
def parse (buffer : Buffer) : Except Fault ClientInfo := do
  let (command, t) ← number ⟨buffer.bytes, 0⟩
  let (osType, t) ← number t
  let (index, t) ← number t
  parseRest (.ofInt command) (.ofInt osType) (.ofInt index) t

/-! ## One field at a time -/

theorem token_of_strtok {t t' : Tokenizer} {i : ℕ} (h : strtok t = some (some i, t')) :
    token t = .ok (some i, t') := by
  rw [token, h]

theorem number_of_strtok {t t' : Tokenizer} {i : ℕ} (h : strtok t = some (some i, t')) :
    number t = .ok (atoi (cstr t'.buffer i), t') := by
  simp only [number, token_of_strtok h, bind, Except.bind]

/-- A field of a message that `strtok` can return whole. -/
structure Word where
  text : Bytes
  isToken : Token text

theorem cstr_word (front rest : Bytes) (word : Word) :
    cstr (front ++ (word.text ++ nul :: rest)) front.length = word.text :=
  cstr_append word.isToken.ne_nul

theorem token_between (front rest : Bytes) (word : Word) :
    token (.between front (word.text ++ space :: rest)) =
      .ok (some front.length, .between (front ++ word.text ++ [nul]) rest) := by
  rw [token_of_strtok (strtok_token word.isToken)]

theorem number_between (front rest : Bytes) (word : Word) :
    number (.between front (word.text ++ space :: rest)) =
      .ok (atoi word.text, .between (front ++ word.text ++ [nul]) rest) := by
  have hread : cstr (front ++ word.text ++ [nul] ++ rest) front.length = word.text := by
    simpa using cstr_word front rest word
  rw [number_of_strtok (strtok_token word.isToken), Tokenizer.between, hread]

/-- A last field with no delimiter behind it is read up to the terminator. -/
theorem number_terminated (front rest : Bytes) (word : Word) :
    number (.between front (word.text ++ nul :: rest)) =
      .ok (atoi word.text, ⟨front ++ (word.text ++ nul :: rest),
        front.length + word.text.length⟩) := by
  rw [number_of_strtok (strtok_terminated word.isToken), cstr_word]

/-! ## Whole messages -/

section

variable (command osType index id ip connectType portI portA portE : Word) (front rest : Bytes)

theorem parseRest_short {command osType index : UInt8} (hcommand : ¬ (command = 0 ∨ command = 3)) :
    parseRest command osType index (.between front (id.text ++ space :: rest)) =
      .ok ⟨command, osType, index, some id.text, none⟩ := by
  have hid : cstr (front ++ id.text ++ [nul] ++ rest) front.length = id.text := by
    simpa using cstr_word front rest id
  simp only [parseRest, token_between, bind, Except.bind, if_neg hcommand]
  simp only [Tokenizer.between, Option.map_some, hid]
  rfl

theorem parseRest_long {command osType index : UInt8} (hcommand : command = 0 ∨ command = 3) :
    parseRest command osType index
        (.between front (id.text ++ space :: (ip.text ++ space :: (connectType.text ++ space ::
          (portI.text ++ space :: (portA.text ++ space :: (portE.text ++ space :: rest))))))) =
      .ok ⟨command, osType, index, some id.text,
        some ⟨some ip.text, .ofInt (atoi connectType.text), .ofInt (atoi portI.text),
          .ofInt (atoi portA.text), .ofInt (atoi portE.text)⟩⟩ := by
  -- the buffer behind the two strings, when the parse is over
  let ports := connectType.text ++ [nul] ++ portI.text ++ [nul] ++ portA.text ++ [nul] ++
    portE.text ++ [nul] ++ rest
  have hid := cstr_word front (ip.text ++ nul :: ports) id
  have hip := cstr_word (front ++ id.text ++ [nul]) ports ip
  simp only [parseRest, token_between, number_between, bind, Except.bind, if_pos hcommand]
  simp only [Tokenizer.between, Option.map_some]
  simp only [ports, List.append_assoc, List.cons_append, List.nil_append] at hid hip ⊢
  rw [hid, hip]
  rfl

/-- The numbers in front of every message, whatever stands behind them. -/
theorem parse_front {buffer : Buffer}
    (hbuffer : buffer.bytes = command.text ++ space :: (osType.text ++ space ::
      (index.text ++ space :: rest))) :
    ∃ front, parse buffer = parseRest (.ofInt (atoi command.text)) (.ofInt (atoi osType.text))
      (.ofInt (atoi index.text)) (.between front rest) := by
  have hstart : (⟨buffer.bytes, 0⟩ : Tokenizer) = .between [] (command.text ++ space ::
      (osType.text ++ space :: (index.text ++ space :: rest))) := by
    rw [hbuffer]
    rfl
  refine ⟨[] ++ command.text ++ [nul] ++ osType.text ++ [nul] ++ index.text ++ [nul], ?_⟩
  simp only [parse, hstart, number_between, bind, Except.bind]

theorem Buffer.read_bytes (stale : Buffer) {sent : Bytes} (hlength : sent.length ≤ 500) :
    ∃ remains, (stale.read sent).bytes = sent ++ remains := by
  refine ⟨stale.bytes.drop sent.length, ?_⟩
  simp only [Buffer.read, readInto_of_le _ hlength]

/-- The parse of a message in any buffer, up to the fields behind its numbers. -/
theorem parse_read (stale : Buffer) {sent : Bytes} (hlength : sent.length ≤ 500)
    {fields : List JsText}
    (hsent : message (some command.text :: some osType.text :: some index.text :: fields) =
      some sent) :
    ∃ others front remains, message fields = some others ∧
      parse (stale.read sent) = parseRest (.ofInt (atoi command.text)) (.ofInt (atoi osType.text))
        (.ofInt (atoi index.text)) (.between front (others ++ remains)) := by
  obtain ⟨remains, hbytes⟩ := stale.read_bytes hlength
  simp only [message_some_cons, Option.map_map, Option.map_eq_some_iff] at hsent
  obtain ⟨others, hothers, rfl⟩ := hsent
  simp only [Function.comp_apply, List.append_assoc, List.cons_append] at hbytes
  obtain ⟨front, hfront⟩ := parse_front command osType index _ hbytes
  exact ⟨others, front, remains, hothers, hfront⟩

/-- The parse of a message of nine fields, in any buffer. -/
theorem parse_long (stale : Buffer) {sent : Bytes} (hlength : sent.length ≤ 500)
    (hsent : message [some command.text, some osType.text, some index.text, some id.text,
      some ip.text, some connectType.text, some portI.text, some portA.text, some portE.text] =
        some sent)
    (hcommand : UInt8.ofInt (atoi command.text) = 0 ∨ UInt8.ofInt (atoi command.text) = 3) :
    parse (stale.read sent) =
      .ok ⟨.ofInt (atoi command.text), .ofInt (atoi osType.text), .ofInt (atoi index.text),
        some id.text,
        some ⟨some ip.text, .ofInt (atoi connectType.text), .ofInt (atoi portI.text),
          .ofInt (atoi portA.text), .ofInt (atoi portE.text)⟩⟩ := by
  obtain ⟨others, front, remains, hothers, hparse⟩ :=
    parse_read command osType index stale hlength hsent
  simp only [message_some_cons, message_nil, Option.map_some, Option.some.injEq] at hothers
  rw [hparse, ← hothers]
  simp only [List.append_assoc, List.cons_append, List.nil_append]
  exact parseRest_long id ip connectType portI portA portE front remains hcommand

/-- The parse of a message of four fields, in any buffer. -/
theorem parse_short (stale : Buffer) {sent : Bytes} (hlength : sent.length ≤ 500)
    (hsent : message [some command.text, some osType.text, some index.text, some id.text] =
      some sent)
    (hcommand : ¬ (UInt8.ofInt (atoi command.text) = 0 ∨ UInt8.ofInt (atoi command.text) = 3)) :
    parse (stale.read sent) =
      .ok ⟨.ofInt (atoi command.text), .ofInt (atoi osType.text), .ofInt (atoi index.text),
        some id.text, none⟩ := by
  obtain ⟨others, front, remains, hothers, hparse⟩ :=
    parse_read command osType index stale hlength hsent
  simp only [message_some_cons, message_nil, Option.map_some, Option.some.injEq] at hothers
  rw [hparse, ← hothers, List.append_assoc, List.cons_append]
  exact parseRest_short id front remains hcommand

end

/-! ## Numeric fields -/

/-- A numeric field: a decimal numeral that fits in a `long`. -/
structure Number where
  text : Bytes
  value : ℕ
  numeral : Numeral text value
  bound : value < 2 ^ 63

def Number.word (n : Number) : Word := ⟨n.text, n.numeral.token⟩

/-- The field that holds a number as JavaScript prints it. -/
def Number.ofNat (n : ℕ) (hn : n < 2 ^ 63) : Number := ⟨decimal n, n, numeral_decimal n, hn⟩

/-- The two conversions, to `int` by `atoi` and to the type of the field, keep the
low bits. -/
theorem uint8_atoi {text : Bytes} {value : ℕ} (h : Numeral text value) :
    UInt8.ofInt (atoi text) = UInt8.ofNat (min value (2 ^ 63 - 1)) := by
  rw [atoi_numeral h]
  apply UInt8.toNat_inj.mp
  simp only [UInt8.ofInt, UInt8.toNat_ofNat', Int.bmod]
  omega

theorem Number.uint8 (n : Number) : UInt8.ofInt (atoi n.text) = UInt8.ofNat n.value := by
  have hbound := n.bound
  rw [uint8_atoi n.numeral, Nat.min_eq_left (by omega)]

theorem Number.uint16 (n : Number) : UInt16.ofInt (atoi n.text) = UInt16.ofNat n.value := by
  have hbound := n.bound
  rw [atoi_numeral n.numeral]
  apply UInt16.toNat_inj.mp
  simp only [UInt16.ofInt, UInt16.toNat_ofNat', Int.bmod]
  omega

/-- **The wire format.**  Every message of `SocketUtil.js`, read into a buffer with
any content, is parsed into exactly its fields, reduced to the width of the field
of `client_info` they go to. -/
theorem parse_message (stale : Buffer) (command osType index : Number) (id ip : Word)
    (connectType imagePort audioPort eventPort : Number) (sent : Bytes)
    (hlength : sent.length ≤ 500) :
    (command.value = 0 ∨ command.value = 3 →
      getSocketStart (some command.text) (some osType.text) (some index.text) (some id.text)
          (some ip.text) (some connectType.text) (some imagePort.text) (some audioPort.text)
          (some eventPort.text) = some sent ∨
        getSocketInstall (some command.text) (some osType.text) (some index.text) (some id.text)
          (some ip.text) (some connectType.text) (some imagePort.text) (some audioPort.text)
          (some eventPort.text) = some sent →
      parse (stale.read sent) =
        .ok ⟨.ofNat command.value, .ofNat osType.value, .ofNat index.value, some id.text,
          some ⟨some ip.text, .ofNat connectType.value, .ofNat imagePort.value,
            .ofNat audioPort.value, .ofNat eventPort.value⟩⟩) ∧
    (command.value = 1 ∨ command.value = 2 →
      getSocketCreate (some command.text) (some osType.text) (some index.text) (some id.text) =
          some sent ∨
        getSocketDelete (some command.text) (some osType.text) (some index.text) (some id.text) =
          some sent →
      parse (stale.read sent) =
        .ok ⟨.ofNat command.value, .ofNat osType.value, .ofNat index.value, some id.text,
          none⟩) := by
  refine ⟨?_, ?_⟩
  · intro hcommand hsent
    have hlong : UInt8.ofInt (atoi command.text) = 0 ∨ UInt8.ofInt (atoi command.text) = 3 := by
      rw [command.uint8]
      rcases hcommand with heq | heq <;> simp [heq]
    have hparse := parse_long command.word osType.word index.word id ip connectType.word
      imagePort.word audioPort.word eventPort.word stale hlength (or_self_iff.mp hsent) hlong
    simpa only [Number.word, Number.uint8, Number.uint16] using hparse
  · intro hcommand hsent
    have hshort :
        ¬ (UInt8.ofInt (atoi command.text) = 0 ∨ UInt8.ofInt (atoi command.text) = 3) := by
      rw [command.uint8]
      rcases hcommand with heq | heq <;> simp [heq]
    have hparse := parse_short command.word osType.word index.word id stale hlength
      (or_self_iff.mp hsent) hshort
    simpa only [Number.word, Number.uint8] using hparse

/-- The messages `0 0 1 a b 0 7001 7501 8001` and `1 2 300 a`, read into a buffer full
of digits. -/
theorem parse_message_start_create :
    parse (Buffer.read ⟨List.replicate 500 49, List.length_replicate⟩
        [48, 32, 48, 32, 49, 32, 97, 32, 98, 32, 48, 32, 55, 48, 48, 49, 32, 55, 53, 48, 49, 32,
          56, 48, 48, 49, 32]) =
      .ok ⟨0, 0, 1, some [97], some ⟨some [98], 0, 7001, 7501, 8001⟩⟩ ∧
    parse (Buffer.read ⟨List.replicate 500 49, List.length_replicate⟩
        [49, 32, 50, 32, 51, 48, 48, 32, 97, 32]) =
      .ok ⟨1, 2, 44, some [97], none⟩ := by
  refine ⟨?_, ?_⟩
  · exact (parse_message _ (.ofNat 0 (by decide)) (.ofNat 0 (by decide)) (.ofNat 1 (by decide))
      ⟨[97], .singleton (by decide) (by decide)⟩ ⟨[98], .singleton (by decide) (by decide)⟩
      (.ofNat 0 (by decide)) (.ofNat 7001 (by decide)) (.ofNat 7501 (by decide))
      (.ofNat 8001 (by decide)) _ (by decide)).1 (Or.inl rfl) (Or.inl (by decide))
  · exact (parse_message _ (.ofNat 1 (by decide)) (.ofNat 2 (by decide)) (.ofNat 300 (by decide))
      ⟨[97], .singleton (by decide) (by decide)⟩ ⟨[98], .singleton (by decide) (by decide)⟩
      (.ofNat 0 (by decide)) (.ofNat 7001 (by decide)) (.ofNat 7501 (by decide))
      (.ofNat 8001 (by decide)) [49, 32, 50, 32, 51, 48, 48, 32, 97, 32] (by decide)).2
      (Or.inl rfl) (Or.inl (by decide))

end SsmIaas.VMManager
