import SsmIaas.VMManager.Wire
import SsmIaas.WebServer.EventSocket

/-!
# The event thread of QEMU

`thread_sdl ()` reads from the TCP connection into `buf[100]`, prints it, and takes what it
finds apart with `strtok` and `atoi`, one event per `read`.  The buffer is not cleared and
not terminated: `printf` reads on to the first NUL among the bytes of earlier events, and so
does the last field of a key message, which has no space behind it.

`event_codec_iff` says when that goes well.  The old bytes never change an event, since
the newline of the relay ends the last number; but they have to hold a NUL, or `printf`
reads past the end of the buffer.

The scale constants are 1, as `IPC_getClientData ()` sets them.
-/

namespace SsmIaas.Qemu

open Lib VMManager WebServer

/-- The calls the thread makes into the rest of `sdl.c`. -/
inductive InputCall
  /-- `sdl_send_mouse_event (dx, dy, x, y, state)` -/
  | mouse (dx dy x y state : ℤ)
  /-- `key_up_command (keycode)` -/
  | keyUp (keycode : ℕ)
  /-- `key_down_command (keycode)` -/
  | keyDown (keycode : ℕ)
  deriving DecidableEq, Repr

/-- How the thread can leave what C defines: when it prints its buffer, in the parse, or with
`km[keycode]`. -/
inductive Crash
  | print
  | parse (fault : Fault)
  | keymap
  deriving DecidableEq, Repr

/-- The assignments of `Make_keymap ()`, in order. -/
def keymapEntries : List (ℕ × ℕ) :=
  [(27, 1), (145, 70),
    (112, 59), (113, 60), (114, 61), (115, 62), (116, 63), (117, 64), (118, 65), (119, 66),
    (120, 67), (121, 68), (122, 87), (123, 88),
    (192, 41), (49, 2), (50, 3), (51, 4), (52, 5), (53, 6), (54, 7), (55, 8), (56, 9), (57, 10),
    (48, 11), (189, 12), (187, 13), (220, 43), (8, 14),
    (9, 15), (81, 16), (87, 17), (69, 18), (82, 19), (84, 20), (89, 21), (85, 22), (73, 23),
    (79, 24), (80, 25), (219, 26), (221, 27), (13, 28),
    (20, 58), (65, 30), (83, 31), (68, 32), (70, 33), (71, 34), (72, 35), (74, 36), (75, 37),
    (76, 38), (186, 39), (222, 40),
    (16, 42), (90, 44), (88, 45), (67, 46), (86, 47), (66, 48), (78, 49), (77, 50), (188, 51),
    (190, 52), (191, 53), (16, 54),
    (17, 29), (91, 219), (18, 56), (25, 242), (32, 57), (21, 184), (92, 220), (93, 221), (25, 157),
    (37, 203), (40, 208), (39, 205), (38, 200),
    (144, 69), (111, 181), (106, 55), (109, 74),
    (103, 71), (104, 72), (105, 73), (107, 78),
    (100, 75), (101, 76), (102, 77),
    (97, 79), (98, 80), (99, 81),
    (96, 82), (110, 83),
    (45, 210), (36, 199), (33, 201),
    (46, 211), (35, 207), (34, 209)]

/-- The array `km` after `Make_keymap ()`; it has 250 entries. -/
def km : ℕ → ℕ :=
  keymapEntries.foldl (fun km entry => Function.update km entry.1 entry.2) fun _ => 0

/-- The mouse event for a message; `screenH` is `real_screen->h`. -/
def mouseCall (androidMode : Bool) (screenH x y state : ℤ) : InputCall :=
  if androidMode then .mouse 0 0 y (screenH - x) state else .mouse 0 0 x y state

/-- `temp = strtok (..)` and `atoi (temp)`. -/
def nextNumber (t : Tokenizer) : Except Crash (ℤ × Tokenizer) := (number t).mapError .parse

/-- `printf ("event : %s\n", buf)`: it reads up to a NUL, which has to be in the buffer. -/
def printEvent (buf : Bytes) : Except Crash Unit :=
  if nul ∈ buf then .ok () else .error .print

/-- The parse and the calls.  The second `printf` of the buffer finds the NUL that `strtok` has
put there. -/
def parseEvent (androidMode : Bool) (screenH : ℤ) (buf : Bytes) :
    Except Crash (List InputCall × Bytes) := do
  let (type, t) ← nextNumber ⟨buf, 0⟩
  if type = 0 then
    let (x, t) ← nextNumber t
    let (y, t) ← nextNumber t
    let (state, t) ← nextNumber t
    return ([mouseCall androidMode screenH x y state], t.buffer)
  else if type = 1 then
    let (state, t) ← nextNumber t
    let (keycode, t) ← nextNumber t
    if 0 ≤ keycode ∧ keycode < 250 then
      if state = 0 then return ([.keyUp (km keycode.toNat)], t.buffer)
      else if state = 1 then return ([.keyDown (km keycode.toNat)], t.buffer)
      else return ([], t.buffer)
    else throw .keymap
  else return ([], t.buffer)

/-- The loop body of `thread_sdl ()` after its `read`: the calls it makes, and the
buffer it leaves. -/
def threadSdl (androidMode : Bool) (screenH : ℤ) (buf : Bytes) :
    Except Crash (List InputCall × Bytes) := do
  printEvent buf
  parseEvent androidMode screenH buf

theorem threadSdl_of_mem {buf : Bytes} (h : nul ∈ buf) (androidMode : Bool) (screenH : ℤ) :
    threadSdl androidMode screenH buf = parseEvent androidMode screenH buf := by
  rw [threadSdl, printEvent, if_pos h]
  rfl

theorem threadSdl_of_notMem {buf : Bytes} (h : nul ∉ buf) (androidMode : Bool) (screenH : ℤ) :
    threadSdl androidMode screenH buf = .error .print := by
  rw [threadSdl, printEvent, if_neg h]
  rfl

/-! ## What an event means -/

/-- The call that an event stands for. -/
def inputCall (androidMode : Bool) (screenH : ℤ) : InputEvent → InputCall
  | .mouse x y button => mouseCall androidMode screenH x.toInt y.toInt button.state
  | .key down code => if down then .keyDown (km code) else .keyUp (km code)

/-- The key code of an event is an index of `km`. -/
def InKeymap : InputEvent → Prop
  | .mouse _ _ _ => True
  | .key _ code => code < 250

instance : DecidablePred InKeymap := fun event =>
  match event with
  | .mouse _ _ _ => isTrue trivial
  | .key _ code => inferInstanceAs (Decidable (code < 250))

/-! ## The fields of a message -/

def numeralWord (n : ℕ) : Word := ⟨decimal n, (numeral_decimal n).token⟩

theorem token_signedDecimal (n : ℤ) : Token (signedDecimal n) := by
  have htoken := (numeral_decimal n.natAbs).token
  unfold signedDecimal
  split
  · refine ⟨by simp, ?_⟩
    intro b hb
    rcases List.mem_cons.mp hb with rfl | hb
    · decide
    · exact htoken.clean b hb
  · exact htoken

def signedWord (n : ℤ) : Word := ⟨signedDecimal n, token_signedDecimal n⟩

theorem atoi_signedWord (n : Int32) : atoi (signedWord n.toInt).text = n.toInt :=
  atoi_signedDecimal (by have := n.le_toInt; omega) (by have := n.toInt_lt; omega)

theorem atoi_numeralWord {n : ℕ} (h : n < 2 ^ 31) : atoi (numeralWord n).text = n := by
  rw [numeralWord, atoi_numeral (numeral_decimal n), Nat.min_eq_left (by omega),
    Int.bmod_eq_of_le (by omega) (by omega)]

/-- A number that ends in a newline, whatever follows. -/
theorem atoi_line {n : ℕ} (h : n < 2 ^ 31) (junk : Bytes) :
    atoi (decimal n ++ newline :: junk) = n := by
  have hstop : (newline :: junk).takeWhile isDigit = [] := by
    simp [newline, isDigit]
  rw [atoi_numeral_append (numeral_decimal n), hstop, List.append_nil,
    (numeral_decimal n).value_eq, Nat.min_eq_left (by omega), Int.bmod_eq_of_le (by omega)
    (by omega)]

theorem nextNumber_between (front rest : Bytes) (word : Word) :
    nextNumber (.between front (word.text ++ space :: rest)) =
      .ok (atoi word.text, .between (front ++ word.text ++ [nul]) rest) := by
  rw [nextNumber, number_between]
  rfl

theorem nextNumber_terminated (front rest : Bytes) (word : Word) :
    nextNumber (.between front (word.text ++ nul :: rest)) =
      .ok (atoi word.text, ⟨front ++ (word.text ++ nul :: rest),
        front.length + word.text.length⟩) := by
  rw [nextNumber, number_terminated]
  rfl

/-- The last number of a key message is cut off by the first delimiter or terminator
among the old bytes. -/
theorem nextNumber_line (front rest : Bytes) {n : ℕ} (hn : n < 2 ^ 31) (hrest : Ended rest) :
    ∃ t, nextNumber (.between front (decimal n ++ newline :: rest)) = .ok ((n : ℤ), t) := by
  obtain ⟨junk, d, after, rfl, hd, -, hclean⟩ := exists_end_of_token hrest
  let line : Word := ⟨decimal n ++ newline :: junk, by
    refine ⟨by simp, fun b hb => ?_⟩
    rcases List.mem_append.mp hb with hb | hb
    · exact (numeral_decimal n).token.clean b hb
    · rcases List.mem_cons.mp hb with rfl | hb
      · decide
      · exact hclean b hb⟩
  have hsplit : decimal n ++ newline :: (junk ++ d :: after) = line.text ++ d :: after := by
    simp [line]
  have hvalue : atoi line.text = n := atoi_line hn junk
  rw [hsplit, ← hvalue]
  rcases hd with rfl | rfl
  · exact ⟨_, nextNumber_between front after line⟩
  · exact ⟨_, nextNumber_terminated front after line⟩

/-! ## One message, any old bytes -/

section

variable (androidMode : Bool) (screenH : ℤ)

/-- A mouse message ends before the old bytes begin. -/
theorem parseEvent_mouse (x y : Int32) (button : Button) (rest : Bytes) :
    ∃ buf, parseEvent androidMode screenH ((InputEvent.mouse x y button).message ++ rest) =
      .ok ([mouseCall androidMode screenH x.toInt y.toInt button.state], buf) := by
  have hstart : (⟨(InputEvent.mouse x y button).message ++ rest, 0⟩ : Tokenizer) =
      .between [] ((numeralWord 0).text ++ space :: ((signedWord x.toInt).text ++ space ::
        ((signedWord y.toInt).text ++ space :: ((numeralWord button.state).text ++ space ::
          (newline :: rest))))) := by
    simp [InputEvent.message, relay, InputEvent.data, Tokenizer.between, numeralWord, signedWord]
  have hstate : atoi (numeralWord button.state).text = button.state := by
    apply atoi_numeralWord
    cases button <;> decide
  have htype : atoi (numeralWord 0).text = 0 := atoi_numeralWord (by decide)
  apply Exists.intro
  simp only [parseEvent, hstart, nextNumber_between, bind, Except.bind, htype, if_true, hstate,
    atoi_signedWord]
  rfl

/-- A key message is parsed up to its last field. -/
theorem parseEvent_key (down : Bool) (code : ℕ) (rest : Bytes) :
    ∃ front, parseEvent androidMode screenH ((InputEvent.key down code).message ++ rest) =
      (nextNumber (.between front (decimal code ++ newline :: rest))).bind fun (keycode, t) =>
        if 0 ≤ keycode ∧ keycode < 250 then
          .ok ([if down then .keyDown (km keycode.toNat) else .keyUp (km keycode.toNat)], t.buffer)
        else .error .keymap := by
  let state : ℕ := if down then 1 else 0
  have hstart : (⟨(InputEvent.key down code).message ++ rest, 0⟩ : Tokenizer) =
      .between [] ((numeralWord 1).text ++ space :: ((numeralWord state).text ++ space ::
        (decimal code ++ newline :: rest))) := by
    simp [InputEvent.message, relay, InputEvent.data, Tokenizer.between, numeralWord, state]
  have hstate : atoi (numeralWord state).text = state := by
    apply atoi_numeralWord
    cases down <;> decide
  have htype : atoi (numeralWord 1).text = 1 := atoi_numeralWord (by decide)
  refine ⟨[] ++ (numeralWord 1).text ++ [nul] ++ (numeralWord state).text ++ [nul], ?_⟩
  simp only [parseEvent, hstart, nextNumber_between, bind, Except.bind, htype, one_ne_zero,
    if_false, if_true, hstate]
  cases down <;> rfl

/-- Both kinds of messages, with a NUL among the old bytes. -/
theorem threadSdl_message {event : InputEvent} (hkey : InKeymap event) {rest : Bytes}
    (hrest : nul ∈ rest) :
    ∃ buf, threadSdl androidMode screenH (event.message ++ rest) =
      .ok ([inputCall androidMode screenH event], buf) := by
  rw [threadSdl_of_mem (List.mem_append_right _ hrest)]
  cases event with
  | mouse x y button => exact parseEvent_mouse androidMode screenH x y button rest
  | key down code =>
      have hcode : code < 250 := hkey
      have hrange : (0 : ℤ) ≤ code ∧ (code : ℤ) < 250 := by omega
      have hended : Ended rest := ⟨nul, hrest, Or.inr rfl⟩
      obtain ⟨front, hparse⟩ := parseEvent_key androidMode screenH down code rest
      obtain ⟨t, hlast⟩ := nextNumber_line front rest (by omega : code < 2 ^ 31) hended
      refine ⟨t.buffer, ?_⟩
      simp only [hparse, hlast, Except.bind, if_pos hrange, Int.toNat_natCast, inputCall]

end

/-- A message has no NUL of its own. -/
theorem nul_notMem_message (event : InputEvent) : nul ∉ event.message := by
  have hdecimal : ∀ n, nul ∉ decimal n := fun n h => (numeral_decimal n).token.ne_nul nul h rfl
  have hsigned : ∀ n, nul ∉ signedDecimal n := fun n h => (token_signedDecimal n).ne_nul nul h rfl
  have hspace : nul ≠ space := by decide
  have hnewline : nul ≠ newline := by decide
  cases event with
  | mouse x y button =>
      simp [InputEvent.message, relay, InputEvent.data, hdecimal, hsigned, hspace, hnewline]
  | key down code =>
      simp [InputEvent.message, relay, InputEvent.data, hdecimal, hspace, hnewline]

/-- **One event.**  Of a message that arrives in one read, the thread makes exactly the
call it stands for, if and only if the old bytes behind it hold a NUL. -/
theorem event_codec_iff (event : InputEvent) (hkey : InKeymap event) (screenH : ℤ) (stale : Bytes)
    (hlength : event.message.length ≤ 100) :
    (∃ buf, threadSdl false screenH (readInto 100 stale event.message) =
        .ok ([inputCall false screenH event], buf)) ↔
      nul ∈ stale.drop event.message.length := by
  rw [readInto_of_le stale hlength]
  refine ⟨?_, fun hrest => threadSdl_message false screenH hkey hrest⟩
  rintro ⟨buf, hok⟩
  by_contra hrest
  have hnone : nul ∉ event.message ++ stale.drop event.message.length :=
    fun h => (List.mem_append.mp h).elim (nul_notMem_message event) hrest
  rw [threadSdl_of_notMem hnone] at hok
  cases hok

/-- Key 65 goes down, in a buffer of zeros. -/
theorem event_codec_key_down :
    ∃ buf, threadSdl false 720 (readInto 100 (List.replicate 100 nul)
      (InputEvent.key true 65).message) = .ok ([.keyDown 30], buf) :=
  (event_codec_iff (.key true 65) (by decide) 720 (List.replicate 100 nul) (by decide)).mpr
    (by decide)

/-- The same key, in a buffer with neither space nor NUL: `printf` runs past the end of the
buffer, and so would `strtok` behind it. -/
theorem old_bytes_without_end :
    let buf := readInto 100 (List.replicate 100 65) (InputEvent.key true 65).message
    threadSdl false 720 buf = .error .print ∧
      parseEvent false 720 buf = .error (.parse .leftBuffer) := by
  decide

end SsmIaas.Qemu
