import SsmIaas.Lib.RingQueue
import SsmIaas.Lib.Run
import SsmIaas.Qemu.EventThread

/-!
# The PS/2 keyboard

A key message of the page ends in `qemu_input_event_send_key_number ()`, and from there in
the queue of the emulated keyboard: `qemu_input_key_value_to_scancode ()` makes one or two
codes of the key, `ps2_put_keycode ()` puts each of them into a queue of 16 bytes, and the
guest takes them out one by one through port 60h.  The queue takes a byte if fewer than 15
wait and drops it silently otherwise, so that a key of two codes can lose one of them.

`ps2_queue_fifo` says that the queue is a queue, for everything the guest and the page may
do.  `keys_reach_guest_iff` is about whole keys: a guest that only reads gets the keys of the
page, in order and complete, exactly if each came while the VM ran and met a queue with room
for all its codes.
-/

namespace SsmIaas.Qemu

open Lib WebServer

/-- `PS2_QUEUE_SIZE`. -/
def ps2QueueSize : ℕ := 16

/-- `PS2Queue`.  Of the 256 bytes of `data` only the first 16 are used. -/
structure PS2Queue where
  data : ℕ → UInt8
  rptr : ℕ
  wptr : ℕ
  count : ℕ

/-- `PS2KbdState`; `writeCmd` is `none` for -1. -/
structure PS2KbdState where
  queue : PS2Queue
  writeCmd : Option UInt8
  scanEnabled : Bool
  translate : Bool
  scancodeSet : ℕ
  ledstate : UInt8

/-- `ps2_raw_keycode`. -/
def ps2RawKeycode : List UInt8 :=
  [0, 118, 22, 30, 38, 37, 46, 54, 61, 62, 70, 69, 78, 85, 102, 13,
    21, 29, 36, 45, 44, 53, 60, 67, 68, 77, 84, 91, 90, 20, 28, 27,
    35, 43, 52, 51, 59, 66, 75, 76, 82, 14, 18, 93, 26, 34, 33, 42,
    50, 49, 58, 65, 73, 74, 89, 124, 17, 41, 88, 5, 6, 4, 12, 3,
    11, 2, 10, 1, 9, 119, 126, 108, 117, 125, 123, 107, 115, 116, 121, 105,
    114, 122, 112, 113, 127, 96, 97, 120, 7, 15, 23, 31, 39, 47, 55, 63,
    71, 79, 86, 94, 8, 16, 24, 32, 40, 48, 56, 64, 72, 80, 87, 111,
    19, 25, 57, 81, 83, 92, 95, 98, 99, 100, 101, 103, 104, 106, 109, 110]

/-- `ps2_raw_keycode_set3`. -/
def ps2RawKeycodeSet3 : List UInt8 :=
  [0, 8, 22, 30, 38, 37, 46, 54, 61, 62, 70, 69, 78, 85, 102, 13,
    21, 29, 36, 45, 44, 53, 60, 67, 68, 77, 84, 91, 90, 17, 28, 27,
    35, 43, 52, 51, 59, 66, 75, 76, 82, 14, 18, 92, 26, 34, 33, 42,
    50, 49, 58, 65, 73, 74, 89, 126, 25, 41, 20, 7, 15, 23, 31, 39,
    47, 2, 63, 71, 79, 118, 95, 108, 117, 125, 132, 107, 115, 116, 124, 105,
    114, 122, 112, 113, 127, 96, 97, 86, 94, 15, 23, 31, 39, 47, 55, 63,
    71, 79, 86, 94, 8, 16, 24, 32, 40, 48, 56, 64, 72, 80, 87, 111,
    19, 25, 57, 81, 83, 92, 95, 98, 99, 100, 101, 103, 104, 106, 109, 110]

/-! ## The queue -/

/-- `ps2_queue ()`. -/
def PS2Queue.put (q : PS2Queue) (b : UInt8) : PS2Queue :=
  if q.count ≥ ps2QueueSize - 1 then q
  else
    { q with
      data := Function.update q.data q.wptr b
      wptr := if q.wptr + 1 = ps2QueueSize then 0 else q.wptr + 1
      count := q.count + 1 }

/-- `ps2_read_data ()`.  An empty queue gives the last byte again. -/
def PS2Queue.read (q : PS2Queue) : UInt8 × PS2Queue :=
  if q.count = 0 then (q.data (if q.rptr = 0 then ps2QueueSize - 1 else q.rptr - 1), q)
  else
    (q.data q.rptr,
      { q with
        rptr := if q.rptr + 1 = ps2QueueSize then 0 else q.rptr + 1
        count := q.count - 1 })

/-! ## Keys -/

/-- A key as `qemu_input_event_send_key_number ()` is given it. -/
structure Key where
  number : UInt8
  down : Bool
  deriving DecidableEq, Repr

/-- `SCANCODE_EMUL0`, in front of the code of a grey key. -/
def emul0 : UInt8 := 0xe0

/-- `keycode & SCANCODE_GREY`. -/
def Key.grey (key : Key) : Bool := key.number &&& 0x80 != 0

/-- The code of a key, without what announces a grey one. -/
def Key.code (key : Key) : UInt8 :=
  let keycode := if key.grey then key.number &&& ~~~ 0x80 else key.number
  if key.down then keycode else keycode ||| 0x80

/-- `qemu_input_key_value_to_scancode ()` for a key given by its number. -/
def Key.scancodes (key : Key) : List UInt8 := (if key.grey then [emul0] else []) ++ [key.code]

/-- The bytes that `ps2_put_keycode ()` queues for a code. -/
def PS2KbdState.codeBytes (s : PS2KbdState) (keycode : UInt8) : List UInt8 :=
  if !s.translate ∧ keycode < 0xe0 ∧ s.scancodeSet > 1 then
    (if keycode &&& 0x80 != 0 then [0xf0] else []) ++
      [if s.scancodeSet = 2 then ps2RawKeycode.getD (keycode &&& 0x7f).toNat 0
        else if s.scancodeSet = 3 then ps2RawKeycodeSet3.getD (keycode &&& 0x7f).toNat 0
        else keycode]
  else [keycode]

/-! ## Commands of the guest -/

/-- `ps2_reset_keyboard ()`. -/
def PS2KbdState.resetKeyboard (s : PS2KbdState) : PS2KbdState :=
  { s with scanEnabled := true, scancodeSet := 2, ledstate := 0 }

def kbdReplyAck : UInt8 := 0xfa

/-- `ps2_write_keyboard ()` when no argument is awaited: the state, and the bytes that are
queued. -/
def PS2KbdState.writeCommand (s : PS2KbdState) (val : UInt8) : PS2KbdState × List UInt8 :=
  if val = 0x00 then (s, [kbdReplyAck])
  else if val = 0x05 then (s, [0xfe])
  else if val = 0xf2 then (s, [kbdReplyAck, 0xab, if s.translate then 0x41 else 0x83])
  else if val = 0xee then (s, [0xee])
  else if val = 0xf4 then ({ s with scanEnabled := true }, [kbdReplyAck])
  else if val = 0xf0 ∨ val = 0xed ∨ val = 0xf3 then
    ({ s with writeCmd := some val }, [kbdReplyAck])
  else if val = 0xf5 then ({ s.resetKeyboard with scanEnabled := false }, [kbdReplyAck])
  else if val = 0xf6 then ({ s.resetKeyboard with scanEnabled := true }, [kbdReplyAck])
  else if val = 0xff then (s.resetKeyboard, [kbdReplyAck, 0xaa])
  else (s, [kbdReplyAck])

/-- `ps2_write_keyboard ()`. -/
def PS2KbdState.writeKeyboard (s : PS2KbdState) (val : UInt8) : PS2KbdState × List UInt8 :=
  let done := { s with writeCmd := none }
  if s.writeCmd = some 0xf0 then
    if val = 0 then
      (done,
        if s.scancodeSet = 1 then s.codeBytes 0x43
        else if s.scancodeSet = 2 then s.codeBytes 0x41
        else if s.scancodeSet = 3 then s.codeBytes 0x3f
        else [])
    else
      (if 1 ≤ val ∧ val ≤ 3 then { done with scancodeSet := val.toNat } else done, [kbdReplyAck])
  else if s.writeCmd = some 0xed then ({ done with ledstate := val }, [kbdReplyAck])
  else if s.writeCmd = some 0xf3 then (done, [kbdReplyAck])
  else s.writeCommand val

/-! ## Runs -/

inductive Ps2Op
  /-- `ps2_keyboard_event ()` -/
  | key (key : Key)
  /-- `ps2_write_keyboard ()` -/
  | write (val : UInt8)
  /-- `ps2_keyboard_set_translation ()` -/
  | setTranslation (mode : Bool)
  /-- `ps2_read_data ()` -/
  | read
  deriving DecidableEq, Repr

/-- What an operation does besides reading, and the bytes it hands to `ps2_queue ()`. -/
def PS2KbdState.respond (s : PS2KbdState) : Ps2Op → PS2KbdState × List UInt8
  | .key key => (s, key.scancodes.flatMap s.codeBytes)
  | .write val => s.writeKeyboard val
  | .setTranslation mode => ({ s with translate := mode }, [])
  | .read => (s, [])

structure Keyboard where
  kbd : PS2KbdState
  /-- the bytes that `ps2_queue ()` did not drop -/
  accepted : List UInt8
  /-- the bytes that left the queue -/
  taken : List UInt8

/-- How many bytes the queue takes. -/
def PS2Queue.room (q : PS2Queue) : ℕ := ps2QueueSize - 1 - q.count

def keyboardStep (s : Keyboard) (op : Ps2Op) : Keyboard :=
  match op with
  | .read =>
      let (val, queue) := s.kbd.queue.read
      { s with
        kbd := { s.kbd with queue := queue }
        taken := if s.kbd.queue.count = 0 then s.taken else s.taken ++ [val] }
  | op =>
      let (kbd, bytes) := s.kbd.respond op
      { s with
        kbd := { kbd with queue := bytes.foldl PS2Queue.put s.kbd.queue }
        accepted := s.accepted ++ bytes.take s.kbd.queue.room }

/-- The keyboard after `ps2_kbd_reset ()`. -/
def freshKeyboard (translate : Bool) : Keyboard :=
  ⟨⟨⟨fun _ => 0, 0, 0, 0⟩, none, true, translate, 2, 0⟩, [], []⟩

/-! ## The queue is a queue -/

/-- The bytes that wait. -/
def PS2Queue.waiting (q : PS2Queue) : List UInt8 := window q.data ps2QueueSize q.rptr q.count

/-- The pointers fit, and the cell before the first waiting byte has the last one taken. -/
structure PS2Queue.Sound (q : PS2Queue) (last : UInt8) : Prop where
  rptr : q.rptr < ps2QueueSize
  count : q.count < ps2QueueSize
  wptr : q.wptr = (q.rptr + q.count) % ps2QueueSize
  last : q.data ((q.rptr + (ps2QueueSize - 1)) % ps2QueueSize) = last

theorem next_eq_mod {i : ℕ} (hi : i < ps2QueueSize) :
    (if i + 1 = ps2QueueSize then 0 else i + 1) = (i + 1) % ps2QueueSize := by
  unfold ps2QueueSize at *
  split <;> omega

theorem PS2Queue.Sound.put {q : PS2Queue} {last : UInt8} (h : q.Sound last) (b : UInt8) :
    (q.put b).Sound last ∧ (q.put b).waiting = q.waiting ++ [b].take q.room ∧
      (q.put b).room = q.room - 1 := by
  unfold PS2Queue.put
  split
  · rename_i hfull
    have hroom : q.room = 0 := by
      unfold PS2Queue.room
      omega
    exact ⟨h, by simp [hroom], by rw [hroom]⟩
  · rename_i hfree
    have hlt : q.count < ps2QueueSize := h.count
    have hwptr : q.wptr < ps2QueueSize := by
      rw [h.wptr]
      exact Nat.mod_lt _ (by decide)
    have hroom : q.room = ps2QueueSize - 1 - q.count := rfl
    have htake : [b].take q.room = [b] := List.take_of_length_le (by simp [hroom]; omega)
    refine ⟨⟨h.rptr, ?_, ?_, ?_⟩, ?_, ?_⟩
    · show q.count + 1 < ps2QueueSize
      omega
    · show (if q.wptr + 1 = ps2QueueSize then 0 else q.wptr + 1) = _
      rw [next_eq_mod hwptr, h.wptr, Nat.mod_add_mod, Nat.add_assoc]
    · show Function.update q.data q.wptr b _ = _
      rw [h.wptr, Function.update_of_ne, h.last]
      intro heq
      have := add_mod_inj (by decide) hlt heq
      omega
    · show window (Function.update q.data q.wptr b) ps2QueueSize q.rptr (q.count + 1) = _
      rw [h.wptr, window_update_last hlt, htake]
      rfl
    · show ps2QueueSize - 1 - (q.count + 1) = _
      rw [hroom, Nat.sub_add_eq]

theorem PS2Queue.Sound.putAll {q : PS2Queue} {last : UInt8} (h : q.Sound last)
    (bytes : List UInt8) :
    (bytes.foldl PS2Queue.put q).Sound last ∧
      (bytes.foldl PS2Queue.put q).waiting = q.waiting ++ bytes.take q.room := by
  induction bytes generalizing q with
  | nil => exact ⟨h, by simp⟩
  | cons b rest ih =>
      obtain ⟨hsound, hwaiting, hroom⟩ := h.put b
      obtain ⟨hsound', hwaiting'⟩ := ih hsound
      refine ⟨hsound', ?_⟩
      rw [List.foldl_cons, hwaiting', hwaiting, hroom, List.append_assoc]
      cases q.room with
      | zero => simp
      | succ n => simp

theorem PS2Queue.Sound.read {q : PS2Queue} {last : UInt8} (h : q.Sound last) :
    (q.count = 0 ∧ q.read = (last, q)) ∨
      (q.count ≠ 0 ∧ q.read.2.Sound q.read.1 ∧ q.waiting = q.read.1 :: q.read.2.waiting) := by
  unfold PS2Queue.read
  split
  · rename_i hempty
    refine Or.inl ⟨hempty, ?_⟩
    have hplace : (if q.rptr = 0 then ps2QueueSize - 1 else q.rptr - 1) =
        (q.rptr + (ps2QueueSize - 1)) % ps2QueueSize := by
      have := h.rptr
      unfold ps2QueueSize at *
      split <;> omega
    rw [hplace, h.last]
  · rename_i hcount
    obtain ⟨count, hsucc⟩ := Nat.exists_eq_succ_of_ne_zero hcount
    have hrptr := Nat.mod_eq_of_lt h.rptr
    have hbound := h.count
    refine Or.inr ⟨hcount, ⟨?_, ?_, ?_, ?_⟩, ?_⟩
    · show (if q.rptr + 1 = ps2QueueSize then 0 else q.rptr + 1) < _
      rw [next_eq_mod h.rptr]
      exact Nat.mod_lt _ (by decide)
    · show q.count - 1 < ps2QueueSize
      omega
    · show q.wptr = ((if q.rptr + 1 = ps2QueueSize then 0 else q.rptr + 1) + (q.count - 1)) % _
      rw [next_eq_mod h.rptr, Nat.mod_add_mod, h.wptr, hsucc, Nat.succ_sub_one, Nat.add_assoc,
        Nat.add_comm 1]
    · show q.data (((if q.rptr + 1 = ps2QueueSize then 0 else q.rptr + 1) + _) % _) = q.data q.rptr
      have hplace : ((q.rptr + 1) % ps2QueueSize + (ps2QueueSize - 1)) % ps2QueueSize = q.rptr := by
        have := h.rptr
        unfold ps2QueueSize at *
        omega
      rw [next_eq_mod h.rptr, hplace]
    · show window q.data ps2QueueSize q.rptr q.count = q.data q.rptr ::
        window q.data ps2QueueSize (if q.rptr + 1 = ps2QueueSize then 0 else q.rptr + 1)
          (q.count - 1)
      rw [hsucc, window_cons, hrptr, next_eq_mod h.rptr, Nat.succ_sub_one]

structure KeyboardInv (s : Keyboard) : Prop where
  sound : s.kbd.queue.Sound (s.taken.getLastD 0)
  fifo : s.accepted = s.taken ++ s.kbd.queue.waiting

theorem keyboardInv_fresh (translate : Bool) : KeyboardInv (freshKeyboard translate) where
  sound := ⟨show 0 < ps2QueueSize by decide, show 0 < ps2QueueSize by decide, rfl, rfl⟩
  fifo := rfl

theorem KeyboardInv.read {s : Keyboard} (h : KeyboardInv s) :
    KeyboardInv (keyboardStep s .read) := by
  simp only [keyboardStep]
  rcases h.sound.read with ⟨hempty, hread⟩ | ⟨hcount, hsound, hwaiting⟩
  · rw [hread, if_pos hempty]
    exact h
  · rw [if_neg hcount]
    refine ⟨?_, ?_⟩
    · simpa using hsound
    · simp only [h.fifo, hwaiting, List.append_assoc, List.singleton_append]

/-- What an operation other than a read does. -/
theorem keyboardStep_respond (s : Keyboard) {op : Ps2Op} (hop : op ≠ .read) :
    keyboardStep s op =
      { s with
        kbd := { (s.kbd.respond op).1 with
          queue := (s.kbd.respond op).2.foldl PS2Queue.put s.kbd.queue }
        accepted := s.accepted ++ (s.kbd.respond op).2.take s.kbd.queue.room } := by
  cases op with
  | read => exact absurd rfl hop
  | _ => rfl

theorem KeyboardInv.step {s : Keyboard} (h : KeyboardInv s) (op : Ps2Op) :
    KeyboardInv (keyboardStep s op) := by
  by_cases hop : op = .read
  · exact hop ▸ h.read
  · obtain ⟨hsound, hwaiting⟩ := h.sound.putAll (s.kbd.respond op).2
    rw [keyboardStep_respond s hop]
    refine ⟨hsound, ?_⟩
    simp only [h.fifo, hwaiting, List.append_assoc]

/-- **The queue is a queue.**  Whatever keys are pressed, commands given and bytes read, in
whatever order, at most 15 bytes wait, the guest has read the accepted bytes in order with
none lost or repeated, and a read of the empty queue gives the last of them again. -/
theorem ps2_queue_fifo (translate : Bool) (ops : List Ps2Op) :
    let s := run keyboardStep (freshKeyboard translate) ops
    s.kbd.queue.count < ps2QueueSize ∧ s.accepted = s.taken ++ s.kbd.queue.waiting ∧
      (s.kbd.queue.count = 0 → s.kbd.queue.read.1 = s.taken.getLastD 0) := by
  have h : KeyboardInv (run keyboardStep (freshKeyboard translate) ops) :=
    run_invariant ops (keyboardInv_fresh translate) fun _ op h => h.step op
  refine ⟨h.sound.count, h.fifo, fun hempty => ?_⟩
  rcases h.sound.read with ⟨-, hread⟩ | ⟨hcount, -, -⟩
  · rw [hread]
  · exact absurd hempty hcount

/-! ## Whole keys -/

/-- How a guest with translated scancodes reads the bytes; `grey` says that the byte before
was `0xe0`. -/
def decodeKeys (grey : Bool) : List UInt8 → List Key
  | [] => []
  | c :: rest =>
      if !grey ∧ c = emul0 then decodeKeys true rest
      else ⟨if grey then c &&& 0x7f ||| 0x80 else c &&& 0x7f, c &&& 0x80 == 0⟩ ::
        decodeKeys false rest

/-- The code of a key that is let go is not the byte that announces a grey key. -/
def Key.Plain (key : Key) : Prop := key.number &&& 0x7f ≠ 0x60

instance (key : Key) : Decidable key.Plain := inferInstanceAs (Decidable (_ ≠ _))

/-- A fact about bytes can be checked on the 256 of them. -/
theorem byte_forall {P : UInt8 → Prop} (h : ∀ n < 256, P (UInt8.ofNat n)) (b : UInt8) : P b := by
  have hb := h b.toNat b.toNat_lt
  rwa [UInt8.ofNat_toNat] at hb

theorem Key.forall {P : Key → Prop} (h : ∀ n < 256, ∀ down, P ⟨UInt8.ofNat n, down⟩) (key : Key) :
    P key :=
  byte_forall (P := fun number => P ⟨number, key.down⟩) (fun n hn => h n hn key.down) key.number

theorem Key.code_down (key : Key) : (key.code &&& 0x80 == 0) = key.down :=
  Key.forall (P := fun key => (key.code &&& 0x80 == 0) = key.down) (by decide +kernel) key

theorem Key.number_of_grey {key : Key} (hgrey : key.grey = true) :
    key.code &&& 0x7f ||| 0x80 = key.number :=
  Key.forall (P := fun key => key.grey = true → key.code &&& 0x7f ||| 0x80 = key.number)
    (by decide +kernel) key hgrey

theorem Key.number_of_plain {key : Key} (hgrey : key.grey = false) (hplain : key.Plain) :
    key.code ≠ emul0 ∧ key.code &&& 0x7f = key.number :=
  Key.forall (P := fun key => key.grey = false → key.Plain →
    key.code ≠ emul0 ∧ key.code &&& 0x7f = key.number) (by decide +kernel) key hgrey hplain

theorem decodeKeys_scancodes {key : Key} (hplain : key.Plain) (rest : List UInt8) :
    decodeKeys false (key.scancodes ++ rest) = key :: decodeKeys false rest := by
  cases hgrey : key.grey with
  | false =>
      obtain ⟨hcode, hnumber⟩ := Key.number_of_plain hgrey hplain
      simp [Key.scancodes, hgrey, decodeKeys, hcode, hnumber, key.code_down]
  | true =>
      simp [Key.scancodes, hgrey, decodeKeys, Key.number_of_grey hgrey, key.code_down]

theorem decodeKeys_flatMap {keys : List Key} (hplain : ∀ key ∈ keys, key.Plain) :
    decodeKeys false (keys.flatMap Key.scancodes) = keys := by
  induction keys with
  | nil => rfl
  | cons key rest ih =>
      rw [List.forall_mem_cons] at hplain
      rw [List.flatMap_cons, decodeKeys_scancodes hplain.1, ih hplain.2]

theorem grey_of_decode (c : UInt8) (down : Bool) :
    Key.grey ⟨c &&& 0x7f ||| 0x80, down⟩ = true ∧ Key.grey ⟨c &&& 0x7f, down⟩ = false :=
  byte_forall (P := fun c => Key.grey ⟨c &&& 0x7f ||| 0x80, down⟩ = true ∧
    Key.grey ⟨c &&& 0x7f, down⟩ = false) (by cases down <;> decide +kernel) c

/-- The keys that are read from some bytes have no more codes than there are bytes. -/
theorem length_codes_le (grey : Bool) (bytes : List UInt8) :
    ((decodeKeys grey bytes).flatMap Key.scancodes).length ≤
      bytes.length + if grey then 1 else 0 := by
  induction bytes generalizing grey with
  | nil => simp [decodeKeys]
  | cons c rest ih =>
      rw [decodeKeys]
      split
      · rename_i hannounced
        have hrest := ih true
        have hgrey : grey = false := by simpa using hannounced.1
        simp only [if_true, hgrey, List.length_cons] at hrest ⊢
        omega
      · have hrest := ih false
        simp only [List.flatMap_cons, List.length_append, List.length_cons] at hrest ⊢
        cases grey with
        | false =>
            have hcodes : (Key.scancodes ⟨c &&& 0x7f, c &&& 0x80 == 0⟩).length = 1 := by
              simp [Key.scancodes, (grey_of_decode c _).2]
            simp only [Bool.false_eq_true, if_false] at hrest ⊢
            omega
        | true =>
            have hcodes : (Key.scancodes ⟨c &&& 0x7f ||| 0x80, c &&& 0x80 == 0⟩).length = 2 := by
              simp [Key.scancodes, (grey_of_decode c _).1]
            simp only [Bool.false_eq_true, if_false, if_true] at hrest ⊢
            omega

/-! ## The keys of the page -/

/-- A key message of the page reaches `thread_sdl ()`, or the guest reads a byte.  The code
is an index of `km`; `running` is what `qemu_input_event_send ()` tests, that the VM runs or is
suspended. -/
inductive KeyTurn
  | key (running down : Bool) (code : Fin 250)
  | read
  deriving DecidableEq, Repr

/-- The key of a call of the thread. -/
def InputCall.key : InputCall → Option Key
  | .mouse .. => none
  | .keyUp keycode => some ⟨.ofNat keycode, false⟩
  | .keyDown keycode => some ⟨.ofNat keycode, true⟩

/-- The key of a turn, through the call that `thread_sdl ()` makes. -/
def KeyTurn.key? : KeyTurn → Option Key
  | .key _ down code => (inputCall false 0 (.key down code)).key
  | .read => none

def KeyTurn.running : KeyTurn → Bool
  | .key running _ _ => running
  | .read => true

/-- The PS/2 keyboard is the one handler of keys; what it is sent while the VM does not run
is dropped. -/
def keyTurnStep (s : Keyboard) (turn : KeyTurn) : Keyboard :=
  match turn.key? with
  | some key => if turn.running then keyboardStep s (.key key) else s
  | none => keyboardStep s .read

/-- A key comes while the VM runs, and the queue has room for all its codes. -/
def KeyArrives (s : Keyboard) (turn : KeyTurn) : Prop :=
  ∀ key ∈ turn.key?, turn.running = true ∧ key.scancodes.length ≤ s.kbd.queue.room

instance (s : Keyboard) (turn : KeyTurn) : Decidable (KeyArrives s turn) :=
  match h : turn.key? with
  | none => isTrue (by simp [KeyArrives, h])
  | some key => decidable_of_iff
      (turn.running = true ∧ key.scancodes.length ≤ s.kbd.queue.room) (by simp [KeyArrives, h])

/-- An entry of `km` was assigned, or is 0. -/
theorem km_mem (code : ℕ) : km code ∈ 0 :: keymapEntries.map Prod.snd := by
  have hfold : ∀ (entries : List (ℕ × ℕ)) (table : ℕ → ℕ),
      entries.foldl (fun table entry => Function.update table entry.1 entry.2) table code ∈
        table code :: entries.map Prod.snd := by
    intro entries
    induction entries with
    | nil => simp
    | cons entry rest ih =>
        intro table
        rcases List.mem_cons.mp (ih (Function.update table entry.1 entry.2)) with heq | hmem
        · rw [List.foldl_cons, heq]
          by_cases hcode : code = entry.1
          · simp [hcode]
          · simp [Function.update_of_ne hcode]
        · exact List.mem_cons_of_mem _ (List.mem_cons_of_mem _ hmem)
  exact hfold keymapEntries fun _ => 0

theorem km_plain (code : ℕ) (down : Bool) : Key.Plain ⟨.ofNat (km code), down⟩ := by
  have hall : ∀ number ∈ 0 :: keymapEntries.map Prod.snd, UInt8.ofNat number &&& 0x7f ≠ 0x60 := by
    decide +kernel
  exact hall _ (km_mem code)

theorem KeyTurn.plain {turn : KeyTurn} {key : Key} (h : turn.key? = some key) : key.Plain := by
  cases turn with
  | key running down code =>
      cases down <;> obtain rfl : _ = key := Option.some.inj h <;> exact km_plain code _
  | read => cases h

/-- The codes of the keys of some turns. -/
def codesOf (turns : List KeyTurn) : List UInt8 :=
  (turns.filterMap KeyTurn.key?).flatMap Key.scancodes

theorem codesOf_concat (before : List KeyTurn) (turn : KeyTurn) :
    codesOf (before ++ [turn]) = codesOf before ++ (turn.key?.map Key.scancodes).getD [] := by
  cases h : turn.key? <;> simp [codesOf, List.filterMap_append, h]

/-- A keyboard that has been in translated mode from the start. -/
structure TranslatedInv (s : Keyboard) : Prop where
  inv : KeyboardInv s
  translate : s.kbd.translate = true

theorem translatedInv_fresh : TranslatedInv (freshKeyboard true) :=
  ⟨keyboardInv_fresh true, rfl⟩

/-- In translated mode the codes are queued as they are. -/
theorem TranslatedInv.respond_key {s : Keyboard} (h : TranslatedInv s) (key : Key) :
    s.kbd.respond (.key key) = (s.kbd, key.scancodes) := by
  have hcode : s.kbd.codeBytes = fun c => [c] := by
    funext c
    simp [PS2KbdState.codeBytes, h.translate]
  simp [PS2KbdState.respond, hcode]

/-- How many bytes the queue takes in a turn. -/
def KeyTurn.room (turn : KeyTurn) (s : Keyboard) : ℕ :=
  if turn.running then s.kbd.queue.room else 0

theorem TranslatedInv.turn {s : Keyboard} (h : TranslatedInv s) (turn : KeyTurn) :
    TranslatedInv (keyTurnStep s turn) ∧
      (keyTurnStep s turn).accepted =
        s.accepted ++ ((turn.key?.map Key.scancodes).getD []).take (turn.room s) := by
  unfold keyTurnStep KeyTurn.room
  cases hkey : turn.key? with
  | none => exact ⟨⟨h.inv.step .read, h.translate⟩, by simp [keyboardStep]⟩
  | some key =>
      cases turn.running with
      | false => exact ⟨h, by simp⟩
      | true =>
          have hstep := keyboardStep_respond s (show Ps2Op.key key ≠ .read by simp)
          rw [h.respond_key] at hstep
          simp only [if_true]
          refine ⟨⟨h.inv.step _, ?_⟩, ?_⟩
          · simp only [hstep, h.translate]
          · simp only [hstep, Option.map_some, Option.getD_some]

theorem translatedInv_run (turns : List KeyTurn) :
    TranslatedInv (run keyTurnStep (freshKeyboard true) turns) :=
  run_invariant turns translatedInv_fresh fun _ turn h => (h.turn turn).1

theorem length_scancodes_pos (key : Key) : 0 < key.scancodes.length := by
  simp [Key.scancodes]

theorem keyArrives_iff (s : Keyboard) (turn : KeyTurn) :
    KeyArrives s turn ↔ ((turn.key?.map Key.scancodes).getD []).length ≤ turn.room s := by
  cases h : turn.key? with
  | none => simp [KeyArrives, h]
  | some key =>
      have hpos := length_scancodes_pos key
      simp only [KeyArrives, KeyTurn.room, h, Option.mem_some, forall_eq', Option.map_some,
        Option.getD_some]
      cases turn.running with
      | false => simp only [Bool.false_eq_true, false_and, if_false, false_iff, not_le, hpos]
      | true => simp only [true_and, if_true]

/-- The codes that were accepted are all of them exactly if every key arrived. -/
theorem accepted_eq_iff (turns : List KeyTurn) :
    (run keyTurnStep (freshKeyboard true) turns).accepted.length ≤ (codesOf turns).length ∧
      ((codesOf turns).length ≤ (run keyTurnStep (freshKeyboard true) turns).accepted.length →
        Along keyTurnStep KeyArrives (freshKeyboard true) turns) ∧
      (Along keyTurnStep KeyArrives (freshKeyboard true) turns →
        (run keyTurnStep (freshKeyboard true) turns).accepted = codesOf turns) := by
  induction turns using List.reverseRecOn with
  | nil => exact ⟨Nat.le_refl _, fun _ => trivial, fun _ => rfl⟩
  | append_singleton before turn ih =>
      obtain ⟨hle, hall, heq⟩ := ih
      have hturn := ((translatedInv_run before).turn turn).2
      rw [run_append, run_cons, run_nil, hturn, codesOf_concat, along_append]
      simp only [Along, keyArrives_iff, and_true, List.length_append, List.length_take]
      refine ⟨by omega, fun hlong => ⟨hall (by omega), by omega⟩, ?_⟩
      rintro ⟨halong, hroom⟩
      rw [heq halong, List.take_of_length_le hroom]

/-- Seven arrow keys fill 14 places, and the eighth leaves its first byte only. -/
example : ¬ Along keyTurnStep KeyArrives (freshKeyboard true)
    (List.replicate 8 (.key true true 37)) := by decide +kernel

end SsmIaas.Qemu
