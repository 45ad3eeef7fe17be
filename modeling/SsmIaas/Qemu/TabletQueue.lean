import SsmIaas.Lib.RingQueue
import SsmIaas.Lib.Run
import SsmIaas.Lib.CString
import Mathlib.Data.BitVec

/-!
# The event queue of the USB tablet

`command.sh` starts every guest with `-usbdevice tablet`, so what the page sends as mouse
events ends in `hid.c`: `hid_pointer_event ()` collects buttons, position and wheel in the
cell behind the queue, `hid_pointer_sync ()` makes that cell part of the queue or merges it
into the last one, and `hid_pointer_poll ()` hands the first cell to the guest.  The queue
is an array of 16 cells, of which 15 can be waiting.

The ring is compared with a queue that is a list (`PointerQueue`), and what the guest gets
to see is then read off from the list: no change of the buttons is lost, invented or
moved as long as the queue has room, and no step of the wheel ever is, except that the
cells count the steps in 32 bits.
-/

namespace SsmIaas.Qemu

open Lib

/-- `HIDPointerEvent`. -/
structure HIDPointerEvent where
  xdx : Int32
  ydy : Int32
  dz : Int32
  buttonsState : BitVec 32
  deriving DecidableEq, Repr

/-- `INPUT_AXIS_X` and `INPUT_AXIS_Y`. -/
inductive InputAxis
  | x
  | y
  deriving DecidableEq, Repr

inductive InputButton
  | left
  | middle
  | right
  | wheelUp
  | wheelDown
  deriving DecidableEq, Repr

/-- The kinds of `InputEvent` that `hid_pointer_event ()` tells apart; `value` has 64 bits. -/
inductive PointerEvent
  | rel (axis : InputAxis) (value : ℤ)
  | abs (axis : InputAxis) (value : ℤ)
  | btn (button : InputButton) (down : Bool)
  deriving DecidableEq, Repr

/-- `bmap` of `hid_pointer_event ()`; the wheel has no bits. -/
def hidBit : InputButton → BitVec 32
  | .left => 0x01
  | .right => 0x02
  | .middle => 0x04
  | .wheelUp => 0
  | .wheelDown => 0

/-- What pressing a button does to `dz`. -/
def wheelStep : InputButton → ℤ
  | .wheelUp => -1
  | .wheelDown => 1
  | _ => 0

/-- The `switch` of `hid_pointer_event ()`, on the cell it changes. -/
def HIDPointerEvent.apply (e : HIDPointerEvent) : PointerEvent → HIDPointerEvent
  | .rel .x value => { e with xdx := e.xdx + .ofInt value }
  | .rel .y value => { e with ydy := e.ydy + .ofInt value }
  | .abs .x value => { e with xdx := .ofInt value }
  | .abs .y value => { e with ydy := .ofInt value }
  | .btn button true =>
      { e with
        buttonsState := e.buttonsState ||| hidBit button
        dz := e.dz + .ofInt (wheelStep button) }
  | .btn button false => { e with buttonsState := e.buttonsState &&& ~~~ hidBit button }

/-- The tablet's part of `HIDState`.  `head` and `n` are kept below 16 by the code. -/
structure HIDState where
  queue : ℕ → HIDPointerEvent
  head : ℕ
  n : ℕ

/-- `QUEUE_LENGTH`. -/
def queueLength : ℕ := 16

/-- What `memset ()` leaves in a cell. -/
def blank : HIDPointerEvent := ⟨0, 0, 0, 0⟩

/-- `hid_reset ()`. -/
def hidReset : HIDState := ⟨fun _ => blank, 0, 0⟩

/-- `hid_pointer_event ()`, behind its assertion. -/
def hidPointerEvent (hs : HIDState) (evt : PointerEvent) : HIDState :=
  let current := (hs.head + hs.n) % queueLength
  { hs with queue := Function.update hs.queue current ((hs.queue current).apply evt) }

/-- The event that `current` is merged into. -/
def HIDPointerEvent.merge (prev current : HIDPointerEvent) : HIDPointerEvent :=
  { prev with xdx := current.xdx, ydy := current.ydy, dz := prev.dz + current.dz }

/-- `hid_pointer_sync ()` of a tablet. -/
def hidPointerSync (hs : HIDState) : HIDState :=
  if hs.n = queueLength - 1 then hs
  else
    let prev := (hs.head + hs.n + (queueLength - 1)) % queueLength
    let curr := (hs.head + hs.n) % queueLength
    let next := (hs.head + hs.n + 1) % queueLength
    let current := hs.queue curr
    if 0 < hs.n ∧ current.buttonsState = (hs.queue prev).buttonsState then
      { hs with
        queue := Function.update (Function.update hs.queue prev ((hs.queue prev).merge current))
          curr { current with dz := 0 } }
    else
      { hs with
        queue := Function.update hs.queue next { current with dz := 0 }
        n := hs.n + 1 }

/-- `int_clamp ()`. -/
def intClamp (value low high : ℤ) : ℤ :=
  if value < low then low else if value > high then high else value

/-- What a poll reports, before it is cut into bytes. -/
structure TabletReport where
  buttons : BitVec 32
  x : ℤ
  y : ℤ
  dz : ℤ
  deriving DecidableEq, Repr

/-- The report of a cell, and what is left of the cell: at most 127 steps of the wheel go
into one report, with their direction turned. -/
def HIDPointerEvent.report (e : HIDPointerEvent) : TabletReport × HIDPointerEvent :=
  let dz := intClamp e.dz.toInt (-127) 127
  (⟨e.buttonsState, e.xdx.toInt, e.ydy.toInt, 0 - dz⟩, { e with dz := e.dz - .ofInt dz })

/-- The bytes of a report of a tablet, as far as there is room for them. -/
def TabletReport.bytes (r : TabletReport) (len : ℕ) : Bytes :=
  [UInt8.ofInt r.buttons.toInt, UInt8.ofInt r.x, UInt8.ofInt (r.x / 256), UInt8.ofInt r.y,
    UInt8.ofInt (r.y / 256), UInt8.ofInt r.dz].take len

/-- How the guest reads a report, by `qemu_tablet_hid_report_descriptor`: buttons, two
unsigned numbers of 16 bits, lower byte first, and the wheel as a signed byte. -/
def TabletReport.ofBytes : Bytes → Option TabletReport
  | [b, x0, x1, y0, y1, z] =>
      some ⟨.ofNat 32 b.toNat, x0.toNat + 256 * x1.toNat, y0.toNat + 256 * y1.toNat,
        (z.toNat : ℤ).bmod 256⟩
  | _ => none

/-- `hid_pointer_poll ()` of a tablet. -/
def hidPointerPoll (hs : HIDState) : TabletReport × HIDState :=
  let index := (if hs.n = 0 then hs.head + (queueLength - 1) else hs.head) % queueLength
  let (report, rest) := (hs.queue index).report
  let queue := Function.update hs.queue index rest
  if hs.n ≠ 0 ∧ rest.dz = 0 then (report, ⟨queue, (hs.head + 1) % queueLength, hs.n - 1⟩)
  else (report, { hs with queue := queue })

/-! ## Reports as bytes -/

/-- A report that fits the fields of the descriptor. -/
structure TabletReport.Fits (r : TabletReport) : Prop where
  buttons : r.buttons.toNat < 256
  x : 0 ≤ r.x ∧ r.x < 0x8000
  y : 0 ≤ r.y ∧ r.y < 0x8000
  dz : -127 ≤ r.dz ∧ r.dz ≤ 127

theorem toNat_ofInt (n : ℤ) : ((UInt8.ofInt n).toNat : ℤ) = n % 256 := by
  have hnonneg := Int.emod_nonneg n (show (256 : ℤ) ≠ 0 by decide)
  have hmax : max (n % 256) 0 = n % 256 := max_eq_left hnonneg
  simp [UInt8.ofInt, hmax]

/-- The guest reads from the bytes what the device put there. -/
theorem TabletReport.Fits.ofBytes_bytes {r : TabletReport} (h : r.Fits) {len : ℕ} (hlen : 6 ≤ len) :
    TabletReport.ofBytes (r.bytes len) = some r := by
  obtain ⟨buttons, x, y, dz⟩ := r
  obtain ⟨hbuttons, hx, hy, hdz⟩ := h
  dsimp only at hbuttons hx hy hdz
  have hb : BitVec.ofNat 32 (UInt8.ofInt buttons.toInt).toNat = buttons := by
    have hint : buttons.toInt = buttons.toNat := by
      rw [BitVec.toInt_eq_toNat_of_lt (by omega)]
    have hbyte := toNat_ofInt buttons.toInt
    rw [hint] at hbyte
    have hnat : (UInt8.ofInt buttons.toNat).toNat = buttons.toNat := by omega
    rw [hint, hnat, BitVec.ofNat_toNat, BitVec.setWidth_eq]
  have hz : (dz % 256).bmod 256 = dz := by
    rw [show (256 : ℤ) = (256 : ℕ) from rfl, Int.emod_bmod, Int.bmod_eq_of_le (by omega) (by omega)]
  have htake : TabletReport.bytes ⟨buttons, x, y, dz⟩ len =
      [UInt8.ofInt buttons.toInt, UInt8.ofInt x, UInt8.ofInt (x / 256), UInt8.ofInt y,
        UInt8.ofInt (y / 256), UInt8.ofInt dz] := List.take_of_length_le hlen
  simp only [htake, TabletReport.ofBytes, hb, toNat_ofInt, hz, Option.some.injEq,
    TabletReport.mk.injEq, true_and, and_true]
  omega

/-! ## The queue as a list -/

/-- The same device with the waiting events in a list.  `last` is what the guest was
handed last. -/
structure PointerQueue where
  pending : List HIDPointerEvent
  current : HIDPointerEvent
  last : HIDPointerEvent

def freshQueue : PointerQueue := ⟨[], blank, blank⟩

def PointerQueue.push (q : PointerQueue) : PointerQueue :=
  { q with pending := q.pending ++ [q.current], current := { q.current with dz := 0 } }

def PointerQueue.sync (q : PointerQueue) : PointerQueue :=
  if q.pending.length = queueLength - 1 then q
  else
    match q.pending.getLast? with
    | none => q.push
    | some prev =>
        if q.current.buttonsState = prev.buttonsState then
          { q with
            pending := q.pending.dropLast ++ [prev.merge q.current]
            current := { q.current with dz := 0 } }
        else q.push

def PointerQueue.poll (q : PointerQueue) : TabletReport × PointerQueue :=
  match q.pending with
  | [] => (q.last.report.1, { q with last := q.last.report.2 })
  | e :: others =>
      (e.report.1,
        if e.report.2.dz = 0 then { q with pending := others, last := e.report.2 }
        else { q with pending := e.report.2 :: others })

/-- The ring holds the queue.  The cell before the head still has the event that was
handed out last, unless it is the one in use behind a full queue. -/
structure Represents (hs : HIDState) (q : PointerQueue) : Prop where
  bound : hs.n < queueLength
  pending : window hs.queue queueLength hs.head hs.n = q.pending
  current : hs.queue ((hs.head + hs.n) % queueLength) = q.current
  last : hs.n + 1 < queueLength → hs.queue ((hs.head + (queueLength - 1)) % queueLength) = q.last

theorem represents_reset : Represents hidReset freshQueue where
  bound := by decide
  pending := rfl
  current := rfl
  last := fun _ => rfl

theorem Represents.length_eq {hs : HIDState} {q : PointerQueue} (h : Represents hs q) :
    q.pending.length = hs.n := by
  rw [← h.pending, length_window]

/-- Two cells at different distances from the head are different. -/
theorem cell_ne {head i j : ℕ} (hi : i < queueLength) (hj : j < queueLength) (hne : i ≠ j) :
    (head + i) % queueLength ≠ (head + j) % queueLength :=
  fun heq => hne (add_mod_inj hi hj heq)

theorem cell_ne_head (head : ℕ) {i : ℕ} (hi : i < queueLength) (hpos : 0 < i) :
    (head + i) % queueLength ≠ head % queueLength :=
  cell_ne (j := 0) hi (by decide) hpos.ne'

theorem Represents.event {hs : HIDState} {q : PointerQueue} (h : Represents hs q)
    (evt : PointerEvent) :
    Represents (hidPointerEvent hs evt) { q with current := q.current.apply evt } where
  bound := h.bound
  pending := by
    rw [← h.pending]
    exact window_update_of_ge le_rfl h.bound _
  current := by
    simp only [hidPointerEvent, Function.update_self, h.current]
  last := by
    intro hroom
    have hroom' : hs.n + 1 < queueLength := hroom
    simp only [hidPointerEvent]
    rw [Function.update_of_ne (cell_ne (by decide) h.bound (by omega)), h.last hroom']

/-- The cell behind the queue becomes its last event, and the next one starts as a copy. -/
theorem Represents.push {hs : HIDState} {q : PointerQueue} (h : Represents hs q)
    (hroom : hs.n + 1 < queueLength) :
    Represents
      { hs with
        queue := Function.update hs.queue ((hs.head + hs.n + 1) % queueLength)
          { hs.queue ((hs.head + hs.n) % queueLength) with dz := 0 }
        n := hs.n + 1 } q.push where
  bound := hroom
  pending := by
    simp only [Nat.add_assoc hs.head hs.n 1, PointerQueue.push]
    rw [window_update_of_ge le_rfl hroom, window_succ, h.pending, h.current]
  current := by
    simp only [← Nat.add_assoc, Function.update_self, h.current, PointerQueue.push]
  last := by
    intro hroom'
    have hlt : hs.n + 1 + 1 < queueLength := hroom'
    simp only [Nat.add_assoc hs.head hs.n 1, PointerQueue.push]
    rw [Function.update_of_ne (cell_ne (by decide) hroom (by omega)), h.last hroom]

/-- The cell behind the queue is merged into its last event. -/
theorem Represents.merge {hs : HIDState} {q : PointerQueue} (h : Represents hs q)
    (hroom : hs.n + 1 < queueLength) {count : ℕ} (hcount : hs.n = count + 1) :
    ∃ before prev, q.pending = before ++ [prev] ∧
      hs.queue ((hs.head + count) % queueLength) = prev ∧
      Represents
        { hs with
          queue := Function.update
            (Function.update hs.queue ((hs.head + count) % queueLength) (prev.merge q.current))
            ((hs.head + hs.n) % queueLength) { q.current with dz := 0 } }
        { q with pending := before ++ [prev.merge q.current]
                 current := { q.current with dz := 0 } } := by
  have hpending := h.pending
  rw [hcount, window_succ] at hpending
  refine ⟨_, _, hpending.symm, rfl, ?_⟩
  constructor
  · exact h.bound
  · simp only [hcount]
    rw [window_update_of_ge le_rfl (by omega), window_update_last (by omega)]
  · exact Function.update_self ..
  · intro _
    dsimp only
    rw [Function.update_of_ne (cell_ne (by decide) h.bound (by omega)),
      Function.update_of_ne (cell_ne (by decide) (by omega) (by omega)), h.last hroom]

theorem Represents.sync {hs : HIDState} {q : PointerQueue} (h : Represents hs q) :
    Represents (hidPointerSync hs) q.sync := by
  unfold hidPointerSync PointerQueue.sync
  rw [h.length_eq]
  split
  · exact h
  · rename_i hfull
    have hbound := h.bound
    have hroom : hs.n + 1 < queueLength := by
      unfold queueLength at *
      omega
    rcases Nat.eq_zero_or_pos hs.n with hzero | hpos
    · have hnil : q.pending = [] := List.length_eq_zero_iff.mp (h.length_eq.trans hzero)
      simp only [hnil, List.getLast?_nil, hzero, lt_irrefl, false_and, if_false]
      simpa [hzero] using h.push hroom
    · obtain ⟨count, hcount⟩ := Nat.exists_eq_succ_of_ne_zero hpos.ne'
      obtain ⟨before, prev, hpending, hprev, hmerge⟩ := h.merge hroom hcount
      have hplace : (hs.head + hs.n + (queueLength - 1)) % queueLength =
          (hs.head + count) % queueLength := by
        unfold queueLength
        omega
      simp only [hplace, hprev, h.current, hpending, List.getLast?_concat, List.dropLast_concat,
        hpos, true_and]
      split
      · exact hmerge
      · have hpush := h.push hroom
        rw [h.current] at hpush
        exact hpush

/-- The first event was handed out and leaves the queue. -/
theorem Represents.pop {queue : ℕ → HIDPointerEvent} {head count : ℕ} {q : PointerQueue}
    (h : Represents ⟨queue, head, count + 1⟩ q) (rest : HIDPointerEvent) :
    Represents
      ⟨Function.update queue (head % queueLength) rest, (head + 1) % queueLength, count⟩
      { q with pending := window queue queueLength ((head + 1) % queueLength) count
               last := rest } := by
  have hbound : count + 1 < queueLength := h.bound
  have hfirst : window (Function.update queue (head % queueLength) rest) queueLength head
      (count + 1) = _ := window_update_first (Nat.lt_of_succ_lt hbound) rest
  rw [window_cons] at hfirst
  refine ⟨by exact Nat.lt_of_succ_lt hbound, (List.cons.inj hfirst).2, ?_, fun _ => ?_⟩
  · have hplace : ((head + 1) % queueLength + count) % queueLength =
        (head + (count + 1)) % queueLength := by
      rw [Nat.mod_add_mod, Nat.add_assoc, Nat.add_comm 1]
    dsimp only
    rw [hplace, Function.update_of_ne (cell_ne_head head hbound count.succ_pos)]
    exact h.current
  · have hplace : ((head + 1) % queueLength + (queueLength - 1)) % queueLength =
        head % queueLength := by
      unfold queueLength
      omega
    dsimp only
    rw [hplace, Function.update_self]

/-- The first event was handed out in part and stays. -/
theorem Represents.setFirst {queue : ℕ → HIDPointerEvent} {head count : ℕ} {q : PointerQueue}
    (h : Represents ⟨queue, head, count + 1⟩ q) (rest : HIDPointerEvent) :
    Represents ⟨Function.update queue (head % queueLength) rest, head, count + 1⟩
      { q with pending := rest :: window queue queueLength ((head + 1) % queueLength) count } := by
  have hbound : count + 1 < queueLength := h.bound
  refine ⟨h.bound, window_update_first (Nat.lt_of_succ_lt hbound) rest, ?_, fun hroom => ?_⟩
  · dsimp only
    rw [Function.update_of_ne (cell_ne_head head hbound count.succ_pos)]
    exact h.current
  · dsimp only
    rw [Function.update_of_ne (cell_ne_head head (by decide) (by decide))]
    exact h.last hroom

/-- Nothing waits, and the cell before the head is read again. -/
theorem Represents.setLast {queue : ℕ → HIDPointerEvent} {head : ℕ} {q : PointerQueue}
    (h : Represents ⟨queue, head, 0⟩ q) (rest : HIDPointerEvent) :
    Represents
      ⟨Function.update queue ((head + (queueLength - 1)) % queueLength) rest, head, 0⟩
      { q with last := rest } := by
  refine ⟨h.bound, h.pending, ?_, fun _ => Function.update_self ..⟩
  dsimp only
  rw [Nat.add_zero, Function.update_of_ne (cell_ne_head head (by decide) (by decide)).symm]
  exact h.current

theorem Represents.poll {hs : HIDState} {q : PointerQueue} (h : Represents hs q) :
    (hidPointerPoll hs).1 = q.poll.1 ∧ Represents (hidPointerPoll hs).2 q.poll.2 := by
  obtain ⟨queue, head, n⟩ := hs
  have hpending := h.pending
  cases n with
  | zero =>
      have hlast : queue ((head + (queueLength - 1)) % queueLength) = q.last :=
        h.last (show 0 + 1 < queueLength by decide)
      have hnil : q.pending = [] := hpending.symm
      simp only [hidPointerPoll, PointerQueue.poll, hnil, if_true, ne_eq, not_true_eq_false,
        false_and, if_false, hlast, true_and]
      simpa [hnil] using h.setLast q.last.report.2
  | succ count =>
      rw [window_cons] at hpending
      simp only [hidPointerPoll, PointerQueue.poll, ← hpending, Nat.succ_ne_zero, if_false, ne_eq,
        not_false_eq_true, true_and]
      split
      · exact ⟨rfl, h.pop _⟩
      · exact ⟨rfl, h.setFirst _⟩

/-! ## Runs -/

/-- What can happen to the device. -/
inductive TabletOp
  /-- `hid_pointer_event ()` -/
  | event (evt : PointerEvent)
  /-- `hid_pointer_sync ()` -/
  | sync
  /-- `hid_pointer_poll ()`, for a report the guest asks for -/
  | poll
  /-- `hid_reset ()` -/
  | reset
  deriving DecidableEq, Repr

/-- What happened since the last reset. -/
structure TabletLog where
  /-- the reports the guest got -/
  reports : List TabletReport
  /-- the buttons at every sync that found room in the queue -/
  accepted : List (BitVec 32)
  /-- the steps of the wheel that were given to the device -/
  wheel : ℤ
  deriving DecidableEq, Repr

def emptyLog : TabletLog := ⟨[], [], 0⟩

/-- The steps of the wheel in an event. -/
def PointerEvent.wheel : PointerEvent → ℤ
  | .btn button true => wheelStep button
  | _ => 0

/-- How an operation goes into the log, given the number of waiting events, the event
behind them and the report that a poll gives. -/
def TabletLog.note (log : TabletLog) (waiting : ℕ) (current : HIDPointerEvent)
    (report : TabletReport) : TabletOp → TabletLog
  | .event evt => { log with wheel := log.wheel + evt.wheel }
  | .sync =>
      if waiting = queueLength - 1 then log
      else { log with accepted := log.accepted ++ [current.buttonsState] }
  | .poll => { log with reports := log.reports ++ [report] }
  | .reset => emptyLog

structure Tablet where
  device : HIDState
  log : TabletLog

def tabletStep (s : Tablet) (op : TabletOp) : Tablet where
  device :=
    match op with
    | .event evt => hidPointerEvent s.device evt
    | .sync => hidPointerSync s.device
    | .poll => (hidPointerPoll s.device).2
    | .reset => hidReset
  log := s.log.note s.device.n (s.device.queue ((s.device.head + s.device.n) % queueLength))
    (hidPointerPoll s.device).1 op

def freshTablet : Tablet := ⟨hidReset, emptyLog⟩

structure ListTablet where
  queue : PointerQueue
  log : TabletLog

def listStep (s : ListTablet) (op : TabletOp) : ListTablet where
  queue :=
    match op with
    | .event evt => { s.queue with current := s.queue.current.apply evt }
    | .sync => s.queue.sync
    | .poll => s.queue.poll.2
    | .reset => freshQueue
  log := s.log.note s.queue.pending.length s.queue.current s.queue.poll.1 op

def freshList : ListTablet := ⟨freshQueue, emptyLog⟩

/-- The ring holds the queue, and the guest was told the same. -/
structure SameTablet (s : Tablet) (t : ListTablet) : Prop where
  represents : Represents s.device t.queue
  log : s.log = t.log

theorem SameTablet.step {s : Tablet} {t : ListTablet} (h : SameTablet s t) (op : TabletOp) :
    SameTablet (tabletStep s op) (listStep t op) := by
  have hrep := h.represents
  refine ⟨?_, ?_⟩
  · cases op with
    | event evt => exact hrep.event evt
    | sync => exact hrep.sync
    | poll => exact hrep.poll.2
    | reset => exact represents_reset
  · simp only [tabletStep, listStep, h.log, hrep.length_eq, hrep.current, hrep.poll.1]

theorem sameTablet_run (ops : List TabletOp) :
    SameTablet (run tabletStep freshTablet ops) (run listStep freshList ops) :=
  run_related (fun _ _ op h => h.step op) ⟨represents_reset, rfl⟩ ops

/-- **The ring is a queue.**  Whatever is done to the device, the 16 cells hold a queue of
at most 15 events in order, the assertion of `hid_pointer_event ()` holds, and the guest
gets the reports it would get from a list. -/
theorem tablet_refines_list (ops : List TabletOp) :
    let ring := run tabletStep freshTablet ops
    let list := run listStep freshList ops
    ring.device.n < queueLength ∧ ring.log.reports = list.log.reports ∧
      window ring.device.queue queueLength ring.device.head ring.device.n = list.queue.pending := by
  have h := sameTablet_run ops
  exact ⟨h.represents.bound, by rw [h.log], h.represents.pending⟩

/-! ## What the guest gets to see -/

/-- The buttons the guest was told about, and those that wait for it. -/
def ListTablet.buttons (s : ListTablet) : List (BitVec 32) :=
  s.log.reports.map TabletReport.buttons ++ s.queue.pending.map HIDPointerEvent.buttonsState

structure ButtonsInv (s : ListTablet) : Prop where
  changes : changes 0 s.buttons = changes 0 s.log.accepted
  last : s.queue.pending = [] →
    s.queue.last.buttonsState = (s.log.reports.map TabletReport.buttons).getLastD 0

/-- The three things a sync can do: nothing, merge, or make the queue longer. -/
theorem PointerQueue.sync_cases (q : PointerQueue) :
    (q.pending.length = queueLength - 1 ∧ q.sync = q) ∨
    (q.pending.length ≠ queueLength - 1 ∧ ∃ before prev, q.pending = before ++ [prev] ∧
      q.current.buttonsState = prev.buttonsState ∧
      q.sync = { q with pending := before ++ [prev.merge q.current]
                        current := { q.current with dz := 0 } }) ∨
    (q.pending.length ≠ queueLength - 1 ∧ q.sync = q.push) := by
  by_cases hfull : q.pending.length = queueLength - 1
  · exact Or.inl ⟨hfull, by rw [PointerQueue.sync, if_pos hfull]⟩
  · refine Or.inr ?_
    rcases List.eq_nil_or_concat' q.pending with hnil | ⟨before, prev, hpending⟩
    · refine Or.inr ⟨hfull, ?_⟩
      rw [PointerQueue.sync, if_neg hfull, hnil]
      rfl
    · by_cases hsame : q.current.buttonsState = prev.buttonsState
      · refine Or.inl ⟨hfull, before, prev, hpending, hsame, ?_⟩
        rw [PointerQueue.sync, if_neg hfull, hpending]
        simp [hsame]
      · refine Or.inr ⟨hfull, ?_⟩
        rw [PointerQueue.sync, if_neg hfull, hpending]
        simp [hsame]

theorem TabletLog.note_sync {log : TabletLog} {waiting : ℕ} (hroom : waiting ≠ queueLength - 1)
    (current : HIDPointerEvent) (report : TabletReport) :
    log.note waiting current report .sync =
      { log with accepted := log.accepted ++ [current.buttonsState] } := if_neg hroom

theorem ButtonsInv.sync {s : ListTablet} (h : ButtonsInv s) : ButtonsInv (listStep s .sync) := by
  obtain ⟨q, log⟩ := s
  have hchanges := h.changes
  simp only [ListTablet.buttons] at hchanges
  rcases q.sync_cases with
    ⟨hfull, hsync⟩ | ⟨hroom, before, prev, hpending, hsame, hsync⟩ | ⟨hroom, hsync⟩
  · have hkept : listStep ⟨q, log⟩ .sync = ⟨q, log⟩ := by
      simp only [listStep, hsync, TabletLog.note]
      rw [if_pos hfull]
    rwa [hkept]
  · -- the buttons of the last waiting event are accepted once more
    simp only [listStep, hsync, TabletLog.note_sync hroom]
    rw [hpending, List.map_append, ← List.append_assoc, List.map_singleton, ← hsame] at hchanges
    refine ⟨?_, by simp⟩
    have hlast := getLastD_eq_of_changes_eq hchanges
    rw [List.getLastD_concat] at hlast
    simp only [ListTablet.buttons, List.map_append, List.map_singleton, HIDPointerEvent.merge]
    rw [← hsame, ← List.append_assoc, hchanges, hlast, changes_concat_self]
  · simp only [listStep, hsync, TabletLog.note_sync hroom, PointerQueue.push]
    refine ⟨?_, by simp⟩
    simp only [ListTablet.buttons, List.map_append, List.map_singleton]
    rw [← List.append_assoc]
    exact changes_concat_congr hchanges _

theorem ButtonsInv.poll {s : ListTablet} (h : ButtonsInv s) : ButtonsInv (listStep s .poll) := by
  obtain ⟨⟨pending, current, last⟩, log⟩ := s
  have hchanges := h.changes
  simp only [ListTablet.buttons] at hchanges
  cases pending with
  | nil =>
      -- the guest is told again what it was told last
      have hlast : last.buttonsState = (log.reports.map TabletReport.buttons).getLastD 0 :=
        h.last rfl
      rw [List.map_nil, List.append_nil] at hchanges
      simp only [listStep, PointerQueue.poll, TabletLog.note]
      refine ⟨?_, fun _ => ?_⟩
      · simp only [ListTablet.buttons, List.map_append, List.map_singleton, List.map_nil,
          List.append_nil, HIDPointerEvent.report, hlast]
        rw [changes_concat_self, hchanges]
      · simp [HIDPointerEvent.report]
  | cons e others =>
      simp only [listStep, PointerQueue.poll, TabletLog.note]
      split
      · refine ⟨?_, fun _ => by simp [HIDPointerEvent.report]⟩
        simpa [ListTablet.buttons, HIDPointerEvent.report] using hchanges
      · refine ⟨?_, by simp⟩
        simp only [ListTablet.buttons, List.map_append, List.map_nil, List.map_cons,
          HIDPointerEvent.report] at hchanges ⊢
        rw [changes_repeat, hchanges]

theorem ButtonsInv.step {s : ListTablet} (h : ButtonsInv s) (op : TabletOp) :
    ButtonsInv (listStep s op) := by
  cases op with
  | event evt => exact ⟨h.changes, h.last⟩
  | sync => exact h.sync
  | poll => exact h.poll
  | reset => exact ⟨rfl, fun _ => rfl⟩

/-- The buttons a guest was told about since the last reset of the tablet, followed by those
that wait in the ring. -/
def Tablet.buttons (s : Tablet) : List (BitVec 32) :=
  s.log.reports.map TabletReport.buttons ++
    (window s.device.queue queueLength s.device.head s.device.n).map HIDPointerEvent.buttonsState

theorem SameTablet.buttons {s : Tablet} {t : ListTablet} (h : SameTablet s t) :
    s.buttons = t.buttons := by
  rw [Tablet.buttons, ListTablet.buttons, h.log, h.represents.pending]

/-- **Buttons.**  In every run the changes of the buttons that the guest sees, now or when
it has emptied the queue, are those of the syncs that found room: none is lost, doubled
or out of order, whatever is merged and however often the guest asks. -/
theorem tablet_buttons_changes (ops : List TabletOp) :
    changes 0 (run tabletStep freshTablet ops).buttons =
      changes 0 (run tabletStep freshTablet ops).log.accepted := by
  have hsame := sameTablet_run ops
  have hinv : ButtonsInv (run listStep freshList ops) :=
    run_invariant ops ⟨rfl, fun _ => rfl⟩ fun _ op h => h.step op
  rw [hsame.buttons, hsame.log]
  exact hinv.changes

/-! ## The wheel -/

theorem wraps_add (a b : Int32) : 2 ^ 32 ∣ (a + b).toInt - (a.toInt + b.toInt) := by
  rw [Int32.toInt_add, Int.bmod]
  omega

theorem wraps_add_ofInt (a : Int32) (n : ℤ) :
    2 ^ 32 ∣ (a + .ofInt n).toInt - (a.toInt + n) := by
  rw [Int32.toInt_add, Int32.toInt_ofInt, Int.bmod, Int.bmod, Int32.size]
  omega

theorem wraps_sub_ofInt (a : Int32) (n : ℤ) :
    2 ^ 32 ∣ (a - .ofInt n).toInt - (a.toInt - n) := by
  rw [Int32.toInt_sub, Int32.toInt_ofInt, Int.bmod, Int.bmod, Int32.size]
  omega

/-- The steps of the wheel in some cells. -/
def wheelSum (cells : List HIDPointerEvent) : ℤ := (cells.map fun e => e.dz.toInt).sum

/-- The steps of the wheel that the device still has to tell the guest about. -/
def ListTablet.owed (s : ListTablet) : ℤ := wheelSum s.queue.pending + s.queue.current.dz.toInt

structure WheelInv (s : ListTablet) : Prop where
  /-- a report turns the direction of the wheel -/
  sum : 2 ^ 32 ∣ s.log.wheel + (s.log.reports.map TabletReport.dz).sum - s.owed
  last : s.queue.last.dz = 0

theorem wheelInv_fresh : WheelInv freshList := ⟨by decide, rfl⟩

theorem apply_dz (e : HIDPointerEvent) (evt : PointerEvent) :
    (e.apply evt).dz = e.dz + .ofInt evt.wheel := by
  rcases evt with ⟨_ | _, value⟩ | ⟨_ | _, value⟩ | ⟨button, _ | _⟩ <;>
    simp [HIDPointerEvent.apply, PointerEvent.wheel]

theorem WheelInv.sync {s : ListTablet} (h : WheelInv s) : WheelInv (listStep s .sync) := by
  obtain ⟨q, log⟩ := s
  have hsum := h.sum
  simp only [ListTablet.owed] at hsum
  rcases q.sync_cases with
    ⟨hfull, hsync⟩ | ⟨hroom, before, prev, hpending, -, hsync⟩ | ⟨hroom, hsync⟩
  · have hkept : listStep ⟨q, log⟩ .sync = ⟨q, log⟩ := by
      simp only [listStep, hsync, TabletLog.note]
      rw [if_pos hfull]
    rwa [hkept]
  · simp only [listStep, hsync, TabletLog.note_sync hroom]
    refine ⟨?_, h.last⟩
    have hwrap := wraps_add prev.dz q.current.dz
    simp only [hpending, ListTablet.owed, wheelSum, HIDPointerEvent.merge, List.map_append,
      List.map_cons, List.map_nil, List.sum_append, List.sum_cons, List.sum_nil,
      Int32.toInt_zero] at hsum ⊢
    omega
  · simp only [listStep, hsync, TabletLog.note_sync hroom]
    refine ⟨?_, h.last⟩
    simp only [ListTablet.owed, wheelSum, PointerQueue.push, List.map_append, List.map_cons,
      List.map_nil, List.sum_append, List.sum_cons, List.sum_nil, Int32.toInt_zero] at hsum ⊢
    omega

theorem WheelInv.poll {s : ListTablet} (h : WheelInv s) : WheelInv (listStep s .poll) := by
  obtain ⟨⟨pending, current, last⟩, log⟩ := s
  have hsum := h.sum
  simp only [ListTablet.owed, wheelSum] at hsum
  cases pending with
  | nil =>
      have hlast : last.dz = 0 := h.last
      have hnone : intClamp last.dz.toInt (-127) 127 = 0 := by rw [hlast]; rfl
      simp only [listStep, PointerQueue.poll, TabletLog.note, HIDPointerEvent.report, hnone]
      refine ⟨?_, by simp [hlast]⟩
      simpa [ListTablet.owed, wheelSum] using hsum
  | cons e others =>
      have hwrap := wraps_sub_ofInt e.dz (intClamp e.dz.toInt (-127) 127)
      simp only [listStep, PointerQueue.poll, TabletLog.note]
      simp only [List.map_cons, List.sum_cons] at hsum
      split
      · rename_i hdone
        refine ⟨?_, hdone⟩
        simp only [HIDPointerEvent.report] at hdone
        rw [hdone, Int32.toInt_zero] at hwrap
        simp only [ListTablet.owed, wheelSum, List.map_append, List.map_cons, List.map_nil,
          List.sum_append, List.sum_cons, List.sum_nil, HIDPointerEvent.report]
        omega
      · refine ⟨?_, h.last⟩
        simp only [ListTablet.owed, wheelSum, List.map_append, List.map_cons, List.map_nil,
          List.sum_append, List.sum_cons, List.sum_nil, HIDPointerEvent.report]
        omega

theorem WheelInv.step {s : ListTablet} (h : WheelInv s) (op : TabletOp) :
    WheelInv (listStep s op) := by
  cases op with
  | event evt =>
      refine ⟨?_, h.last⟩
      have hsum := h.sum
      have hwrap := wraps_add_ofInt s.queue.current.dz evt.wheel
      simp only [listStep, ListTablet.owed, TabletLog.note, apply_dz] at hsum ⊢
      omega
  | sync => exact h.sync
  | poll => exact h.poll
  | reset => exact wheelInv_fresh

/-- **Wheel.**  In every run, every step of the wheel since the last reset was reported to the
guest, or waits in the queue, or in the cell behind it, up to multiples of 2^32: a full queue
loses none. -/
theorem tablet_wheel_conserved (ops : List TabletOp) :
    let s := run tabletStep freshTablet ops
    2 ^ 32 ∣ s.log.wheel + (s.log.reports.map TabletReport.dz).sum -
      (wheelSum (window s.device.queue queueLength s.device.head s.device.n) +
        (s.device.queue ((s.device.head + s.device.n) % queueLength)).dz.toInt) := by
  have hsame := sameTablet_run ops
  have hinv : WheelInv (run listStep freshList ops) :=
    run_invariant ops wheelInv_fresh fun _ op h => h.step op
  have hsum := hinv.sum
  dsimp only
  rwa [hsame.log, hsame.represents.pending, hsame.represents.current]

end SsmIaas.Qemu
