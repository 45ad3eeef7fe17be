import SsmIaas.Lib.Roster
import SsmIaas.Lib.Run
import SsmIaas.WebServer.EventSocket

/-!
# Which QEMU gets the input events

All connections that QEMU makes to the `EventNetServer` of a worker share the variable
`NET_SOCKET_TARGET`.  A new connection overwrites it, and the end or an error of any
connection clears it, also of one that was replaced long ago.  A browser that closes its
page ends the connection in the variable, which stays there.

So the variable is the latest open connection only as long as connections do not overlap:
whenever one of them is lost, no other may be open (`event_target_iff`).
-/

namespace SsmIaas.WebServer

open Lib

/-- A worker of `bin/www`, as far as input events go.  Connections of QEMU are numbered. -/
structure EventRelay where
  /-- `NET_SOCKET_TARGET`; `none` if it is `undefined` or `null` -/
  target : Option ℕ
  /-- ghost: the connections that are open, ended and failed by neither side -/
  sockets : Roster
  /-- what was written, and to which connection -/
  written : List (ℕ × Bytes)
  /-- ghost: the messages for which there was no connection -/
  dropped : List Bytes

inductive RelayEvent
  /-- QEMU connects. -/
  | connect
  /-- A connection has the event `end`. -/
  | ended (i : ℕ)
  /-- A connection has the event `error`. -/
  | failed (i : ℕ)
  /-- A browser sends a message. -/
  | message (data : Bytes)
  /-- A browser closes its WebSocket. -/
  | browserClose
  deriving DecidableEq, Repr

namespace EventRelay

def start : EventRelay := ⟨none, .empty, [], []⟩

/-- The handlers of `end` and `error` of a connection, which are the same. -/
def lose (s : EventRelay) (i : ℕ) : EventRelay :=
  if i < s.sockets.next then { s with target := none, sockets := s.sockets.leave i } else s

def step (s : EventRelay) : RelayEvent → EventRelay
  | .connect => { s with target := some s.sockets.next, sockets := s.sockets.join }
  | .ended i => s.lose i
  | .failed i => s.lose i
  | .message data =>
      match s.target with
      | some i => { s with written := s.written ++ [(i, relay data)] }
      | none => { s with dropped := s.dropped ++ [data] }
  | .browserClose =>
      match s.target with
      -- `NET_SOCKET_TARGET.end ()`
      | some i => { s with sockets := s.sockets.leave i }
      | none => s

/-! ## What should hold, and when it does -/

/-- The target is the open connection that was made last, if there is one. -/
def RightTarget (s : EventRelay) : Prop := ∀ i, s.sockets.Latest i → s.target = some i

/-- A message is dropped only when no connection is open. -/
def DropsNothing (s : EventRelay) (event : RelayEvent) : Prop :=
  (s.step event).dropped ≠ s.dropped → s.sockets.members = ∅

/-- When a connection is lost, no other one is open. -/
def Alone (s : EventRelay) : RelayEvent → Prop
  | .ended i => i < s.sockets.next → ∀ j ∈ s.sockets.members, j = i
  | .failed i => i < s.sockets.next → ∀ j ∈ s.sockets.members, j = i
  | .browserClose => ∀ i, s.target = some i → ∀ j ∈ s.sockets.members, j = i
  | _ => True

variable {s : EventRelay}

@[simp] theorem step_message_target (data : Bytes) :
    (s.step (.message data)).target = s.target := by
  cases htarget : s.target <;> simp [step, htarget]

@[simp] theorem step_message_sockets (data : Bytes) :
    (s.step (.message data)).sockets = s.sockets := by
  cases htarget : s.target <;> simp [step, htarget]

@[simp] theorem lose_dropped (i : ℕ) : (s.lose i).dropped = s.dropped := by
  unfold lose
  split <;> rfl

theorem rightTarget_start : RightTarget start := by
  intro i hlatest
  exact absurd hlatest.1 (by simp [start, Roster.empty])

/-- Without a target, nothing may be open. -/
theorem rightTarget_iff_of_none (htarget : s.target = none) :
    s.RightTarget ↔ s.sockets.members = ∅ := by
  rw [← Roster.forall_not_latest_iff]
  simp [RightTarget, htarget]

theorem rightTarget_lose (hright : s.RightTarget) (i : ℕ) :
    (s.lose i).RightTarget ↔ (i < s.sockets.next → ∀ j ∈ s.sockets.members, j = i) := by
  unfold lose
  split
  · next hi =>
      rw [rightTarget_iff_of_none rfl, Roster.leave_members_eq_empty]
      exact ⟨fun halone _ => halone, fun halone => halone hi⟩
  · next hi => exact ⟨fun _ hlt => absurd hlt hi, fun _ => hright⟩

/-- The connection that is ended is the one in the variable, so it is not the latest any
more. -/
theorem rightTarget_browserClose (hright : s.RightTarget) :
    (s.step .browserClose).RightTarget ↔ s.Alone .browserClose := by
  cases htarget : s.target with
  | none => simpa [step, Alone, htarget] using hright
  | some i =>
      simp only [step, Alone, htarget, Option.some.injEq, forall_eq']
      rw [← Roster.leave_members_eq_empty, ← Roster.forall_not_latest_iff]
      refine forall_congr' fun j => ⟨fun hj hlatest => ?_, fun hnone hlatest => ?_⟩
      · obtain rfl : i = j := Option.some.inj (hj hlatest)
        exact absurd hlatest.1 (by simp)
      · exact absurd hlatest hnone

theorem rightTarget_step_iff (s : EventRelay) (event : RelayEvent) (hright : s.RightTarget) :
    (s.step event).RightTarget ↔ s.Alone event := by
  cases event with
  | connect =>
      refine ⟨fun _ => trivial, fun _ i hlatest => ?_⟩
      exact congrArg some (Roster.latest_join.mp hlatest).symm
  | ended i => exact rightTarget_lose hright i
  | failed i => exact rightTarget_lose hright i
  | message data =>
      refine ⟨fun _ => trivial, fun _ => ?_⟩
      simpa only [RightTarget, step_message_target, step_message_sockets] using hright
  | browserClose => exact rightTarget_browserClose hright

theorem RightTarget.dropsNothing (hright : s.RightTarget) (event : RelayEvent) :
    s.DropsNothing event := by
  intro hdropped
  cases event with
  | message data =>
      cases htarget : s.target with
      | none => exact (rightTarget_iff_of_none htarget).mp hright
      | some i => simp [step, htarget] at hdropped
  | connect => exact absurd rfl hdropped
  | ended i => exact absurd (lose_dropped i) hdropped
  | failed i => exact absurd (lose_dropped i) hdropped
  | browserClose =>
      refine absurd ?_ hdropped
      simp only [step]
      split <;> rfl

/-- **Target.**  The target is always the latest open connection, and messages are dropped
only when none is open, exactly if no connection is lost while another one is open. -/
theorem event_target_iff (events : List RelayEvent) :
    (Everywhere step RightTarget start events ∧ Along step DropsNothing start events) ↔
      Along step Alone start events := by
  rw [← everywhere_iff_along rightTarget_start rightTarget_step_iff]
  refine ⟨fun h => h.1, fun h => ⟨h, ?_⟩⟩
  exact h.along.mono fun s event hright => hright.dropsNothing event

/-- QEMU connects again before its first connection ends, which clears the variable; the
next message is lost. -/
theorem old_connection_clears_target :
    let s := run step start [.connect, .connect, .ended 0]
    s.sockets.Latest 1 ∧ s.target = none ∧ ¬ s.DropsNothing (.message (ascii "0 1 2 1 ")) := by
  refine ⟨by decide, rfl, fun hdrops => ?_⟩
  have hempty := hdrops (by decide)
  exact absurd hempty (by decide)

end EventRelay

end SsmIaas.WebServer
