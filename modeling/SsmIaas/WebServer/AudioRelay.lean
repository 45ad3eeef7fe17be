import SsmIaas.Lib.CString
import SsmIaas.Lib.Roster
import SsmIaas.Lib.Run

/-!
# Which browser gets the sound

All browsers and all uploads of a worker share the variable `Audio_stream`.  A browser that
connects puts a new stream there.  Any browser that disconnects and any upload that fails
clears it, and an upload that is over ends the stream that is there.  QEMU uploads every
audio file by a process of its own, so the stream of a browser is over after one file.

`audio_target_iff` says when a chunk is safe: no browser is connected, or nothing but chunks
has come since the last one connected (`Following`).
-/

namespace SsmIaas.WebServer

open Lib

/-- A worker of `bin/www`, as far as sound goes.  Browsers are numbered, and a stream has the
number of its browser. -/
structure AudioRelay where
  /-- `Audio_stream`; `none` if it is `undefined` or `null` -/
  stream : Option ℕ
  /-- ghost: the browsers that are connected -/
  clients : Roster
  /-- ghost: the streams on which `end ()` was called -/
  ended : Finset ℕ
  /-- what was written, and to which stream -/
  written : List (ℕ × Bytes)
  /-- ghost: the chunks for which there was no stream -/
  dropped : List Bytes

inductive AudioRelayEvent
  /-- A browser connects to `AudioSocketServer`. -/
  | connect
  /-- A browser has the event `close`. -/
  | clientClose (client : ℕ)
  /-- A request to `AudioStreamServer` has the event `data`. -/
  | data (request : ℕ) (chunk : Bytes)
  /-- A request has the event `close`. -/
  | uploadClose (request : ℕ)
  /-- A request has the event `error`. -/
  | uploadError (request : ℕ)
  deriving DecidableEq, Repr

def AudioRelayEvent.IsData : AudioRelayEvent → Prop
  | .data _ _ => True
  | _ => False

theorem AudioRelayEvent.isData_iff {event : AudioRelayEvent} :
    event.IsData ↔ ∃ request chunk, event = .data request chunk := by
  cases event <;> simp [IsData]

namespace AudioRelay

def start : AudioRelay := ⟨none, .empty, ∅, [], []⟩

/-- One event.  No handler looks at which request it belongs to, nor at whether the browser
that closes is the one whose stream is in the variable. -/
def step (s : AudioRelay) : AudioRelayEvent → AudioRelay
  | .connect => { s with stream := some s.clients.next, clients := s.clients.join }
  | .clientClose client => { s with stream := none, clients := s.clients.leave client }
  | .data _ chunk =>
      match s.stream with
      | some k => { s with written := s.written ++ [(k, chunk)] }
      | none => { s with dropped := s.dropped ++ [chunk] }
  | .uploadClose _ =>
      match s.stream with
      -- `Audio_stream.end ()`, and the variable stays as it is
      | some k => { s with ended := insert k s.ended }
      | none => s
  | .uploadError _ => { s with stream := none }

/-! ## What should hold, and when it does -/

/-- What is written goes to a stream that has not ended, of a browser that is connected, and
a chunk is dropped only when no browser is connected. -/
structure Delivers (s : AudioRelay) (event : AudioRelayEvent) : Prop where
  written_open : ∀ k chunk, (s.step event).written = s.written ++ [(k, chunk)] →
    k ∉ s.ended ∧ k ∈ s.clients.members
  dropped_alone : (s.step event).dropped ≠ s.dropped → s.clients.members = ∅

/-- A browser has connected, and nothing but chunks has come since. -/
def Following (events : List AudioRelayEvent) : Prop :=
  ∃ before chunks, events = before ++ .connect :: chunks ∧ ∀ e ∈ chunks, e.IsData

theorem not_following_nil : ¬ Following [] := by
  rintro ⟨before, chunks, hevents, -⟩
  simp at hevents

theorem following_concat {events : List AudioRelayEvent} {event : AudioRelayEvent} :
    Following (events ++ [event]) ↔ event = .connect ∨ event.IsData ∧ Following events := by
  refine ⟨?_, ?_⟩
  · rintro ⟨before, chunks, hevents, hdata⟩
    -- the last event is the connection itself or the last of the chunks
    rcases List.eq_nil_or_concat' chunks with rfl | ⟨chunks, last, rfl⟩
    · have hlast := (List.append_inj' hevents rfl).2
      exact Or.inl (List.singleton_inj.mp hlast)
    · rw [← List.cons_append, ← List.append_assoc] at hevents
      obtain ⟨rfl, hlast⟩ := List.append_inj' hevents rfl
      obtain rfl := List.singleton_inj.mp hlast
      refine Or.inr ⟨hdata event (by simp), before, chunks, rfl, ?_⟩
      exact fun e he => hdata e (List.mem_append_left _ he)
  · rintro (rfl | ⟨hlast, before, chunks, rfl, hdata⟩)
    · exact ⟨events, [], rfl, by simp⟩
    · refine ⟨before, chunks ++ [event], by simp, ?_⟩
      intro e he
      rcases List.mem_append.mp he with hmem | hmem
      · exact hdata e hmem
      · rwa [List.mem_singleton.mp hmem]

/-- What the variable is after some events. -/
structure StreamInv (events : List AudioRelayEvent) (s : AudioRelay) : Prop where
  connected : ∀ k, s.stream = some k → k ∈ s.clients.members
  ended_iff : ∀ k, s.stream = some k → (k ∉ s.ended ↔ Following events)
  some_of_following : Following events → s.stream ≠ none
  ended_lt : ∀ k ∈ s.ended, k < s.clients.next

variable {s : AudioRelay} {events : List AudioRelayEvent}

theorem streamInv_start : StreamInv [] start where
  connected := by simp [start]
  ended_iff := by simp [start]
  some_of_following := fun h => absurd h not_following_nil
  ended_lt := by simp [start]

/-- The events after which there is no stream. -/
theorem StreamInv.cleared {event : AudioRelayEvent} (h : StreamInv events s)
    (hconnect : event ≠ .connect) (hdata : ¬ event.IsData)
    (hstream : (s.step event).stream = none) (hended : (s.step event).ended = s.ended)
    (hnext : (s.step event).clients.next = s.clients.next) :
    StreamInv (events ++ [event]) (s.step event) where
  connected := by simp [hstream]
  ended_iff := by simp [hstream]
  some_of_following := by simp [following_concat, hconnect, hdata]
  ended_lt := by
    rw [hended, hnext]
    exact h.ended_lt

theorem StreamInv.connect (h : StreamInv events s) :
    StreamInv (events ++ [.connect]) (s.step .connect) where
  connected := by
    rintro k ⟨⟩
    exact Roster.mem_join.mpr (Or.inl rfl)
  ended_iff := by
    rintro k ⟨⟩
    -- the stream is new, so it has not ended
    have hfresh : s.clients.next ∉ s.ended := fun hmem => (h.ended_lt _ hmem).false
    exact iff_of_true hfresh (following_concat.mpr (Or.inl rfl))
  some_of_following := fun _ => Option.some_ne_none _
  ended_lt := fun k hk => Nat.lt_succ_of_lt (h.ended_lt k hk)

theorem StreamInv.data (h : StreamInv events s) (request : ℕ) (chunk : Bytes) :
    StreamInv (events ++ [.data request chunk]) (s.step (.data request chunk)) := by
  have hfollowing : Following (events ++ [.data request chunk]) ↔ Following events := by
    simp [following_concat, AudioRelayEvent.isData_iff]
  cases hstream : s.stream with
  | none =>
      simp only [step, hstream]
      exact ⟨by simp, by simp, by simpa [hfollowing, hstream] using h.some_of_following,
        h.ended_lt⟩
  | some k =>
      simp only [step, hstream]
      refine ⟨?_, ?_, by simp, h.ended_lt⟩
      · simpa [hstream] using h.connected
      · simpa [hfollowing, hstream] using h.ended_iff

theorem StreamInv.uploadClose (h : StreamInv events s) (request : ℕ) :
    StreamInv (events ++ [.uploadClose request]) (s.step (.uploadClose request)) := by
  have hfollowing : ¬ Following (events ++ [.uploadClose request]) := by
    simp [following_concat, AudioRelayEvent.isData_iff]
  cases hstream : s.stream with
  | none =>
      refine h.cleared (by simp) (by simp [AudioRelayEvent.isData_iff]) ?_ ?_ ?_ <;>
        simp [step, hstream]
  | some k =>
      simp only [step, hstream]
      refine ⟨?_, ?_, fun hf => absurd hf hfollowing, ?_⟩
      · simpa [hstream] using h.connected
      · rintro j ⟨⟩
        exact iff_of_false (by simp) hfollowing
      · intro j hj
        rcases Finset.mem_insert.mp hj with rfl | hold
        · exact s.clients.lt_next _ (h.connected _ hstream)
        · exact h.ended_lt j hold

theorem streamInv_step (events : List AudioRelayEvent) (s : AudioRelay) (event : AudioRelayEvent)
    (h : StreamInv events s) : StreamInv (events ++ [event]) (s.step event) := by
  cases event with
  | connect => exact h.connect
  | clientClose client =>
      exact h.cleared (by simp) (by simp [AudioRelayEvent.isData_iff]) rfl rfl rfl
  | data request chunk => exact h.data request chunk
  | uploadClose request => exact h.uploadClose request
  | uploadError request =>
      exact h.cleared (by simp) (by simp [AudioRelayEvent.isData_iff]) rfl rfl rfl

/-! ## One chunk -/

theorem delivers_of_not_isData {event : AudioRelayEvent} (hdata : ¬ event.IsData) :
    s.Delivers event := by
  have hlogs : (s.step event).written = s.written ∧ (s.step event).dropped = s.dropped := by
    cases event with
    | data request chunk => exact absurd trivial hdata
    | uploadClose request => cases hstream : s.stream <;> simp [step, hstream]
    | connect => exact ⟨rfl, rfl⟩
    | clientClose client => exact ⟨rfl, rfl⟩
    | uploadError request => exact ⟨rfl, rfl⟩
  refine ⟨?_, fun hdropped => absurd hlogs.2 hdropped⟩
  intro k chunk hwritten
  rw [hlogs.1] at hwritten
  simp at hwritten

theorem delivers_data_iff (h : StreamInv events s) (request : ℕ) (chunk : Bytes) :
    s.Delivers (.data request chunk) ↔ s.clients.members = ∅ ∨ Following events := by
  cases hstream : s.stream with
  | none =>
      have hnot : ¬ Following events := fun hf => h.some_of_following hf hstream
      rw [or_iff_left hnot]
      refine ⟨fun hdelivers => hdelivers.dropped_alone (by simp [step, hstream]), fun hempty => ?_⟩
      exact ⟨by simp [step, hstream], fun _ => hempty⟩
  | some k =>
      have hmem := h.connected k hstream
      have hsome : s.clients.members ≠ ∅ := Finset.ne_empty_of_mem hmem
      rw [or_iff_right hsome, ← h.ended_iff k hstream]
      refine ⟨fun hdelivers => ?_, fun hopen => ⟨?_, by simp [step, hstream]⟩⟩
      · exact (hdelivers.written_open k chunk (by simp [step, hstream])).1
      · intro j chunk' hwritten
        obtain ⟨rfl, -⟩ : k = j ∧ chunk = chunk' := by simpa [step, hstream] using hwritten
        exact ⟨hopen, hmem⟩

/-- **Target.**  Chunks are written to open streams of connected browsers only, and dropped
only when no browser is connected, exactly if every chunk that comes while a browser is
connected comes after a connection with nothing but chunks in between. -/
theorem audio_target_iff (events : List AudioRelayEvent) :
    Along step Delivers start events ↔
      ∀ before request chunk after, events = before ++ .data request chunk :: after →
        (run step start before).clients.members = ∅ ∨ Following before := by
  have hinv (before : List AudioRelayEvent) : StreamInv before (run step start before) :=
    run_history before streamInv_start streamInv_step
  rw [along_iff_forall_split]
  refine ⟨fun h before request chunk after hsplit => ?_, fun h before event after hsplit => ?_⟩
  · exact (delivers_data_iff (hinv before) request chunk).mp (h before _ after hsplit)
  · by_cases hdata : event.IsData
    · obtain ⟨request, chunk, rfl⟩ := AudioRelayEvent.isData_iff.mp hdata
      exact (delivers_data_iff (hinv before) request chunk).mpr
        (h before request chunk after hsplit)
    · exact delivers_of_not_isData hdata

/-- A browser listens while QEMU uploads two files: the second one is written to the stream
that the end of the first upload has ended.  With two browsers, one that leaves takes the
stream away from the other one. -/
theorem second_upload_is_lost :
    ¬ (run step start [.connect, .data 0 [1], .uploadClose 0]).Delivers (.data 1 [2]) ∧
      ¬ (run step start [.connect, .connect, .clientClose 0]).Delivers (.data 0 [1]) := by
  refine ⟨fun h => ?_, fun h => ?_⟩
  · exact absurd (h.written_open 0 [2] rfl).1 (by decide)
  · exact absurd (h.dropped_alone (by decide)) (by decide)

end AudioRelay

end SsmIaas.WebServer
