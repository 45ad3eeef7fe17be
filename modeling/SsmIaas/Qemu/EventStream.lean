import SsmIaas.Lib.Run
import SsmIaas.Qemu.EventThread

/-!
# A stream of input events

TCP carries the messages of the relay as one stream of bytes, and `thread_sdl ()` gets
it in pieces of at most 100 bytes that need not be the messages.  The newlines mark the
messages in the stream (`stream_injective`), but the thread does not look for them: it
takes every read for one event.  So each read makes at most one call
(`calls_length_le`), and two events that arrive together lose the second one.

The events all arrive, once and in order, if every read brings one whole message, with a
NUL somewhere behind it in the buffer, and `km` has the code of a key (`events_in_order`).
-/

namespace SsmIaas.Qemu

open Lib VMManager WebServer

/-- The bytes on the connection. -/
def stream (events : List InputEvent) : Bytes := (events.map InputEvent.message).flatten

/-- The receive loop: `buf`, which `strtok` writes into and nothing clears, and the calls
made so far. -/
structure EventLoop where
  buf : Bytes
  calls : List InputCall
  crash : Option Crash
  deriving DecidableEq

def EventLoop.start (buf : Bytes) : EventLoop := ⟨buf, [], none⟩

/-- One round of the loop; a thread that has left its buffer or `km` does no more. -/
def EventLoop.step (androidMode : Bool) (screenH : ℤ) (s : EventLoop) (chunk : Bytes) :
    EventLoop :=
  match s.crash with
  | some _ => s
  | none =>
      let buf := readInto 100 s.buf chunk
      match threadSdl androidMode screenH buf with
      | .error crash => { s with buf, crash := some crash }
      | .ok (calls, buf) => { s with buf, calls := s.calls ++ calls }

/-! ## The newline separates the messages -/

theorem newline_not_mem_data (event : InputEvent) : newline ∉ event.data := by
  have hdecimal : ∀ n, newline ∉ decimal n := fun n hmem =>
    absurd ((numeral_decimal n).digits _ hmem) (by decide)
  have hsigned : ∀ n, newline ∉ signedDecimal n := by
    intro n
    have hminus : newline ≠ 45 := by decide
    unfold signedDecimal
    split <;> simp [hdecimal, hminus]
  have hspace : newline ≠ space := by decide
  cases event with
  | mouse x y button => simp [InputEvent.data, hdecimal, hsigned, hspace]
  | key down code => simp [InputEvent.data, hdecimal, hspace]

theorem signedDecimal_toInt_inj {m n : Int32}
    (heq : signedDecimal m.toInt = signedDecimal n.toInt) : m = n := by
  apply Int32.toInt_inj.mp
  calc m.toInt = atoi (signedWord m.toInt).text := (atoi_signedWord m).symm
    _ = atoi (signedWord n.toInt).text := congrArg atoi heq
    _ = n.toInt := atoi_signedWord n

theorem data_injective : Function.Injective InputEvent.data := by
  have hdecimal : ∀ n, space ∉ decimal n := fun n => (numeral_decimal n).token.space_notMem
  have hsigned : ∀ n, space ∉ signedDecimal n := fun n => (token_signedDecimal n).space_notMem
  intro event event' heq
  cases event with
  | mouse x y button =>
      cases event' with
      | mouse x' y' button' =>
          simp only [InputEvent.data, List.append_assoc, List.singleton_append] at heq
          obtain ⟨-, heq⟩ := (cut_inj (hdecimal _) (hdecimal _)).mp heq
          obtain ⟨hx, heq⟩ := (cut_inj (hsigned _) (hsigned _)).mp heq
          obtain ⟨hy, heq⟩ := (cut_inj (hsigned _) (hsigned _)).mp heq
          have hstate := decimal_injective (List.append_cancel_right heq)
          have hbutton : button = button' := by
            revert hstate
            cases button <;> cases button' <;> decide
          rw [signedDecimal_toInt_inj hx, signedDecimal_toInt_inj hy, hbutton]
      | key down code =>
          simp only [InputEvent.data, List.append_assoc, List.singleton_append] at heq
          obtain ⟨htype, -⟩ := (cut_inj (hdecimal _) (hdecimal _)).mp heq
          exact absurd (decimal_injective htype) (by decide)
  | key down code =>
      cases event' with
      | mouse x y button =>
          simp only [InputEvent.data, List.append_assoc, List.singleton_append] at heq
          obtain ⟨htype, -⟩ := (cut_inj (hdecimal _) (hdecimal _)).mp heq
          exact absurd (decimal_injective htype) (by decide)
      | key down' code' =>
          simp only [InputEvent.data, List.append_assoc, List.singleton_append] at heq
          obtain ⟨-, heq⟩ := (cut_inj (hdecimal _) (hdecimal _)).mp heq
          obtain ⟨hdown, hcode⟩ := (cut_inj (hdecimal _) (hdecimal _)).mp heq
          have hdown : down = down' := by
            have hstate := decimal_injective hdown
            revert hstate
            cases down <;> cases down' <;> decide
          rw [hdown, decimal_injective hcode]

/-- The stream determines the events that were sent. -/
theorem stream_injective : Function.Injective stream := by
  intro events events' heq
  apply List.map_injective_iff.mpr data_injective
  apply lines_inj (d := newline)
  · simp [newline_not_mem_data]
  · simp [newline_not_mem_data]
  · rw [List.map_map, List.map_map]
    exact heq

/-! ## One read, one call -/

section

variable {androidMode : Bool} {screenH : ℤ}

theorem threadSdl_calls_length {buf buf' : Bytes} {calls : List InputCall}
    (h : threadSdl androidMode screenH buf = .ok (calls, buf')) : calls.length ≤ 1 := by
  simp only [threadSdl, printEvent, parseEvent, bind, Except.bind, pure, Except.pure, throw,
    throwThe, MonadExceptOf.throw] at h
  repeat' split at h
  all_goals cases h
  all_goals simp

/-- However the stream is cut, there are at most as many calls as reads. -/
theorem calls_length_le (reads : List Bytes) (s : EventLoop) :
    (run (EventLoop.step androidMode screenH) s reads).calls.length ≤
      s.calls.length + reads.length := by
  induction reads generalizing s with
  | nil => simp
  | cons chunk reads ih =>
      have hstep : (s.step androidMode screenH chunk).calls.length ≤ s.calls.length + 1 := by
        unfold EventLoop.step
        cases hcrash : s.crash with
        | some crash => simp
        | none =>
            cases hread : threadSdl androidMode screenH (readInto 100 s.buf chunk) with
            | error crash => simp [hread]
            | ok result =>
                have hone := threadSdl_calls_length hread
                simpa [hread] using hone
      have hrest := ih (s.step androidMode screenH chunk)
      simp only [run_cons, List.length_cons]
      omega

/-! ## Whole messages -/

/-- The read brings exactly one message, its key code is an index of `km`, and a NUL follows
in the buffer. -/
def WholeMessage (s : EventLoop) (chunk : Bytes) : Prop :=
  ∃ event : InputEvent, chunk = event.message ∧ InKeymap event ∧ nul ∈ s.buf.drop chunk.length

theorem step_whole {s : EventLoop} (hcrash : s.crash = none) {event : InputEvent}
    (hkey : InKeymap event) (hlength : event.message.length ≤ 100)
    (hrest : nul ∈ s.buf.drop event.message.length) :
    ∃ buf, s.step androidMode screenH event.message =
      ⟨buf, s.calls ++ [inputCall androidMode screenH event], none⟩ := by
  obtain ⟨buf, hok⟩ := threadSdl_message androidMode screenH hkey hrest
  refine ⟨buf, ?_⟩
  simp only [EventLoop.step, hcrash, readInto_of_le s.buf hlength, hok]

theorem run_whole (reads : List Bytes) (hlength : ∀ chunk ∈ reads, chunk.length ≤ 100)
    {s : EventLoop} (hcrash : s.crash = none)
    (hwhole : Along (EventLoop.step androidMode screenH) WholeMessage s reads) :
    ∃ events : List InputEvent, reads = events.map InputEvent.message ∧
      (run (EventLoop.step androidMode screenH) s reads).crash = none ∧
      (run (EventLoop.step androidMode screenH) s reads).calls =
        s.calls ++ events.map (inputCall androidMode screenH) := by
  induction reads generalizing s with
  | nil => exact ⟨[], rfl, hcrash, by simp⟩
  | cons chunk reads ih =>
      obtain ⟨⟨event, rfl, hkey, hend⟩, hrest⟩ := hwhole
      obtain ⟨buf, hstep⟩ :
          ∃ buf, s.step androidMode screenH event.message =
            ⟨buf, s.calls ++ [inputCall androidMode screenH event], none⟩ :=
        step_whole hcrash hkey (hlength _ (by simp)) hend
      rw [hstep] at hrest
      obtain ⟨events, hreads, hcrash', hcalls⟩ :=
        ih (fun c hc => hlength c (List.mem_cons_of_mem _ hc)) rfl hrest
      refine ⟨event :: events, by simp [hreads], ?_, ?_⟩
      · rw [run_cons, hstep, hcrash']
      · rw [run_cons, hstep, hcalls]
        simp

/-- **The stream of events.**  When every read of a stream brings one whole message, with a
NUL behind it in the buffer and a key code that `km` has, the thread makes exactly the calls
of the events that were sent, in their order. -/
theorem events_in_order (androidMode : Bool) (screenH : ℤ) (buf : Bytes)
    (events : List InputEvent) (reads : List Bytes) (hstream : reads.flatten = stream events)
    (hsize : ∀ chunk ∈ reads, 1 ≤ chunk.length ∧ chunk.length ≤ 100)
    (hwhole : Along (EventLoop.step androidMode screenH) WholeMessage (.start buf) reads) :
    let s := run (EventLoop.step androidMode screenH) (.start buf) reads
    s.crash = none ∧ s.calls = events.map (inputCall androidMode screenH) := by
  obtain ⟨sent, hreads, hcrash, hcalls⟩ :=
    run_whole reads (fun chunk hc => (hsize chunk hc).2) rfl hwhole
  have hsent : sent = events := by
    apply stream_injective
    rw [stream, ← hreads, hstream]
  refine ⟨hcrash, ?_⟩
  rw [hcalls, hsent]
  rfl

end

/-- The left button pressed and let go in the desktop, one message a read. -/
theorem events_in_order_click :
    (run (EventLoop.step false 720) (.start (List.replicate 100 nul))
        [(InputEvent.mouse 1 2 .left).message, (InputEvent.mouse 1 2 .up).message]).calls =
      [.mouse 0 0 1 2 1, .mouse 0 0 1 2 0] :=
  (events_in_order false 720 (List.replicate 100 nul)
    [.mouse 1 2 .left, .mouse 1 2 .up]
    [(InputEvent.mouse 1 2 .left).message, (InputEvent.mouse 1 2 .up).message]
    (by decide) (by decide)
    ⟨⟨.mouse 1 2 .left, rfl, trivial, by decide⟩, ⟨.mouse 1 2 .up, rfl, trivial, by decide⟩,
      trivial⟩).2

/-- The same two messages in one read: the button is never let go. -/
theorem one_read_loses_release :
    [stream [.mouse 1 2 .left, .mouse 1 2 .up]].flatten =
        stream [.mouse 1 2 .left, .mouse 1 2 .up] ∧
      (stream [.mouse 1 2 .left, .mouse 1 2 .up]).length ≤ 100 ∧
      (run (EventLoop.step false 720) (.start (List.replicate 100 nul))
        [stream [.mouse 1 2 .left, .mouse 1 2 .up]]).calls = [.mouse 0 0 1 2 1] := by
  decide

end SsmIaas.Qemu
