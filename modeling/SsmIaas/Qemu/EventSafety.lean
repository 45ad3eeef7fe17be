import SsmIaas.Lib.Tokens
import SsmIaas.Qemu.EventStream

/-!
# What a client can do to the event thread

The relay of `bin/www` passes on any text, and `thread_sdl ()` takes whatever a `read`
leaves in its buffer for an event.  It does not look at what `read` returns either: at the
end of the stream the loop goes round with the buffer as it was.

What the thread does with a buffer that it can print depends on the fields in it only
(`parseEvent_dispatch`), and so `events_safe_iff` can say what each read has to bring.  The
end of the stream is always fatal behind a mouse or key event: the first field of the event is
all that `strtok` still finds of it (`end_after_read`).
-/

namespace SsmIaas.Qemu

open Lib VMManager WebServer

/-- What `read ()` may do: bring some bytes, or report the end of the stream. -/
inductive Arrival
  | data (chunk : Bytes)
  | endOfStream
  deriving DecidableEq, Repr

/-- One round of the loop.  The end of the stream brings nothing, and changes nothing in the
condition of the loop. -/
def EventLoop.receive (androidMode : Bool) (screenH : ℤ) (s : EventLoop) : Arrival → EventLoop
  | .data chunk => s.step androidMode screenH chunk
  | .endOfStream => s.step androidMode screenH []

/-- The thread stays within its buffer, its tokens and `km` when it prints and parses, and
makes no call at the end of the stream. -/
def Safe (androidMode : Bool) (screenH : ℤ) (s : EventLoop) (arrival : Arrival) : Prop :=
  (s.receive androidMode screenH arrival).crash = none ∧
    (arrival = .endOfStream → (s.receive androidMode screenH arrival).calls = s.calls)

instance (androidMode : Bool) (screenH : ℤ) (s : EventLoop) (arrival : Arrival) :
    Decidable (Safe androidMode screenH s arrival) :=
  inferInstanceAs (Decidable (_ ∧ (_ → _)))

/-- The fields behind the type of a mouse event. -/
def dispatchMouse (androidMode : Bool) (screenH : ℤ) : List Bytes → Option (List InputCall)
  | x :: y :: state :: _ => some [mouseCall androidMode screenH (atoi x) (atoi y) (atoi state)]
  | _ => none

/-- The call for a key; `none` if it is no index of `km`. -/
def keyCall (state keycode : ℤ) : Option (List InputCall) :=
  if 0 ≤ keycode ∧ keycode < 250 then
    if state = 0 then some [.keyUp (km keycode.toNat)]
    else if state = 1 then some [.keyDown (km keycode.toNat)]
    else some []
  else none

def dispatchKey : List Bytes → Option (List InputCall)
  | state :: keycode :: _ => keyCall (atoi state) (atoi keycode)
  | _ => none

/-- The calls for a type and the fields behind it; `none` if one is missing, or has no
meaning. -/
def dispatchFields (androidMode : Bool) (screenH type : ℤ) (fields : List Bytes) :
    Option (List InputCall) :=
  if type = 0 then dispatchMouse androidMode screenH fields
  else if type = 1 then dispatchKey fields
  else some []

def dispatch (androidMode : Bool) (screenH : ℤ) : List Bytes → Option (List InputCall)
  | [] => none
  | type :: fields => dispatchFields androidMode screenH (atoi type) fields

/-- What a read has to leave in the buffer: a NUL, and fields that have a meaning; and at the
end of the stream fields that ask for no call. -/
def Acceptable (androidMode : Bool) (screenH : ℤ) (s : EventLoop) : Arrival → Prop
  | .data chunk =>
      nul ∈ readInto 100 s.buf chunk ∧
        dispatch androidMode screenH (closedTokens (readInto 100 s.buf chunk)) ≠ none
  | .endOfStream => nul ∈ s.buf ∧ dispatch androidMode screenH (closedTokens s.buf) = some []

/-! ## One round -/

section

variable {androidMode : Bool} {screenH : ℤ}

theorem nextNumber_of_strtok {t : Tokenizer} {i : ℕ} {front rest text : Bytes}
    (h : strtok t = some (some i, .between front rest)) (hread : cstr (front ++ rest) i = text) :
    nextNumber t = .ok (atoi text, .between front rest) := by
  rw [nextNumber, number_of_strtok h, Tokenizer.between, hread]
  rfl

theorem nextNumber_cons {rest text : Bytes} {more : List Bytes}
    (h : closedTokens rest = text :: more) (front : Bytes) :
    ∃ behind rest', nextNumber (.between front rest) =
      .ok (atoi text, .between (front ++ behind) rest') ∧ closedTokens rest' = more := by
  obtain ⟨i, behind, rest', hstrtok, hread, hmore⟩ := strtok_of_closedTokens h front
  exact ⟨behind, rest', nextNumber_of_strtok hstrtok hread, hmore⟩

theorem nextNumber_nil {rest : Bytes} (h : closedTokens rest = []) (front : Bytes) :
    ∃ fault, nextNumber (.between front rest) = .error (.parse fault) := by
  rcases strtok_of_closedTokens_nil h front with hleft | ⟨t, hnull⟩
  · refine ⟨.leftBuffer, ?_⟩
    rw [nextNumber, number, token, hleft]
    rfl
  · refine ⟨.nullToken, ?_⟩
    rw [nextNumber, number, token, hnull]
    rfl

/-- A result with the given calls, which leaves the front of the buffer as it is, or a
crash. -/
def Yields (front : Bytes) (result : Except Crash (List InputCall × Bytes)) :
    Option (List InputCall) → Prop
  | some calls => ∃ behind, result = .ok (calls, front ++ behind)
  | none => ∃ crash, result = .error crash

theorem Yields.of_append {front behind : Bytes} {result : Except Crash (List InputCall × Bytes)}
    {outcome : Option (List InputCall)} (h : Yields (front ++ behind) result outcome) :
    Yields front result outcome := by
  cases outcome with
  | none => exact h
  | some calls =>
      obtain ⟨more, hresult⟩ := h
      exact ⟨behind ++ more, by rw [hresult, List.append_assoc]⟩

variable {next : ℤ × Tokenizer → Except Crash (List InputCall × Bytes)} {front rest : Bytes}

/-- A number is read, and the thread goes on behind it. -/
theorem yields_cons {text : Bytes} {more : List Bytes} {outcome : Option (List InputCall)}
    (h : closedTokens rest = text :: more)
    (hnext : ∀ front' rest', closedTokens rest' = more →
      Yields front' (next (atoi text, .between front' rest')) outcome) :
    Yields front (nextNumber (.between front rest) >>= next) outcome := by
  obtain ⟨behind, rest', hnumber, hmore⟩ := nextNumber_cons h front
  rw [hnumber]
  exact (hnext (front ++ behind) rest' hmore).of_append

theorem yields_nil (h : closedTokens rest = []) :
    Yields front (nextNumber (.between front rest) >>= next) none := by
  obtain ⟨fault, herror⟩ := nextNumber_nil h front
  rw [herror]
  exact ⟨_, rfl⟩

theorem yields_key (state keycode : ℤ) :
    Yields front
      (if 0 ≤ keycode ∧ keycode < 250 then
        if state = 0 then return ([.keyUp (km keycode.toNat)], front ++ rest)
        else if state = 1 then return ([.keyDown (km keycode.toNat)], front ++ rest)
        else return ([], front ++ rest)
      else throw .keymap)
      (keyCall state keycode) := by
  unfold keyCall
  split
  · split
    · exact ⟨rest, rfl⟩
    · split
      · exact ⟨rest, rfl⟩
      · exact ⟨rest, rfl⟩
  · exact ⟨_, rfl⟩

/-- Any other type is passed over. -/
theorem parseEvent_other (androidMode : Bool) (screenH : ℤ) {buf : Bytes} {type : ℤ}
    (hfirst : nextNumber ⟨buf, 0⟩ = .ok (type, .between front rest))
    (htype : type ≠ 0 ∧ type ≠ 1) :
    parseEvent androidMode screenH buf = .ok ([], front ++ rest) := by
  rw [parseEvent, hfirst]
  show (if type = 0 then _ else _) = _
  rw [if_neg htype.1, if_neg htype.2]
  rfl

/-- The thread behind the first number. -/
theorem yields_parseEvent (androidMode : Bool) (screenH : ℤ) {buf : Bytes} {type : ℤ}
    (hfirst : nextNumber ⟨buf, 0⟩ = .ok (type, .between front rest)) :
    Yields front (parseEvent androidMode screenH buf)
      (dispatchFields androidMode screenH type (closedTokens rest)) := by
  rw [parseEvent, hfirst, dispatchFields]
  show Yields front (if type = 0 then _ else _) _
  by_cases hmouse : type = 0
  · rw [if_pos hmouse, if_pos hmouse]
    cases hx : closedTokens rest with
    | nil => exact yields_nil hx
    | cons x fields =>
        refine yields_cons hx fun front rest hrest => ?_
        cases fields with
        | nil => exact yields_nil hrest
        | cons y fields =>
            refine yields_cons hrest fun front rest hrest => ?_
            cases fields with
            | nil => exact yields_nil hrest
            | cons state fields => exact yields_cons hrest fun front rest _ => ⟨rest, rfl⟩
  · rw [if_neg hmouse, if_neg hmouse]
    by_cases hkey : type = 1
    · rw [if_pos hkey, if_pos hkey]
      cases hstate : closedTokens rest with
      | nil => exact yields_nil hstate
      | cons state fields =>
          refine yields_cons hstate fun front rest hrest => ?_
          cases fields with
          | nil => exact yields_nil hrest
          | cons keycode fields =>
              exact yields_cons hrest fun front rest _ => yields_key (atoi state) (atoi keycode)
    · rw [if_neg hkey, if_neg hkey]
      exact ⟨rest, rfl⟩

/-- A result with the given calls, which leaves the given fields and a NUL in the buffer, or a
crash. -/
def Leaves (fields : List Bytes) (result : Except Crash (List InputCall × Bytes)) :
    Option (List InputCall) → Prop
  | some calls => ∃ buf, result = .ok (calls, buf) ∧ closedTokens buf = fields ∧ nul ∈ buf
  | none => ∃ crash, result = .error crash

theorem Yields.leaves {fields : List Bytes} {result : Except Crash (List InputCall × Bytes)}
    {outcome : Option (List InputCall)} (h : Yields front result outcome)
    (hfront : ∀ behind, closedTokens (front ++ behind) = fields ∧ nul ∈ front ++ behind) :
    Leaves fields result outcome := by
  cases outcome with
  | none => exact h
  | some calls =>
      obtain ⟨behind, hresult⟩ := h
      exact ⟨front ++ behind, hresult, hfront behind⟩

section

variable (androidMode : Bool) (screenH : ℤ) {gap text : Bytes} (hgap : ∀ b ∈ gap, b = space)
  (htext : Token text) (rest : Bytes)
include hgap htext

/-- The first field is ended by a space, where `strtok` puts a terminator. -/
theorem leaves_cons :
    Leaves [text] (parseEvent androidMode screenH (gap ++ (text ++ space :: rest)))
      (dispatchFields androidMode screenH (atoi text) (closedTokens rest)) := by
  have hread : cstr (gap ++ text ++ [nul] ++ rest) gap.length = text := by
    have hfield : cstr (gap ++ (text ++ nul :: rest)) gap.length = text := cstr_append htext.ne_nul
    simpa using hfield
  have hstrtok : strtok ⟨gap ++ (text ++ space :: rest), 0⟩ =
      some (some gap.length, .between (gap ++ text ++ [nul]) rest) := by
    simpa [Tokenizer.between] using strtok_cons [] hgap rest htext
  refine (yields_parseEvent androidMode screenH (nextNumber_of_strtok hstrtok hread)).leaves ?_
  intro behind
  exact ⟨by simpa using closedTokens_last hgap htext behind, by simp⟩

/-- The first field is the only one. -/
theorem leaves_last :
    Leaves [text] (parseEvent androidMode screenH (gap ++ (text ++ nul :: rest)))
      (dispatchFields androidMode screenH (atoi text) []) := by
  have hread : cstr (gap ++ text ++ nul :: rest) gap.length = text := by
    have hfield : cstr (gap ++ (text ++ nul :: rest)) gap.length = text := cstr_append htext.ne_nul
    simpa using hfield
  have hstrtok : strtok ⟨gap ++ (text ++ nul :: rest), 0⟩ =
      some (some gap.length, .between (gap ++ text) (nul :: rest)) := by
    simpa [Tokenizer.between] using strtok_last [] hgap rest htext
  have hfirst := nextNumber_of_strtok hstrtok hread
  by_cases hother : atoi text ≠ 0 ∧ atoi text ≠ 1
  · rw [dispatchFields, if_neg hother.1, if_neg hother.2]
    refine ⟨_, parseEvent_other androidMode screenH hfirst hother, ?_, by simp⟩
    simpa using closedTokens_last hgap htext rest
  · -- an event has more fields
    have hevent : dispatchFields androidMode screenH (atoi text) [] = none := by
      unfold dispatchFields
      split_ifs with hmouse hkey
      · rfl
      · rfl
      · exact absurd ⟨hmouse, hkey⟩ hother
    have hnone : closedTokens ([] ++ nul :: rest) = [] := closedTokens_terminated (by simp) rest
    rw [List.nil_append] at hnone
    have hyields := yields_parseEvent androidMode screenH hfirst
    rw [hnone, hevent] at hyields
    rw [hevent]
    exact hyields

end

/-- **One read.**  The thread makes the calls for the fields in its buffer, of which it leaves
the first one only; or it crashes. -/
theorem parseEvent_dispatch (androidMode : Bool) (screenH : ℤ) (buf : Bytes) :
    Leaves ((closedTokens buf).take 1) (parseEvent androidMode screenH buf)
      (dispatch androidMode screenH (closedTokens buf)) := by
  rcases token_or_none buf with ⟨gap, text, d, rest, hgap, htext, hd, rfl⟩ | ⟨hnil, -⟩
  · rcases hd with rfl | rfl
    · rw [closedTokens_cons hgap htext, dispatch]
      exact leaves_cons androidMode screenH hgap htext rest
    · rw [closedTokens_last hgap htext, dispatch]
      exact leaves_last androidMode screenH hgap htext rest
  · obtain ⟨fault, herror⟩ := nextNumber_nil hnil []
    have herror : nextNumber ⟨buf, 0⟩ = .error (.parse fault) := herror
    rw [hnil, dispatch]
    refine ⟨.parse fault, ?_⟩
    rw [parseEvent, herror]
    rfl

variable {s : EventLoop}

theorem step_of_some (hcrash : s.crash = none) {chunk : Bytes} {calls : List InputCall}
    (hprint : nul ∈ readInto 100 s.buf chunk)
    (hcalls : dispatch androidMode screenH (closedTokens (readInto 100 s.buf chunk)) =
      some calls) :
    ∃ buf, s.step androidMode screenH chunk = ⟨buf, s.calls ++ calls, none⟩ ∧
      closedTokens buf = (closedTokens (readInto 100 s.buf chunk)).take 1 ∧ nul ∈ buf := by
  have hdispatch := parseEvent_dispatch androidMode screenH (readInto 100 s.buf chunk)
  rw [hcalls] at hdispatch
  obtain ⟨buf, hresult, hfields, hnul⟩ := hdispatch
  rw [← threadSdl_of_mem hprint] at hresult
  exact ⟨buf, by simp [EventLoop.step, hcrash, hresult], hfields, hnul⟩

theorem step_of_none (hcrash : s.crash = none) {chunk : Bytes}
    (hbad : nul ∉ readInto 100 s.buf chunk ∨
      dispatch androidMode screenH (closedTokens (readInto 100 s.buf chunk)) = none) :
    (s.step androidMode screenH chunk).crash ≠ none := by
  obtain ⟨crash, hresult⟩ :
      ∃ crash, threadSdl androidMode screenH (readInto 100 s.buf chunk) = .error crash := by
    by_cases hprint : nul ∈ readInto 100 s.buf chunk
    · have hdispatch := parseEvent_dispatch androidMode screenH (readInto 100 s.buf chunk)
      rw [hbad.resolve_left (not_not_intro hprint)] at hdispatch
      rwa [threadSdl_of_mem hprint]
    · exact ⟨_, threadSdl_of_notMem hprint androidMode screenH⟩
  simp [EventLoop.step, hcrash, hresult]

theorem readInto_nil (size : ℕ) (buffer : Bytes) : readInto size buffer [] = buffer := by
  simp [readInto]

theorem safe_iff (hcrash : s.crash = none) (arrival : Arrival) :
    Safe androidMode screenH s arrival ↔ Acceptable androidMode screenH s arrival := by
  cases arrival with
  | data chunk =>
      unfold Safe Acceptable EventLoop.receive
      by_cases hprint : nul ∈ readInto 100 s.buf chunk
      · cases hcalls : dispatch androidMode screenH (closedTokens (readInto 100 s.buf chunk)) with
        | none => simp [hcalls, step_of_none hcrash (Or.inr hcalls)]
        | some calls =>
            obtain ⟨buf, hstep, -⟩ := step_of_some hcrash hprint hcalls
            simp [hcalls, hstep, hprint]
      · simp [hprint, step_of_none hcrash (Or.inl hprint)]
  | endOfStream =>
      unfold Safe Acceptable EventLoop.receive
      rw [← readInto_nil 100 s.buf]
      by_cases hprint : nul ∈ readInto 100 s.buf []
      · cases hcalls : dispatch androidMode screenH (closedTokens (readInto 100 s.buf [])) with
        | none => simp [step_of_none hcrash (Or.inr hcalls)]
        | some calls =>
            obtain ⟨buf, hstep, -⟩ := step_of_some hcrash hprint hcalls
            simp [hstep, hprint]
      · simp [hprint, step_of_none hcrash (Or.inl hprint)]

/-- Behind an acceptable read, the end of the stream does no harm only if what was read is
neither a mouse nor a key event. -/
theorem end_after_read (hcrash : s.crash = none) {chunk type : Bytes} {fields : List Bytes}
    (hfields : closedTokens (readInto 100 s.buf chunk) = type :: fields)
    (hread : Acceptable androidMode screenH s (.data chunk)) :
    Acceptable androidMode screenH (s.receive androidMode screenH (.data chunk)) .endOfStream ↔
      atoi type ≠ 0 ∧ atoi type ≠ 1 := by
  obtain ⟨hprint, hsome⟩ := hread
  obtain ⟨calls, hcalls⟩ := Option.ne_none_iff_exists'.mp hsome
  obtain ⟨buf, hstep, hleft, hnul⟩ := step_of_some hcrash hprint hcalls
  rw [hfields, List.take_succ_cons, List.take_zero] at hleft
  simp only [Acceptable, EventLoop.receive, hstep, hleft, hnul, true_and, dispatch,
    dispatchFields]
  split_ifs with hmouse hkey
  · simp [hmouse, dispatchMouse]
  · simp [hkey, dispatchKey]
  · simp [hmouse, hkey]

/-- **Safety.**  The thread never uses a missing field or an index that `km` does not have,
never prints or parses bytes behind its buffer, and makes no call at the end of the stream,
exactly if every read leaves a NUL and the fields of an event in the buffer and the end of
the stream finds fields that ask for no call. -/
theorem events_safe_iff (androidMode : Bool) (screenH : ℤ) (buf : Bytes)
    (arrivals : List Arrival) :
    Along (EventLoop.receive androidMode screenH) (Safe androidMode screenH) (.start buf) arrivals ↔
      Along (EventLoop.receive androidMode screenH) (Acceptable androidMode screenH) (.start buf)
        arrivals := by
  have hstart : (EventLoop.start buf).crash = none := rfl
  refine along_iff_of_invariant (I := fun s => s.crash = none) hstart ?_ ?_
  · exact fun s arrival hcrash haccept => ((safe_iff hcrash arrival).mpr haccept).1
  · exact fun s arrival hcrash => safe_iff hcrash arrival

end

/-- The texts `0`, `1 1 999` and a click, each in a buffer of zeros: a field is missing, the
key is no index of `km`, and the end of the stream finds the rest of a click.  A text of 99
bytes fills the buffer, and `printf` leaves it. -/
theorem client_breaks_thread :
    let start : EventLoop := .start (List.replicate 100 nul)
    (start.receive false 720 (.data (relay (ascii "0")))).crash = some (.parse .nullToken) ∧
      (start.receive false 720 (.data (relay (ascii "1 1 999")))).crash = some .keymap ∧
      (start.receive false 720 (.data (relay (ascii "2 " ++ List.replicate 97 65)))).crash =
        some .print ∧
      Safe false 720 start (.data (relay (ascii "0 1 2 1 "))) ∧
      ¬ Along (EventLoop.receive false 720) (Safe false 720) start
        [.data (relay (ascii "0 1 2 1 ")), .endOfStream] := by
  decide +kernel

end SsmIaas.Qemu
