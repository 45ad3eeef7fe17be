import SsmIaas.Lib.Run
import SsmIaas.LoadBalancer.Redis
import SsmIaas.LoadBalancer.SocketUtil

/-!
# `requestStartOS` and `requestInstallOS`

The two handlers of `routes/select.js` that hand out a worker port.  A handler is
a chain of redis callbacks, so a request is a small state machine: `Phase` says
which reply it waits for, and every reply runs the callback up to the next redis
command.  Requests of any number of members interleave between their replies, and
a worker of the WebServer may free a port at any moment.

Two details of the source decide most of what follows.

* The second `checkOverLogin`, on `sessionList2`, only sets the variable `check`,
  and `check` is tested right after that lookup was *sent*.  Its reply
  (`innerReply`) comes later and nobody reads the variable again.
* `LoadBalancer` reads the list in one command and writes the slot it found in
  another.

The branch for `ImageVersion == "androidx86"` is not taken: the handlers overwrite
`ImageVersion` by `getImageIndex (..)`, a number or `undefined`, and neither is
`==` to that string.
-/

namespace SsmIaas.LoadBalancer

open Lib

/-- `getImageIndex`: the number of an OS name, `undefined` for any other value. -/
def getImageIndex : String → Option ℕ
  | "androidx86" => some 0
  | "tizen" => some 1
  | "linux" => some 2
  | "window7" => some 3
  | _ => none

/-- `checkOverLogin`: does one of the three ports hold this e-mail? -/
def checkOverLogin (email : Option Email) (reply : SessionList) : Bool :=
  if 3 < scan (fun index => reply index == email) 1 3 then false else true

/-- The loop of `LoadBalancer`: the first free port, or 4. -/
def freeIndex (reply : SessionList) : ℕ :=
  scan (fun index => reply index == some nullText) 1 3

inductive Answer
  | dup
  | full
  | url (port : ℕ)
  deriving DecidableEq, Repr

/-- The redis reply a request waits for. -/
inductive Phase
  | checkOverLogin
  | loadBalancer
  | setSession (index : ℕ)
  | answered (answer : Answer)
  deriving DecidableEq, Repr

/-- What a handler reads from its request: the session's e-mail, the list it is
to allocate from (`sessionList1` for a start, `sessionList2` for an install), and
the fields of the later message to VMManager. -/
structure Call where
  email : Option Email
  target : ListName
  index : JsText
  imageVersion : Option ℕ
  ip : JsText
  deriving DecidableEq, Repr

structure Request where
  call : Call
  check : Bool
  /-- the reply to the second `checkOverLogin` is outstanding -/
  inner : Bool
  phase : Phase
  deriving DecidableEq, Repr

/-- The text `LoadBalancer` stores for this request's member. -/
def Call.text (call : Call) : String := storedText call.email

/-- The message sent when the port was granted; all three port fields are the
same session variable. -/
def Call.vmMessage (call : Call) (port : ℕ) : Option Bytes :=
  let number (n : ℕ) : JsText := some (decimal n)
  let id := call.email.map utf8
  match call.target with
  | .sessionList1 => getSocketStart (number 0) (call.imageVersion.map decimal) call.index id
      call.ip (number 1) (number port) (number port) (number port)
  | .sessionList2 => getSocketInstall (number 3) (call.imageVersion.map decimal) call.index id
      call.ip (number 0) (number port) (number port) (number port)

/-- The callback of the first `checkOverLogin`. -/
def Request.onCheckOverLogin (r : Request) (reply : SessionList) : Request :=
  let r :=
    if checkOverLogin r.call.email reply then { r with check := false }
    else { r with inner := true }
  -- tested before the inner reply can arrive
  if r.check = false then { r with phase := .answered .dup }
  else { r with phase := .loadBalancer }

/-- The callback of the second `checkOverLogin`. -/
def Request.onInner (r : Request) (reply : SessionList) : Request :=
  if r.inner then
    { r with inner := false, check := if checkOverLogin r.call.email reply then false else r.check }
  else r

/-- The callback of `getSessionList` in `LoadBalancer`. -/
def Request.onLoadBalancer (r : Request) (reply : SessionList) : Request :=
  let index := freeIndex reply
  if index ≤ 3 then { r with phase := .setSession index }
  else { r with phase := .answered .full }

structure State where
  lists : Sessions
  requests : List Request
  /-- what the connect callbacks of the granted requests write to VMManager -/
  messages : List (Option Bytes)
  /-- ghost: the member each slot was last granted to and not released from since -/
  holder : ListName → ℕ → Option String

inductive Event
  /-- a new request reaches its handler, which sends the first `HGETALL` -/
  | request (call : Call)
  /-- redis answers the command that request `id` waits for -/
  | reply (id : ℕ)
  /-- redis answers the second `checkOverLogin` of request `id` -/
  | innerReply (id : ℕ)
  /-- a worker of the WebServer frees its port -/
  | release (worker : ℕ)
  deriving DecidableEq, Repr

/-- One reply to request `r`, which has number `id`. -/
def State.reply (s : State) (id : ℕ) (r : Request) : State :=
  match r.phase with
  | .checkOverLogin =>
      { s with requests := s.requests.set id (r.onCheckOverLogin (s.lists .sessionList1)) }
  | .loadBalancer =>
      { s with requests := s.requests.set id (r.onLoadBalancer (s.lists r.call.target)) }
  | .setSession index =>
      { lists := setSession s.lists r.call.target index r.call.text
        requests := s.requests.set id { r with phase := .answered (.url index) }
        messages := s.messages ++ [r.call.vmMessage index]
        holder := Function.update s.holder r.call.target
          (Function.update (s.holder r.call.target) index (some r.call.text)) }
  | .answered _ => s

def step (s : State) : Event → State
  | .request call =>
      { s with requests := s.requests ++ [⟨call, true, false, .checkOverLogin⟩] }
  | .reply id =>
      match s.requests[id]? with
      | none => s
      | some r => s.reply id r
  | .innerReply id =>
      match s.requests[id]? with
      | none => s
      | some r => { s with requests := s.requests.set id (r.onInner (s.lists .sessionList2)) }
  | .release worker =>
      { s with
        lists := setSession s.lists .sessionList2 worker nullText
        holder := Function.update s.holder .sessionList2
          (Function.update (s.holder .sessionList2) worker none) }

/-- The server has started and nobody has asked for anything. -/
def init : State := ⟨initRedis, [], [], fun _ _ => none⟩

/-! ## The two scans -/

theorem freeIndex_pos (reply : SessionList) : 1 ≤ freeIndex reply := le_scan 1 3

theorem freeIndex_free {reply : SessionList} (h : freeIndex reply ≤ 3) :
    reply (freeIndex reply) = some nullText := by
  have hstop : scan (fun index => reply index == some nullText) 1 3 < 1 + 3 :=
    Nat.lt_succ_of_le h
  exact eq_of_beq (scan_hit hstop)

theorem freeIndex_le_iff {reply : SessionList} :
    freeIndex reply ≤ 3 ↔ ∃ k, 1 ≤ k ∧ k ≤ 3 ∧ reply k = some nullText := by
  have hiff := @scan_lt_iff (fun index => reply index == some nullText) 1 3
  simp only [beq_iff_eq] at hiff
  refine ⟨?_, ?_⟩
  · intro h
    obtain ⟨k, hlo, hhi, hk⟩ := hiff.mp (Nat.lt_succ_of_le h)
    exact ⟨k, hlo, by omega, hk⟩
  · intro hcase
    obtain ⟨k, hlo, hhi, hk⟩ := hcase
    exact Nat.le_of_lt_succ (hiff.mpr ⟨k, hlo, by omega, hk⟩)

theorem checkOverLogin_iff {email : Option Email} {reply : SessionList} :
    checkOverLogin email reply = true ↔ ∃ k, 1 ≤ k ∧ k ≤ 3 ∧ reply k = email := by
  have hiff := @scan_lt_iff (fun index => reply index == email) 1 3
  simp only [beq_iff_eq] at hiff
  unfold checkOverLogin
  refine ⟨?_, ?_⟩
  · intro h
    split at h
    · simp at h
    · obtain ⟨k, hlo, hhi, hk⟩ := hiff.mp (by omega)
      exact ⟨k, hlo, by omega, hk⟩
  · intro hcase
    obtain ⟨k, hlo, hhi, hk⟩ := hcase
    have := hiff.mpr ⟨k, hlo, by omega, hk⟩
    rw [if_neg (by omega)]

/-! ## What one event can do

Every invariant below is read off these two lemmas, which say where a slot's
content and a pending write come from. -/

theorem Request.onCheckOverLogin_phase (r : Request) (reply : SessionList) :
    (r.onCheckOverLogin reply).phase = .answered .dup ∨
      (r.onCheckOverLogin reply).phase = .loadBalancer := by
  unfold Request.onCheckOverLogin
  by_cases hdup : checkOverLogin r.call.email reply
  · simp [hdup]
  · by_cases hcheck : r.check = false <;> simp [hdup, hcheck]

@[simp] theorem Request.onCheckOverLogin_call (r : Request) (reply : SessionList) :
    (r.onCheckOverLogin reply).call = r.call := by
  unfold Request.onCheckOverLogin
  dsimp only
  split <;> split <;> rfl

@[simp] theorem Request.onInner_call (r : Request) (reply : SessionList) :
    (r.onInner reply).call = r.call := by
  unfold Request.onInner
  split <;> rfl

@[simp] theorem Request.onInner_phase (r : Request) (reply : SessionList) :
    (r.onInner reply).phase = r.phase := by
  unfold Request.onInner
  split <;> rfl

@[simp] theorem Request.onLoadBalancer_call (r : Request) (reply : SessionList) :
    (r.onLoadBalancer reply).call = r.call := by
  unfold Request.onLoadBalancer
  dsimp only
  split <;> rfl

theorem Request.onLoadBalancer_phase {r : Request} {reply : SessionList} {k : ℕ}
    (h : (r.onLoadBalancer reply).phase = .setSession k) : k = freeIndex reply ∧ k ≤ 3 := by
  unfold Request.onLoadBalancer at h
  dsimp only at h
  split at h
  · rename_i hle
    have hk : freeIndex reply = k := by simpa using h
    exact ⟨hk.symm, hk ▸ hle⟩
  · simp at h

/-- A slot is left alone, written by a request that waited to write it, or
released by its worker. -/
theorem slot_step (s : State) (event : Event) (name : ListName) (k : ℕ) :
    ((step s event).lists name k = s.lists name k ∧
        (step s event).holder name k = s.holder name k) ∨
      (∃ id r, event = .reply id ∧ s.requests[id]? = some r ∧ r.phase = .setSession k ∧
        r.call.target = name ∧ (step s event).lists name k = some r.call.text ∧
        (step s event).holder name k = some r.call.text) ∨
      (event = .release k ∧ name = .sessionList2 ∧ (step s event).lists name k = some nullText ∧
        (step s event).holder name k = none) := by
  cases event with
  | request call => exact Or.inl ⟨rfl, rfl⟩
  | innerReply id =>
      cases hr : s.requests[id]? with
      | none => simp [step, hr]
      | some r => simp [step, hr]
  | release worker =>
      by_cases hslot : name = .sessionList2 ∧ k = worker
      · obtain ⟨rfl, rfl⟩ := hslot
        exact Or.inr (Or.inr ⟨rfl, rfl, by simp [step], by simp [step]⟩)
      · have hother := not_and_or.mp hslot
        exact Or.inl ⟨setSession_of_ne hother, update_slot_of_ne hother⟩
  | reply id =>
      cases hr : s.requests[id]? with
      | none => simp [step, hr]
      | some r =>
          cases hphase : r.phase with
          | checkOverLogin => simp [step, hr, State.reply, hphase]
          | loadBalancer => simp [step, hr, State.reply, hphase]
          | answered answer => simp [step, hr, State.reply, hphase]
          | setSession index =>
              by_cases hslot : name = r.call.target ∧ k = index
              · obtain ⟨rfl, rfl⟩ := hslot
                exact Or.inr (Or.inl ⟨id, r, rfl, hr, hphase, rfl,
                  by simp [step, hr, State.reply, hphase],
                  by simp [step, hr, State.reply, hphase]⟩)
              · have hother := not_and_or.mp hslot
                simp only [step, hr, State.reply, hphase]
                exact Or.inl ⟨setSession_of_ne hother, update_slot_of_ne hother⟩

/-- Where a request found after a step comes from: it was there before, or has
just arrived; and a write it waits to make was pending before, or it has just
found the slot by `LoadBalancer`'s scan. -/
structure Origin (s : State) (event : Event) (r : Request) : Prop where
  call : (∃ r₀ ∈ s.requests, r₀.call = r.call) ∨ event = .request r.call
  pending : ∀ k, r.phase = .setSession k →
    (∃ r₀ ∈ s.requests, r₀.call = r.call ∧ r₀.phase = .setSession k) ∨
      ∃ id r₀, event = .reply id ∧ s.requests[id]? = some r₀ ∧ r₀.phase = .loadBalancer ∧
        r₀.call = r.call ∧ k = freeIndex (s.lists r.call.target) ∧ k ≤ 3

theorem request_step {s : State} {event : Event} {r : Request}
    (hmem : r ∈ (step s event).requests) : Origin s event r := by
  have hold : r ∈ s.requests → Origin s event r := fun h =>
    ⟨Or.inl ⟨r, h, rfl⟩, fun k hk => Or.inl ⟨r, h, rfl, hk⟩⟩
  cases event with
  | request call =>
      rcases List.mem_append.mp hmem with hmem | hmem
      · exact hold hmem
      · rw [List.mem_singleton] at hmem
        subst hmem
        exact ⟨Or.inr rfl, by simp⟩
  | release worker => exact hold hmem
  | innerReply id =>
      cases hr : s.requests[id]? with
      | none => exact hold (by simpa [step, hr] using hmem)
      | some r₀ =>
          have hr₀ := List.mem_of_getElem? hr
          simp only [step, hr] at hmem
          rcases List.mem_or_eq_of_mem_set hmem with hmem | rfl
          · exact hold hmem
          · exact ⟨Or.inl ⟨r₀, hr₀, by simp⟩,
              fun k hk => Or.inl ⟨r₀, hr₀, by simp, by simpa using hk⟩⟩
  | reply id =>
      cases hr : s.requests[id]? with
      | none => exact hold (by simpa [step, hr] using hmem)
      | some r₀ =>
          have hr₀ := List.mem_of_getElem? hr
          simp only [step, hr] at hmem
          cases hphase : r₀.phase with
          | answered answer => exact hold (by simpa [State.reply, hphase] using hmem)
          | checkOverLogin =>
              simp only [State.reply, hphase] at hmem
              rcases List.mem_or_eq_of_mem_set hmem with hmem | rfl
              · exact hold hmem
              · refine ⟨Or.inl ⟨r₀, hr₀, by simp⟩, fun k hk => ?_⟩
                rcases r₀.onCheckOverLogin_phase (s.lists .sessionList1) with h | h <;>
                  simp [h] at hk
          | loadBalancer =>
              simp only [State.reply, hphase] at hmem
              rcases List.mem_or_eq_of_mem_set hmem with hmem | rfl
              · exact hold hmem
              · refine ⟨Or.inl ⟨r₀, hr₀, by simp⟩, fun k hk => Or.inr ?_⟩
                obtain ⟨hfree, hle⟩ := Request.onLoadBalancer_phase hk
                exact ⟨id, r₀, rfl, hr, hphase, by simp, by simpa using hfree, hle⟩
          | setSession index =>
              simp only [State.reply, hphase] at hmem
              rcases List.mem_or_eq_of_mem_set hmem with hmem | rfl
              · exact hold hmem
              · exact ⟨Or.inl ⟨r₀, hr₀, rfl⟩, by simp⟩

end SsmIaas.LoadBalancer
