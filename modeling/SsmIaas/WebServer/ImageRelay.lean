import SsmIaas.Lib.JavaScript
import SsmIaas.Player.Stream

/-!
# From the encoder to the players

A worker of `bin/www` takes the video that QEMU's encoder posts and sends every part of it to
all browsers with an open image socket, which get a header with the size of the picture
first.  Each browser cuts what it gets into pictures by itself (`Player/Stream.lean`).

`relayed_pictures_consecutive` is about the worker with all its browsers, whoever connects
and leaves when: the pictures of a browser are consecutive parts of what was posted with the
right secret since it connected, with the header in front.
-/

namespace SsmIaas.WebServer

open Lib Player

inductive ReadyState
  | connecting | open | closing | closed
  deriving DecidableEq, Repr

/-- An image socket, with the player at its other end. -/
structure ImageClient where
  readyState : ReadyState
  browser : Receiver
  deriving DecidableEq, Repr

/-- `buffer.writeUInt16BE (value)`. -/
def uint16BE (value : ℕ) : List UInt8 := [UInt8.ofNat (value / 256), UInt8.ofNat (value % 256)]

/-- The magic bytes `jsmp`, the width and the height. -/
def streamHeader : List UInt8 := [0x6a, 0x73, 0x6d, 0x70] ++ uint16BE 768 ++ uint16BE 1280

/-- `request.url.substr (1).split ('/') [0]`. -/
def firstParam (url : String) : String :=
  String.ofList ((url.toList.drop 1).takeWhile (· != '/'))

/-- `params[0] == IMAGE_STREAM_SECRET`, where the secret is the number 1234.  The numbers in the
interval are those whose nearest double is 1234. -/
def secretGiven (url : String) : Bool :=
  readsBetween (1234 - 1 / 2 ^ 43) (1234 + 1 / 2 ^ 43) (firstParam url)

inductive ImageEvent
  /-- A browser opens an image socket. -/
  | connect
  /-- A part of the body of a request. -/
  | data (url : String) (bytes : List UInt8)
  /-- The state of a socket changes; sockets are numbered as they come. -/
  | state (i : ℕ) (readyState : ReadyState)
  /-- A browser has an animation frame. -/
  | frame (i : ℕ)
  deriving DecidableEq, Repr

namespace ImageRelay

/-- A browser gets an event of its own. -/
def ImageClient.give (client : ImageClient) (event : Receiver.Event) : ImageClient :=
  { client with browser := client.browser.step event }

def onConnection (size : ℕ) : ImageClient :=
  ⟨.open, (Receiver.initSocketClient size).step (.message streamHeader)⟩

def broadcast (clients : List ImageClient) (bytes : List UInt8) : List ImageClient :=
  clients.map fun client =>
    if client.readyState = .open then ImageClient.give client (.message bytes) else client

def step (size : ℕ) (clients : List ImageClient) : ImageEvent → List ImageClient
  | .connect => clients ++ [onConnection size]
  | .data url bytes => if secretGiven url then broadcast clients bytes else clients
  | .state i readyState => clients.modify i fun client => { client with readyState := readyState }
  | .frame i => clients.modify i fun client => ImageClient.give client .frame

/-- What an event is to an open socket. -/
def feed (i : ℕ) : ImageEvent → Option Receiver.Event
  | .connect => none
  | .data url bytes => if secretGiven url then some (.message bytes) else none
  | .state _ _ => none
  | .frame j => if j = i then some .frame else none

/-- The bytes that are posted with the right secret. -/
def posted : ImageEvent → List UInt8
  | .data url bytes => if secretGiven url then bytes else []
  | _ => []

/-- The socket stays as it is. -/
def Stays (i : ℕ) : ImageEvent → Prop
  | .state j _ => j ≠ i
  | _ => True

instance (i : ℕ) : DecidablePred (Stays i)
  | .state j _ => inferInstanceAs (Decidable (j ≠ i))
  | .connect => isTrue trivial
  | .data _ _ => isTrue trivial
  | .frame _ => isTrue trivial

variable {size i : ℕ} {clients : List ImageClient} {browser : Receiver}

theorem getElem?_step {event : ImageEvent} (hopen : clients[i]? = some ⟨.open, browser⟩)
    (hstays : Stays i event) :
    (step size clients event)[i]? =
      some ⟨.open, ((feed i event).toList).foldl Receiver.step browser⟩ := by
  cases event with
  | connect =>
      have hlt : i < clients.length := (List.getElem?_eq_some_iff.mp hopen).1
      rw [step, List.getElem?_append_left hlt, hopen]
      rfl
  | data url bytes =>
      cases hsecret : secretGiven url with
      | true =>
          simp only [step, feed, hsecret, if_true, broadcast, List.getElem?_map, hopen,
            Option.map_some]
          rfl
      | false =>
          simp only [step, feed, hsecret, Bool.false_eq_true, if_false, hopen]
          rfl
  | state j readyState =>
      rw [step, List.getElem?_modify_ne _ _ hstays, hopen]
      rfl
  | frame j =>
      by_cases hji : j = i
      · simp only [step, feed, hji, if_true, List.getElem?_modify_eq, hopen]
        rfl
      · simp only [step, feed, hji, if_false, List.getElem?_modify_ne _ _ hji, hopen]
        rfl

/-- The player of a socket that stays open is where its own events take it. -/
theorem getElem?_run {events : List ImageEvent} (hopen : clients[i]? = some ⟨.open, browser⟩)
    (hstays : ∀ event ∈ events, Stays i event) :
    (run (step size) clients events)[i]? =
      some ⟨.open, run Receiver.step browser (events.filterMap (feed i))⟩ := by
  induction events generalizing clients browser with
  | nil => exact hopen
  | cons event rest ih =>
      rw [List.forall_mem_cons] at hstays
      rw [run_cons, ih (getElem?_step hopen hstays.1) hstays.2]
      cases hfeed : feed i event with
      | none => rw [List.filterMap_cons_none hfeed]; rfl
      | some own => rw [List.filterMap_cons_some hfeed]; rfl

/-- The events of a browser from the moment it connects. -/
def browserEvents (i : ℕ) (after : List ImageEvent) : List Receiver.Event :=
  .message streamHeader :: after.filterMap (feed i)

/-- The player of a socket that was opened and stays open. -/
theorem getElem?_run_connect {before after : List ImageEvent}
    (hi : i = (run (step size) [] before).length) (hstays : ∀ event ∈ after, Stays i event) :
    (run (step size) [] (before ++ .connect :: after))[i]? =
      some ⟨.open, run Receiver.step (Receiver.initSocketClient size) (browserEvents i after)⟩ := by
  have hconnect : (step size (run (step size) [] before) .connect)[i]? =
      some (onConnection size) := by
    rw [hi]
    exact List.getElem?_concat_length
  rw [run_append, run_cons, getElem?_run hconnect hstays]
  rfl

theorem bytes_filterMap_feed (i : ℕ) (events : List ImageEvent) :
    (events.filterMap (feed i)).flatMap Receiver.Event.bytes = events.flatMap posted := by
  induction events with
  | nil => rfl
  | cons event rest ih =>
      have hhead : (feed i event).toList.flatMap Receiver.Event.bytes = posted event := by
        cases event with
        | connect => rfl
        | data url bytes =>
            cases hsecret : secretGiven url <;> simp [feed, posted, hsecret, Receiver.Event.bytes]
        | state j readyState => rfl
        | frame j => by_cases hji : j = i <;> simp [feed, posted, hji, Receiver.Event.bytes]
      rw [List.flatMap_cons, ← ih, ← hhead, List.filterMap_cons]
      cases feed i event <;> simp

/-- The pictures of a browser are consecutive parts of the header and what was posted since it
connected, each cut right behind a start code, unless its buffer is overrun. -/
theorem relayed_pictures_consecutive (size : ℕ) (before after : List ImageEvent) (i : ℕ)
    (hi : i = (run (step size) [] before).length) (hstays : ∀ event ∈ after, Stays i event)
    (hroom : Along Receiver.step Receiver.NoOverrun (Receiver.initSocketClient size)
      (browserEvents i after)) :
    ∃ browser, (run (step size) [] (before ++ .connect :: after))[i]? = some ⟨.open, browser⟩ ∧
      (browser.pictures ≠ [] → ∃ front rest,
        streamHeader ++ after.flatMap posted = front ++ browser.pictures.flatten ++ rest ∧
        ∀ k, Receiver.pictureStart <:+ front ++ (browser.pictures.take k).flatten) := by
  refine ⟨_, getElem?_run_connect hi hstays, fun hpictures => ?_⟩
  obtain ⟨front, rest, hbytes, hstarts⟩ :=
    Receiver.pictures_consecutive size (browserEvents i after) hroom hpictures
  refine ⟨front, rest, ?_, hstarts⟩
  rw [← hbytes, browserEvents, List.flatMap_cons, bytes_filterMap_feed]
  rfl

/-- What is posted after the second browser has come, partly with a wrong secret, while the
first one leaves. -/
def afterSecond : List ImageEvent :=
  [.data "/1234/" [0, 0, 1, 0, 0, 8], .data "/4321/" [1, 2, 3], .data "/1234" [7, 7, 7, 7, 7],
    .state 0 .closed, .data "/1234/768/1280/" [0, 0, 1, 0, 9]]

theorem relayed_pictures_consecutive_second :
    (run (step 22) [] ([.connect, .data "/1234/" [5]] ++ .connect :: afterSecond)).map
        (fun client => client.browser.pictures) = [[], [[0, 8, 7, 7, 7, 7, 7, 0, 0, 1, 0]]] ∧
      ∃ browser,
        (run (step 22) [] ([.connect, .data "/1234/" [5]] ++ .connect :: afterSecond))[1]? =
          some ⟨.open, browser⟩ ∧
        (browser.pictures ≠ [] → ∃ front rest,
          streamHeader ++ afterSecond.flatMap posted = front ++ browser.pictures.flatten ++ rest ∧
          ∀ k, Receiver.pictureStart <:+ front ++ (browser.pictures.take k).flatten) := by
  have hsecond := relayed_pictures_consecutive 22 [.connect, .data "/1234/" [5]] afterSecond 1
    (by decide +kernel) (by decide +kernel) (by decide +kernel)
  exact ⟨by decide +kernel, hsecond⟩

end ImageRelay

end SsmIaas.WebServer
