import SsmIaas.Lib.Run
import SsmIaas.LoadBalancer.PostSelect
import SsmIaas.VMManager.Wire
import Mathlib.Data.Finset.Basic

/-!
# Images in LoadBalancer's database and on the VM host

This module puts `requestCreateOS`, `requestDeleteOS` and VMManager together.
An image has two sides: a document in `Images`, and on the host the address
`(id, os, index)` of the command line that asks for it.  Each request changes the
first and tries to change the second through a message, for which the connection
may fail, and which is parsed by whichever process of VMManager accepts it.  What
`command.sh` then does for an address is in `HostFiles.lean`.

`deliver_create` and `deliver_delete` say what a message that arrives does to the
host.  They are all that is used of VMManager afterwards.
-/

namespace SsmIaas.Images

open Lib LoadBalancer VMManager

/-- The memory of the VMManager process that accepts a connection: its message
buffer, and what the uninitialised local `os[100]` holds. -/
structure Process where
  buffer : Buffer
  os : Bytes

/-- The requests; `connection` is `none` when the socket raises `error`. -/
inductive OsRequest (Value : Type*)
  | requestCreateOS (email : JsText) (imageVersion : Value) (connection : Option Process)
  | requestDeleteOS (email index : JsText) (imageVersion : Value) (connection : Option Process)

structure State (Value : Type*) where
  indexers : Indexers
  images : List (ImageRecord Value)
  /-- the addresses that a create command line asked for, and no delete since -/
  host : Finset Address
  /-- every document ever inserted -/
  created : List (ImageRecord Value)

variable {Value : Type*}

def start : State Value := ⟨none, [], ∅, []⟩

/-- What a create or delete command line asks for.  It is an upper bound of what the script
makes: `Documents.lean` has the files. -/
def carryOut (host : Finset Address) (client : ClientInfo) (os : Bytes) : Finset Address :=
  if client.command = 1 then insert (client.address os) host
  else if client.command = 2 then host.erase (client.address os)
  else host

/-- The message reaches VMManager.  When building it throws, the connection is
closed with nothing written, and VMManager parses what its buffer held. -/
def deliver (host : Finset Address) (connection : Option Process) (message : Option Bytes) :
    Finset Address :=
  match connection with
  | none => host
  | some process =>
      match parse (process.buffer.read (message.getD [])) with
      | .error _ => host
      | .ok client => carryOut host client (osName client.osType process.os)

variable (ops : ValueOps Value)

def step (s : State Value) : OsRequest Value → State Value
  | .requestCreateOS email imageVersion connection =>
      match getIndexers (initIndexers s.indexers) with
      | none => { s with indexers := initIndexers s.indexers }
      | some (index, indexers) =>
          { indexers
            images := insertImage s.images index email imageVersion
            host := deliver s.host connection (createMessage ops imageVersion index email)
            created := s.created ++ [⟨index, email, imageVersion⟩] }
  | .requestDeleteOS email index imageVersion connection =>
      { s with
        images := (deleteImage ops s.images index email imageVersion).2
        host := deliver s.host connection (deleteMessage ops imageVersion index email) }

/-- The `Index` the next create is given. -/
def State.nextIndex (s : State Value) : ℕ := s.indexers.getD 0 + 1

theorem step_create (s : State Value) (email : JsText) (imageVersion : Value)
    (connection : Option Process) :
    step ops s (.requestCreateOS email imageVersion connection) =
      { indexers := some s.nextIndex
        images := s.images ++ [⟨s.nextIndex, email, imageVersion⟩]
        host := deliver s.host connection (createMessage ops imageVersion s.nextIndex email)
        created := s.created ++ [⟨s.nextIndex, email, imageVersion⟩] } := rfl

/-! ## The handlers behind the requests

With no error in the database, and values that convert to strings, the documents and the
counter are those that the handlers of `PostSelect.lean` leave. -/

section

variable (body : BodyOps Value) {around : Surroundings} (herror : around.databaseError = false)
  {store : Store Value} {s : State Value} (himages : s.images = store.images)
  (hindexers : s.indexers = store.indexers) (email : Option Email)

include herror himages hindexers

theorem step_requestCreateOS (imageVersion : Value) (connection : Option Process) :
    let s' := step body.toValueOps s (.requestCreateOS (email.map utf8) imageVersion connection)
    let outcome := requestCreateOS body around store email imageVersion
    s'.images = outcome.store.images ∧ s'.indexers = outcome.store.indexers := by
  have hindex : getIndexers (initIndexers store.indexers) =
      some (store.indexers.getD 0 + 1, some (store.indexers.getD 0 + 1)) := rfl
  simp only [step_create, requestCreateOS, hindex, herror, State.nextIndex, himages, hindexers]
  cases body.equalsText imageVersion "androidx86" with
  | none => exact ⟨rfl, rfl⟩
  | some equal => exact ⟨rfl, rfl⟩

theorem step_requestDeleteOS {index : Value} {text : JsText} (htext : body.toText index = some text)
    (imageVersion : Value) (connection : Option Process) :
    let s' := step body.toValueOps s
      (.requestDeleteOS (email.map utf8) text imageVersion connection)
    let outcome := requestDeleteOS body around store email index imageVersion
    s'.images = outcome.store.images ∧ s'.indexers = outcome.store.indexers := by
  simp only [step, requestDeleteOS, htext, herror, himages, hindexers]
  cases body.equalsText imageVersion "androidx86" with
  | none => exact ⟨rfl, rfl⟩
  | some equal => exact ⟨rfl, rfl⟩

end

/-! ## What VMManager makes of a message -/

/-- The index that VMManager has for an `Index` of the database. -/
def clientIndex (index : ℕ) : UInt8 := .ofInt (atoi (decimal index))

theorem clientIndex_eq (index : ℕ) :
    clientIndex index = UInt8.ofNat (min index (2 ^ 63 - 1)) :=
  uint8_atoi (numeral_decimal index)

/-- The address of a member's image. -/
def imageAddress (email : Bytes) (osType : ℕ) (index : UInt8) : Address :=
  ⟨email, osName (UInt8.ofNat osType) [], decimal index.toNat⟩

theorem osName_inj {m n : ℕ} (hm : m < 4) (hn : n < 4)
    (h : osName (UInt8.ofNat m) [] = osName (UInt8.ofNat n) []) : m = n := by
  revert h
  interval_cases m <;> interval_cases n <;> decide +kernel

/-- Each of the three parts of an address can be read off it. -/
theorem imageAddress_inj {email email' : Bytes} {osType osType' : ℕ} {index index' : UInt8}
    (hos : osType < 4) (hos' : osType' < 4) :
    imageAddress email osType index = imageAddress email' osType' index' ↔
      email = email' ∧ osType = osType' ∧ index = index' := by
  refine ⟨?_, ?_⟩
  · intro h
    have hdecimal : decimal index.toNat = decimal index'.toNat := congrArg Address.index h
    exact ⟨congrArg Address.id h, osName_inj hos hos' (congrArg Address.os h),
      UInt8.toNat_inj.mp (decimal_injective hdecimal)⟩
  · intro hcase
    obtain ⟨rfl, rfl, rfl⟩ := hcase
    rfl

/-- A message of four fields, for one of the four OS types, as `command ()` sees it. -/
theorem parse_fields {sent : Bytes} (stale : Buffer) {command osType : ℕ} (index email : Word)
    (hcommand : command = 1 ∨ command = 2) (hos : osType < 4) (hlength : sent.length ≤ 500)
    (hsent : message [some (decimal command), some (decimal osType), some index.text,
      some email.text] = some sent) :
    parse (stale.read sent) = .ok ⟨.ofNat command, .ofNat osType, .ofInt (atoi index.text),
      some email.text, none⟩ := by
  let commandField : Number := .ofNat command (by omega)
  let osField : Number := .ofNat osType (by omega)
  have hshort : ¬ (UInt8.ofInt (atoi (decimal command)) = 0 ∨
      UInt8.ofInt (atoi (decimal command)) = 3) := by
    rw [show UInt8.ofInt (atoi (decimal command)) = UInt8.ofNat command from commandField.uint8]
    rcases hcommand with heq | heq <;> simp [heq]
  have hparse := parse_short commandField.word osField.word index email stale hlength hsent hshort
  rw [hparse]
  simp only [Number.word, commandField.uint8, osField.uint8]
  rfl

theorem deliver_create (host : Finset Address) (process : Process) {imageVersion : Value}
    {osType index : ℕ} {sent : Bytes} (email : Word) (hos : ops.osType imageVersion = some osType)
    (hsent : createMessage ops imageVersion index (some email.text) = some sent)
    (hlength : sent.length ≤ 500) :
    deliver host (some process) (some sent) =
      insert (imageAddress email.text osType (clientIndex index)) host := by
  have hlt : osType < 4 := ops.osType_lt hos
  have hparse := parse_fields process.buffer ⟨decimal index, (numeral_decimal index).token⟩ email
    (Or.inl rfl) hlt hlength (by simpa [createMessage, getSocketCreate, hos] using hsent)
  simp only [deliver, Option.getD_some, hparse, carryOut, osName_of_lt hlt]
  rfl

theorem deliver_delete (host : Finset Address) (process : Process) {imageVersion : Value}
    {osType : ℕ} {sent : Bytes} (index email : Word) (hos : ops.osType imageVersion = some osType)
    (hsent : deleteMessage ops imageVersion (some index.text) (some email.text) = some sent)
    (hlength : sent.length ≤ 500) :
    deliver host (some process) (some sent) =
      host.erase (imageAddress email.text osType (.ofInt (atoi index.text))) := by
  have hlt : osType < 4 := ops.osType_lt hos
  have hparse := parse_fields process.buffer index email (Or.inr rfl) hlt hlength
    (by simpa [deleteMessage, getSocketDelete, hos] using hsent)
  simp only [deliver, Option.getD_some, hparse, carryOut, osName_of_lt hlt]
  rfl

/-! ## The counter -/

/-- The documents ever inserted are numbered from 1, and the database holds some
of them. -/
structure Numbered (s : State Value) : Prop where
  indices : s.created.map ImageRecord.index = List.range' 1 s.created.length
  count : s.indexers.getD 0 = s.created.length
  sublist : s.images.Sublist s.created

theorem numbered_start : Numbered (start : State Value) := ⟨rfl, rfl, .slnil⟩

theorem numbered_step {s : State Value} (h : Numbered s) (request : OsRequest Value) :
    Numbered (step ops s request) := by
  cases request with
  | requestCreateOS email imageVersion connection =>
      rw [step_create]
      refine ⟨?_, ?_, h.sublist.append (List.Sublist.refl _)⟩
      · simp only [List.map_append, List.map_singleton, List.length_append, List.length_singleton,
          List.range'_concat, h.indices, State.nextIndex, h.count]
        simp [Nat.add_comm]
      · simp [State.nextIndex, h.count]
  | requestDeleteOS email index imageVersion connection =>
      exact ⟨h.indices, h.count, List.filter_sublist.trans h.sublist⟩

theorem numbered_run (requests : List (OsRequest Value)) :
    Numbered (run (step ops) start requests) :=
  run_invariant requests numbered_start fun _ request h => numbered_step ops h request

end SsmIaas.Images
