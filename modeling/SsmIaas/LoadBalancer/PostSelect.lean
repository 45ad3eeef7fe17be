import SsmIaas.LoadBalancer.ImageDAO
import SsmIaas.LoadBalancer.Sequential

/-!
# A POST to `/select`, with and without a login

This module has the whole dispatch of `routes/select.js`, for one request that runs by
itself, with what its callbacks do when the database reports an error and when the
connection to VMManager comes about.  A throw in the handler is caught by Express; one in
a callback ends the process.

No handler asks whether there is a member at all.  For a session without `MemberEmail`,
`undefined` goes where the e-mail should.  It never reaches VMManager, since
`id.toString ()` throws before anything is written (`anonymous_sends_nothing`), but it
throws in the connect callback.  Before that, `requestCreateOS` has inserted its document,
and a start or install has marked a free port as taken.  `anonymous_harmless_iff` lists
the requests that leave no trace.

Both session lists exist: `initRedis` fills them before the server listens, and no code
removes a field, so `HGETALL` never answers `null`.
-/

namespace SsmIaas.LoadBalancer

open Lib

/-- What is done with the values of a request body, further to `ValueOps`. -/
structure BodyOps (Value : Type*) extends ValueOps Value where
  /-- `value == text`, or `none` if the conversion of the value throws -/
  equalsText : Value → String → Option Bool
  /-- the text of the value, or `none` if the conversion throws -/
  toText : Value → Option JsText

/-- Bodies whose fields are strings or missing, as an HTML form sends them. -/
def formFields : BodyOps (Option String) where
  text value := value
  selects query value := query == value
  equalsText value text := some (value == some text)
  toText value := some (value.map utf8)

/-- The fields of a body that the handlers read. -/
structure SelectBody (Value : Type*) where
  actionTarget : Value
  index : Value
  imageVersion : Value

/-- Redis and the database. -/
structure Store (Value : Type*) where
  lists : Sessions
  images : List (ImageRecord Value)
  indexers : Indexers

/-- What a request meets outside: the client's address, whether the database reports an
error, and whether the connection to VMManager is made. -/
structure Surroundings where
  ip : JsText
  databaseError : Bool
  connected : Bool

/-- What a request leaves behind: the stores, what was written to VMManager, and whether
a callback threw. -/
structure Outcome (Value : Type*) where
  store : Store Value
  messages : List Bytes
  uncaught : Bool

inductive Handler
  | requestOSDisplay
  | requestOSList
  | requestCreateOS
  | requestDeleteOS
  | requestStartOS
  | requestInstallOS
  deriving DecidableEq, Repr

/-- The comparisons of `checkTarget`, in their order. -/
def handlers : List (String × Handler) :=
  [("requestOSDisplay", .requestOSDisplay), ("requestOSList", .requestOSList),
    ("requestCreateOS", .requestCreateOS), ("requestDeleteOS", .requestDeleteOS),
    ("requestStartOS", .requestStartOS), ("requestInstallOS", .requestInstallOS)]

section

variable {Value : Type*} (ops : BodyOps Value) (around : Surroundings) (store : Store Value)

/-- The chain of `if (checkTarget == ..)`. -/
def handlerOf (actionTarget : Value) : Option Handler :=
  go handlers
where
  go : List (String × Handler) → Option Handler
    | [] => none
    | (name, handler) :: rest =>
        match ops.equalsText actionTarget name with
        | none => none
        | some true => some handler
        | some false => go rest

/-- The connect callback of a function of `SocketUtil.js`: what is written, and whether
it throws.  Without a connection there is only a line in the log. -/
def onConnect (message : Option Bytes) : List Bytes × Bool :=
  if around.connected then
    match message with
    | some bytes => ([bytes], false)
    | none => ([], true)
  else ([], false)

def requestCreateOS (email : Option Email) (imageVersion : Value) : Outcome Value :=
  match getIndexers (initIndexers store.indexers) with
  | none => ⟨{ store with indexers := initIndexers store.indexers }, [], true⟩
  | some (index, indexers) =>
      let id := email.map utf8
      let images :=
        if around.databaseError then store.images
        else insertImage store.images index id imageVersion
      match ops.equalsText imageVersion "androidx86" with
      | none => ⟨{ store with images, indexers }, [], true⟩
      | some _ =>
          let (messages, thrown) :=
            onConnect around (createMessage ops.toValueOps imageVersion index id)
          -- the callback of the insert throws when there was an error
          ⟨{ store with images, indexers }, messages, around.databaseError || thrown⟩

def requestDeleteOS (email : Option Email) (index imageVersion : Value) : Outcome Value :=
  match ops.toText index with
  -- `parseInt` throws, in the handler itself
  | none => ⟨store, [], false⟩
  | some text =>
      -- `console.error (error)` names a variable that does not exist
      if around.databaseError then ⟨store, [], true⟩
      else
        let id := email.map utf8
        let images := (deleteImage ops.toValueOps store.images text id imageVersion).2
        match ops.equalsText imageVersion "androidx86" with
        | none => ⟨{ store with images }, [], true⟩
        | some _ =>
            let (messages, thrown) :=
              onConnect around (deleteMessage ops.toValueOps imageVersion text id)
            ⟨{ store with images }, messages, thrown⟩

/-- `requestStartOS` for `sessionList1` and `requestInstallOS` for `sessionList2`. -/
def requestPort (email : Option Email) (target : ListName) (index imageVersion : Value) :
    Outcome Value :=
  let call : Call :=
    ⟨email, target, (ops.toText index).join, ops.osType imageVersion, around.ip⟩
  match serve store.lists email target with
  | (lists, .url port) =>
      let (messages, thrown) := onConnect around (call.vmMessage port)
      ⟨{ store with lists }, messages, thrown⟩
  | (lists, _) => ⟨{ store with lists }, [], false⟩

/-- `router.post ('/', ..)` for a session with this `MemberEmail`. -/
def postSelect (email : Option Email) (body : SelectBody Value) : Outcome Value :=
  match handlerOf ops body.actionTarget with
  | some .requestCreateOS => requestCreateOS ops around store email body.imageVersion
  | some .requestDeleteOS => requestDeleteOS ops around store email body.index body.imageVersion
  | some .requestStartOS =>
      requestPort ops around store email .sessionList1 body.index body.imageVersion
  | some .requestInstallOS =>
      requestPort ops around store email .sessionList2 body.index body.imageVersion
  | some .requestOSDisplay => ⟨store, [], false⟩
  | some .requestOSList => ⟨store, [], false⟩
  | none => ⟨store, [], false⟩

/-! ## What an anonymous request should do -/

/-- Images and session lists are as they were, VMManager got nothing, and nothing was
thrown in a callback. -/
structure Harmless (outcome : Outcome Value) : Prop where
  lists : outcome.store.lists = store.lists
  images : outcome.store.images = store.images
  messages : outcome.messages = []
  uncaught : outcome.uncaught = false

/-- `undefined` passes for a member who is logged in, because a port is missing from the
list, or no port is free. -/
def NoPort (lists : Sessions) (target : ListName) : Prop :=
  (∃ k, 1 ≤ k ∧ k ≤ 3 ∧ lists .sessionList1 k = none) ∨
    ∀ k, 1 ≤ k → k ≤ 3 → lists target k ≠ some nullText

/-- A delete that finds nothing and gets no connection. -/
structure DeletesNothing (text : JsText) (imageVersion : Value) : Prop where
  connected : around.connected = false
  databaseError : around.databaseError = false
  comparable : ops.equalsText imageVersion "androidx86" ≠ none
  images : ∀ record ∈ store.images, ops.deletes text none imageVersion record = false

/-- The anonymous requests that leave no trace. -/
def LeavesNoTrace (body : SelectBody Value) : Prop :=
  match handlerOf ops body.actionTarget with
  | some .requestCreateOS => False
  | some .requestDeleteOS =>
      ∀ text, ops.toText body.index = some text →
        DeletesNothing ops around store text body.imageVersion
  | some .requestStartOS => NoPort store.lists .sessionList1
  | some .requestInstallOS => NoPort store.lists .sessionList2
  | some .requestOSDisplay => True
  | some .requestOSList => True
  | none => True

/-! ## Handler by handler -/

variable {ops around store}

theorem message_eq_none {fields : List JsText} (h : none ∈ fields) : message fields = none := by
  induction fields with
  | nil => simp at h
  | cons field rest ih =>
      cases field with
      | none => rfl
      | some text =>
          have hrest : none ∈ rest := by simpa using h
          rw [message_some_cons, ih hrest]
          rfl

theorem createMessage_anonymous (imageVersion : Value) (index : ℕ) :
    createMessage ops.toValueOps imageVersion index none = none :=
  message_eq_none (by simp)

theorem deleteMessage_anonymous (imageVersion : Value) (text : JsText) :
    deleteMessage ops.toValueOps imageVersion text none = none :=
  message_eq_none (by simp)

theorem vmMessage_anonymous {call : Call} (h : call.email = none) (port : ℕ) :
    call.vmMessage port = none := by
  unfold Call.vmMessage
  rw [h]
  cases call.target with
  | sessionList1 => exact message_eq_none (by simp)
  | sessionList2 => exact message_eq_none (by simp)

@[simp] theorem onConnect_none : onConnect around none = ([], around.connected) := by
  unfold onConnect
  cases around.connected <;> rfl

theorem not_harmless {outcome : Outcome Value} (h : outcome.uncaught = true) :
    ¬ Harmless store outcome := by
  intro hharmless
  have huncaught := hharmless.uncaught
  rw [h] at huncaught
  cases huncaught

/-- A create without a login inserts a document, or throws. -/
theorem create_anonymous (imageVersion : Value) :
    (requestCreateOS ops around store none imageVersion).messages = [] ∧
      ¬ Harmless store (requestCreateOS ops around store none imageVersion) := by
  have hindex : getIndexers (initIndexers store.indexers) =
      some (store.indexers.getD 0 + 1, some (store.indexers.getD 0 + 1)) := rfl
  unfold requestCreateOS
  simp only [hindex, Option.map_none, createMessage_anonymous, onConnect_none]
  cases ops.equalsText imageVersion "androidx86" with
  | none => exact ⟨rfl, not_harmless rfl⟩
  | some equal =>
      refine ⟨rfl, ?_⟩
      intro h
      obtain ⟨-, himages, -, huncaught⟩ := h
      cases hdb : around.databaseError with
      | true => simp [hdb] at huncaught
      | false => simp [hdb, insertImage] at himages

theorem deleteImage_eq_self_iff {text id : JsText} {imageVersion : Value} :
    (deleteImage ops.toValueOps store.images text id imageVersion).2 = store.images ↔
      ∀ record ∈ store.images, ops.deletes text id imageVersion record = false := by
  simp [deleteImage]

theorem delete_anonymous (index imageVersion : Value) :
    (requestDeleteOS ops around store none index imageVersion).messages = [] ∧
      (Harmless store (requestDeleteOS ops around store none index imageVersion) ↔
        ∀ text, ops.toText index = some text →
          DeletesNothing ops around store text imageVersion) := by
  unfold requestDeleteOS
  cases htext : ops.toText index with
  | none => exact ⟨rfl, fun _ => by simp, fun _ => ⟨rfl, rfl, rfl, rfl⟩⟩
  | some text =>
      cases hdb : around.databaseError with
      | true =>
          refine ⟨rfl, fun h => absurd h (not_harmless rfl), fun h => ?_⟩
          have hnone := (h text rfl).databaseError
          rw [hdb] at hnone
          cases hnone
      | false =>
          simp only [Option.map_none, deleteMessage_anonymous, onConnect_none]
          cases hequal : ops.equalsText imageVersion "androidx86" with
          | none =>
              exact ⟨rfl, fun h => absurd h (not_harmless rfl),
                fun h => absurd hequal (h text rfl).comparable⟩
          | some equal =>
              refine ⟨rfl, fun h text' heq => ?_, fun h => ?_⟩
              · obtain rfl : text = text' := Option.some.inj heq
                exact ⟨h.uncaught, hdb, by simp [hequal], deleteImage_eq_self_iff.mp h.images⟩
              · have hnothing := h text rfl
                exact ⟨rfl, deleteImage_eq_self_iff.mpr hnothing.images, rfl, hnothing.connected⟩

theorem checkOverLogin_none {reply : SessionList} :
    checkOverLogin none reply = true ↔ ∃ k, 1 ≤ k ∧ k ≤ 3 ∧ reply k = none :=
  checkOverLogin_iff

/-- A start or install without a login takes a free port, if there is one. -/
theorem port_anonymous (target : ListName) (index imageVersion : Value) :
    (requestPort ops around store none target index imageVersion).messages = [] ∧
      (Harmless store (requestPort ops around store none target index imageVersion) ↔
        NoPort store.lists target) := by
  unfold requestPort
  by_cases hdup : checkOverLogin none (store.lists .sessionList1) = true
  · rw [serve_dup hdup]
    exact ⟨rfl, fun _ => Or.inl (checkOverLogin_none.mp hdup), fun _ => ⟨rfl, rfl, rfl, rfl⟩⟩
  · have hlogin := hdup
    rw [Bool.not_eq_true] at hdup
    by_cases hfree : freeIndex (store.lists target) ≤ 3
    · rw [serve_grant hdup hfree]
      simp only [vmMessage_anonymous, onConnect_none]
      refine ⟨trivial, fun h => ?_, fun h => ?_⟩
      · -- the free port now says `undefined`
        have hslot := congrFun (congrFun h.lists target) (freeIndex (store.lists target))
        rw [freeIndex_free hfree] at hslot
        simp [storedText, nullText] at hslot
      · rcases h with hmissing | htaken
        · exact absurd (checkOverLogin_none.mpr hmissing) hlogin
        · exact absurd (freeIndex_free hfree) (htaken _ (freeIndex_pos _) hfree)
    · rw [serve_full hdup hfree]
      refine ⟨rfl, fun _ => Or.inr ?_, fun _ => ⟨rfl, rfl, rfl, rfl⟩⟩
      intro k hlo hhi hnull
      exact hfree (freeIndex_le_iff.mpr ⟨k, hlo, hhi, hnull⟩)

/-- Whatever the request, VMManager gets nothing from an anonymous session. -/
theorem anonymous_sends_nothing (body : SelectBody Value) :
    (postSelect ops around store none body).messages = [] := by
  unfold postSelect
  cases handlerOf ops body.actionTarget with
  | none => rfl
  | some handler =>
      cases handler with
      | requestOSDisplay => rfl
      | requestOSList => rfl
      | requestCreateOS => exact (create_anonymous _).1
      | requestDeleteOS => exact (delete_anonymous _ _).1
      | requestStartOS => exact (port_anonymous _ _ _).1
      | requestInstallOS => exact (port_anonymous _ _ _).1

end

/-- **Anonymous requests.**  A POST to `/select` without a login leaves images and session
lists as they are, sends nothing and throws in no callback, if and only if it is a
request to display or list, or none of the six; a start or install when no port is to be
had; or a delete that finds nothing and gets no connection. -/
theorem anonymous_harmless_iff {Value : Type*} (ops : BodyOps Value) (around : Surroundings)
    (store : Store Value) (body : SelectBody Value) :
    Harmless store (postSelect ops around store none body) ↔
      LeavesNoTrace ops around store body := by
  unfold postSelect LeavesNoTrace
  cases handlerOf ops body.actionTarget with
  | none => exact ⟨fun _ => trivial, fun _ => ⟨rfl, rfl, rfl, rfl⟩⟩
  | some handler =>
      cases handler with
      | requestOSDisplay => exact ⟨fun _ => trivial, fun _ => ⟨rfl, rfl, rfl, rfl⟩⟩
      | requestOSList => exact ⟨fun _ => trivial, fun _ => ⟨rfl, rfl, rfl, rfl⟩⟩
      | requestCreateOS => exact ⟨(create_anonymous _).2, False.elim⟩
      | requestDeleteOS => exact (delete_anonymous _ _).2
      | requestStartOS => exact (port_anonymous _ _ _).2
      | requestInstallOS => exact (port_anonymous _ _ _).2

/-- After the start of the server, a form with `action_target=requestStartOS` and a
connection to VMManager: port 1 is taken by `undefined`, and the process ends.  A form
with `action_target=requestCreateOS` leaves an image that belongs to nobody. -/
theorem anonymous_takes_port :
    let around : Surroundings := ⟨none, false, true⟩
    let store : Store (Option String) := ⟨initRedis, [], none⟩
    let start := postSelect formFields around store none ⟨some "requestStartOS", none, none⟩
    let create := postSelect formFields around store none
      ⟨some "requestCreateOS", none, some "linux"⟩
    start.store.lists .sessionList1 1 = some "undefined" ∧ start.uncaught = true ∧
      create.store.images = [⟨1, none, some "linux"⟩] ∧ create.uncaught = true := by
  decide

end SsmIaas.LoadBalancer
