import SsmIaas.Qemu.EventThread
import SsmIaas.Qemu.Geometry
import SsmIaas.Qemu.TabletQueue

/-!
# From the page's mouse messages to the guest

`thread_sdl ()` turns a mouse message into a call of `sdl_send_mouse_event ()`, which keeps
the button state of the call before in `prev_state`, sends an input event for every button
that changed and two for the position, and then a sync.  Each event goes to the first handler
in the list of `input.c` that takes its kind.

A machine of `command.sh` has a PS/2 mouse and a USB tablet, both of which take buttons.  The
mouse is registered first, and the tablet comes to the front of the list only when the guest
first asks it for something (`hid_pointer_activate ()`).  Until then the pointer is relative
and the buttons go to the mouse; afterwards everything ends in the queue of `hid.c`.

`prev_state` is a copy of what the tablet knows.  It goes stale in three ways: before the
guest has asked, while the VM does not run, and when the guest resets the tablet
(`tablet_agrees_iff`).

The VMware mouse, which a guest with a driver for it can put in front of both, and the
monitor's `mouse_set` are left out.
-/

namespace SsmIaas.Qemu

open Lib WebServer

/-- `SDL_BUTTON_LEFT` to `SDL_BUTTON_WHEELDOWN`. -/
def sdlButton : InputButton → ℕ
  | .left => 1
  | .middle => 2
  | .right => 3
  | .wheelUp => 4
  | .wheelDown => 5

/-- `bmap` of `sdl_send_mouse_event ()`: `SDL_BUTTON (X)` is `1 << (X - 1)`. -/
def sdlBit (button : InputButton) : BitVec 32 := .twoPow 32 (sdlButton button - 1)

/-- The loop over `btn < INPUT_BUTTON_MAX`. -/
def inputButtons : List InputButton := [.left, .middle, .right, .wheelUp, .wheelDown]

/-- `qemu_input_update_buttons ()`: the events it queues. -/
def qemuInputUpdateButtons (buttonOld buttonNew : BitVec 32) : List PointerEvent :=
  inputButtons.filterMap fun button =>
    let mask := sdlBit button
    if buttonOld &&& mask = buttonNew &&& mask then none
    else some (.btn button (buttonNew &&& mask != 0))

/-- `qemu_input_scale_axis ()`; the product is computed in 64 bits and returned in 32. -/
def qemuInputScaleAxis (value sizeIn sizeOut : ℤ) : ℤ :=
  if sizeIn < 2 then sizeOut.tdiv 2
  else ((value * (sizeOut - 1)).tdiv (sizeIn - 1)).bmod (2 ^ 32)

/-- `INPUT_EVENT_ABS_SIZE`. -/
def inputEventAbsSize : ℤ := 0x8000

/-- `qemu_input_queue_abs ()`. -/
def qemuInputQueueAbs (axis : InputAxis) (value size : ℤ) : PointerEvent :=
  .abs axis (qemuInputScaleAxis value size inputEventAbsSize)

/-! ## Handlers -/

/-- `InputEventKind`. -/
inductive InputEventKind
  | key
  | btn
  | rel
  | abs
  deriving DecidableEq, Repr

def PointerEvent.kind : PointerEvent → InputEventKind
  | .rel _ _ => .rel
  | .abs _ _ => .abs
  | .btn _ _ => .btn

/-- The handlers of a machine that `command.sh` starts.  None is bound to a console. -/
inductive InputHandler
  | ps2Keyboard
  | ps2Mouse
  | hidTablet
  deriving DecidableEq, Repr

/-- `mask`. -/
def InputHandler.mask : InputHandler → List InputEventKind
  | .ps2Keyboard => [.key]
  | .ps2Mouse => [.btn, .rel]
  | .hidTablet => [.btn, .abs]

/-- `qemu_input_find_handler ()`. -/
def qemuInputFindHandler (handlers : List InputHandler) (mask : List InputEventKind) :
    Option InputHandler :=
  handlers.find? fun s => mask.any fun kind => s.mask.contains kind

/-- `qemu_input_handler_activate ()`. -/
def qemuInputHandlerActivate (handlers : List InputHandler) (s : InputHandler) :
    List InputHandler :=
  s :: handlers.erase s

/-- `qemu_input_is_absolute ()`. -/
def qemuInputIsAbsolute (handlers : List InputHandler) : Bool :=
  (qemuInputFindHandler handlers [.rel, .abs]).any fun s => s.mask.contains .abs

/-- `handlers`, in the order of the calls of `qemu_input_handler_register ()`. -/
def registeredHandlers : List InputHandler := [.ps2Keyboard, .ps2Mouse, .hidTablet]

/-! ## Calls -/

/-- The static variables of `sdl.c` that `sdl_send_mouse_event ()` uses. -/
structure SdlMouse where
  prevState : BitVec 32
  guestCursor : Bool
  guestX : ℤ
  guestY : ℤ
  deriving DecidableEq, Repr

/-- The events for the buttons. -/
def buttonEvents (prevState new : BitVec 32) : List PointerEvent :=
  if prevState ≠ new then qemuInputUpdateButtons prevState new else []

/-- The events for the place, if the pointer is absolute. -/
def placeEvents (screen : ScreenSize) (x y : ℤ) : List PointerEvent :=
  [qemuInputQueueAbs .x x screen.w, qemuInputQueueAbs .y y screen.h]

/-- `sdl_send_mouse_event ()`: the events before the sync, and the variables after the call.
`screen` is the size of `real_screen`. -/
def sdlSendMouseEvent (handlers : List InputHandler) (screen : ScreenSize) (mouse : SdlMouse)
    (dx dy x y state : ℤ) : List PointerEvent × SdlMouse :=
  let new := BitVec.ofInt 32 state
  let buttons := buttonEvents mouse.prevState new
  if qemuInputIsAbsolute handlers then
    (buttons ++ placeEvents screen x y, { mouse with prevState := new })
  else if mouse.guestCursor then
    let x := (x - mouse.guestX).bmod (2 ^ 32)
    let y := (y - mouse.guestY).bmod (2 ^ 32)
    (buttons ++ [.rel .x x, .rel .y y],
      { mouse with
        prevState := new
        guestX := (mouse.guestX + x).bmod (2 ^ 32)
        guestY := (mouse.guestY + y).bmod (2 ^ 32) })
  else (buttons ++ [.rel .x dx, .rel .y dy], { mouse with prevState := new })

/-- What the events of a call and its sync do to the tablet.  `qemu_input_event_send ()` and
`qemu_input_event_sync ()` do nothing while the VM does not run, and a handler that got no
event is not synced. -/
def tabletOps (handlers : List InputHandler) (running : Bool) (events : List PointerEvent) :
    List TabletOp :=
  if running then
    let own := events.filter fun evt =>
      qemuInputFindHandler handlers [evt.kind] == some .hidTablet
    own.map .event ++ if own.isEmpty then [] else [.sync]
  else []

structure Pointer where
  mouse : SdlMouse
  handlers : List InputHandler
  /-- `mouse_grabbed` of the tablet -/
  mouseGrabbed : Bool
  tablet : Tablet

def freshPointer : Pointer := ⟨⟨0, false, 0, 0⟩, registeredHandlers, false, freshTablet⟩

/-- `hid_pointer_activate ()`. -/
def Pointer.activate (s : Pointer) : Pointer :=
  if s.mouseGrabbed then s
  else
    { s with
      handlers := qemuInputHandlerActivate s.handlers .hidTablet
      mouseGrabbed := true }

/-- What can happen, for calls of `thread_sdl ()` or for what makes it call. -/
inductive PointerStep (Call : Type)
  /-- `running` is `runstate_is_running ()`, or that the VM is suspended -/
  | call (running : Bool) (call : Call)
  /-- `sdl_mouse_warp ()` -/
  | warp (x y : ℤ) (on : Bool)
  /-- the guest asks the tablet while nothing waits for it, or sets the idle rate -/
  | activate
  /-- the guest gets a report of the tablet -/
  | poll
  /-- the guest resets the tablet -/
  | reset
  deriving DecidableEq, Repr

/-- The events of a mouse call go to the PS/2 mouse or to the tablet; what the PS/2 mouse makes
of them is not followed. -/
def pointerStep (screen : ScreenSize) (s : Pointer) : PointerStep InputCall → Pointer
  | .call running (.mouse dx dy x y state) =>
      let (events, mouse) := sdlSendMouseEvent s.handlers screen s.mouse dx dy x y state
      { s with
        mouse := mouse
        tablet := run tabletStep s.tablet (tabletOps s.handlers running events) }
  | .call _ (.keyUp _) => s
  | .call _ (.keyDown _) => s
  | .warp x y on => { s with mouse := { s.mouse with guestCursor := on, guestX := x, guestY := y } }
  | .activate => s.activate
  | .poll => { s.activate with tablet := tabletStep s.tablet .poll }
  | .reset => { s with tablet := tabletStep s.tablet .reset }

/-! ## Buttons in the bits of SDL and in those of the tablet -/

/-- The button is down in a button state of SDL. -/
def held (state : BitVec 32) (button : InputButton) : Bool := state.getLsbD (sdlButton button - 1)

/-- The bits of the tablet for a set of buttons. -/
def packButtons (down : InputButton → Bool) : BitVec 32 :=
  (if down .left then hidBit .left else 0) ||| (if down .middle then hidBit .middle else 0) |||
    (if down .right then hidBit .right else 0)

/-- The tablet's view of a button state of SDL. -/
def hidButtons (state : BitVec 32) : BitVec 32 := packButtons (held state)

theorem sdlButton_lt (button : InputButton) : sdlButton button - 1 < 32 := by
  cases button <;> decide

theorem sdlBit_ne_zero (button : InputButton) : sdlBit button ≠ 0#32 := by
  intro hzero
  have hbit := congrArg (BitVec.getLsbD · (sdlButton button - 1)) hzero
  simp [sdlBit, sdlButton_lt] at hbit

theorem and_sdlBit (state : BitVec 32) (button : InputButton) :
    state &&& sdlBit button = if held state button then sdlBit button else 0#32 :=
  BitVec.and_twoPow ..

theorem and_sdlBit_eq_iff (old new : BitVec 32) (button : InputButton) :
    old &&& sdlBit button = new &&& sdlBit button ↔ held old button = held new button := by
  have hne := sdlBit_ne_zero button
  rw [and_sdlBit, and_sdlBit]
  cases held old button <;> cases held new button <;> simp [hne, hne.symm]

theorem and_sdlBit_bne_zero (state : BitVec 32) (button : InputButton) :
    (state &&& sdlBit button != 0) = held state button := by
  have hne := sdlBit_ne_zero button
  rw [and_sdlBit]
  cases held state button <;> simp [hne]

/-- A button that is put down or up has a bit of its own, and the wheel has none. -/
theorem apply_btn_packButtons {e : HIDPointerEvent} {down : InputButton → Bool}
    (h : e.buttonsState = packButtons down) (button : InputButton) (now : Bool) :
    (e.apply (.btn button now)).buttonsState = packButtons (Function.update down button now) := by
  cases now <;> simp only [HIDPointerEvent.apply, h] <;> cases button <;>
    cases hl : down .left <;> cases hm : down .middle <;> cases hr : down .right <;>
    simp [packButtons, hl, hm, hr, hidBit]

/-- One round of the loop in `qemu_input_update_buttons ()`, done to a cell of the tablet. -/
def updateButton (old new : BitVec 32) (e : HIDPointerEvent) (button : InputButton) :
    HIDPointerEvent :=
  if old &&& sdlBit button = new &&& sdlBit button then e
  else e.apply (.btn button (new &&& sdlBit button != 0))

theorem foldl_updateButtons (old new : BitVec 32) (e : HIDPointerEvent) :
    (qemuInputUpdateButtons old new).foldl HIDPointerEvent.apply e =
      inputButtons.foldl (updateButton old new) e := by
  rw [qemuInputUpdateButtons, List.foldl_filterMap]
  refine congrArg (fun f => List.foldl f e inputButtons) (funext fun e => funext fun button => ?_)
  unfold updateButton
  by_cases hsame : old &&& sdlBit button = new &&& sdlBit button
  · simp [hsame]
  · simp [hsame]

/-- The loop brings every button it visits from the old state to the new one. -/
theorem packButtons_foldl (old new : BitVec 32) (buttons : List InputButton)
    {e : HIDPointerEvent} {down : InputButton → Bool} (h : e.buttonsState = packButtons down)
    (hdown : ∀ button, down button = held old button ∨ down button = held new button) :
    ∃ down', (buttons.foldl (updateButton old new) e).buttonsState = packButtons down' ∧
      ∀ button, (button ∈ buttons ∨ down button = held new button) →
        down' button = held new button := by
  induction buttons generalizing e down with
  | nil => exact ⟨down, h, fun button hb => hb.resolve_left (by simp)⟩
  | cons first rest ih =>
      -- after its round the first button is as in the new state, and stays so
      have hround : (updateButton old new e first).buttonsState =
          packButtons (Function.update down first (held new first)) := by
        unfold updateButton
        simp only [and_sdlBit_eq_iff, and_sdlBit_bne_zero]
        split
        · rename_i hsame
          have hnow : down first = held new first := (hdown first).elim (·.trans hsame) id
          rw [h, ← hnow, Function.update_eq_self]
        · exact apply_btn_packButtons h first _
      have hupdate : ∀ button, (button = first ∨ down button = held new button) →
          Function.update down first (held new first) button = held new button := by
        intro button hb
        by_cases hfirst : button = first
        · rw [hfirst, Function.update_self]
        · rw [Function.update_of_ne hfirst]
          exact hb.resolve_left hfirst
      obtain ⟨down', hpack, hnew⟩ := ih hround fun button => by
        by_cases hfirst : button = first
        · exact Or.inr (hupdate button (Or.inl hfirst))
        · rw [Function.update_of_ne hfirst]
          exact hdown button
      refine ⟨down', hpack, fun button hb => hnew button ?_⟩
      rcases hb with hb | hb
      · rcases List.mem_cons.mp hb with hfirst | hrest
        · exact Or.inr (hupdate button (Or.inl hfirst))
        · exact Or.inl hrest
      · exact Or.inr (hupdate button (Or.inr hb))

theorem updateButtons_hidButtons {e : HIDPointerEvent} {old : BitVec 32}
    (h : e.buttonsState = hidButtons old) (new : BitVec 32) :
    ((qemuInputUpdateButtons old new).foldl HIDPointerEvent.apply e).buttonsState =
      hidButtons new := by
  obtain ⟨down, hpack, hnew⟩ :=
    packButtons_foldl old new inputButtons h fun _ => Or.inl rfl
  have hall : down = held new := funext fun button =>
    hnew button (Or.inl (by cases button <;> simp [inputButtons]))
  rw [foldl_updateButtons, hpack, hall, hidButtons]

/-! ## Who gets the events -/

/-- The tablet is in front of the list exactly if it was asked. -/
def HandlersInv (s : Pointer) : Prop :=
  s.handlers =
    if s.mouseGrabbed then [.hidTablet, .ps2Keyboard, .ps2Mouse] else registeredHandlers

theorem handlersInv_fresh : HandlersInv freshPointer := rfl

theorem HandlersInv.activate {s : Pointer} (h : HandlersInv s) :
    HandlersInv s.activate ∧ s.activate.mouseGrabbed = true := by
  unfold Pointer.activate
  split
  · rename_i hgrabbed
    exact ⟨h, hgrabbed⟩
  · rename_i hgrabbed
    rw [HandlersInv, if_neg hgrabbed] at h
    refine ⟨?_, rfl⟩
    simp only [HandlersInv, h]
    rfl

theorem HandlersInv.step {s : Pointer} (h : HandlersInv s) (screen : ScreenSize)
    (step : PointerStep InputCall) : HandlersInv (pointerStep screen s step) := by
  rcases step with ⟨running, ⟨dx, dy, x, y, state⟩ | _ | _⟩ | _ | _ | _ | _
  all_goals first | exact h | exact h.activate.1

theorem kind_buttonEvents {prevState new : BitVec 32} {evt : PointerEvent}
    (h : evt ∈ buttonEvents prevState new) : evt.kind = .btn := by
  unfold buttonEvents at h
  split at h
  · obtain ⟨button, -, hsome⟩ := List.mem_filterMap.mp h
    dsimp only at hsome
    split at hsome
    · cases hsome
    · obtain rfl := Option.some.inj hsome
      rfl
  · cases h

theorem mouse_sdlSendMouseEvent (handlers : List InputHandler) (screen : ScreenSize)
    (mouse : SdlMouse) (dx dy x y state : ℤ) :
    (sdlSendMouseEvent handlers screen mouse dx dy x y state).2.prevState = .ofInt 32 state := by
  unfold sdlSendMouseEvent
  dsimp only
  split_ifs <;> rfl

theorem kind_absolute {screen : ScreenSize} {prevState new : BitVec 32} {x y : ℤ}
    {evt : PointerEvent} (h : evt ∈ buttonEvents prevState new ++ placeEvents screen x y) :
    evt.kind = .btn ∨ evt.kind = .abs := by
  rcases List.mem_append.mp h with hbutton | hplace
  · exact Or.inl (kind_buttonEvents hbutton)
  · rcases List.mem_pair.mp hplace with rfl | rfl <;> exact Or.inr rfl

theorem kind_relative {handlers : List InputHandler}
    (hrelative : qemuInputIsAbsolute handlers = false)
    {screen : ScreenSize} {mouse : SdlMouse} {dx dy x y state : ℤ} {evt : PointerEvent}
    (h : evt ∈ (sdlSendMouseEvent handlers screen mouse dx dy x y state).1) :
    evt.kind = .btn ∨ evt.kind = .rel := by
  have hmoves : ∃ moveX moveY, evt ∈ buttonEvents mouse.prevState (.ofInt 32 state) ++
      [.rel .x moveX, .rel .y moveY] := by
    simp only [sdlSendMouseEvent, hrelative, Bool.false_eq_true, if_false] at h
    split at h <;> exact ⟨_, _, h⟩
  obtain ⟨moveX, moveY, hevt⟩ := hmoves
  rcases List.mem_append.mp hevt with hbutton | hmove
  · exact Or.inl (kind_buttonEvents hbutton)
  · rcases List.mem_pair.mp hmove with rfl | rfl <;> exact Or.inr rfl

/-- With the tablet in front all events of a call go to it, and otherwise none. -/
theorem tabletOps_call {s : Pointer} (h : HandlersInv s) (screen : ScreenSize) (running : Bool)
    (dx dy x y state : ℤ) :
    tabletOps s.handlers running
        (sdlSendMouseEvent s.handlers screen s.mouse dx dy x y state).1 =
      if running && s.mouseGrabbed then
        (buttonEvents s.mouse.prevState (.ofInt 32 state) ++ placeEvents screen x y).map .event ++
          [.sync]
      else [] := by
  cases running with
  | false => rfl
  | true =>
      cases hgrabbed : s.mouseGrabbed with
      | true =>
          rw [HandlersInv, hgrabbed, if_pos rfl] at h
          have habsolute : qemuInputIsAbsolute s.handlers = true := by
            rw [h]
            rfl
          have hown : ∀ evt ∈ buttonEvents s.mouse.prevState (.ofInt 32 state) ++
              placeEvents screen x y,
              (qemuInputFindHandler s.handlers [evt.kind] == some .hidTablet) = true := by
            intro evt hevt
            rw [h]
            rcases kind_absolute hevt with hkind | hkind <;> rw [hkind] <;> rfl
          simp only [tabletOps, sdlSendMouseEvent, habsolute, if_true, Bool.and_self,
            List.filter_eq_self.mpr hown]
          simp [placeEvents]
      | false =>
          rw [HandlersInv, hgrabbed, if_neg (by simp)] at h
          have hrelative : qemuInputIsAbsolute s.handlers = false := by
            rw [h]
            rfl
          have hother : (sdlSendMouseEvent s.handlers screen s.mouse dx dy x y state).1.filter
              (fun evt => qemuInputFindHandler s.handlers [evt.kind] == some .hidTablet) = [] := by
            rw [List.filter_eq_nil_iff]
            intro evt hevt
            rcases kind_relative hrelative hevt with hkind | hkind <;> rw [h, hkind] <;> decide
          simp [tabletOps, hother]

theorem scaleAxis_toInt (value size : ℤ) :
    (Int32.ofInt (qemuInputScaleAxis value size inputEventAbsSize)).toInt =
      qemuInputScaleAxis value size inputEventAbsSize := by
  rw [Int32.toInt_ofInt, qemuInputScaleAxis]
  split
  · decide
  · exact Int.bmod_bmod

/-- The event is about this place and these buttons. -/
def HIDPointerEvent.Shows (e : HIDPointerEvent) (x y : ℤ) (buttons : BitVec 32) : Prop :=
  e.xdx.toInt = x ∧ e.ydy.toInt = y ∧ e.buttonsState = buttons

/-- What a call makes of the cell behind the queue. -/
theorem foldl_callEvents (screen : ScreenSize) {prevState : BitVec 32} {e : HIDPointerEvent}
    (h : e.buttonsState = hidButtons prevState) (x y : ℤ) (new : BitVec 32) :
    ((buttonEvents prevState new ++ placeEvents screen x y).foldl HIDPointerEvent.apply e).Shows
      (qemuInputScaleAxis x screen.w inputEventAbsSize)
      (qemuInputScaleAxis y screen.h inputEventAbsSize) (hidButtons new) := by
  have hbuttons : ((buttonEvents prevState new).foldl HIDPointerEvent.apply e).buttonsState =
      hidButtons new := by
    unfold buttonEvents
    split
    · exact updateButtons_hidButtons h _
    · rename_i hsame
      rw [← not_not.mp hsame]
      exact h
  simp only [placeEvents, List.foldl_append, List.foldl_cons, List.foldl_nil, qemuInputQueueAbs,
    HIDPointerEvent.apply]
  exact ⟨scaleAxis_toInt .., scaleAxis_toInt .., hbuttons⟩

/-! ## Calls and the tablet -/

/-- The buttons that the tablet would tell the guest next. -/
def Pointer.deviceButtons (s : Pointer) : BitVec 32 :=
  (s.tablet.device.queue ((s.tablet.device.head + s.tablet.device.n) % queueLength)).buttonsState

/-- The tablet and `prev_state` agree. -/
def TabletAgrees (s : Pointer) : Prop := s.deviceButtons = hidButtons s.mouse.prevState

/-- The step drops no change of the buttons: a call that changes one finds the VM running and
the tablet in front, and a reset finds none held. -/
def DropsNoButton (s : Pointer) : PointerStep InputCall → Prop
  | .call running (.mouse _ _ _ _ state) =>
      (running && s.mouseGrabbed) = true ∨
        hidButtons (.ofInt 32 state) = hidButtons s.mouse.prevState
  | .reset => hidButtons s.mouse.prevState = 0
  | _ => True

theorem run_listStep_events (t : ListTablet) (events : List PointerEvent) :
    ∃ wheel, run listStep t (events.map .event) =
      ⟨{ t.queue with current := events.foldl HIDPointerEvent.apply t.queue.current },
        { t.log with wheel := wheel }⟩ := by
  induction events generalizing t with
  | nil => exact ⟨_, rfl⟩
  | cons evt rest ih =>
      obtain ⟨wheel, hrest⟩ := ih (listStep t (.event evt))
      exact ⟨wheel, hrest⟩

theorem PointerQueue.sync_current (q : PointerQueue) :
    q.sync.current.buttonsState = q.current.buttonsState := by
  rcases q.sync_cases with ⟨-, hsync⟩ | ⟨-, before, prev, -, -, hsync⟩ | ⟨-, hsync⟩
  · rw [hsync]
  · rw [hsync]
  · rw [hsync, PointerQueue.push]

theorem SameTablet.run {s : Tablet} {t : ListTablet} (h : SameTablet s t) (ops : List TabletOp) :
    SameTablet (Lib.run tabletStep s ops) (Lib.run listStep t ops) :=
  run_related (fun _ _ op h => h.step op) h ops

theorem SameTablet.current {s : Pointer} {t : ListTablet} (h : SameTablet s.tablet t) :
    s.deviceButtons = t.queue.current.buttonsState :=
  congrArg HIDPointerEvent.buttonsState h.represents.current

/-- The list of the tablet after a step. -/
def listPointerStep (screen : ScreenSize) (s : Pointer) (t : ListTablet) :
    PointerStep InputCall → ListTablet
  | .call running (.mouse dx dy x y state) =>
      run listStep t (tabletOps s.handlers running
        (sdlSendMouseEvent s.handlers screen s.mouse dx dy x y state).1)
  | .poll => listStep t .poll
  | .reset => listStep t .reset
  | _ => t

theorem tablet_activate (s : Pointer) : s.activate.tablet = s.tablet := by
  unfold Pointer.activate
  split <;> rfl

theorem mouse_activate (s : Pointer) : s.activate.mouse = s.mouse := by
  unfold Pointer.activate
  split <;> rfl

theorem SameTablet.pointerStep {s : Pointer} {t : ListTablet} (h : SameTablet s.tablet t)
    (screen : ScreenSize) (step : PointerStep InputCall) :
    SameTablet (pointerStep screen s step).tablet (listPointerStep screen s t step) := by
  rcases step with ⟨running, ⟨dx, dy, x, y, state⟩ | _ | _⟩ | _ | _ | _ | _
  · exact h.run _
  · exact h
  · exact h
  · exact h
  · rw [Qemu.pointerStep, tablet_activate]
    exact h
  · exact h.step .poll
  · exact h.step .reset

theorem listStep_poll_current (t : ListTablet) :
    (listStep t .poll).queue.current = t.queue.current := by
  obtain ⟨⟨_ | ⟨e, others⟩, current, last⟩, log⟩ := t
  · rfl
  · simp only [listStep, PointerQueue.poll]
    split <;> rfl

/-- The list after a call: nothing happens to it, or it takes a cell with the place and the
buttons of the call. -/
theorem listPointerStep_call {s : Pointer} (hhandlers : HandlersInv s) (screen : ScreenSize)
    {t : ListTablet} (h : t.queue.current.buttonsState = hidButtons s.mouse.prevState)
    (running : Bool) (dx dy x y state : ℤ) :
    let next := listPointerStep screen s t (.call running (.mouse dx dy x y state))
    ((running && s.mouseGrabbed) = false ∧ next = t) ∨
      ((running && s.mouseGrabbed) = true ∧ ∃ (current : HIDPointerEvent) (wheel : ℤ),
        current.Shows (qemuInputScaleAxis x screen.w inputEventAbsSize)
          (qemuInputScaleAxis y screen.h inputEventAbsSize) (hidButtons (.ofInt 32 state)) ∧
        next = listStep ⟨{ t.queue with current := current }, { t.log with wheel := wheel }⟩
          .sync) := by
  simp only [listPointerStep, tabletOps_call hhandlers]
  cases hreaches : running && s.mouseGrabbed with
  | false => exact Or.inl ⟨rfl, rfl⟩
  | true =>
      obtain ⟨wheel, hevents⟩ := run_listStep_events t
        (buttonEvents s.mouse.prevState (.ofInt 32 state) ++ placeEvents screen x y)
      refine Or.inr ⟨rfl, _, wheel, foldl_callEvents screen h x y _, ?_⟩
      simp only [if_true, run_append, hevents, run_cons, run_nil]

theorem tabletAgrees_step_iff (screen : ScreenSize) {s : Pointer} {t : ListTablet}
    (hhandlers : HandlersInv s) (hsame : SameTablet s.tablet t) (h : TabletAgrees s)
    (step : PointerStep InputCall) :
    TabletAgrees (pointerStep screen s step) ↔ DropsNoButton s step := by
  have hcurrent : t.queue.current.buttonsState = hidButtons s.mouse.prevState := by
    rw [← hsame.current]
    exact h
  rcases step with ⟨running, ⟨dx, dy, x, y, state⟩ | _ | _⟩ | _ | _ | _ | _
  · have hprev : (pointerStep screen s
        (.call running (.mouse dx dy x y state))).mouse.prevState = .ofInt 32 state :=
      mouse_sdlSendMouseEvent ..
    rw [TabletAgrees, (hsame.pointerStep screen _).current, hprev, DropsNoButton]
    rcases listPointerStep_call hhandlers screen hcurrent running dx dy x y state with
      ⟨hmissed, hnext⟩ | ⟨hreaches, current, wheel, hshows, hnext⟩
    · -- the tablet is not told, and `prev_state` moves on alone
      rw [hnext, hcurrent, hmissed]
      simp [eq_comm]
    · rw [hnext]
      refine iff_of_true ?_ (Or.inl hreaches)
      simp only [listStep, PointerQueue.sync_current, hshows.2.2]
  · exact iff_of_true h trivial
  · exact iff_of_true h trivial
  · exact iff_of_true h trivial
  · refine iff_of_true ?_ trivial
    rw [TabletAgrees, (hsame.pointerStep screen .activate).current, pointerStep, mouse_activate]
    exact hcurrent
  · refine iff_of_true ?_ trivial
    rw [TabletAgrees, (hsame.pointerStep screen .poll).current, listPointerStep,
      listStep_poll_current, pointerStep]
    dsimp only
    rw [mouse_activate]
    exact hcurrent
  · rw [TabletAgrees, (hsame.pointerStep screen .reset).current]
    exact eq_comm

/-- Where the device is after some steps without a loss: in step with `prev_state`, and with a
list for a queue that has told the guest all it accepted. -/
structure PointerInv (s : Pointer) (t : ListTablet) : Prop where
  handlers : HandlersInv s
  same : SameTablet s.tablet t
  agrees : TabletAgrees s
  buttons : ButtonsInv t

theorem pointerInv_fresh : PointerInv freshPointer freshList where
  handlers := handlersInv_fresh
  same := ⟨represents_reset, rfl⟩
  agrees := show (0 : BitVec 32) = hidButtons 0 by decide
  buttons := ⟨rfl, fun _ => rfl⟩

theorem ButtonsInv.run {t : ListTablet} (h : ButtonsInv t) (ops : List TabletOp) :
    ButtonsInv (Lib.run listStep t ops) :=
  run_invariant ops h fun _ op h => h.step op

theorem PointerInv.current {s : Pointer} {t : ListTablet} (h : PointerInv s t) :
    t.queue.current.buttonsState = hidButtons s.mouse.prevState := by
  rw [← h.same.current]
  exact h.agrees

theorem PointerInv.step {s : Pointer} {t : ListTablet} (h : PointerInv s t) (screen : ScreenSize)
    {step : PointerStep InputCall} (hdrops : DropsNoButton s step) :
    PointerInv (pointerStep screen s step) (listPointerStep screen s t step) where
  handlers := h.handlers.step screen step
  same := h.same.pointerStep screen step
  agrees := (tabletAgrees_step_iff screen h.handlers h.same h.agrees step).mpr hdrops
  buttons := by
    rcases step with ⟨running, ⟨dx, dy, x, y, state⟩ | _ | _⟩ | _ | _ | _ | _
    · exact h.buttons.run _
    · exact h.buttons
    · exact h.buttons
    · exact h.buttons
    · exact h.buttons
    · exact h.buttons.step .poll
    · exact h.buttons.step .reset

/-- **The copy of the buttons.**  Over every run, `prev_state` and the tablet agree on the
buttons all the time exactly if no call changes a button before the guest has asked the tablet
for the first time or while the VM does not run, and the guest does not reset the tablet while
a button is held. -/
theorem tablet_agrees_iff (screen : ScreenSize) (steps : List (PointerStep InputCall)) :
    Everywhere (pointerStep screen) TabletAgrees freshPointer steps ↔
      Along (pointerStep screen) DropsNoButton freshPointer steps := by
  refine everywhere_iff_of_invariant (I := fun s : Pointer => ∃ t, PointerInv s t)
    ⟨freshList, pointerInv_fresh⟩ (fun s h => h.elim fun t h => h.agrees) ?_ ?_
  · rintro s step ⟨t, h⟩ hdrops
    exact ⟨_, h.step screen hdrops⟩
  · rintro s step ⟨t, h⟩ hnext
    exact (tabletAgrees_step_iff screen h.handlers h.same h.agrees step).mp hnext

end SsmIaas.Qemu
