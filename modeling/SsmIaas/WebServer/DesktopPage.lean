import SsmIaas.Lib.Run
import SsmIaas.WebServer.EventSocket

/-!
# The mouse on the desktop page

`desktopEvent_stream.js` keeps the button that is held in the variable `check`, with the
numbers that QEMU uses for buttons, and sends a message for every press, release and drag.
When the pointer leaves the canvas the button counts as released, because the page will not
hear of the release.  But `mouseEvent_out ()` tells the VM so only if `check` is 1.  A right
button that is held when the pointer leaves stays pressed in the VM.

`no_stuck_button_iff`: nothing else can go wrong.  As long as the pointer leaves with no
button or the left one held, the last message is always about the button in `check`
(`PageInv`).
-/

namespace SsmIaas.WebServer

open Lib

/-- The arguments of `Event_client.send ()`, with the texts of the coordinates. -/
inductive PageMessage
  | mouse (x y : Bytes) (button : Button)
  | key (down : Bool) (code : ℕ)
  deriving DecidableEq, Repr

def PageMessage.data : PageMessage → Bytes
  | .mouse x y button =>
      decimal 0 ++ [space] ++ x ++ [space] ++ y ++ [space] ++ decimal button.state ++ [space]
  | .key down code =>
      decimal 1 ++ [space] ++ decimal (if down then 1 else 0) ++ [space] ++ decimal code

/-- The message is the one that QEMU takes for the event. -/
theorem data_mouse (x y : Int32) (button : Button) :
    (PageMessage.mouse (signedDecimal x.toInt) (signedDecimal y.toInt) button).data =
      (InputEvent.mouse x y button).data := rfl

theorem data_key (down : Bool) (code : ℕ) :
    (PageMessage.key down code).data = (InputEvent.key down code).data := rfl

/-- The button state of a mouse message. -/
def PageMessage.button : PageMessage → Option Button
  | .mouse _ _ button => some button
  | .key _ _ => none

structure DesktopPage where
  /-- the variable `check`: 0, 1 or 4 -/
  check : Button
  /-- the messages, in their order -/
  sent : List PageMessage
  deriving DecidableEq, Repr

/-- The page after `event_init ()`. -/
def DesktopPage.init : DesktopPage := ⟨.up, []⟩

def DesktopPage.send (page : DesktopPage) (message : PageMessage) : DesktopPage :=
  { page with sent := page.sent ++ [message] }

def DesktopPage.setCheck (page : DesktopPage) (check : Button) : DesktopPage := { page with check }

/-- The events of the canvas and of the page; `which` is the number of the button. -/
inductive PageEvent (Coordinate : Type*)
  | mousedown (which : ℕ) (clientX clientY : Coordinate)
  | mousemove (clientX clientY : Coordinate)
  | mouseup (clientX clientY : Coordinate)
  | mouseout (clientX clientY : Coordinate)
  | keydown (key : ℕ)
  | keyup (key : ℕ)
  deriving DecidableEq, Repr

/-! ## The handlers

`x` and `y` are `target_x` and `target_y`.  `Event_client` is not null once `event_init ()`
has been called. -/

section

variable (page : DesktopPage) (x y : Bytes)

def mouseEventDown (which : ℕ) : DesktopPage :=
  let page := if which = 1 then (page.setCheck .left).send (.mouse x y .left) else page
  if which = 3 then (page.setCheck .right).send (.mouse x y .right) else page

def mouseEventMove : DesktopPage :=
  if page.check = .left then page.send (.mouse x y .left) else page

def mouseEventUp : DesktopPage := (page.setCheck .up).send (.mouse x y .up)

def mouseEventOut : DesktopPage :=
  let page := if page.check = .left then page.send (.mouse x y .up) else page
  page.setCheck .up

end

variable {Coordinate : Type*} (targetX targetY : Coordinate → Bytes)

/-- One event.  `targetX` is the text of `parseInt (scale_x (clientX))`, and `targetY` the
same for the other coordinate. -/
def DesktopPage.step (page : DesktopPage) : PageEvent Coordinate → DesktopPage
  | .mousedown which x y => mouseEventDown page (targetX x) (targetY y) which
  | .mousemove x y => mouseEventMove page (targetX x) (targetY y)
  | .mouseup x y => mouseEventUp page (targetX x) (targetY y)
  | .mouseout x y => mouseEventOut page (targetX x) (targetY y)
  | .keydown key => page.send (.key true key)
  | .keyup key => page.send (.key false key)

/-! ## What should hold, and when it does -/

/-- The button state of the last mouse message. -/
def DesktopPage.lastButton (page : DesktopPage) : Option Button :=
  (page.sent.filterMap PageMessage.button).getLast?

/-- When the page tracks no button, the VM has not been told of one. -/
def Released (page : DesktopPage) : Prop :=
  page.check = .up → page.lastButton = none ∨ page.lastButton = some .up

instance : DecidablePred Released := fun _ => inferInstanceAs (Decidable (_ → _))

/-- The pointer does not leave the canvas with the right button held. -/
def LeavesReleased (page : DesktopPage) : PageEvent Coordinate → Prop
  | .mouseout _ _ => page.check ≠ .right
  | _ => True

/-- The last mouse message is about the button in `check`. -/
def PageInv (page : DesktopPage) : Prop := page.lastButton.getD .up = page.check

theorem pageInv_init : PageInv .init := rfl

theorem PageInv.released {page : DesktopPage} (h : PageInv page) : Released page := by
  intro hcheck
  rw [PageInv, hcheck] at h
  cases hbutton : page.lastButton with
  | none => exact Or.inl rfl
  | some button =>
      rw [hbutton, Option.getD_some] at h
      exact Or.inr (congrArg some h)

section

variable {page : DesktopPage}

@[simp] theorem lastButton_send_mouse (x y : Bytes) (button : Button) :
    (page.send (.mouse x y button)).lastButton = some button := by
  simp [DesktopPage.lastButton, DesktopPage.send, PageMessage.button]

@[simp] theorem lastButton_send_key (down : Bool) (code : ℕ) :
    (page.send (.key down code)).lastButton = page.lastButton := by
  simp [DesktopPage.lastButton, DesktopPage.send, PageMessage.button]

@[simp] theorem check_send (message : PageMessage) : (page.send message).check = page.check := rfl

@[simp] theorem check_setCheck (check : Button) : (page.setCheck check).check = check := rfl

@[simp] theorem lastButton_setCheck (check : Button) :
    (page.setCheck check).lastButton = page.lastButton := rfl

/-! ## One event -/

theorem PageInv.down (h : PageInv page) (x y : Bytes) (which : ℕ) :
    PageInv (mouseEventDown page x y which) := by
  unfold mouseEventDown
  by_cases hright : which = 3
  · simp [PageInv, hright]
  · by_cases hleft : which = 1
    · simp [PageInv, hleft]
    · simpa [hleft, hright] using h

theorem PageInv.move (h : PageInv page) (x y : Bytes) : PageInv (mouseEventMove page x y) := by
  unfold mouseEventMove
  split
  · next hleft => simp [PageInv, hleft]
  · exact h

/-- The pointer leaves: the release is sent only for the left button. -/
theorem PageInv.out_iff (h : PageInv page) (x y : Bytes) :
    PageInv (mouseEventOut page x y) ↔ page.check ≠ .right := by
  unfold PageInv at h
  cases hcheck : page.check with
  | up =>
      rw [hcheck] at h
      simp [mouseEventOut, PageInv, hcheck, h]
  | left => simp [mouseEventOut, PageInv, hcheck]
  | right =>
      rw [hcheck] at h
      simp [mouseEventOut, PageInv, hcheck, h]

end

theorem pageInv_step (page : DesktopPage) (event : PageEvent Coordinate) (h : PageInv page)
    (hleaves : LeavesReleased page event) : PageInv (page.step targetX targetY event) := by
  cases event with
  | mousedown which x y => exact h.down _ _ which
  | mousemove x y => exact h.move _ _
  | mouseup x y => simp [DesktopPage.step, mouseEventUp, PageInv]
  | mouseout x y => exact (h.out_iff _ _).mpr hleaves
  | keydown key => simpa [DesktopPage.step, PageInv] using h
  | keyup key => simpa [DesktopPage.step, PageInv] using h

/-- A right button that leaves the canvas is stuck. -/
theorem leavesReleased_of_released (page : DesktopPage) (event : PageEvent Coordinate)
    (h : PageInv page) (hreleased : Released (page.step targetX targetY event)) :
    LeavesReleased page event := by
  cases event with
  | mouseout x y =>
      intro hright
      rw [PageInv, hright] at h
      -- nothing is sent, and the last message was about the right button
      have hstep : (page.step targetX targetY (.mouseout x y)).lastButton = page.lastButton := by
        simp [DesktopPage.step, mouseEventOut, hright]
      rcases hreleased rfl with hlast | hlast
      · rw [hstep] at hlast
        simp [hlast] at h
      · rw [hstep] at hlast
        simp [hlast] at h
  | mousedown which x y => trivial
  | mousemove x y => trivial
  | mouseup x y => trivial
  | keydown key => trivial
  | keyup key => trivial

/-- **No stuck button.**  Whenever the page tracks no button the last mouse message said so,
exactly if the pointer never leaves the canvas with the right button held. -/
theorem no_stuck_button_iff (events : List (PageEvent Coordinate)) :
    Everywhere (DesktopPage.step targetX targetY) Released .init events ↔
      Along (DesktopPage.step targetX targetY) LeavesReleased .init events :=
  everywhere_iff_of_invariant pageInv_init (fun _ h => h.released) (pageInv_step targetX targetY)
    (leavesReleased_of_released targetX targetY)

/-- The right button is pressed at `(3, 4)` and the pointer leaves the canvas. -/
theorem right_button_sticks :
    let page := run (DesktopPage.step decimal decimal) .init [.mousedown 3 3 4, .mouseout 0 4]
    page.check = .up ∧ page.lastButton = some .right ∧ ¬ Released page := by
  decide

end SsmIaas.WebServer
