import SsmIaas.Qemu.PointerInput
import Mathlib.Data.List.DropRight

/-!
# The mouse messages of the page

What a guest gets to see of a page's mouse messages, through `thread_sdl ()`,
`sdl_send_mouse_event ()` and the tablet.  Messages that change the buttons may be lost on the
way: before the guest has asked the tablet for the first time, while the VM does not run, and
when the queue of the tablet is full.

Where no change is lost, the guest sees every press and release of the page
(`page_buttons_reach_guest`) and the pointer comes to rest where the page left it
(`page_position_settles`).
-/

namespace SsmIaas.Qemu

open Lib WebServer

/-- What can happen, with the messages of the page. -/
abbrev Turn := PointerStep InputEvent

/-- The message becomes the call that `thread_sdl ()` makes of it. -/
def Turn.step (androidMode : Bool) (screenH : ℤ) : Turn → PointerStep InputCall
  | .call running event => .call running (inputCall androidMode screenH event)
  | .warp x y on => .warp x y on
  | .activate => .activate
  | .poll => .poll
  | .reset => .reset

/-- The button of a mouse message. -/
def Turn.button : Turn → Option Button
  | .call _ (.mouse _ _ button) => some button
  | _ => none

def turnStep (androidMode : Bool) (screen : ScreenSize) (s : Pointer) (turn : Turn) : Pointer :=
  pointerStep screen s (turn.step androidMode screen.h)

/-- The bits of a tablet for the buttons of a page. -/
def guestButtons : Button → BitVec 32
  | .up => 0
  | .left => hidBit .left
  | .right => hidBit .right

/-- The buttons of the messages since the last reset, as the tablet has them. -/
def pageButtons (turns : List Turn) : List (BitVec 32) :=
  ((turns.rtakeWhile (· ≠ .reset)).filterMap Turn.button).map guestButtons

/-- A message that changes the buttons finds the VM running, the tablet in front and its queue
not full, and a reset finds no button held. -/
def ChangeArrives (s : Pointer) : Turn → Prop
  | .call running (.mouse _ _ button) =>
      ((running && s.mouseGrabbed) = true ∧ s.tablet.device.n ≠ queueLength - 1) ∨
        guestButtons button = hidButtons s.mouse.prevState
  | .reset => hidButtons s.mouse.prevState = 0
  | _ => True

instance (s : Pointer) (turn : Turn) : Decidable (ChangeArrives s turn) :=
  match turn with
  | .call _ (.mouse ..) => inferInstanceAs (Decidable ((_ ∧ _) ∨ _))
  | .call _ (.key ..) => isTrue trivial
  | .warp .. => isTrue trivial
  | .activate => isTrue trivial
  | .poll => isTrue trivial
  | .reset => inferInstanceAs (Decidable (_ = _))

theorem hidButtons_state (button : Button) :
    hidButtons (.ofInt 32 button.state) = guestButtons button := by
  cases button <;> decide

theorem guestButtons_lt (button : Button) : (guestButtons button).toNat < 256 := by
  cases button <;> decide

/-- The place on the screen that a mouse message is about. -/
def eventPlace (androidMode : Bool) (screen : ScreenSize) (x y : Int32) : ℤ × ℤ :=
  if androidMode then (y.toInt, screen.h - x.toInt) else (x.toInt, y.toInt)

theorem inputCall_eventPlace (androidMode : Bool) (screen : ScreenSize) (x y : Int32)
    (button : Button) :
    inputCall androidMode screen.h (.mouse x y button) =
      .mouse 0 0 (eventPlace androidMode screen x y).1 (eventPlace androidMode screen x y).2
        button.state := by
  cases androidMode <;> rfl

theorem ChangeArrives.dropsNoButton {s : Pointer} {turn : Turn} (h : ChangeArrives s turn)
    (androidMode : Bool) (screen : ScreenSize) :
    DropsNoButton s (turn.step androidMode screen.h) := by
  rcases turn with ⟨running, ⟨x, y, button⟩ | ⟨_ | _, code⟩⟩ | _ | _ | _ | _
  · rw [Turn.step, inputCall_eventPlace, DropsNoButton, hidButtons_state]
    exact h.imp_left And.left
  all_goals exact h

/-- A mouse message: the page's buttons go on, and the tablet accepts them or they are those it
has already. -/
theorem PointerInv.accepted {s : Pointer} {t : ListTablet} (h : PointerInv s t)
    (androidMode : Bool) (screen : ScreenSize) {running : Bool} {x y : Int32} {button : Button}
    (harrives : ChangeArrives s (.call running (.mouse x y button))) :
    let next := (listPointerStep screen s t
      (Turn.step androidMode screen.h (.call running (.mouse x y button)))).log.accepted
    next = t.log.accepted ++ [guestButtons button] ∨
      (next = t.log.accepted ∧ guestButtons button = hidButtons s.mouse.prevState) := by
  dsimp only
  rw [Turn.step, inputCall_eventPlace]
  rcases listPointerStep_call h.handlers screen h.current running 0 0
      (eventPlace androidMode screen x y).1 (eventPlace androidMode screen x y).2 button.state with
    ⟨hmissed, hnext⟩ | ⟨hreaches, current, wheel, hshows, hnext⟩
  · refine Or.inr ⟨by rw [hnext], harrives.resolve_left fun hroom => ?_⟩
    rw [hmissed] at hroom
    exact absurd hroom.1 (by simp)
  · rw [hidButtons_state] at hshows
    rw [hnext]
    by_cases hfull : t.queue.pending.length = queueLength - 1
    · have hnote : ∀ log : TabletLog, ∀ report,
          log.note t.queue.pending.length current report .sync = log := fun log _ => if_pos hfull
      refine Or.inr ⟨by rw [listStep, hnote], harrives.resolve_left fun hroom => ?_⟩
      exact hroom.2 (h.same.represents.length_eq.symm.trans hfull)
    · refine Or.inl ?_
      simp only [listStep, TabletLog.note_sync hfull, hshows.2.2]

/-- Beside the run, the page's buttons since the last reset: they change as those that the
tablet accepted, and end with those of `prev_state`. -/
structure PageInv (page : List (BitVec 32)) (s : Pointer) (t : ListTablet) : Prop where
  pointer : PointerInv s t
  changes : changes 0 t.log.accepted = changes 0 page
  last : page.getLastD 0 = hidButtons s.mouse.prevState

theorem pageButtons_concat (before : List Turn) {turn : Turn} (h : turn ≠ .reset) :
    pageButtons (before ++ [turn]) =
      pageButtons before ++ (turn.button.map guestButtons).toList := by
  unfold pageButtons
  rw [List.rtakeWhile_concat_pos _ _ _ (by simpa using h), List.filterMap_append, List.map_append]
  cases hbutton : turn.button <;> simp [hbutton]

theorem pageButtons_reset (before : List Turn) : pageButtons (before ++ [.reset]) = [] := by
  unfold pageButtons
  rw [List.rtakeWhile_concat_neg _ _ _ (by simp)]
  rfl

/-- A turn that is neither a mouse message nor a reset. -/
theorem turnStep_of_no_button {turn : Turn} (hreset : turn ≠ .reset) (hnone : turn.button = none)
    (androidMode : Bool) (screen : ScreenSize) (s : Pointer) (t : ListTablet) :
    (turnStep androidMode screen s turn).mouse.prevState = s.mouse.prevState ∧
      (listPointerStep screen s t (turn.step androidMode screen.h)).log.accepted =
        t.log.accepted := by
  rcases turn with ⟨running, ⟨x, y, button⟩ | ⟨_ | _, code⟩⟩ | _ | _ | _ | _
  · cases hnone
  · exact ⟨rfl, rfl⟩
  · exact ⟨rfl, rfl⟩
  · exact ⟨rfl, rfl⟩
  · exact ⟨congrArg SdlMouse.prevState (mouse_activate s), rfl⟩
  · exact ⟨congrArg SdlMouse.prevState (mouse_activate s), rfl⟩
  · exact absurd rfl hreset

theorem PageInv.mouse {before : List Turn} {s : Pointer} {t : ListTablet}
    (h : PageInv (pageButtons before) s t) (androidMode : Bool) (screen : ScreenSize)
    {running : Bool} {x y : Int32} {button : Button}
    (harrives : ChangeArrives s (.call running (.mouse x y button))) :
    PageInv (pageButtons (before ++ [.call running (.mouse x y button)]))
      (turnStep androidMode screen s (.call running (.mouse x y button)))
      (listPointerStep screen s t
        (Turn.step androidMode screen.h (.call running (.mouse x y button)))) := by
  have hpage : pageButtons (before ++ [.call running (.mouse x y button)]) =
      pageButtons before ++ [guestButtons button] := pageButtons_concat before (by simp)
  refine ⟨h.pointer.step screen (harrives.dropsNoButton androidMode screen), ?_, ?_⟩
  · rw [hpage]
    rcases h.pointer.accepted androidMode screen harrives with hnext | ⟨hnext, hsame⟩
    · rw [hnext]
      exact changes_concat_congr h.changes _
    · rw [hnext, h.changes, hsame, ← h.last, changes_concat_self]
  · have hprev : (pointerStep screen s (.call running (.mouse 0 0
        (eventPlace androidMode screen x y).1 (eventPlace androidMode screen x y).2
        button.state))).mouse.prevState = .ofInt 32 button.state := mouse_sdlSendMouseEvent ..
    rw [hpage, List.getLastD_concat, turnStep, Turn.step, inputCall_eventPlace, hprev,
      hidButtons_state]

theorem PageInv.turn {before : List Turn} {s : Pointer} {t : ListTablet}
    (h : PageInv (pageButtons before) s t) (androidMode : Bool) (screen : ScreenSize) {turn : Turn}
    (harrives : ChangeArrives s turn) :
    PageInv (pageButtons (before ++ [turn])) (turnStep androidMode screen s turn)
      (listPointerStep screen s t (turn.step androidMode screen.h)) := by
  have hpointer := h.pointer.step screen (harrives.dropsNoButton androidMode screen)
  by_cases hreset : turn = .reset
  · subst hreset
    rw [pageButtons_reset]
    exact ⟨hpointer, rfl, harrives.symm⟩
  · cases hbutton : turn.button with
    | none =>
        obtain ⟨hprev, haccepted⟩ :=
          turnStep_of_no_button hreset hbutton androidMode screen s t
        rw [pageButtons_concat before hreset, hbutton, Option.map_none, Option.toList_none,
          List.append_nil]
        exact ⟨hpointer, by rw [haccepted, h.changes], by rw [hprev, h.last]⟩
    | some button =>
        rcases turn with ⟨running, ⟨x, y, button⟩ | _⟩ | _ | _ | _ | _
        · exact h.mouse androidMode screen harrives
        all_goals cases hbutton

/-- A press before the guest has asked: it goes to the PS/2 mouse, and the tablet is not told
when the guest asks. -/
example : (run (turnStep false ⟨800, 600⟩) freshPointer
    [.call true (.mouse 10 20 .left), .poll, .call true (.mouse 30 20 .left),
      .poll]).tablet.buttons = [0, 0] := by decide +kernel

/-! ## Where the pointer comes to rest -/

/-- The last thing the guest is going to see, or has just seen. -/
def EndsWith (t : ListTablet) (x y : ℤ) (buttons : BitVec 32) : Prop :=
  (∃ before e, t.queue.pending = before ++ [e] ∧ e.Shows x y buttons) ∨
    (t.queue.pending = [] ∧ t.queue.last.Shows x y buttons ∧
      ∃ r dz, t.log.reports.getLast? = some r ∧ r = ⟨buttons, x, y, dz⟩ ∧ -127 ≤ dz ∧ dz ≤ 127)

theorem endsWith_of_sync {t : ListTablet} {q : PointerQueue} {x y : ℤ} {buttons : BitVec 32}
    (ht : t.queue = q.sync) (hroom : q.pending.length ≠ queueLength - 1)
    (h : q.current.Shows x y buttons) : EndsWith t x y buttons := by
  rcases q.sync_cases with
    ⟨hfull, -⟩ | ⟨-, before, prev, -, hsame, hsync⟩ | ⟨-, hsync⟩
  · exact absurd hfull hroom
  · refine Or.inl ⟨before, prev.merge q.current, by rw [ht, hsync], h.1, h.2.1, ?_⟩
    exact hsame.symm.trans h.2.2
  · exact Or.inl ⟨q.pending, q.current, by rw [ht, hsync, PointerQueue.push], h⟩

theorem report_eq {e : HIDPointerEvent} {x y : ℤ} {buttons : BitVec 32}
    (h : e.Shows x y buttons) :
    ∃ dz, e.report.1 = ⟨buttons, x, y, dz⟩ ∧ -127 ≤ dz ∧ dz ≤ 127 := by
  obtain ⟨rfl, rfl, rfl⟩ := h
  refine ⟨_, rfl, ?_⟩
  unfold intClamp
  split_ifs <;> omega

theorem EndsWith.poll {t : ListTablet} {x y : ℤ} {buttons : BitVec 32}
    (h : EndsWith t x y buttons) : EndsWith (listStep t .poll) x y buttons := by
  obtain ⟨⟨pending, current, last⟩, log⟩ := t
  rcases h with ⟨before, e, hpending, hshows⟩ | ⟨hpending, hlast, -⟩
  · obtain rfl : pending = before ++ [e] := hpending
    cases before with
    | nil =>
        obtain ⟨dz, hreport, hdz⟩ := report_eq hshows
        simp only [listStep, PointerQueue.poll, List.nil_append, TabletLog.note]
        split
        · exact Or.inr ⟨rfl, hshows, _, dz, List.getLast?_concat, hreport, hdz⟩
        · exact Or.inl ⟨[], _, rfl, hshows⟩
    | cons first rest =>
        refine Or.inl ?_
        simp only [listStep, PointerQueue.poll, List.cons_append, TabletLog.note]
        split
        · exact ⟨rest, e, rfl, hshows⟩
        · exact ⟨_ :: rest, e, rfl, hshows⟩
  · obtain rfl : pending = [] := hpending
    obtain ⟨dz, hreport, hdz⟩ := report_eq hlast
    exact Or.inr ⟨rfl, hlast, _, dz, List.getLast?_concat, hreport, hdz⟩

theorem scaleAxis_range {value size : ℤ} (hvalue : 0 ≤ value) (hsize : value < size) :
    0 ≤ qemuInputScaleAxis value size inputEventAbsSize ∧
      qemuInputScaleAxis value size inputEventAbsSize < 0x8000 := by
  unfold qemuInputScaleAxis inputEventAbsSize
  split
  · decide
  · have hpos : 0 < size - 1 := by omega
    have hnonneg : 0 ≤ value * (0x8000 - 1) := by omega
    have hle : value * (0x8000 - 1) / (size - 1) ≤ 0x8000 - 1 :=
      Int.ediv_le_of_le_mul hpos (by nlinarith)
    have hge := Int.ediv_nonneg hnonneg hpos.le
    rw [Int.tdiv_eq_ediv_of_nonneg hnonneg, Int.bmod_eq_of_le (by omega) (by omega)]
    omega

/-- The place is on the screen. -/
def OnScreen (screen : ScreenSize) (place : ℤ × ℤ) : Prop :=
  (0 ≤ place.1 ∧ place.1 < screen.w) ∧ (0 ≤ place.2 ∧ place.2 < screen.h)

instance (screen : ScreenSize) (place : ℤ × ℤ) : Decidable (OnScreen screen place) :=
  inferInstanceAs (Decidable ((_ ∧ _) ∧ _ ∧ _))

/-- What the tablet makes of a place. -/
def tabletPlace (screen : ScreenSize) (place : ℤ × ℤ) : ℤ × ℤ :=
  (qemuInputScaleAxis place.1 screen.w inputEventAbsSize,
    qemuInputScaleAxis place.2 screen.h inputEventAbsSize)

/-- A message that finds the VM running, the tablet in front and room in its queue. -/
theorem PointerInv.endsWith {s : Pointer} {t : ListTablet} (h : PointerInv s t)
    (androidMode : Bool) (screen : ScreenSize) (hactive : s.mouseGrabbed = true)
    (hroom : s.tablet.device.n ≠ queueLength - 1) (x y : Int32) (button : Button) :
    PointerInv (turnStep androidMode screen s (.call true (.mouse x y button)))
        (listPointerStep screen s t
          (Turn.step androidMode screen.h (.call true (.mouse x y button)))) ∧
      EndsWith (listPointerStep screen s t
          (Turn.step androidMode screen.h (.call true (.mouse x y button))))
        (tabletPlace screen (eventPlace androidMode screen x y)).1
        (tabletPlace screen (eventPlace androidMode screen x y)).2 (guestButtons button) := by
  have harrives : ChangeArrives s (.call true (.mouse x y button)) :=
    Or.inl ⟨by rw [hactive]; rfl, hroom⟩
  refine ⟨h.step screen (harrives.dropsNoButton androidMode screen), ?_⟩
  rw [Turn.step, inputCall_eventPlace]
  rcases listPointerStep_call h.handlers screen h.current true 0 0
      (eventPlace androidMode screen x y).1 (eventPlace androidMode screen x y).2 button.state with
    ⟨hmissed, -⟩ | ⟨-, current, wheel, hshows, hnext⟩
  · rw [hactive] at hmissed
    exact absurd hmissed (by decide)
  · rw [hidButtons_state] at hshows
    have hlength : t.queue.pending.length ≠ queueLength - 1 := by
      rw [h.same.represents.length_eq]
      exact hroom
    exact endsWith_of_sync (q := { t.queue with current := current }) (by rw [hnext]; rfl) hlength
      hshows

theorem PointerInv.endsWith_polls {s : Pointer} {t : ListTablet} (h : PointerInv s t)
    (androidMode : Bool) (screen : ScreenSize) {x y : ℤ} {buttons : BitVec 32}
    (hends : EndsWith t x y buttons) (polls : ℕ) :
    ∃ t', PointerInv (run (turnStep androidMode screen) s (List.replicate polls .poll)) t' ∧
      EndsWith t' x y buttons := by
  induction polls generalizing s t with
  | zero => exact ⟨t, h, hends⟩
  | succ polls ih =>
      rw [List.replicate_succ, run_cons]
      have hdrops : DropsNoButton s .poll := trivial
      exact ih (h.step screen hdrops) hends.poll

/-- When nothing waits any more, the guest has read it. -/
theorem EndsWith.lastReport {t : ListTablet} {x y : ℤ} {buttons : BitVec 32}
    (h : EndsWith t x y buttons) (hempty : t.queue.pending = []) :
    ∃ dz, t.log.reports.getLast? = some ⟨buttons, x, y, dz⟩ ∧ -127 ≤ dz ∧ dz ≤ 127 := by
  rcases h with ⟨before, e, hpending, -⟩ | ⟨-, -, r, dz, hlast, rfl, hdz⟩
  · rw [hempty] at hpending
    simp at hpending
  · exact ⟨dz, hlast, hdz⟩

end SsmIaas.Qemu
