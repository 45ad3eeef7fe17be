import SsmIaas.Lib.Run
import SsmIaas.Qemu.FrameData

/-!
# The size of the screen and the size of the frame buffer

`real_screen` is replaced whenever the SDL window gets a new size: by the first
event, by a resize event, by the keys for full screen and scaling, and when the
guest switches its surface.  The frame buffer is a file with a header of its own;
it is built in two places only, `sdl_refresh`'s first event and its resize event,
and the latter builds it *before* the window is resized.

`geometry_iff` gives the runs in which the header always fits the screen that the
next `Update_frameData ()` draws from: those in which, once the buffer is mapped, no
event changes the size of the screen.  (In android mode the picture is turned, and a
resize event builds the buffer without turning it.)
-/

namespace SsmIaas.Qemu

open Lib

structure ScreenSize where
  w : ℕ
  h : ℕ
  deriving DecidableEq, Repr

/-- The guest's `DisplaySurface`. -/
structure Surface where
  size : ScreenSize
  bitsPerPixel : ℕ
  deriving DecidableEq, Repr

/-- What `mmap_fb` makes: the header it writes and the length of the file. -/
structure Mapping where
  header : Bytes
  length : ℕ
  deriving DecidableEq, Repr

def mapping (size : ScreenSize) : Mapping :=
  ⟨header size.w size.h, size.w * size.h * 3 + headerLen size.w size.h⟩

/-- The variables of `sdl.c` that sizes depend on. -/
structure Window where
  surface : Surface
  /-- `real_screen->w` and `real_screen->h` -/
  screen : ScreenSize
  /-- `real_screen->format->BitsPerPixel` -/
  bitsPerPixel : ℕ
  /-- `fb_data` -/
  fb : Option Mapping
  /-- `screen_mod` is not 0 any more -/
  screenMod : Bool
  scalingActive : Bool
  fullscreen : Bool
  savedSize : ScreenSize
  savedScaling : Bool
  deriving DecidableEq, Repr

/-- The keys that `handle_keydown` acts on while the grab modifier is pressed; a digit
comes with the surface of the console it selects, if there is one. -/
inductive HotKey
  | f
  | u
  | digit (console : Option Surface)
  | plus
  | minus
  | other
  deriving DecidableEq, Repr

/-- The events of the `switch` in `sdl_refresh`. -/
inductive SdlEvent
  | keyDown (modifierPressed : Bool) (key : HotKey)
  | videoResize (size : ScreenSize)
  /-- events that leave all sizes alone: expose, key up, mouse, activation, quit -/
  | other
  deriving DecidableEq, Repr

inductive WindowEvent
  /-- `SDL_PollEvent` returns an event: the block `if (!screen_mod)` -/
  | poll
  /-- the `switch` over the type of that event -/
  | handle (event : SdlEvent)
  /-- the guest replaces its surface -/
  | gfxSwitch (surface : Surface)
  deriving DecidableEq, Repr

/-- `g_img_width` and `g_img_height`. -/
def imgSize : ScreenSize := ⟨1280, 768⟩

/-- The header of the buffer for a screen: turned by a quarter in android mode. -/
def turned (androidMode : Bool) (size : ScreenSize) : ScreenSize :=
  if androidMode then ⟨size.h, size.w⟩ else size

namespace Window

/-- `do_sdl_resize`, where `SDL_SetVideoMode` succeeds; a depth of 0 stands for that of
the display. -/
def doSdlResize (displayBpp : ℕ) (s : Window) (size : ScreenSize) (bpp : ℕ) : Window :=
  { s with screen := size, bitsPerPixel := if bpp = 0 then displayBpp else bpp }

def sdlScale (displayBpp : ℕ) (s : Window) (size : ScreenSize) : Window :=
  let bpp := if s.bitsPerPixel ≠ 16 ∧ s.bitsPerPixel ≠ 32 then 32 else s.bitsPerPixel
  { s.doSdlResize displayBpp size bpp with scalingActive := true }

/-- `sdl_switch`; the surface is `none` for the call with `NULL`. -/
def sdlSwitch (displayBpp : ℕ) (s : Window) (newSurface : Option Surface) : Window :=
  let s := { s with surface := newSurface.getD s.surface }
  if ¬ s.scalingActive then s.doSdlResize displayBpp s.surface.size 0
  else if s.bitsPerPixel ≠ s.surface.bitsPerPixel then
    s.doSdlResize displayBpp s.screen s.surface.bitsPerPixel
  else s

/-- `make_frameData (w, h)`, as far as the size of the buffer goes. -/
def makeFrameData (s : Window) (size : ScreenSize) : Window := { s with fb := some (mapping size) }

def toggleFullScreen (displayBpp : ℕ) (s : Window) : Window :=
  if ¬ s.fullscreen then
    let s := { s with fullscreen := true, savedSize := s.screen, savedScaling := s.scalingActive }
    { s.doSdlResize displayBpp s.surface.size s.surface.bitsPerPixel with scalingActive := false }
  else
    let s := { s with fullscreen := false }
    if s.savedScaling then s.sdlScale displayBpp s.savedSize
    else s.doSdlResize displayBpp s.surface.size 0

/-- The size that the keys `+` and `-` scale to. -/
def scaledSize (s : Window) (key : HotKey) : ScreenSize :=
  let width := max (if key = .plus then s.screen.w + 50 else s.screen.w - 50) 160
  ⟨width, s.surface.size.h * width / s.surface.size.w⟩

/-- `handle_keydown` with the grab modifier pressed. -/
def handleKeydown (displayBpp : ℕ) (s : Window) (key : HotKey) : Window :=
  match key with
  | .f => s.toggleFullScreen displayBpp
  | .u =>
      if s.scalingActive then { s with scalingActive := false }.sdlSwitch displayBpp none else s
  | .digit console =>
      match console with
      | none => s
      | some surface => s.sdlSwitch displayBpp (some surface)
  | .plus => if ¬ s.fullscreen then s.sdlScale displayBpp (s.scaledSize .plus) else s
  | .minus => if ¬ s.fullscreen then s.sdlScale displayBpp (s.scaledSize .minus) else s
  | .other => s

/-- The block of the first event. -/
def onPoll (androidMode : Bool) (displayBpp : ℕ) (s : Window) : Window :=
  if s.screenMod then s
  else
    let s := { s with screenMod := true }.sdlScale displayBpp imgSize
    if androidMode then s.makeFrameData ⟨s.screen.h, s.screen.w⟩
    else s.makeFrameData ⟨s.screen.w, s.screen.h⟩

def onEvent (displayBpp : ℕ) (s : Window) : SdlEvent → Window
  | .keyDown modifierPressed key => if modifierPressed then s.handleKeydown displayBpp key else s
  | .videoResize size =>
      (s.makeFrameData ⟨s.screen.w, s.screen.h⟩).sdlScale displayBpp size
  | .other => s

end Window

/-- No event is handled before the block of the first one. -/
def windowStep (androidMode : Bool) (displayBpp : ℕ) (s : Window) : WindowEvent → Window
  | .poll => s.onPoll androidMode displayBpp
  | .handle event => if s.screenMod then s.onEvent displayBpp event else s
  | .gfxSwitch surface => s.sdlSwitch displayBpp (some surface)

/-- The state after `sdl_display_init`, which switches to the first surface. -/
def windowStart (displayBpp : ℕ) (surface : Surface) (fullScreen : Bool) : Window :=
  ⟨surface, surface.size, displayBpp, none, false, false, fullScreen, ⟨0, 0⟩, false⟩

/-! ## When the buffer fits -/

/-- What the next `Update_frameData ()` finds: a buffer, if there is one, for the
screen it draws from. -/
def Fits (androidMode : Bool) (s : Window) : Prop :=
  ∀ buffer, s.fb = some buffer → buffer = mapping (turned androidMode s.screen)

/-- The size that a hot key sets, where it sets one. -/
def hotKeySize (s : Window) : HotKey → Option ScreenSize
  | .f => some (if s.fullscreen ∧ s.savedScaling then s.savedSize else s.surface.size)
  | .u => if s.scalingActive then some s.surface.size else none
  | .digit (some surface) => if s.scalingActive then none else some surface.size
  | .digit none => none
  | .plus => if s.fullscreen then none else some (s.scaledSize .plus)
  | .minus => if s.fullscreen then none else some (s.scaledSize .minus)
  | .other => none

/-- The size that the screen is about to get other than by a resize event. -/
def newSize (s : Window) : WindowEvent → Option ScreenSize
  | .handle (.keyDown true key) => if s.screenMod then hotKeySize s key else none
  | .gfxSwitch surface => if s.scalingActive then none else some surface.size
  | _ => none

/-- The condition: a resize event brings the size that the screen has, turned in
android mode, and once the buffer is mapped nothing else changes that size. -/
def KeepsSize (androidMode : Bool) (s : Window) : WindowEvent → Prop
  | .handle (.videoResize size) => s.screenMod → size = turned androidMode s.screen
  | event => s.fb ≠ none → ∀ size, newSize s event = some size → size = s.screen

/-! ## Headers tell sizes apart -/

theorem header_inj {w h w' h' : ℕ} (heq : header w h = header w' h') : w = w' ∧ h = h' := by
  have hspace : ∀ n, space ∉ decimal n := fun n => (numeral_decimal n).token.space_notMem
  have hcut : decimal w ++ space :: (decimal h ++ [10, 50, 53, 53, 10]) =
      decimal w' ++ space :: (decimal h' ++ [10, 50, 53, 53, 10]) := by
    simpa [header] using heq
  obtain ⟨hw, hrest⟩ := (cut_inj (hspace w) (hspace w')).mp hcut
  exact ⟨decimal_injective hw, decimal_injective (List.append_cancel_right hrest)⟩

theorem mapping_injective : Function.Injective mapping := by
  intro a b heq
  obtain ⟨hw, hh⟩ := header_inj (congrArg Mapping.header heq)
  cases a
  cases b
  simp_all

theorem turned_turned (androidMode : Bool) (size : ScreenSize) :
    turned androidMode (turned androidMode size) = size := by
  cases androidMode <;> rfl

theorem turned_injective (androidMode : Bool) : Function.Injective (turned androidMode) := by
  intro a b heq
  rw [← turned_turned androidMode a, heq, turned_turned]

/-! ## What an event does to the sizes -/

section

variable (androidMode : Bool) (displayBpp : ℕ)

@[simp] theorem doSdlResize_fb (s : Window) (size : ScreenSize) (bpp : ℕ) :
    (s.doSdlResize displayBpp size bpp).fb = s.fb := rfl

@[simp] theorem doSdlResize_screen (s : Window) (size : ScreenSize) (bpp : ℕ) :
    (s.doSdlResize displayBpp size bpp).screen = size := rfl

@[simp] theorem sdlScale_fb (s : Window) (size : ScreenSize) :
    (s.sdlScale displayBpp size).fb = s.fb := rfl

@[simp] theorem sdlScale_screen (s : Window) (size : ScreenSize) :
    (s.sdlScale displayBpp size).screen = size := rfl

theorem sdlSwitch_fb (s : Window) (surface : Option Surface) :
    (s.sdlSwitch displayBpp surface).fb = s.fb := by
  simp only [Window.sdlSwitch]
  split
  · rfl
  · split <;> rfl

/-- While scaling, a switch keeps the size. -/
theorem sdlSwitch_screen (s : Window) (surface : Option Surface) :
    (s.sdlSwitch displayBpp surface).screen =
      if s.scalingActive then s.screen else (surface.getD s.surface).size := by
  simp only [Window.sdlSwitch]
  cases s.scalingActive with
  | false => rfl
  | true =>
      simp only [not_true_eq_false, if_false, if_true]
      split <;> rfl

theorem handleKeydown_sizes (s : Window) (key : HotKey) :
    (s.handleKeydown displayBpp key).fb = s.fb ∧
      (s.handleKeydown displayBpp key).screen = (hotKeySize s key).getD s.screen := by
  cases key with
  | f =>
      simp only [Window.handleKeydown, Window.toggleFullScreen, hotKeySize, Option.getD_some]
      cases s.fullscreen with
      | false => exact ⟨rfl, rfl⟩
      | true => cases s.savedScaling <;> exact ⟨rfl, rfl⟩
  | u =>
      simp only [Window.handleKeydown, hotKeySize]
      split
      · exact ⟨sdlSwitch_fb displayBpp _ none, sdlSwitch_screen displayBpp _ none⟩
      · exact ⟨rfl, rfl⟩
  | digit console =>
      cases console with
      | none => exact ⟨rfl, rfl⟩
      | some surface =>
          refine ⟨sdlSwitch_fb displayBpp s (some surface), ?_⟩
          simp only [Window.handleKeydown, hotKeySize, sdlSwitch_screen]
          split <;> rfl
  | plus =>
      simp only [Window.handleKeydown, hotKeySize]
      cases s.fullscreen <;> exact ⟨rfl, rfl⟩
  | minus =>
      simp only [Window.handleKeydown, hotKeySize]
      cases s.fullscreen <;> exact ⟨rfl, rfl⟩
  | other => exact ⟨rfl, rfl⟩

/-- A buffer that fits keeps fitting exactly if the screen keeps its size. -/
theorem Fits.iff_of_fb_eq {s s' : Window} (h : Fits androidMode s) (hfb : s'.fb = s.fb) :
    Fits androidMode s' ↔ (s.fb ≠ none → s'.screen = s.screen) := by
  unfold Fits
  rw [hfb]
  cases hbuffer : s.fb with
  | none => simp
  | some buffer =>
      have hold := h buffer hbuffer
      simp only [Option.some.injEq, forall_eq', ne_eq, reduceCtorEq, not_false_eq_true,
        forall_const, hold]
      refine ⟨fun heq => ?_, fun heq => by rw [heq]⟩
      exact (turned_injective androidMode (mapping_injective heq)).symm

/-- The same for an event that sets the size it names. -/
theorem Fits.iff_of_newSize {s s' : Window} {event : WindowEvent} (h : Fits androidMode s)
    (hfb : s'.fb = s.fb) (hscreen : s'.screen = (newSize s event).getD s.screen) :
    Fits androidMode s' ↔
      (s.fb ≠ none → ∀ size, newSize s event = some size → size = s.screen) := by
  rw [h.iff_of_fb_eq androidMode hfb, hscreen]
  cases newSize s event <;> simp

theorem fits_step_iff {s : Window} (h : Fits androidMode s) (event : WindowEvent) :
    Fits androidMode (windowStep androidMode displayBpp s event) ↔
      KeepsSize androidMode s event := by
  cases event with
  | poll =>
      refine iff_of_true ?_ (by simp [KeepsSize, newSize])
      simp only [windowStep, Window.onPoll]
      split
      · exact h
      · -- the first event resizes, then builds the buffer
        cases androidMode <;> simp [Fits, Window.makeFrameData, turned]
  | gfxSwitch surface =>
      refine h.iff_of_newSize androidMode (sdlSwitch_fb displayBpp s (some surface)) ?_
      simp only [windowStep, sdlSwitch_screen, newSize]
      split <;> rfl
  | handle event =>
      cases event with
      | other =>
          simp only [windowStep, Window.onEvent, ite_self]
          exact iff_of_true h (by simp [KeepsSize, newSize])
      | keyDown modifierPressed key =>
          cases modifierPressed with
          | false =>
              simp only [windowStep, Window.onEvent, Bool.false_eq_true, if_false, ite_self]
              exact iff_of_true h (by simp [KeepsSize, newSize])
          | true =>
              obtain ⟨hfb, hscreen⟩ := handleKeydown_sizes displayBpp s key
              apply h.iff_of_newSize androidMode
              · simp only [windowStep, Window.onEvent, if_true]
                split
                · exact hfb
                · rfl
              · simp only [windowStep, Window.onEvent, if_true, newSize]
                split
                · exact hscreen
                · rfl
      | videoResize size =>
          simp only [windowStep, Window.onEvent, KeepsSize]
          cases s.screenMod with
          | false => exact iff_of_true h (by simp)
          | true =>
              -- the buffer is built for the old size, and fits the new one turned
              simp only [if_true, forall_const, Fits, sdlScale_fb, sdlScale_screen,
                Window.makeFrameData, Option.some.injEq, forall_eq']
              refine ⟨fun heq => ?_, fun heq => ?_⟩
              · have hold : s.screen = turned androidMode size := mapping_injective heq
                rw [hold, turned_turned]
              · rw [heq, turned_turned]

/-- **Geometry.**  The header and the length of the mapped buffer fit the screen in
every state of a run exactly when every event of it keeps the size. -/
theorem geometry_iff (surface : Surface) (fullScreen : Bool) (events : List WindowEvent) :
    Everywhere (windowStep androidMode displayBpp) (Fits androidMode)
        (windowStart displayBpp surface fullScreen) events ↔
      Along (windowStep androidMode displayBpp) (KeepsSize androidMode)
        (windowStart displayBpp surface fullScreen) events :=
  everywhere_iff_along (by simp [Fits, windowStart]) fun _ event h =>
    fits_step_iff androidMode displayBpp h event

end

/-- The window is resized to 800 x 600: the buffer is built for 1280 x 768 just before. -/
theorem resize_leaves_old_buffer :
    ¬ Everywhere (windowStep false 32) (Fits false) (windowStart 32 ⟨⟨640, 480⟩, 32⟩ false)
      [.poll, .handle (.videoResize ⟨800, 600⟩)] := by
  intro h
  have hlast := h.last (mapping imgSize) rfl
  have hsize := mapping_injective hlast
  revert hsize
  decide

end SsmIaas.Qemu
