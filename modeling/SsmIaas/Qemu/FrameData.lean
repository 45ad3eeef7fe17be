import Mathlib.Data.List.GetD
import SsmIaas.Lib.CString
import SsmIaas.Lib.Raster

/-!
# The frame buffer of `ui/sdl.c`

QEMU's display is streamed from a memory-mapped PPM file.  `make_frameData` maps a
new file and converts the whole screen, and `Update_frameData` converts the
rectangle that `sdl_update` reports.  This module has both in desktop mode
(`g_androidMode` false), for 32-bit and RGB565 screens, and says what each loop
leaves in the buffer.

Both functions tell the depth of the screen by dividing its pitch by a width, but
not by the same one: `make_frameData` uses the width of the picture,
`Update_frameData` that of the rectangle.  The latter also takes the rectangle's
width for the distance of two rows, through `get_pixel_index (recw, x, y)`.

Sizes are natural numbers: for the screens SDL can open, none of the `int`
products overflows.
-/

namespace SsmIaas.Qemu

open Lib

/-- `real_screen`. -/
structure Screen where
  w : ℕ
  h : ℕ
  pitch : ℕ
  pixels : Memory

/-! ## Colours -/

/-- The pixel at `tmp[index * 4]` of a 32-bit screen: blue, green, red. -/
def color32 (pixels : Memory) (index : ℕ) : Color :=
  ⟨pixels (index * 4 + 2), pixels (index * 4 + 1), pixels (index * 4)⟩

/-- `tmp[index]` of an array of `unsigned short`, little endian. -/
def short (pixels : Memory) (index : ℕ) : ℕ :=
  (pixels (index * 2)).toNat + 256 * (pixels (index * 2 + 1)).toNat

/-- The pixel `tmp[index]` of an RGB565 screen, each channel widened to 8 bits. -/
def color565 (pixels : Memory) (index : ℕ) : Color :=
  let r := (short pixels index >>> 11) &&& 31
  let g := (short pixels index >>> 5) &&& 63
  let b := short pixels index &&& 31
  ⟨.ofNat (r * 255 / 31), .ofNat (g * 255 / 63), .ofNat (b * 255 / 31)⟩

/-! ## `mmap_fb` -/

/-- The PPM header. -/
def header (w h : ℕ) : Bytes :=
  [80, 54, 10] ++ decimal w ++ [space] ++ decimal h ++ [10, 50, 53, 53, 10]

/-- The global `header_len`. -/
def headerLen (w h : ℕ) : ℕ := 9 + (decimal w).length + (decimal h).length

/-- `mmap_fb`: a new file of zeros with the header in front. -/
def mmapFb (w h : ℕ) : Memory := fun address => (header w h).getD address 0

/-! ## `make_frameData` -/

/-- The body of the loop over the bytes of a 32-bit screen, with its second
counter `j`. -/
def make32Step (pixels : Memory) (base : ℕ) (state : Memory × ℕ) (i : ℕ) : Memory × ℕ :=
  let (fb, j) := state
  if i % 4 = 0 then (Function.update fb (j * 3 + 2 + base) (pixels i), j)
  else if i % 4 = 1 then (Function.update fb (j * 3 + 1 + base) (pixels i), j)
  else if i % 4 = 2 then (Function.update fb (j * 3 + base) (pixels i), j + 1)
  else (fb, j)

def make32 (pixels : Memory) (base w h : ℕ) (fb : Memory) : Memory :=
  ((List.range (w * h * 4)).foldl (make32Step pixels base) (fb, 0)).1

def make16 (pixels : Memory) (base w h : ℕ) (fb : Memory) : Memory :=
  (List.range (w * h)).foldl (fun fb i => storePixel base fb i (color565 pixels i)) fb

/-- `make_frameData` behind its call of `mmap_fb`, in desktop mode. -/
def drawFrame (screen : Screen) (w h : ℕ) (fb : Memory) : Memory :=
  if screen.pitch / w = 4 then make32 screen.pixels (headerLen w h) w h fb
  else if screen.pitch / w = 2 then make16 screen.pixels (headerLen w h) w h fb
  else fb

/-- `make_frameData (w, h)` in desktop mode. -/
def makeFrameData (screen : Screen) (w h : ℕ) : Memory := drawFrame screen w h (mmapFb w h)

/-! ## `Update_frameData` -/

def getPixelIndex (w x y : ℕ) : ℕ := w * y + x

/-- `Update_frameData (recx, recy, recw, rech)` in desktop mode; `base` is the
global `header_len`. -/
def updateFrameData (screen : Screen) (base : ℕ) (fb : Memory) (rec : Rect) : Memory :=
  if screen.pitch / rec.w = 4 then
    (List.range' rec.y rec.h).foldl (fun fb y =>
      (List.range' rec.x rec.w).foldl (fun fb x =>
        let pixelIndex := getPixelIndex rec.w x y
        storePixel base fb pixelIndex (color32 screen.pixels pixelIndex)) fb) fb
  else if screen.pitch / rec.w = 2 then
    (List.range' rec.y rec.h).foldl (fun fb y =>
      (List.range' rec.x rec.w).foldl (fun fb x =>
        let pixelIndex := getPixelIndex rec.w x y
        storePixel base fb pixelIndex (color565 screen.pixels pixelIndex)) fb) fb
  else fb

/-! ## Small screens and new files -/

/-- A screen with one white pixel. -/
def spot (index : ℕ) : Memory := fun address => if address / 2 = index then 255 else 0

theorem color565_spot (index i : ℕ) :
    color565 (spot index) i = if i = index then ⟨255, 255, 255⟩ else ⟨0, 0, 0⟩ := by
  have hlow : i * 2 / 2 = i := by omega
  have hhigh : (i * 2 + 1) / 2 = i := by omega
  simp only [color565, short, spot, hlow, hhigh]
  by_cases hi : i = index
  · simp only [if_pos hi]
    decide
  · simp only [if_neg hi]
    decide

theorem length_header (w h : ℕ) : (header w h).length = headerLen w h := by
  simp only [header, headerLen, List.length_append, List.length_cons, List.length_nil]
  omega

/-- Behind the header, a new file is black. -/
theorem pixelAt_mmapFb (w h index : ℕ) :
    pixelAt (headerLen w h) (mmapFb w h) index = ⟨0, 0, 0⟩ := by
  have hbehind : ∀ address, headerLen w h ≤ address → mmapFb w h address = 0 := by
    intro address hle
    rw [← length_header] at hle
    exact List.getD_eq_default _ _ hle
  simp only [pixelAt]
  rw [hbehind _ (by omega), hbehind _ (by omega), hbehind _ (by omega)]

/-! ## What the loops draw -/

/-- The two kinds of screens the desktop branches know. -/
inductive Depth
  | rgb32
  | rgb565
  deriving DecidableEq, Repr

def Depth.bytes : Depth → ℕ
  | .rgb32 => 4
  | .rgb565 => 2

def Depth.color : Depth → Memory → ℕ → Color
  | .rgb32 => color32
  | .rgb565 => color565

/-- A screen of a given depth whose rows follow each other without a gap. -/
def Depth.screen (depth : Depth) (w h : ℕ) (pixels : Memory) : Screen :=
  ⟨w, h, depth.bytes * w, pixels⟩

@[simp] theorem Depth.screen_pitch (depth : Depth) (w h : ℕ) (pixels : Memory) :
    (depth.screen w h pixels).pitch = depth.bytes * w := rfl

@[simp] theorem Depth.screen_pixels (depth : Depth) (w h : ℕ) (pixels : Memory) :
    (depth.screen w h pixels).pixels = pixels := rfl

/-- Four iterations of the byte loop store one pixel. -/
theorem make32Step_four (pixels : Memory) (base : ℕ) (fb : Memory) (n : ℕ) :
    [n * 4, n * 4 + 1, n * 4 + 2, n * 4 + 3].foldl (make32Step pixels base) (fb, n) =
      (storePixel base fb n (color32 pixels n), n + 1) := by
  have hblue : ∀ fb, make32Step pixels base (fb, n) (n * 4) =
      (Function.update fb (n * 3 + 2 + base) (pixels (n * 4)), n) := by
    simp [make32Step]
  have hgreen : ∀ fb, make32Step pixels base (fb, n) (n * 4 + 1) =
      (Function.update fb (n * 3 + 1 + base) (pixels (n * 4 + 1)), n) := by
    simp [make32Step, Nat.add_mod]
  have hred : ∀ fb, make32Step pixels base (fb, n) (n * 4 + 2) =
      (Function.update fb (n * 3 + base) (pixels (n * 4 + 2)), n + 1) := by
    simp [make32Step, Nat.add_mod]
  have hskip : ∀ fb, make32Step pixels base (fb, n + 1) (n * 4 + 3) = (fb, n + 1) := by
    simp [make32Step, Nat.add_mod]
  simp only [List.foldl_cons, List.foldl_nil, hblue, hgreen, hred, hskip]
  exact Prod.ext (update_eq_storePixel n (color32 pixels n)) rfl

theorem make32_eq (pixels : Memory) (base w h : ℕ) (fb : Memory) :
    make32 pixels base w h fb = storePixels base (color32 pixels) fb (List.range (w * h)) := by
  have hloop : ∀ n, (List.range (n * 4)).foldl (make32Step pixels base) (fb, 0) =
      (storePixels base (color32 pixels) fb (List.range n), n) := by
    intro n
    induction n with
    | zero => rfl
    | succ n ih =>
        have hsplit : List.range ((n + 1) * 4) =
            List.range (n * 4) ++ [n * 4, n * 4 + 1, n * 4 + 2, n * 4 + 3] := by
          rw [Nat.add_mul, Nat.one_mul]
          simp [List.range_succ]
        rw [hsplit, List.foldl_append, ih, make32Step_four, List.range_succ]
        simp [storePixels]
  rw [make32, hloop]

/-- The full conversion of a screen. -/
theorem makeFrameData_eq (depth : Depth) {w : ℕ} (hw : 0 < w) (h : ℕ) (pixels : Memory) :
    makeFrameData (depth.screen w h pixels) w h =
      storePixels (headerLen w h) (depth.color pixels) (mmapFb w h) (List.range (w * h)) := by
  have hdepth : depth.bytes * w / w = depth.bytes := Nat.mul_div_cancel _ hw
  simp only [makeFrameData, drawFrame, Depth.screen_pitch, Depth.screen_pixels, hdepth]
  cases depth with
  | rgb32 => exact make32_eq _ _ _ _ _
  | rgb565 => rfl

/-- The depth that `Update_frameData` takes a screen for. -/
def depthOf (bytes : ℕ) : Option Depth :=
  if bytes = 4 then some .rgb32 else if bytes = 2 then some .rgb565 else none

/-- An update draws the pixels of the rectangle in a picture as wide as the
rectangle, or nothing. -/
theorem updateFrameData_eq (screen : Screen) (base : ℕ) (fb : Memory) (rec : Rect) :
    updateFrameData screen base fb rec =
      match depthOf (screen.pitch / rec.w) with
      | some depth =>
          storePixels base (depth.color screen.pixels) fb (rectIndices rec.w rec)
      | none => fb := by
  unfold updateFrameData depthOf
  by_cases h32 : screen.pitch / rec.w = 4
  · simp only [if_pos h32, getPixelIndex]
    exact foldl_rect rec.w rec
  · by_cases h16 : screen.pitch / rec.w = 2
    · simp only [if_neg h32, if_pos h16, getPixelIndex]
      exact foldl_rect rec.w rec
    · simp only [if_neg h32, if_neg h16]

end SsmIaas.Qemu
