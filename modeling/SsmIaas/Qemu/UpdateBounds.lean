import SsmIaas.Lib.Bounds
import SsmIaas.Qemu.AndroidFrame
import SsmIaas.Qemu.DesktopUpdate

/-!
# Do updates stay in the screen and in the frame buffer?

`dpy_gfx_update` clamps a rectangle to the surface, so `Update_frameData` gets rectangles
inside the screen.  Its index `recw * y + x` then is one of the screen's pixels, since the
rectangle is no wider than the screen, and so is the index of the android branch.  The
buffer is never left.

The screen is: `pitch / recw == 4` holds also for an RGB565 screen and a rectangle of about
half its width, and then the pixel is read from `4 * (recw * y + x)` of a screen that has
only two bytes for a pixel.  `update_safe_iff` gives the rectangles for which that leaves
the screen.
-/

namespace SsmIaas.Qemu

open Lib

/-! ## `dpy_gfx_update` -/

/-- The clamping in `dpy_gfx_update`: what it passes on as `x`, `y`, `w` and `h`. -/
def dpyGfxUpdate (width height x y w h : ℤ) : ℤ × ℤ × ℤ × ℤ :=
  let x := max x 0
  let y := max y 0
  let x := min x width
  let y := min y height
  let w := min w (width - x)
  let h := min h (height - y)
  (x, y, w, h)

/-- A rectangle with at least one pixel that `dpy_gfx_update` can pass on. -/
def Passed (width height : ℕ) (rect : Rect) : Prop :=
  0 < rect.w ∧ 0 < rect.h ∧
    ∃ x y w h, dpyGfxUpdate width height x y w h = (↑rect.x, ↑rect.y, ↑rect.w, ↑rect.h)

theorem passed_iff {width height : ℕ} {rect : Rect} :
    Passed width height rect ↔ rect.Inside width height := by
  refine ⟨?_, ?_⟩
  · rintro ⟨hw, hh, x, y, w, h, hclamp⟩
    simp only [dpyGfxUpdate, Prod.mk.injEq] at hclamp
    obtain ⟨hx, hy, hw', hh'⟩ := hclamp
    exact ⟨hw, hh, by omega, by omega⟩
  · rintro ⟨hw, hh, hright, hbottom⟩
    refine ⟨hw, hh, rect.x, rect.y, rect.w, rect.h, ?_⟩
    simp only [dpyGfxUpdate, Prod.mk.injEq]
    omega

/-! ## `Update_frameData`, with its accesses checked -/

/-- The bytes of the screen. -/
def Screen.region (screen : Screen) : Region := ⟨0, screen.pitch * screen.h⟩

/-- The bytes of the frame buffer behind its header. -/
def Screen.buffer (screen : Screen) (base : ℕ) : Region :=
  ⟨base, base + 3 * (screen.w * screen.h)⟩

/-- The loop body of the 32-bit branch. -/
def copy32 (screen : Screen) (base : ℕ) (fb : Memory) (pixelIndex : ℕ) :
    Except OutOfBounds Memory := do
  let pixelIndex32 := pixelIndex * 4
  let pixelIndexFb := pixelIndex * 3
  let fb ← store (screen.buffer base) fb (pixelIndexFb + 2 + base)
    (← load screen.region screen.pixels pixelIndex32)
  let fb ← store (screen.buffer base) fb (pixelIndexFb + 1 + base)
    (← load screen.region screen.pixels (pixelIndex32 + 1))
  store (screen.buffer base) fb (pixelIndexFb + base)
    (← load screen.region screen.pixels (pixelIndex32 + 2))

/-- `tmp[index]` is read from an array of `unsigned short`, and its colour stored as pixel
`target` of the buffer. -/
def copy565 (screen : Screen) (base : ℕ) (fb : Memory) (index target : ℕ) :
    Except OutOfBounds Memory := do
  let low ← load screen.region screen.pixels (index * 2)
  let high ← load screen.region screen.pixels (index * 2 + 1)
  let color := color565 (fun address => if address = 0 then low else high) 0
  let fb ← store (screen.buffer base) fb (target * 3 + base) color.r
  let fb ← store (screen.buffer base) fb (target * 3 + 1 + base) color.g
  store (screen.buffer base) fb (target * 3 + 2 + base) color.b

/-- The nested loop over the rectangle. -/
def checkedRect (rec : Rect) (body : Memory → ℕ → ℕ → Except OutOfBounds Memory) (fb : Memory) :
    Except OutOfBounds Memory :=
  (List.range' rec.y rec.h).foldlM (fun fb y =>
    (List.range' rec.x rec.w).foldlM (fun fb x => body fb x y) fb) fb

/-- `Update_frameData` in desktop mode. -/
def checkedUpdateFrameData (screen : Screen) (base : ℕ) (fb : Memory) (rec : Rect) :
    Except OutOfBounds Memory :=
  if screen.pitch / rec.w = 4 then
    checkedRect rec (fun fb x y => copy32 screen base fb (getPixelIndex rec.w x y)) fb
  else if screen.pitch / rec.w = 2 then
    checkedRect rec (fun fb x y =>
      copy565 screen base fb (getPixelIndex rec.w x y) (getPixelIndex rec.w x y)) fb
  else return fb

/-- `Update_frameData` in android mode. -/
def checkedUpdateAndroidFrameData (screen : Screen) (base : ℕ) (fb : Memory) (rec : Rect) :
    Except OutOfBounds Memory :=
  checkedRect rec (fun fb x y =>
    copy565 screen base fb (y * screen.w + x) (rec.h * x + ((screen.h - 1) - y))) fb

/-! ## When the checks pass -/

section

variable {screen : Screen} {base : ℕ}

theorem region_has_iff {address : ℕ} :
    screen.region.Has address ↔ address < screen.pitch * screen.h := by
  simp [Screen.region, Region.Has]

/-- The three bytes of a pixel are in the buffer if the picture has the pixel. -/
theorem buffer_has_iff (screen : Screen) (base target : ℕ) :
    ((screen.buffer base).Has (target * 3 + base) ↔ target < screen.w * screen.h) ∧
      ((screen.buffer base).Has (target * 3 + 1 + base) ↔ target < screen.w * screen.h) ∧
      ((screen.buffer base).Has (target * 3 + 2 + base) ↔ target < screen.w * screen.h) := by
  simp only [Screen.buffer, Region.Has]
  omega

theorem copy32_eq_ok (fb : Memory) (index : ℕ) (after : Memory) :
    copy32 screen base fb index = .ok after ↔
      (index * 4 + 2 < screen.pitch * screen.h ∧ index < screen.w * screen.h) ∧
        after = storePixel base fb index (color32 screen.pixels index) := by
  obtain ⟨hred, hgreen, hblue⟩ := buffer_has_iff screen base index
  simp only [copy32, bind_eq_ok, load_eq_ok, store_eq_ok, region_has_iff, hred, hgreen, hblue,
    ← update_eq_storePixel, color32]
  refine ⟨?_, ?_⟩
  · rintro ⟨_, ⟨-, rfl⟩, _, ⟨-, rfl⟩, _, ⟨-, rfl⟩, _, ⟨-, rfl⟩, _, ⟨hread, rfl⟩, hwrite, rfl⟩
    exact ⟨⟨hread, hwrite⟩, rfl⟩
  · rintro ⟨⟨hread, hwrite⟩, rfl⟩
    exact ⟨_, ⟨by omega, rfl⟩, _, ⟨hwrite, rfl⟩, _, ⟨by omega, rfl⟩, _, ⟨hwrite, rfl⟩, _,
      ⟨hread, rfl⟩, hwrite, rfl⟩

theorem copy565_eq_ok (fb : Memory) (index target : ℕ) (after : Memory) :
    copy565 screen base fb index target = .ok after ↔
      (index * 2 + 1 < screen.pitch * screen.h ∧ target < screen.w * screen.h) ∧
        after = storePixel base fb target (color565 screen.pixels index) := by
  obtain ⟨hred, hgreen, hblue⟩ := buffer_has_iff screen base target
  have hcolor : color565 (fun address => if address = 0 then screen.pixels (index * 2)
      else screen.pixels (index * 2 + 1)) 0 = color565 screen.pixels index := by
    simp [color565, short]
  simp only [copy565, bind_eq_ok, load_eq_ok, store_eq_ok, region_has_iff, hred, hgreen, hblue,
    storePixel]
  refine ⟨?_, ?_⟩
  · rintro ⟨_, ⟨-, rfl⟩, _, ⟨hread, rfl⟩, _, ⟨-, rfl⟩, _, ⟨-, rfl⟩, hwrite, rfl⟩
    exact ⟨⟨hread, hwrite⟩, by rw [hcolor]⟩
  · rintro ⟨⟨hread, hwrite⟩, rfl⟩
    exact ⟨_, ⟨by omega, rfl⟩, _, ⟨hread, rfl⟩, _, ⟨hwrite, rfl⟩, _, ⟨hwrite, rfl⟩, hwrite,
      by rw [hcolor]⟩

/-- The last byte that the update reads for a pixel, taken for a given depth. -/
def lastByte : Depth → ℕ → ℕ
  | .rgb32, index => index * 4 + 2
  | .rgb565, index => index * 2 + 1

/-- The desktop branch returns, with what the unchecked one computes, exactly if every
pixel of the loop can be read and written. -/
theorem checkedUpdate_eq_ok (fb : Memory) (rec : Rect) (after : Memory) :
    checkedUpdateFrameData screen base fb rec = .ok after ↔
      (∀ depth, depthOf (screen.pitch / rec.w) = some depth → ∀ px py, rec.Has px py →
        lastByte depth (rec.w * py + px) < screen.pitch * screen.h ∧
          rec.w * py + px < screen.w * screen.h) ∧
        after = updateFrameData screen base fb rec := by
  unfold checkedUpdateFrameData updateFrameData depthOf
  by_cases h32 : screen.pitch / rec.w = 4
  · simp only [if_pos h32, Option.some.injEq, forall_eq']
    have hbody : ∀ fb x y after, copy32 screen base fb (getPixelIndex rec.w x y) = .ok after ↔
        (lastByte .rgb32 (rec.w * y + x) < screen.pitch * screen.h ∧
          rec.w * y + x < screen.w * screen.h) ∧
        after = storePixel base fb (getPixelIndex rec.w x y)
          (color32 screen.pixels (getPixelIndex rec.w x y)) :=
      fun fb x y after => copy32_eq_ok fb _ after
    exact foldlM_rect_eq_ok hbody rec fb after
  · by_cases h16 : screen.pitch / rec.w = 2
    · simp only [if_neg h32, if_pos h16, Option.some.injEq, forall_eq']
      have hbody : ∀ fb x y after,
          copy565 screen base fb (getPixelIndex rec.w x y) (getPixelIndex rec.w x y) = .ok after ↔
            (lastByte .rgb565 (rec.w * y + x) < screen.pitch * screen.h ∧
              rec.w * y + x < screen.w * screen.h) ∧
            after = storePixel base fb (getPixelIndex rec.w x y)
              (color565 screen.pixels (getPixelIndex rec.w x y)) :=
        fun fb x y after => copy565_eq_ok fb _ _ after
      exact foldlM_rect_eq_ok hbody rec fb after
    · simp [h32, h16, pure, Except.pure, eq_comm]

theorem checkedUpdateAndroid_eq_ok (fb : Memory) (rec : Rect) (after : Memory) :
    checkedUpdateAndroidFrameData screen base fb rec = .ok after ↔
      (∀ px py, rec.Has px py →
        (py * screen.w + px) * 2 + 1 < screen.pitch * screen.h ∧
          rec.h * px + ((screen.h - 1) - py) < screen.w * screen.h) ∧
        after = updateAndroidFrameData screen base fb rec := by
  have hbody : ∀ fb x y after,
      copy565 screen base fb (y * screen.w + x) (rec.h * x + ((screen.h - 1) - y)) = .ok after ↔
        ((y * screen.w + x) * 2 + 1 < screen.pitch * screen.h ∧
          rec.h * x + ((screen.h - 1) - y) < screen.w * screen.h) ∧
        after = storePixel base fb (rec.h * x + ((screen.h - 1) - y))
          (color565 screen.pixels (y * screen.w + x)) :=
    fun fb x y after => copy565_eq_ok fb _ _ after
  exact foldlM_rect_eq_ok hbody rec fb after

end

/-! ## Rectangles inside the screen -/

/-- The pixel with the largest index that an update of the rectangle touches. -/
def lastIndex (rect : Rect) : ℕ := rect.w * (rect.y + rect.h - 1) + (rect.x + rect.w - 1)

/-- An RGB565 screen is taken for a 32-bit one, and the last pixel read from behind its
end. -/
def ReadsBehindEnd (depth : Depth) (w h : ℕ) (rect : Rect) : Prop :=
  depth = .rgb565 ∧ 2 * w / rect.w = 4 ∧ w * h ≤ 2 * lastIndex rect + 1

section

variable {w h : ℕ} {rect : Rect}

theorem index_le_lastIndex {px py : ℕ} (hhas : rect.Has px py) :
    rect.w * py + px ≤ lastIndex rect := by
  obtain ⟨hcol, hrow⟩ := hhas
  have hlast : rect.w * py ≤ rect.w * (rect.y + rect.h - 1) :=
    Nat.mul_le_mul_left _ (by omega)
  unfold lastIndex
  omega

theorem index_lt_of_has (hin : rect.Inside w h) {px py : ℕ} (hhas : rect.Has px py) :
    rect.w * py + px < w * h :=
  lt_of_mem_rectIndices hin hin.width_le (mem_rectIndices.mpr ⟨px, py, hhas, rfl⟩)

theorem turned_index_lt (hin : rect.Inside w h) {px py : ℕ} (hhas : rect.Has px py) :
    rect.h * px + ((h - 1) - py) < w * h := by
  obtain ⟨hpx, hpy⟩ := hin.has_lt hhas
  calc rect.h * px + ((h - 1) - py)
      ≤ h * px + ((h - 1) - py) := Nat.add_le_add_right (Nat.mul_le_mul_right px hin.height_le) _
    _ < h * w := index_lt (by omega) hpx
    _ = w * h := Nat.mul_comm h w

/-- A screen is never taken for one with fewer bytes for a pixel. -/
theorem bytes_le_of_depthOf {depth other : Depth} (hin : rect.Inside w h)
    (hother : depthOf (depth.bytes * w / rect.w) = some other) : depth.bytes ≤ other.bytes := by
  rw [← depthOf_eq_some hother, Nat.le_div_iff_mul_le hin.width]
  exact Nat.mul_le_mul_left _ hin.width_le

/-- What is read for a pixel of the rectangle lies in the screen. -/
theorem lastByte_lt {depth other : Depth} (hin : rect.Inside w h)
    (hend : ¬ ReadsBehindEnd depth w h rect)
    (hother : depthOf (depth.bytes * w / rect.w) = some other) {px py : ℕ}
    (hhas : rect.Has px py) : lastByte other (rect.w * py + px) < depth.bytes * w * h := by
  have hindex := index_lt_of_has hin hhas
  have hlast := index_le_lastIndex hhas
  have hbytes := bytes_le_of_depthOf hin hother
  rw [Nat.mul_assoc]
  cases depth with
  | rgb32 =>
      cases other with
      | rgb32 =>
          simp only [lastByte, Depth.bytes]
          omega
      | rgb565 => exact absurd hbytes (by decide)
  | rgb565 =>
      cases other with
      | rgb32 =>
          -- taken for a 32-bit screen, but not at its end
          have hfar : ¬ w * h ≤ 2 * lastIndex rect + 1 := fun hle =>
            hend ⟨rfl, depthOf_eq_some hother, hle⟩
          simp only [lastByte, Depth.bytes]
          omega
      | rgb565 =>
          simp only [lastByte, Depth.bytes]
          omega

end

/-- **Bounds of updates.**  For every rectangle that `dpy_gfx_update` passes on, the update
stays in the screen and in the buffer unless it takes an RGB565 screen for a 32-bit one and
reads behind its end.  In android mode it always does. -/
theorem update_safe_iff (w h : ℕ) (rect : Rect) (hpassed : Passed w h rect) (pixels fb : Memory) :
    (∀ depth : Depth,
      checkedUpdateFrameData (depth.screen w h pixels) (headerLen w h) fb rect =
          .ok (updateFrameData (depth.screen w h pixels) (headerLen w h) fb rect) ↔
        ¬ ReadsBehindEnd depth w h rect) ∧
    checkedUpdateAndroidFrameData (Depth.rgb565.screen w h pixels) (headerLen h w) fb rect =
      .ok (updateAndroidFrameData (Depth.rgb565.screen w h pixels) (headerLen h w) fb rect) := by
  have hin := passed_iff.mp hpassed
  refine ⟨fun depth => ?_, ?_⟩
  · rw [checkedUpdate_eq_ok, and_iff_left rfl]
    refine ⟨?_, fun hend other hother px py hhas => ⟨?_, index_lt_of_has hin hhas⟩⟩
    · rintro hsafe ⟨rfl, h4, hend⟩
      have hdepth : depthOf (2 * w / rect.w) = some .rgb32 := by simp [depthOf, h4]
      have hlast : lastIndex rect * 4 + 2 < 2 * w * h := (hsafe .rgb32 hdepth _ _ hin.corner).1
      rw [Nat.mul_assoc] at hlast
      omega
    · exact lastByte_lt hin hend hother hhas
  · rw [checkedUpdateAndroid_eq_ok, and_iff_left rfl]
    intro px py hhas
    obtain ⟨hpx, hpy⟩ := hin.has_lt hhas
    have hindex : w * py + px < w * h := index_lt hpx hpy
    refine ⟨?_, turned_index_lt hin hhas⟩
    show (py * w + px) * 2 + 1 < 2 * w * h
    rw [Nat.mul_comm py, Nat.mul_assoc 2]
    omega

/-- The right half of a 4 by 2 screen, with 32 bits and with 16. -/
theorem update_safe_right_half :
    (∃ fb, checkedUpdateFrameData (Depth.rgb32.screen 4 2 fun _ => 0) (headerLen 4 2) (fun _ => 0)
      ⟨2, 0, 2, 2⟩ = .ok fb) ∧
    checkedUpdateFrameData (Depth.rgb565.screen 4 2 fun _ => 0) (headerLen 4 2) (fun _ => 0)
        ⟨2, 0, 2, 2⟩ ≠
      .ok (updateFrameData (Depth.rgb565.screen 4 2 fun _ => 0) (headerLen 4 2) (fun _ => 0)
        ⟨2, 0, 2, 2⟩) := by
  have hpassed : Passed 4 2 ⟨2, 0, 2, 2⟩ :=
    passed_iff.mpr ⟨by decide, by decide, by decide, by decide⟩
  obtain ⟨hdesktop, -⟩ := update_safe_iff 4 2 ⟨2, 0, 2, 2⟩ hpassed (fun _ => 0) (fun _ => 0)
  refine ⟨⟨_, (hdesktop .rgb32).mpr ?_⟩, mt (hdesktop .rgb565).mp ?_⟩
  · rintro ⟨hdepth, -⟩
    cases hdepth
  · exact fun hend => hend ⟨rfl, by decide, by decide⟩

/-- The right pixel of an RGB565 screen of 2 by 1 pixels: the update reads byte 4 of a
screen of four bytes. -/
theorem update_reads_behind_screen :
    checkedUpdateFrameData (Depth.rgb565.screen 2 1 fun _ => 0) (headerLen 2 1) (fun _ => 0)
      ⟨1, 0, 1, 1⟩ = .error (.read 4) := by
  rfl

end SsmIaas.Qemu
