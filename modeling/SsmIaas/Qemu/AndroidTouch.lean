import SsmIaas.Qemu.EventThread
import SsmIaas.Qemu.FrameData

/-!
# The turned picture and the touches on it

In android mode the screen is streamed with a quarter turn: `make_frameData` is called
with the height of the screen as its width and draws the pixel `(xs, ys)` in column
`(h - 1) - ys` and row `xs`.  `thread_sdl ()` turns a touch back, but with `h - x` for
`(h - 1) - x`.  So a touch goes to the pixel below the one that was touched
(`touches_below`), and in the bottom row of the screen to a point outside.

The loop leaves out the pixel with index 0 of the picture, the bottom left one of the
screen.  It is the only one whose touches cannot go wrong, because it is never shown:
`touch_iff`.
-/

namespace SsmIaas.Qemu

open Lib WebServer

/-! ## `make_frameData` in android mode -/

/-- The index in a picture `w` wide that pixel `i` of the screen goes to; the rows of the
screen are `h` long. -/
def turnedIndex (w h i : ℕ) : ℕ :=
  let x1 := i % h
  let y1 := i / h
  let x2 := (w - 1) - y1
  let y2 := x1
  w * y2 + x2

/-- The loop of `make_frameData` in android mode, on a buffer with any content. -/
def drawAndroid (pixels : Memory) (w h : ℕ) (fb : Memory) : Memory :=
  (List.range (w * h)).foldl (fun fb i =>
    if 0 < turnedIndex w h i then
      storePixel (headerLen w h) fb (turnedIndex w h i) (color565 pixels i)
    else fb) fb

/-- `make_frameData (w, h)` in android mode. -/
def makeAndroidFrameData (pixels : Memory) (w h : ℕ) : Memory :=
  drawAndroid pixels w h (mmapFb w h)

/-! ## Where a pixel goes -/

/-- The pixel of the screen that belongs at an index of the picture. -/
def screenIndex (w h index : ℕ) : ℕ := h * ((w - 1) - index % w) + index / w

theorem turnedIndex_pixel {W H xs ys : ℕ} (hxs : xs < W) :
    turnedIndex H W (W * ys + xs) = H * xs + ((H - 1) - ys) := by
  obtain ⟨hcol, hrow⟩ := index_mod_div hxs ys
  simp only [turnedIndex, hcol, hrow]

theorem screenIndex_pixel {W H xd yd : ℕ} (hxd : xd < H) :
    screenIndex H W (H * yd + xd) = W * ((H - 1) - xd) + yd := by
  obtain ⟨hcol, hrow⟩ := index_mod_div hxd yd
  simp only [screenIndex, hcol, hrow]

theorem screenIndex_turned (W xs : ℕ) {H ys : ℕ} (hys : ys < H) :
    screenIndex H W (H * xs + ((H - 1) - ys)) = W * ys + xs := by
  have hback : (H - 1) - ((H - 1) - ys) = ys := by omega
  rw [screenIndex_pixel (by omega), hback]

theorem screenIndex_turnedIndex {W H i : ℕ} (hi : i < H * W) :
    screenIndex H W (turnedIndex H W i) = i := by
  obtain ⟨xs, ys, hxs, hys, rfl⟩ := exists_pixel (Nat.mul_comm H W ▸ hi)
  rw [turnedIndex_pixel hxs, screenIndex_turned W xs hys]

/-- The indices of the picture that the loop stores to, in its order. -/
def shownIndices (w h : ℕ) : List ℕ :=
  ((List.range (w * h)).map (turnedIndex w h)).filter fun index => 0 < index

theorem drawAndroid_eq (pixels : Memory) (W H : ℕ) (fb : Memory) :
    drawAndroid pixels H W fb =
      storePixels (headerLen H W) (fun index => color565 pixels (screenIndex H W index)) fb
        (shownIndices H W) := by
  apply foldl_moved
  intro i hi
  rw [screenIndex_turnedIndex (List.mem_range.mp hi)]

theorem turnedIndex_screenIndex {W H xd yd : ℕ} (hxd : xd < H) (hyd : yd < W) :
    turnedIndex H W (screenIndex H W (H * yd + xd)) = H * yd + xd := by
  have hback : (H - 1) - ((H - 1) - xd) = xd := by omega
  rw [screenIndex_pixel hxd, turnedIndex_pixel hyd, hback]

theorem screenIndex_lt {W H xd yd : ℕ} (hxd : xd < H) (hyd : yd < W) :
    screenIndex H W (H * yd + xd) < H * W := by
  rw [screenIndex_pixel hxd, Nat.mul_comm H W]
  exact index_lt hyd (by omega)

theorem mem_shownIndices {W H xd yd : ℕ} (hxd : xd < H) (hyd : yd < W) :
    H * yd + xd ∈ shownIndices H W ↔ 0 < H * yd + xd := by
  have hmem : H * yd + xd ∈ (List.range (H * W)).map (turnedIndex H W) :=
    List.mem_map.mpr ⟨_, List.mem_range.mpr (screenIndex_lt hxd hyd),
      turnedIndex_screenIndex hxd hyd⟩
  simp only [shownIndices, List.mem_filter, hmem, true_and, decide_eq_true_eq]

/-- The picture, pixel by pixel. -/
theorem pixelAt_makeAndroidFrameData (pixels : Memory) {W H xd yd : ℕ} (hxd : xd < H)
    (hyd : yd < W) :
    pixelAt (headerLen H W) (makeAndroidFrameData pixels H W) (H * yd + xd) =
      if 0 < H * yd + xd then color565 pixels (W * ((H - 1) - xd) + yd)
      else pixelAt (headerLen H W) (mmapFb H W) (H * yd + xd) := by
  rw [makeAndroidFrameData, drawAndroid_eq, pixelAt_storePixels,
    screenIndex_pixel hxd]
  simp only [mem_shownIndices hxd hyd]

/-- The picture, pixel by pixel of the screen. -/
theorem pixelAt_turned (pixels : Memory) {W H xs ys : ℕ} (hxs : xs < W) (hys : ys < H) :
    pixelAt (headerLen H W) (makeAndroidFrameData pixels H W) (H * xs + ((H - 1) - ys)) =
      if 0 < H * xs + ((H - 1) - ys) then color565 pixels (W * ys + xs)
      else pixelAt (headerLen H W) (mmapFb H W) (H * xs + ((H - 1) - ys)) := by
  have hxd : (H - 1) - ys < H := by omega
  rw [pixelAt_makeAndroidFrameData pixels hxd hxs, ← screenIndex_pixel hxd,
    screenIndex_turned W xs hys]

/-! ## Where a pixel is shown -/

/-- The pixel `(xs, ys)` of a screen `W` by `H` is shown in column `xd` and row `yd` of the
picture, whatever the screen holds. -/
def ShownAt (W H xs ys xd yd : ℕ) : Prop :=
  xd < H ∧ yd < W ∧ ∀ pixels,
    pixelAt (headerLen H W) (makeAndroidFrameData pixels H W) (H * yd + xd) =
      color565 pixels (W * ys + xs)

theorem shownAt_iff {W H xs ys : ℕ} (hxs : xs < W) (hys : ys < H) (xd yd : ℕ) :
    ShownAt W H xs ys xd yd ↔ xd = (H - 1) - ys ∧ yd = xs ∧ ¬ (xs = 0 ∧ ys + 1 = H) := by
  refine ⟨?_, ?_⟩
  · intro hshown
    obtain ⟨hxd, hyd, hpixels⟩ := hshown
    -- the white spot is where the pixel is shown
    have hspot := hpixels (spot (W * ys + xs))
    rw [pixelAt_makeAndroidFrameData _ hxd hyd, color565_spot, color565_spot, if_pos rfl,
      pixelAt_mmapFb] at hspot
    by_cases hpos : 0 < H * yd + xd
    · by_cases hsame : W * ((H - 1) - xd) + yd = W * ys + xs
      · obtain ⟨rfl, hrow⟩ := (index_eq_iff hyd hxs).mp hsame
        refine ⟨by omega, rfl, ?_⟩
        rintro ⟨rfl, hbottom⟩
        omega
      · simp [hpos, hsame] at hspot
    · simp [hpos] at hspot
  · rintro ⟨rfl, rfl, hshown⟩
    refine ⟨by omega, hxs, fun pixels => ?_⟩
    have hpos : 0 < H * yd + ((H - 1) - ys) := by
      rcases Nat.eq_zero_or_pos yd with hzero | hyd
      · omega
      · have := Nat.mul_pos (by omega : 0 < H) hyd
        omega
    rw [pixelAt_turned pixels hxs hys, if_pos hpos]

/-! ## Touches -/

/-- A touch message for column `xd` and row `yd` makes the thread send a mouse event at
`(x, y)`, whatever follows the message in the buffer, up to a NUL that the thread can print. -/
def Touches (H xd yd : ℕ) (button : Button) (x y : ℤ) : Prop :=
  ∀ rest, nul ∈ rest → ∃ buf,
    threadSdl true H ((InputEvent.mouse (.ofNat xd) (.ofNat yd) button).message ++ rest) =
      .ok ([.mouse 0 0 x y button.state], buf)

theorem touches_iff {H xd yd : ℕ} (hxd : xd < 2 ^ 31) (hyd : yd < 2 ^ 31) (button : Button)
    (x y : ℤ) : Touches H xd yd button x y ↔ x = yd ∧ y = H - xd := by
  have hcall : inputCall true H (.mouse (.ofNat xd) (.ofNat yd) button) =
      .mouse 0 0 yd (H - xd) button.state := by
    rw [inputCall, mouseCall, if_pos rfl, Int32.toInt_ofNat_of_lt hxd, Int32.toInt_ofNat_of_lt hyd]
  have hmessage : ∀ rest, nul ∈ rest → ∃ buf,
      threadSdl true H ((InputEvent.mouse (.ofNat xd) (.ofNat yd) button).message ++ rest) =
        .ok ([.mouse 0 0 yd (H - xd) button.state], buf) := by
    intro rest hrest
    rw [← hcall]
    have hkey : InKeymap (.mouse (.ofNat xd) (.ofNat yd) button) := trivial
    exact threadSdl_message true H hkey hrest
  refine ⟨?_, ?_⟩
  · intro htouch
    obtain ⟨buf, hsent⟩ := hmessage [nul] (List.mem_singleton_self _)
    obtain ⟨buf', hsent'⟩ := htouch [nul] (List.mem_singleton_self _)
    rw [hsent] at hsent'
    simp only [Except.ok.injEq, Prod.mk.injEq, List.cons.injEq, InputCall.mouse.injEq] at hsent'
    exact ⟨hsent'.1.1.2.2.1.symm, hsent'.1.1.2.2.2.1.symm⟩
  · rintro ⟨rfl, rfl⟩
    exact hmessage

section

variable {W H xs ys : ℕ}

/-- A touch on a pixel of the picture goes to the pixel below it. -/
theorem touches_below (hW : W < 2 ^ 31) (hH : H < 2 ^ 31) (hxs : xs < W) (hys : ys < H)
    (button : Button) {xd yd : ℕ} (hshown : ShownAt W H xs ys xd yd) :
    Touches H xd yd button xs (ys + 1) := by
  obtain ⟨rfl, rfl, -⟩ := (shownAt_iff hxs hys xd yd).mp hshown
  rw [touches_iff (by omega) (by omega)]
  exact ⟨rfl, by omega⟩

/-- **Touches.**  Wherever a pixel of the screen is shown, a touch there goes to this
pixel, if and only if it is the bottom left pixel, which is never shown. -/
theorem touch_iff (W H xs ys : ℕ) (hW : W < 2 ^ 31) (hH : H < 2 ^ 31) (hxs : xs < W) (hys : ys < H)
    (button : Button) :
    (∀ xd yd, ShownAt W H xs ys xd yd → Touches H xd yd button xs ys) ↔
      xs = 0 ∧ ys + 1 = H := by
  refine ⟨?_, ?_⟩
  · intro htouch
    by_contra hshown
    have hplace : ShownAt W H xs ys ((H - 1) - ys) xs :=
      (shownAt_iff hxs hys _ _).mpr ⟨rfl, rfl, hshown⟩
    have hsent := htouch _ _ hplace
    rw [touches_iff (by omega) (by omega)] at hsent
    omega
  · intro hcorner xd yd hshown
    exact absurd hcorner ((shownAt_iff hxs hys xd yd).mp hshown).2.2

end

/-- The bottom left and the top left pixel of a screen of 2 by 2 pixels. -/
theorem touch_left_column :
    (∀ xd yd, ShownAt 2 2 0 1 xd yd → Touches 2 xd yd .left 0 1) ∧
      ¬ ∀ xd yd, ShownAt 2 2 0 0 xd yd → Touches 2 xd yd .left 0 0 :=
  ⟨(touch_iff 2 2 0 1 (by decide) (by decide) (by decide) (by decide) .left).mpr (by decide),
    mt (touch_iff 2 2 0 0 (by decide) (by decide) (by decide) (by decide) .left).mp (by decide)⟩

/-- The right pixel of a screen of 2 by 1 pixels is shown in column 0 and row 1.  A touch
there goes to row 1 of the screen, which has a row 0 only. -/
theorem touch_leaves_screen :
    ShownAt 2 1 1 0 0 1 ∧
      threadSdl true 1 ((InputEvent.mouse 0 1 .left).message ++ [nul]) =
        .ok ([.mouse 0 0 1 1 1], [48, nul, 48, nul, 49, nul, 49, nul, 10, nul]) :=
  ⟨(shownAt_iff (by decide) (by decide) 0 1).mpr (by decide), by decide⟩

end SsmIaas.Qemu
