import Mathlib.Data.List.Nodup
import SsmIaas.Qemu.AndroidTouch
import SsmIaas.Qemu.FrameFile

/-!
# The turned picture and its updates

In android mode both `make_frameData` and `Update_frameData` put the screen pixel
`(xs, ys)` into column `(h - 1) - ys` and row `xs` of a picture `h` wide.

`make_frameData` reaches every pixel of the picture but the one with index 0, which its
test `if (i2 > 0)` leaves out (`android_frame_iff`).  `Update_frameData` takes the height
of the rectangle for the width of the picture (`i2 = rech*y2 + x2`), so the pixels land
where they belong only if the rectangle is as high as the screen, or in the first row of
the picture, where the width does not matter (`turned_update_iff`).
-/

namespace SsmIaas.Qemu

open Lib

/-! ## The whole screen -/

/-- The loop writes the three bytes of every pixel except the first. -/
theorem writes_drawAndroid_iff (pixels : Memory) {W H index : ℕ} (hindex : index < W * H) :
    (∀ offset < 3, Writes (drawAndroid pixels H W) (index * 3 + offset + headerLen H W)) ↔
      index ≠ 0 := by
  obtain ⟨xd, yd, hxd, hyd, rfl⟩ := exists_pixel (Nat.mul_comm W H ▸ hindex)
  have hloop : drawAndroid pixels H W = fun fb => storePixels (headerLen H W)
      (fun index => color565 pixels (screenIndex H W index)) fb (shownIndices H W) :=
    funext (drawAndroid_eq pixels W H)
  have hbyte : ∀ offset < 3,
      (Writes (drawAndroid pixels H W) ((H * yd + xd) * 3 + offset + headerLen H W) ↔
        H * yd + xd ≠ 0) := by
    intro offset hoffset
    have hdiv : ((H * yd + xd) * 3 + offset + headerLen H W - headerLen H W) / 3 =
        H * yd + xd := by
      omega
    rw [hloop, writes_storePixels, hdiv, mem_shownIndices hxd hyd]
    omega
  refine ⟨fun hwrites => ?_, fun hne offset hoffset => ?_⟩
  · exact (hbyte 0 (by omega)).mp (hwrites 0 (by omega))
  · exact (hbyte offset hoffset).mpr hne

/-- No pixel of the picture is stored twice. -/
theorem nodup_shownIndices (W H : ℕ) : (shownIndices H W).Nodup := by
  refine List.Nodup.filter _ (List.Nodup.map_on ?_ List.nodup_range)
  intro i hi j hj heq
  rw [← screenIndex_turnedIndex (List.mem_range.mp hi), heq,
    screenIndex_turnedIndex (List.mem_range.mp hj)]

/-- **The turned picture.**  The loop writes all pixels of the picture but the first, none
of them twice; and a pixel of the screen is where it belongs unless it is the bottom left
one, whose place stays black. -/
theorem android_frame_iff (W H : ℕ) (screen : Screen) (hpitch : screen.pitch = 2 * W) :
    (∀ index < W * H,
      ((∀ offset < 3,
          Writes (drawAndroid screen.pixels H W) (index * 3 + offset + headerLen H W)) ↔
        index ≠ 0)) ∧
    (shownIndices H W).Nodup ∧
    ∀ xs < W, ∀ ys < H,
      (pixelAt (headerLen H W) (makeAndroidFrameData screen.pixels H W) (H * xs + ((H - 1) - ys)) =
          color565At screen.pixels (ys * screen.pitch + 2 * xs) ↔
        ¬ (xs = 0 ∧ ys + 1 = H) ∨
          color565At screen.pixels (ys * screen.pitch + 2 * xs) = ⟨0, 0, 0⟩) := by
  refine ⟨fun index hindex => writes_drawAndroid_iff screen.pixels hindex, nodup_shownIndices W H,
    fun xs hxs ys hys => ?_⟩
  have hoffset : ys * screen.pitch + 2 * xs = 2 * (W * ys + xs) := by
    rw [hpitch]
    ring
  have hfirst : 0 < H * xs + ((H - 1) - ys) ↔ ¬ (xs = 0 ∧ ys + 1 = H) := by
    rw [Nat.pos_iff_ne_zero, not_iff_not, Nat.add_eq_zero_iff, Nat.mul_eq_zero]
    omega
  rw [hoffset, color565At_double, pixelAt_turned _ hxs hys, pixelAt_mmapFb]
  by_cases hshown : 0 < H * xs + ((H - 1) - ys)
  · simp only [if_pos hshown, hfirst.mp hshown, not_false_eq_true, true_or]
  · rw [if_neg hshown]
    simp only [mt hfirst.mpr hshown, false_or]
    exact eq_comm

/-- A screen of 2 by 2 white pixels: the top left pixel is shown, the bottom left one is
not. -/
theorem android_frame_white :
    pixelAt (headerLen 2 2) (makeAndroidFrameData (fun _ => 255) 2 2) (2 * 0 + ((2 - 1) - 0)) =
        ⟨255, 255, 255⟩ ∧
      pixelAt (headerLen 2 2) (makeAndroidFrameData (fun _ => 255) 2 2) (2 * 0 + ((2 - 1) - 1)) ≠
        ⟨255, 255, 255⟩ := by
  have hwhite : ∀ offset, color565At (fun _ => 255) offset = ⟨255, 255, 255⟩ := by
    intro offset
    simp only [color565At, color565, short]
    decide
  obtain ⟨-, -, hpixel⟩ := android_frame_iff 2 2 ⟨2, 2, 4, fun _ => 255⟩ rfl
  have htop := hpixel 0 (by decide) 0 (by decide)
  have hbottom := hpixel 0 (by decide) 1 (by decide)
  rw [hwhite] at htop hbottom
  exact ⟨htop.mpr (by decide), mt hbottom.mp (by decide)⟩

/-- On a screen of one white pixel, nothing is drawn at all. -/
theorem only_pixel_is_missing :
    (∀ fb, drawAndroid (fun _ => 255) 1 1 fb = fb) ∧
      pixelAt (headerLen 1 1) (makeAndroidFrameData (fun _ => 255) 1 1) 0 = ⟨0, 0, 0⟩ ∧
      color565At (fun _ => 255) 0 = ⟨255, 255, 255⟩ :=
  ⟨fun _ => rfl, by decide, by decide⟩

/-! ## Updates -/

/-- `Update_frameData (recx, recy, recw, rech)` in android mode. -/
def updateAndroidFrameData (screen : Screen) (base : ℕ) (fb : Memory) (rec : Rect) : Memory :=
  (List.range' rec.y rec.h).foldl (fun fb y =>
    (List.range' rec.x rec.w).foldl (fun fb x =>
      let i := y * screen.w + x
      let x2 := (screen.h - 1) - y
      let y2 := x
      let i2 := rec.h * y2 + x2
      storePixel base fb i2 (color565 screen.pixels i)) fb) fb

/-- The update puts every pixel of the rectangle where the turned picture has it, and no
other pixel of the picture changes. -/
def TurnedUpdateAgrees (W H : ℕ) (rect : Rect) (old new : Memory) : Prop :=
  ∀ xs < W, ∀ ys < H,
    pixelAt (headerLen H W)
        (updateAndroidFrameData ⟨W, H, 2 * W, new⟩ (headerLen H W)
          (makeAndroidFrameData old H W) rect) (H * xs + ((H - 1) - ys)) =
      if rect.Has xs ys then color565 new (W * ys + xs)
      else pixelAt (headerLen H W) (makeAndroidFrameData old H W) (H * xs + ((H - 1) - ys))

theorem updateAndroidFrameData_eq (screen : Screen) (base : ℕ) (fb : Memory) (rect : Rect) :
    updateAndroidFrameData screen base fb rect =
      (rectPixels rect).foldl (fun fb pixel =>
        storePixel base fb (rect.h * pixel.1 + ((screen.h - 1) - pixel.2))
          (color565 screen.pixels (pixel.2 * screen.w + pixel.1))) fb :=
  foldl_rectPixels _ rect fb

section

variable {W H : ℕ} {rect : Rect}

/-- The rectangle's height does as the width of the picture. -/
theorem turned_stride_eq (hrows : rect.h = H ∨ (rect.x = 0 ∧ rect.w = 1)) {x y : ℕ}
    (hhas : rect.Has x y) : rect.h * x = H * x := by
  rcases hrows with hfull | ⟨hleft, hone⟩
  · rw [hfull]
  · obtain ⟨⟨-, hx⟩, -⟩ := hhas
    obtain rfl : x = 0 := by omega
    rw [Nat.mul_zero, Nat.mul_zero]

theorem turned_index_eq_iff {x y xs ys : ℕ} (hy : y < H) (hys : ys < H) :
    H * xs + ((H - 1) - ys) = H * x + ((H - 1) - y) ↔ xs = x ∧ ys = y := by
  rw [index_eq_iff (by omega) (by omega)]
  omega

theorem turnedUpdateAgrees (hin : rect.Inside W H)
    (hrows : rect.h = H ∨ (rect.x = 0 ∧ rect.w = 1)) (old new : Memory) :
    TurnedUpdateAgrees W H rect old new := by
  intro xs hxs ys hys
  -- the stores go where the turned picture has the pixels
  have hloop : ∀ fb, updateAndroidFrameData ⟨W, H, 2 * W, new⟩ (headerLen H W) fb rect =
      storePixels (headerLen H W) (fun index => color565 new (screenIndex H W index)) fb
        ((rectPixels rect).map fun pixel => rect.h * pixel.1 + ((H - 1) - pixel.2)) := by
    intro fb
    rw [updateAndroidFrameData_eq]
    apply foldl_stores
    intro pixel hpixel
    have hhas := mem_rectPixels.mp hpixel
    have hlt := hin.has_lt hhas
    show color565 new (screenIndex H W (rect.h * pixel.1 + ((H - 1) - pixel.2))) =
      color565 new (pixel.2 * W + pixel.1)
    rw [turned_stride_eq hrows hhas, screenIndex_turned W pixel.1 hlt.2, Nat.mul_comm W]
  have hmem : H * xs + ((H - 1) - ys) ∈ (rectPixels rect).map (fun pixel =>
      rect.h * pixel.1 + ((H - 1) - pixel.2)) ↔ rect.Has xs ys := by
    simp only [List.mem_map, mem_rectPixels, Prod.exists]
    refine ⟨?_, ?_⟩
    · rintro ⟨x, y, hhas, heq⟩
      have hlt := hin.has_lt hhas
      rw [turned_stride_eq hrows hhas, eq_comm, turned_index_eq_iff hlt.2 hys] at heq
      rw [heq.1, heq.2]
      exact hhas
    · intro hhas
      exact ⟨xs, ys, hhas, by rw [turned_stride_eq hrows hhas]⟩
  rw [hloop, pixelAt_storePixels, screenIndex_turned W xs hys]
  simp only [hmem]

/-- A rectangle that is lower than the screen and reaches beyond the first column: the
pixel in its upper right corner is not drawn at its place. -/
theorem turned_corner_not_drawn (hin : rect.Inside W H) (hlow : rect.h ≠ H)
    (hwide : ¬ (rect.x = 0 ∧ rect.w = 1)) (new fb : Memory) :
    pixelAt (headerLen H W)
        (updateAndroidFrameData ⟨W, H, 2 * W, new⟩ (headerLen H W) fb rect)
        (H * (rect.x + rect.w - 1) + ((H - 1) - rect.y)) =
      pixelAt (headerLen H W) fb (H * (rect.x + rect.w - 1) + ((H - 1) - rect.y)) := by
  obtain ⟨hwidth, hheight, hright, hbottom⟩ := hin
  rw [updateAndroidFrameData_eq]
  apply pixelAt_foldl_of_ne
  intro pixel hpixel
  obtain ⟨hcol, hrow⟩ := mem_rectPixels.mp hpixel
  have hlast : pixel.1 ≤ rect.x + rect.w - 1 := by omega
  have hpos : 0 < rect.x + rect.w - 1 := by omega
  apply Nat.ne_of_lt
  calc rect.h * pixel.1 + ((H - 1) - pixel.2)
      ≤ rect.h * (rect.x + rect.w - 1) + ((H - 1) - rect.y) :=
        Nat.add_le_add (Nat.mul_le_mul_left _ hlast) (by omega)
    _ < H * (rect.x + rect.w - 1) + ((H - 1) - rect.y) :=
        Nat.add_lt_add_right (Nat.mul_lt_mul_of_pos_right (by omega) hpos) _

end

/-- **Updates of the turned picture.**  An update agrees with the turned picture, whatever
the screen showed and shows, exactly when the rectangle is as high as the screen or lies in
its first column. -/
theorem turned_update_iff (W H : ℕ) (rect : Rect) (hin : rect.Inside W H) :
    (∀ old new, TurnedUpdateAgrees W H rect old new) ↔
      rect.h = H ∨ (rect.x = 0 ∧ rect.w = 1) := by
  refine ⟨?_, fun hrows => turnedUpdateAgrees hin hrows⟩
  intro hagrees
  by_contra hrows
  rw [not_or] at hrows
  have hcorner := turned_corner_not_drawn hin hrows.1 hrows.2
  obtain ⟨hwidth, hheight, hright, hbottom⟩ := hin
  have hxs : rect.x + rect.w - 1 < W := by omega
  have hys : rect.y < H := by omega
  have hhas : rect.Has (rect.x + rect.w - 1) rect.y := ⟨by omega, by omega⟩
  -- a black screen gets a white pixel in the upper right corner of the rectangle
  have hpixel := hagrees (fun _ => 0) (spot (W * rect.y + (rect.x + rect.w - 1))) _ hxs _ hys
  have hshown : 0 < H * (rect.x + rect.w - 1) + ((H - 1) - rect.y) := by
    have := Nat.mul_pos (by omega : 0 < H) (by omega : 0 < rect.x + rect.w - 1)
    omega
  have hblack : ∀ index, color565 (fun _ => 0) index = ⟨0, 0, 0⟩ := by
    intro index
    simp only [color565, short]
    decide
  rw [hcorner, if_pos hhas, pixelAt_turned _ hxs hys, if_pos hshown, hblack, color565_spot,
    if_pos rfl] at hpixel
  exact absurd hpixel (by decide)

/-- The right half and the upper right pixel of a screen of 2 by 2 pixels. -/
theorem turned_update_right :
    (∀ old new, TurnedUpdateAgrees 2 2 ⟨1, 0, 1, 2⟩ old new) ∧
      ¬ ∀ old new, TurnedUpdateAgrees 2 2 ⟨1, 0, 1, 1⟩ old new :=
  ⟨(turned_update_iff 2 2 ⟨1, 0, 1, 2⟩ ⟨by decide, by decide, by decide, by decide⟩).mpr
      (by decide),
    mt (turned_update_iff 2 2 ⟨1, 0, 1, 1⟩ ⟨by decide, by decide, by decide, by decide⟩).mp
      (by decide)⟩

/-- The upper right pixel of a black screen of 2 by 2 pixels becomes white.  It belongs
into column 1 and row 1 of the picture, and is drawn in column 0. -/
theorem turned_update_misplaced :
    let fb := updateAndroidFrameData ⟨2, 2, 4, spot 1⟩ (headerLen 2 2)
      (makeAndroidFrameData (fun _ => 0) 2 2) ⟨1, 0, 1, 1⟩
    pixelAt (headerLen 2 2) fb (2 * 1 + 1) = ⟨0, 0, 0⟩ ∧
      pixelAt (headerLen 2 2) fb (2 * 1 + 0) = ⟨255, 255, 255⟩ := by
  decide

end SsmIaas.Qemu
