import SsmIaas.Lib.Ppm
import SsmIaas.Qemu.FrameData

/-!
# The frame buffer as a PPM file

`thread_fb ()` hands the mapped file to ffmpeg, so what `mmap_fb` and `make_frameData`
leave in it has to be a PPM picture of the screen.  The header and the extent of the file
always fit together (`parseP6_frameFile`), whatever the loops draw.

The pixels are right for 32-bit screens, where the loop walks the bytes of the screen
(`frame32_ppm`).  For RGB565 screens it walks the pixels with `tmp[i]`, as if the rows
followed each other without a gap.  SDL pads every row to a multiple of four bytes, and so
a screen of odd width comes out sheared from the second row on (`frame565_iff`).
-/

namespace SsmIaas.Qemu

open Lib

/-- The length of the mapped file. -/
def frameLength (w h : ℕ) : ℕ := w * h * 3 + headerLen w h

/-- The file when `make_frameData (w, h)` is done. -/
def frameFile (screen : Screen) (w h : ℕ) : Bytes :=
  dump (makeFrameData screen w h) (frameLength w h)

/-! ## The header -/

theorem dump_mmapFb (w h : ℕ) : dump (mmapFb w h) (headerLen w h) = header w h := by
  apply List.ext_getElem
  · simp [dump, length_header]
  · intro i hi hi'
    have hbyte := List.getD_eq_getElem (header w h) 0 hi'
    simp only [dump, List.getElem_map, List.getElem_range, mmapFb, hbyte]

/-- The loops draw pixels, and pixels only. -/
theorem drawFrame_eq_storePixels (screen : Screen) (w h : ℕ) :
    ∃ color indices, (∀ index ∈ indices, index < w * h) ∧
      drawFrame screen w h = fun fb => storePixels (headerLen w h) color fb indices := by
  by_cases h32 : screen.pitch / w = 4
  · refine ⟨color32 screen.pixels, List.range (w * h), by simp, ?_⟩
    funext fb
    rw [drawFrame, if_pos h32, make32_eq]
  · by_cases h16 : screen.pitch / w = 2
    · refine ⟨color565 screen.pixels, List.range (w * h), by simp, ?_⟩
      funext fb
      rw [drawFrame, if_neg h32, if_pos h16]
      rfl
    · refine ⟨fun _ => ⟨0, 0, 0⟩, [], by simp, ?_⟩
      funext fb
      rw [drawFrame, if_neg h32, if_neg h16]
      rfl

/-- Every byte that a loop writes lies between the header and the end of the file. -/
theorem frame_bounds_of_writes {screen : Screen} {w h address : ℕ}
    (hwrites : Writes (drawFrame screen w h) address) :
    headerLen w h ≤ address ∧ address < frameLength w h := by
  obtain ⟨color, indices, hindices, hdraw⟩ := drawFrame_eq_storePixels screen w h
  rw [hdraw, writes_storePixels] at hwrites
  obtain ⟨hbase, hmem⟩ := hwrites
  have hlt := hindices _ hmem
  refine ⟨hbase, ?_⟩
  simp only [frameLength]
  omega

theorem frameFile_eq (screen : Screen) (w h : ℕ) :
    frameFile screen w h = header w h ++
      (List.range' (headerLen w h) (w * h * 3)).map (makeFrameData screen w h) := by
  have hheader : dump (makeFrameData screen w h) (headerLen w h) = header w h := by
    rw [← dump_mmapFb, dump, dump]
    apply List.map_congr_left
    intro address haddress
    by_contra hne
    have hwrites : Writes (drawFrame screen w h) address := ⟨mmapFb w h, hne⟩
    have hlt := List.mem_range.mp haddress
    exact absurd (frame_bounds_of_writes hwrites).1 (by omega)
  rw [frameFile, frameLength, Nat.add_comm, dump_add, hheader]

/-- **The file is a PPM picture** of the announced size, whatever was drawn. -/
theorem parseP6_frameFile (screen : Screen) (w h : ℕ) :
    parseP6 (frameFile screen w h) =
      some ⟨w, h, 255, headerLen w h,
        (List.range (w * h)).map (pixelAt (headerLen w h) (makeFrameData screen w h))⟩ := by
  have hblank : isSpace space = true := rfl
  have hline : isSpace 10 = true := rfl
  have hraster : ((List.range' (headerLen w h) (w * h * 3)).map
      (makeFrameData screen w h)).length = w * h * 3 := by
    simp
  have hparse := parseP6_eq hline hblank hline hline w h (by decide : 0 < 255) (by decide) hraster
  have hfile : frameFile screen w h = ascii "P6" ++ 10 :: (decimal w ++ space :: (decimal h ++
      10 :: (decimal 255 ++ 10 ::
        (List.range' (headerLen w h) (w * h * 3)).map (makeFrameData screen w h)))) := by
    have hmagic : ascii "P6" = [80, 54] := rfl
    have hmax : decimal 255 = [50, 53, 53] := by decide
    simp [frameFile_eq, header, hmagic, hmax]
  have hlength : 6 + (decimal w).length + (decimal h).length + (decimal 255).length =
      headerLen w h := by
    have hmax : (decimal 255).length = 3 := by decide
    simp only [hmax, headerLen]
    omega
  rw [hfile, hparse, hlength, colors_map]

theorem pixel_frameFile {screen : Screen} {w h : ℕ} {ppm : Ppm}
    (hparse : parseP6 (frameFile screen w h) = some ppm) {x y : ℕ} (hx : x < w) (hy : y < h) :
    ppm.pixel x y = some (pixelAt (headerLen w h) (makeFrameData screen w h) (w * y + x)) := by
  rw [parseP6_frameFile, Option.some.injEq] at hparse
  rw [← hparse]
  simp [Ppm.pixel, index_lt hx hy]

/-! ## 32-bit screens -/

theorem length_decimal_lt {n : ℕ} (hn : n ≤ 9999) : (decimal n).length < 5 := by
  have hle : (decimal n).length ≤ 4 := length_decimal_le (by decide) (by omega)
  omega

/-- **The 32-bit picture.**  Both sizes fit in the arrays they are printed into, the header
has the length computed for it, the file is a picture of the right size with the right
pixels, and the loop stays in the file. -/
theorem frame32_ppm (w h : ℕ) (hw : 1 ≤ w ∧ w ≤ 9999) (hh : 1 ≤ h ∧ h ≤ 9999) (screen : Screen)
    (hpitch : screen.pitch = 4 * w) :
    ((decimal w).length < 5 ∧ (decimal h).length < 5 ∧ (header w h).length = headerLen w h) ∧
    (∃ ppm, parseP6 (frameFile screen w h) = some ppm ∧ ppm.width = w ∧ ppm.height = h ∧
      ppm.maxval = 255 ∧ ppm.headerLength = headerLen w h ∧ ppm.pixels.length = w * h ∧
      ∀ x < w, ∀ y < h, ppm.pixel x y =
        some ⟨screen.pixels (y * screen.pitch + 4 * x + 2),
          screen.pixels (y * screen.pitch + 4 * x + 1),
          screen.pixels (y * screen.pitch + 4 * x)⟩) ∧
    ∀ address, Writes (drawFrame screen w h) address → address < frameLength w h := by
  have hdepth : screen.pitch / w = 4 := by
    rw [hpitch]
    exact Nat.mul_div_cancel _ hw.1
  refine ⟨⟨length_decimal_lt hw.2, length_decimal_lt hh.2, length_header w h⟩, ?_,
    fun address hwrites => (frame_bounds_of_writes hwrites).2⟩
  refine ⟨_, parseP6_frameFile screen w h, rfl, rfl, rfl, rfl, by simp, ?_⟩
  intro x hx y hy
  have hoffset : (w * y + x) * 4 = y * screen.pitch + 4 * x := by
    rw [hpitch]
    ring
  have hdrawn : w * y + x ∈ List.range (w * h) := List.mem_range.mpr (index_lt hx hy)
  rw [pixel_frameFile (parseP6_frameFile screen w h) hx hy, makeFrameData, drawFrame,
    if_pos hdepth, make32_eq, pixelAt_storePixels, if_pos hdrawn, color32, hoffset]

/-- A screen of three columns and two rows, in which every byte is its own address. -/
theorem frame32_ppm_two_rows :
    ∃ ppm, parseP6 (frameFile ⟨3, 2, 12, fun address => .ofNat address⟩ 3 2) = some ppm ∧
      ppm.width = 3 ∧ ppm.height = 2 ∧ ppm.pixel 2 0 = some ⟨10, 9, 8⟩ ∧
      ppm.pixel 0 1 = some ⟨14, 13, 12⟩ ∧ ppm.pixel 2 1 = some ⟨22, 21, 20⟩ := by
  obtain ⟨-, ⟨ppm, hparse, hwidth, hheight, -, -, -, hpixel⟩, -⟩ :=
    frame32_ppm 3 2 (by decide) (by decide) ⟨3, 2, 12, fun address => .ofNat address⟩ rfl
  exact ⟨ppm, hparse, hwidth, hheight, hpixel 2 (by decide) 0 (by decide),
    hpixel 0 (by decide) 1 (by decide), hpixel 2 (by decide) 1 (by decide)⟩

/-! ## RGB565 screens -/

/-- The pitch that SDL gives a screen with two bytes for a pixel. -/
def sdlPitch (w : ℕ) : ℕ := (2 * w + 3) / 4 * 4

/-- The RGB565 pixel stored at a byte offset. -/
def color565At (pixels : Memory) (offset : ℕ) : Color :=
  color565 (fun address => pixels (offset + address)) 0

theorem color565At_double (pixels : Memory) (index : ℕ) :
    color565At pixels (2 * index) = color565 pixels index := by
  simp only [color565At, color565, short, Nat.zero_mul, Nat.add_zero, Nat.zero_add,
    Nat.mul_comm 2 index]

theorem pixelAt_frame565 {w h x y : ℕ} (hdepth : sdlPitch w / w = 2) (pixels : Memory) (hx : x < w)
    (hy : y < h) :
    pixelAt (headerLen w h) (makeFrameData ⟨w, h, sdlPitch w, pixels⟩ w h) (w * y + x) =
      color565 pixels (w * y + x) := by
  have h32 : ¬ sdlPitch w / w = 4 := by omega
  have hdrawn : w * y + x ∈ List.range (w * h) := List.mem_range.mpr (index_lt hx hy)
  have hloop : makeFrameData ⟨w, h, sdlPitch w, pixels⟩ w h =
      storePixels (headerLen w h) (color565 pixels) (mmapFb w h) (List.range (w * h)) := by
    rw [makeFrameData, drawFrame, if_neg h32, if_pos hdepth]
    rfl
  rw [hloop, pixelAt_storePixels, if_pos hdrawn]

/-- **The RGB565 picture** shows the screen, whatever the screen shows, exactly when the
rows have no padding or there is only one. -/
theorem frame565_iff (w h : ℕ) (hw : 1 ≤ w ∧ w ≤ 9999) (hh : 1 ≤ h ∧ h ≤ 9999)
    (hdepth : sdlPitch w / w = 2) :
    (∀ pixels, ∃ ppm, parseP6 (frameFile ⟨w, h, sdlPitch w, pixels⟩ w h) = some ppm ∧
      ∀ x < w, ∀ y < h, ppm.pixel x y = some (color565At pixels (y * sdlPitch w + 2 * x))) ↔
      w % 2 = 0 ∨ h = 1 := by
  refine ⟨?_, ?_⟩
  · intro hframe
    by_contra hrows
    rw [not_or] at hrows
    have hpitch : sdlPitch w = 2 * (w + 1) := by
      unfold sdlPitch
      omega
    -- the first pixel of the second row is taken from the padding of the first
    obtain ⟨ppm, hparse, hpixel⟩ := hframe (spot w)
    have hsecond := hpixel 0 (by omega) 1 (by omega)
    rw [pixel_frameFile hparse (by omega) (by omega),
      pixelAt_frame565 hdepth _ (by omega) (by omega), Nat.one_mul, Nat.mul_zero, Nat.add_zero,
      Nat.mul_one, Nat.add_zero, hpitch, color565At_double, color565_spot,
      color565_spot] at hsecond
    simp at hsecond
  · intro hrows pixels
    refine ⟨_, parseP6_frameFile _ w h, fun x hx y hy => ?_⟩
    have hoffset : y * sdlPitch w + 2 * x = 2 * (w * y + x) := by
      rcases hrows with heven | rfl
      · have hpitch : sdlPitch w = 2 * w := by
          unfold sdlPitch
          omega
        rw [hpitch]
        ring
      · obtain rfl : y = 0 := by omega
        simp
    rw [pixel_frameFile (parseP6_frameFile _ w h) hx hy, pixelAt_frame565 hdepth _ hx hy, hoffset,
      color565At_double]

/-- Screens 4 and 3 pixels wide with two rows. -/
theorem frame565_narrow :
    (∀ pixels, ∃ ppm, parseP6 (frameFile ⟨4, 2, sdlPitch 4, pixels⟩ 4 2) = some ppm ∧
      ∀ x < 4, ∀ y < 2, ppm.pixel x y = some (color565At pixels (y * sdlPitch 4 + 2 * x))) ∧
    ¬ ∀ pixels, ∃ ppm, parseP6 (frameFile ⟨3, 2, sdlPitch 3, pixels⟩ 3 2) = some ppm ∧
      ∀ x < 3, ∀ y < 2, ppm.pixel x y = some (color565At pixels (y * sdlPitch 3 + 2 * x)) :=
  ⟨(frame565_iff 4 2 (by decide) (by decide) (by decide)).mpr (by decide),
    mt (frame565_iff 3 2 (by decide) (by decide) (by decide)).mp (by decide)⟩

/-- A screen of 3 by 2 pixels, with 8 bytes a row and all black; only the padding behind
the first row is white, and shows up as the first pixel of the second row. -/
theorem padding_is_drawn :
    sdlPitch 3 = 8 ∧ color565At (spot 3) (1 * sdlPitch 3 + 2 * 0) = ⟨0, 0, 0⟩ ∧
      ∃ ppm, parseP6 (frameFile ⟨3, 2, 8, spot 3⟩ 3 2) = some ppm ∧
        ppm.pixel 0 1 = some ⟨255, 255, 255⟩ := by
  refine ⟨by decide, by decide, _, parseP6_frameFile _ 3 2, ?_⟩
  decide

end SsmIaas.Qemu
