import SsmIaas.Lib.Run
import SsmIaas.Qemu.FrameData

/-!
# Does an update redraw its rectangle?

After `Update_frameData (x, y, rw, rh)` the pixels of the rectangle should be those
of a full conversion and all others as before.  By `updateFrameData_eq` the update
draws index `rw * y + x` where the picture has `w * y + x`, and only if `pitch / rw`
happens to be the depth of the screen.  So it does what it should for rectangles of
full width, and otherwise only in the first row: `RowsLineUp`.

The converse needs one pair of screens only, all bytes 0 before and all bytes 1
after: the bottom right pixel of any other rectangle comes out wrong
(`corner_wrong`).
-/

namespace SsmIaas.Qemu

open Lib

/-- An update of the rectangle, with the buffer converted from the screen `old` and
the screen being `new`, draws exactly the rectangle as a full conversion would. -/
def UpdateAgrees (depth : Depth) (w h : ℕ) (rect : Rect) (old new : Memory) : Prop :=
  ∀ px < w, ∀ py < h,
    pixelAt (headerLen w h)
        (updateFrameData (depth.screen w h new) (headerLen w h)
          (makeFrameData (depth.screen w h old) w h) rect) (w * py + px) =
      if rect.Has px py then
        pixelAt (headerLen w h) (makeFrameData (depth.screen w h new) w h) (w * py + px)
      else pixelAt (headerLen w h) (makeFrameData (depth.screen w h old) w h) (w * py + px)

/-- The rectangle is as wide as the screen, or a piece of the first row for which
`pitch / recw` gives the depth of the screen. -/
def RowsLineUp (depth : Depth) (w : ℕ) (rect : Rect) : Prop :=
  rect.w = w ∨ (rect.y = 0 ∧ rect.h = 1 ∧ depth.bytes * w / rect.w = depth.bytes)

/-- A pixel of the full conversion. -/
theorem pixelAt_makeFrameData (depth : Depth) {w h px py : ℕ} (hpx : px < w) (hpy : py < h)
    (pixels : Memory) :
    pixelAt (headerLen w h) (makeFrameData (depth.screen w h pixels) w h) (w * py + px) =
      depth.color pixels (w * py + px) := by
  rw [makeFrameData_eq depth (by omega), pixelAt_storePixels,
    if_pos (List.mem_range.mpr (index_lt hpx hpy))]

/-- A pixel after an update, in terms of the depth the screen was taken for. -/
theorem pixelAt_updateFrameData (depth : Depth) (w h base : ℕ) (rect : Rect) (new fb : Memory)
    (index : ℕ) :
    pixelAt base (updateFrameData (depth.screen w h new) base fb rect) index =
      match depthOf (depth.bytes * w / rect.w) with
      | some other =>
          if index ∈ rectIndices rect.w rect then other.color new index else pixelAt base fb index
      | none => pixelAt base fb index := by
  rw [updateFrameData_eq, Depth.screen_pitch, Depth.screen_pixels]
  cases depthOf (depth.bytes * w / rect.w) with
  | none => rfl
  | some other => exact pixelAt_storePixels index

/-! ## Rectangles whose rows line up -/

section

variable {depth : Depth} {w h : ℕ} {rect : Rect}

theorem RowsLineUp.depth_eq (hrows : RowsLineUp depth w rect) (hin : rect.Inside w h) :
    depthOf (depth.bytes * w / rect.w) = some depth := by
  have hbytes : depth.bytes * w / rect.w = depth.bytes := by
    rcases hrows with hfull | ⟨-, -, hfirst⟩
    · rw [hfull]
      exact Nat.mul_div_cancel _ hin.width_pos
    · exact hfirst
  rw [hbytes]
  cases depth <;> rfl

/-- The indices that the update draws are those of the rectangle in the picture. -/
theorem RowsLineUp.mem_iff (hrows : RowsLineUp depth w rect) (hin : rect.Inside w h) {px py : ℕ}
    (hpx : px < w) : w * py + px ∈ rectIndices rect.w rect ↔ rect.Has px py := by
  rw [mem_rectIndices]
  refine ⟨?_, ?_⟩
  · intro hcase
    obtain ⟨px', py', hhas, heq⟩ := hcase
    have hpx' := (hin.has_lt hhas).1
    rcases hrows with hfull | ⟨htop, hone, -⟩
    · rw [hfull, index_eq_iff hpx hpx'] at heq
      rwa [heq.1, heq.2]
    · -- in the first row the stride does not matter
      obtain ⟨hcol, hrow⟩ := hhas
      obtain rfl : py' = 0 := by omega
      have hzero : w * py + px = w * 0 + px' := by
        rw [heq, Nat.mul_zero, Nat.mul_zero]
      rw [index_eq_iff hpx hpx'] at hzero
      exact ⟨by omega, by omega⟩
  · intro hhas
    refine ⟨px, py, hhas, ?_⟩
    rcases hrows with hfull | ⟨htop, hone, -⟩
    · rw [hfull]
    · obtain ⟨-, hrow⟩ := hhas
      obtain rfl : py = 0 := by omega
      rw [Nat.mul_zero, Nat.mul_zero]

theorem RowsLineUp.update_eq (hrows : RowsLineUp depth w rect) (hin : rect.Inside w h)
    (new fb : Memory) :
    updateFrameData (depth.screen w h new) (headerLen w h) fb rect =
      storePixels (headerLen w h) (depth.color new) fb (rectIndices rect.w rect) := by
  rw [updateFrameData_eq, Depth.screen_pitch, hrows.depth_eq hin, Depth.screen_pixels]

theorem RowsLineUp.updateAgrees (hrows : RowsLineUp depth w rect) (hin : rect.Inside w h)
    (old new : Memory) : UpdateAgrees depth w h rect old new := by
  intro px hpx py hpy
  rw [hrows.update_eq hin, pixelAt_storePixels, pixelAt_makeFrameData depth hpx hpy new]
  simp only [hrows.mem_iff hin hpx]

end

/-! ## All other rectangles -/

/-- The bottom right pixel of the rectangle is not among the indices drawn, when the
rectangle is narrower than the screen and reaches below the first row. -/
theorem corner_not_drawn {w h : ℕ} {rect : Rect} (hin : rect.Inside w h) (hnarrow : rect.w ≠ w)
    (hbelow : ¬ (rect.y = 0 ∧ rect.h = 1)) :
    w * (rect.y + rect.h - 1) + (rect.x + rect.w - 1) ∉ rectIndices rect.w rect := by
  rw [mem_rectIndices]
  intro hcase
  obtain ⟨px, py, ⟨hcol, hrow⟩, heq⟩ := hcase
  obtain ⟨hwidth, hheight, hright, -⟩ := hin
  have hlast : py ≤ rect.y + rect.h - 1 := by omega
  have hpos : 0 < rect.y + rect.h - 1 := by omega
  have hlt : rect.w * py + px < w * (rect.y + rect.h - 1) + (rect.x + rect.w - 1) :=
    calc rect.w * py + px ≤ rect.w * (rect.y + rect.h - 1) + px :=
          Nat.add_le_add_right (Nat.mul_le_mul_left _ hlast) _
      _ < w * (rect.y + rect.h - 1) + px :=
          Nat.add_lt_add_right (Nat.mul_lt_mul_of_pos_right (by omega) hpos) _
      _ ≤ w * (rect.y + rect.h - 1) + (rect.x + rect.w - 1) := Nat.add_le_add_left (by omega) _
  omega

/-- Screens of one byte: all pixels have the same colour. -/
theorem color_const (depth : Depth) (byte : UInt8) (index : ℕ) :
    depth.color (fun _ => byte) index = depth.color (fun _ => byte) 0 := by
  cases depth <;> rfl

theorem color_zero_ne_one (depth : Depth) (index : ℕ) :
    depth.color (fun _ => 0) index ≠ depth.color (fun _ => 1) index := by
  rw [color_const, color_const depth 1]
  cases depth <;> decide

/-- Bytes that are all 1 have another colour when they are taken for the other depth. -/
theorem color_one_ne {depth other : Depth} (hne : other ≠ depth) (index : ℕ) :
    other.color (fun _ => 1) index ≠ depth.color (fun _ => 1) index := by
  rw [color_const, color_const depth]
  revert hne
  cases depth <;> cases other <;> decide

theorem depthOf_eq_some {bytes : ℕ} {depth : Depth} (h : depthOf bytes = some depth) :
    bytes = depth.bytes := by
  unfold depthOf at h
  split_ifs at h with h4 h2
  · obtain rfl := Option.some_inj.mp h
    exact h4
  · obtain rfl := Option.some_inj.mp h
    exact h2

/-- Outside the condition, the bottom right pixel of the rectangle comes out wrong
when the screen goes from zeros to ones. -/
theorem corner_wrong {depth : Depth} {w h : ℕ} {rect : Rect} (hin : rect.Inside w h)
    (hrows : ¬ RowsLineUp depth w rect) :
    ¬ UpdateAgrees depth w h rect (fun _ => 0) (fun _ => 1) := by
  have hhas := hin.corner
  obtain ⟨hpx, hpy⟩ := hin.has_lt hhas
  intro hagrees
  have hcorner := hagrees _ hpx _ hpy
  rw [if_pos hhas, pixelAt_makeFrameData depth hpx hpy, pixelAt_updateFrameData,
    pixelAt_makeFrameData depth hpx hpy] at hcorner
  cases hdepth : depthOf (depth.bytes * w / rect.w) with
  | none =>
      -- nothing was drawn
      rw [hdepth] at hcorner
      exact color_zero_ne_one depth _ hcorner
  | some other =>
      rw [hdepth] at hcorner
      simp only at hcorner
      split_ifs at hcorner with hdrawn
      · by_cases hsame : other = depth
        · subst hsame
          refine corner_not_drawn hin (fun hfull => hrows (Or.inl hfull)) ?_ hdrawn
          rintro ⟨hx, hy⟩
          exact hrows (Or.inr ⟨hx, hy, depthOf_eq_some hdepth⟩)
        · exact color_one_ne hsame _ hcorner
      · exact color_zero_ne_one depth _ hcorner

/-! ## Sequences of screen changes -/

/-- The screen and the frame buffer. -/
structure Display where
  pixels : Memory
  fb : Memory

/-- The screen becomes `pixels`, and its rectangle is reported to `sdl_update`. -/
structure Change where
  rect : Rect
  pixels : Memory

section

variable (depth : Depth) (w h : ℕ)

def showChange (s : Display) (change : Change) : Display :=
  ⟨change.pixels,
    updateFrameData (depth.screen w h change.pixels) (headerLen w h) s.fb change.rect⟩

/-- The display when the frame buffer has just been made. -/
def firstDisplay (pixels : Memory) : Display :=
  ⟨pixels, makeFrameData (depth.screen w h pixels) w h⟩

/-- The frame buffer is the full conversion of the screen. -/
def UpToDate (s : Display) : Prop := s.fb = makeFrameData (depth.screen w h s.pixels) w h

/-- A change inside its rectangle, which lies in the screen and whose rows line up. -/
structure ChangeFits (s : Display) (change : Change) : Prop where
  inside : change.rect.Inside w h
  confined : ∀ px < w, ∀ py < h, ¬ change.rect.Has px py → ∀ offset < depth.bytes,
    change.pixels ((w * py + px) * depth.bytes + offset) =
      s.pixels ((w * py + px) * depth.bytes + offset)
  rows : RowsLineUp depth w change.rect

variable {depth w h}

/-- The colour of a pixel is that of its own bytes. -/
theorem color_congr {index : ℕ} {pixels pixels' : Memory}
    (hsame : ∀ offset < depth.bytes,
      pixels (index * depth.bytes + offset) = pixels' (index * depth.bytes + offset)) :
    depth.color pixels index = depth.color pixels' index := by
  cases depth with
  | rgb32 =>
      have hblue := hsame 0 (by decide)
      have hgreen := hsame 1 (by decide)
      have hred := hsame 2 (by decide)
      simp only [Depth.bytes, Nat.add_zero] at hblue hgreen hred
      simp only [Depth.color, color32, hblue, hgreen, hred]
  | rgb565 =>
      have hlow := hsame 0 (by decide)
      have hhigh := hsame 1 (by decide)
      simp only [Depth.bytes, Nat.add_zero] at hlow hhigh
      simp only [Depth.color, color565, short, hlow, hhigh]

theorem upToDate_showChange {s : Display} (hs : UpToDate depth w h s) {change : Change}
    (hfits : ChangeFits depth w h s change) :
    UpToDate depth w h (showChange depth w h s change) := by
  have hw := hfits.inside.width_pos
  unfold UpToDate at hs ⊢
  simp only [showChange]
  rw [hfits.rows.update_eq hfits.inside, hs, makeFrameData_eq depth hw, makeFrameData_eq depth hw]
  -- compare the two conversions byte by byte
  funext address
  rw [storePixels_apply, storePixels_apply, storePixels_apply]
  generalize (address - headerLen w h) / 3 = index
  by_cases hbase : headerLen w h ≤ address
  · by_cases hindex : index < w * h
    · obtain ⟨px, py, hpx, hpy, rfl⟩ := exists_pixel hindex
      simp only [hbase, List.mem_range, hindex, true_and, if_true,
        hfits.rows.mem_iff hfits.inside hpx]
      split_ifs with hhas
      · rfl
      · rw [color_congr (hfits.confined px hpx py hpy hhas)]
    · -- outside the picture nothing is drawn
      have hnot : index ∉ rectIndices change.rect.w change.rect :=
        fun hmem => hindex (lt_of_mem_rectIndices hfits.inside hfits.inside.width_le hmem)
      simp [hbase, hindex, hnot]
  · simp [hbase]

end

/-- **Incremental and full conversion.**  An update of a rectangle agrees with the
full conversion, whatever the screen showed and shows, exactly when the rows of the
rectangle line up with those of the screen.  After any sequence of screen changes
inside such rectangles, each followed by its update, the buffer is the full
conversion of the screen. -/
theorem update_agrees_iff (depth : Depth) (w h : ℕ) :
    (∀ rect : Rect, rect.Inside w h →
      ((∀ old new, UpdateAgrees depth w h rect old new) ↔ RowsLineUp depth w rect)) ∧
    ∀ (pixels : Memory) (changes : List Change),
      Along (showChange depth w h) (ChangeFits depth w h) (firstDisplay depth w h pixels) changes →
        Everywhere (showChange depth w h) (UpToDate depth w h) (firstDisplay depth w h pixels)
          changes := by
  refine ⟨fun rect hin => ⟨fun hagrees => ?_, fun hrows => hrows.updateAgrees hin⟩, ?_⟩
  · by_contra hrows
    exact corner_wrong hin hrows (hagrees _ _)
  · intro pixels changes hfits
    have hfirst : UpToDate depth w h (firstDisplay depth w h pixels) := rfl
    exact hfits.everywhere hfirst fun _ _ hs hchange => upToDate_showChange hs hchange

/-- The second row of a 2 by 2 screen, as a rectangle and as a change. -/
theorem update_agrees_second_row :
    (∀ old new, UpdateAgrees .rgb32 2 2 ⟨0, 1, 2, 1⟩ old new) ∧
    Everywhere (showChange .rgb32 2 2) (UpToDate .rgb32 2 2)
      (firstDisplay .rgb32 2 2 fun _ => 0)
      [⟨⟨0, 1, 2, 1⟩, fun address => if 8 ≤ address then 1 else 0⟩] := by
  have hinside : Rect.Inside ⟨0, 1, 2, 1⟩ 2 2 :=
    ⟨by decide, by decide, by decide, by decide⟩
  have hagrees := update_agrees_iff .rgb32 2 2
  refine ⟨(hagrees.1 ⟨0, 1, 2, 1⟩ hinside).mpr (Or.inl rfl), hagrees.2 _ _ ⟨?_, trivial⟩⟩
  refine ⟨hinside, fun px hpx py hpy hout offset hoffset => ?_, Or.inl rfl⟩
  have hout' : ¬ Rect.Has ⟨0, 1, 2, 1⟩ px py := hout
  simp only [Rect.Has] at hout'
  have haddress : ¬ 8 ≤ (2 * py + px) * Depth.rgb32.bytes + offset := by
    simp only [Depth.bytes] at hoffset ⊢
    omega
  exact if_neg haddress

/-- A 16 by 16 rectangle of a 640 by 480 screen: `pitch / recw` is 160 and nothing is
drawn. -/
theorem small_rectangle_not_drawn :
    ¬ ∀ old new, UpdateAgrees .rgb32 640 480 ⟨0, 0, 16, 16⟩ old new := by
  intro hagrees
  have hinside : Rect.Inside ⟨0, 0, 16, 16⟩ 640 480 :=
    ⟨by decide, by decide, by decide, by decide⟩
  refine corner_wrong hinside ?_ (hagrees (fun _ => 0) fun _ => 1)
  intro hcase
  rcases hcase with hfull | ⟨-, hone, -⟩
  · exact absurd hfull (by decide)
  · exact absurd hone (by decide)

end SsmIaas.Qemu
