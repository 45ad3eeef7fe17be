import Mathlib.Data.List.Range
import Mathlib.Logic.Function.Basic
import Mathlib.Tactic.Common

/-!
# Pixels in a byte buffer

A frame buffer with three bytes for a pixel, behind a header of `base` bytes, as a
map from addresses to bytes.  Drawing is a loop that stores one pixel after the
other; what the loops of interest have in common is that the colour of a pixel
depends on its index only, and then the order of the stores and repeated stores do
not matter: `storePixels_apply` reads a buffer after any such loop.

`rectIndices` lists the indices a nested loop over a rectangle visits when rows are
`stride` pixels apart.
-/

namespace SsmIaas.Lib

/-- Bytes by address. -/
abbrev Memory := ℕ → UInt8

@[ext] structure Color where
  r : UInt8
  g : UInt8
  b : UInt8
  deriving DecidableEq, Repr

/-- The bytes of a stored pixel, in the order of their addresses. -/
def Color.byte (c : Color) : ℕ → UInt8
  | 0 => c.r
  | 1 => c.g
  | _ => c.b

/-- Store the three bytes of pixel `index`. -/
def storePixel (base : ℕ) (memory : Memory) (index : ℕ) (c : Color) : Memory :=
  Function.update (Function.update (Function.update memory (index * 3 + base) c.r)
    (index * 3 + 1 + base) c.g) (index * 3 + 2 + base) c.b

/-- Pixel `index` of a buffer. -/
def pixelAt (base : ℕ) (memory : Memory) (index : ℕ) : Color :=
  ⟨memory (index * 3 + base), memory (index * 3 + 1 + base), memory (index * 3 + 2 + base)⟩

/-- Store the colour of every listed pixel. -/
def storePixels (base : ℕ) (color : ℕ → Color) (memory : Memory) (indices : List ℕ) : Memory :=
  indices.foldl (fun memory index => storePixel base memory index (color index)) memory

variable {base : ℕ} {color : ℕ → Color} {memory : Memory} {indices : List ℕ}

theorem storePixel_apply (index : ℕ) (c : Color) (address : ℕ) :
    storePixel base memory index c address =
      if base ≤ address ∧ (address - base) / 3 = index then c.byte ((address - base) % 3)
      else memory address := by
  by_cases hhit : base ≤ address ∧ (address - base) / 3 = index
  · obtain ⟨offset, hoffset, rfl⟩ : ∃ offset < 3, address = index * 3 + offset + base :=
      ⟨(address - base) % 3, Nat.mod_lt _ (by omega), by omega⟩
    have hmod : (index * 3 + offset + base - base) % 3 = offset := by omega
    rw [if_pos hhit, hmod]
    have hcases : offset = 0 ∨ offset = 1 ∨ offset = 2 := by omega
    rcases hcases with rfl | rfl | rfl <;> simp [storePixel, Color.byte]
  · rw [if_neg hhit]
    simp only [storePixel]
    rw [Function.update_of_ne (by omega), Function.update_of_ne (by omega),
      Function.update_of_ne (by omega)]

/-- Some loops store the last byte first. -/
theorem update_eq_storePixel (index : ℕ) (c : Color) :
    Function.update (Function.update (Function.update memory (index * 3 + 2 + base) c.b)
      (index * 3 + 1 + base) c.g) (index * 3 + base) c.r = storePixel base memory index c := by
  funext address
  simp only [storePixel, Function.update_apply]
  split_ifs <;> first | rfl | omega

/-- **A drawing loop.**  Every byte of a listed pixel is that of its colour, and all
other bytes are as before. -/
theorem storePixels_apply (address : ℕ) :
    storePixels base color memory indices address =
      if base ≤ address ∧ (address - base) / 3 ∈ indices then
        (color ((address - base) / 3)).byte ((address - base) % 3)
      else memory address := by
  induction indices generalizing memory with
  | nil => simp [storePixels]
  | cons index rest ih =>
      -- the stores of the rest win, then the one of `index`
      have hfold : storePixels base color memory (index :: rest) =
          storePixels base color (storePixel base memory index (color index)) rest := rfl
      rw [hfold, ih, storePixel_apply]
      by_cases hbase : base ≤ address
      · by_cases hrest : (address - base) / 3 ∈ rest
        · simp [hbase, hrest]
        · by_cases hindex : (address - base) / 3 = index
          · subst hindex
            simp [hbase, hrest]
          · simp [hbase, hrest, hindex]
      · simp [hbase]

/-- The bytes that a loop writes: those it does not leave alone in every memory. -/
def Writes (loop : Memory → Memory) (address : ℕ) : Prop :=
  ∃ memory, loop memory address ≠ memory address

theorem writes_storePixels (address : ℕ) :
    Writes (fun memory => storePixels base color memory indices) address ↔
      base ≤ address ∧ (address - base) / 3 ∈ indices := by
  simp only [Writes, storePixels_apply]
  refine ⟨?_, ?_⟩
  · intro hcase
    obtain ⟨memory, hne⟩ := hcase
    by_contra hout
    exact hne (if_neg hout)
  · intro hin
    refine ⟨fun _ => (color ((address - base) / 3)).byte ((address - base) % 3) + 1, ?_⟩
    rw [if_pos hin]
    simp

theorem pixelAt_storePixels (index : ℕ) :
    pixelAt base (storePixels base color memory indices) index =
      if index ∈ indices then color index else pixelAt base memory index := by
  have hbyte : ∀ offset < 3, storePixels base color memory indices (index * 3 + offset + base) =
      if index ∈ indices then (color index).byte offset
      else memory (index * 3 + offset + base) := by
    intro offset hoffset
    have hdiv : (index * 3 + offset + base - base) / 3 = index := by omega
    have hmod : (index * 3 + offset + base - base) % 3 = offset := by omega
    rw [storePixels_apply, hdiv, hmod]
    simp
  have hzero := hbyte 0 (by omega)
  rw [Nat.add_zero] at hzero
  simp only [pixelAt, hzero, hbyte 1 (by omega), hbyte 2 (by omega)]
  split <;> rfl

theorem pixelAt_storePixel (index : ℕ) (c : Color) (other : ℕ) :
    pixelAt base (storePixel base memory index c) other =
      if other = index then c else pixelAt base memory other := by
  have hone : pixelAt base (storePixels base (fun _ => c) memory [index]) other =
      if other ∈ [index] then c else pixelAt base memory other := pixelAt_storePixels other
  simpa [storePixels] using hone

section

variable {Place : Type*} {places : List Place} {move : Place → ℕ} {source : Place → Color}

/-- A loop that stores the pixels of some places at indices from which the place can be
told is a drawing loop over those indices. -/
theorem foldl_stores (hcolor : ∀ i ∈ places, color (move i) = source i) :
    places.foldl (fun memory i => storePixel base memory (move i) (source i)) memory =
      storePixels base color memory (places.map move) := by
  induction places generalizing memory with
  | nil => rfl
  | cons i rest ih =>
      rw [List.foldl_cons, List.map_cons, ih fun k hk => hcolor k (List.mem_cons_of_mem i hk),
        ← hcolor i (List.mem_cons_self ..)]
      rfl

/-- The same for a loop that leaves some of the places out. -/
theorem foldl_moved {keep : ℕ → Prop} [DecidablePred keep]
    (hcolor : ∀ i ∈ places, color (move i) = source i) :
    places.foldl (fun memory i =>
        if keep (move i) then storePixel base memory (move i) (source i) else memory) memory =
      storePixels base color memory ((places.map move).filter fun index => keep index) := by
  have hkept : ∀ i ∈ places.filter fun i => keep (move i), color (move i) = source i :=
    fun i hi => hcolor i (List.mem_of_mem_filter hi)
  rw [List.filter_map, Function.comp_def, ← foldl_stores hkept, List.foldl_filter]
  simp only [decide_eq_true_eq]

/-- A pixel that no store of a loop goes to keeps its colour. -/
theorem pixelAt_foldl_of_ne {index : ℕ} (hne : ∀ i ∈ places, move i ≠ index) :
    pixelAt base (places.foldl (fun memory i => storePixel base memory (move i) (source i)) memory)
      index = pixelAt base memory index := by
  induction places generalizing memory with
  | nil => rfl
  | cons i rest ih =>
      have hfirst : index ≠ move i := (hne i (List.mem_cons_self ..)).symm
      rw [List.foldl_cons, ih fun k hk => hne k (List.mem_cons_of_mem i hk), pixelAt_storePixel,
        if_neg hfirst]

end

/-! ## Rectangles -/

/-- A rectangle of a picture, in pixels. -/
structure Rect where
  x : ℕ
  y : ℕ
  w : ℕ
  h : ℕ
  deriving DecidableEq, Repr

/-- The pixel in column `px` and row `py` belongs to the rectangle. -/
def Rect.Has (rect : Rect) (px py : ℕ) : Prop :=
  (rect.x ≤ px ∧ px < rect.x + rect.w) ∧ (rect.y ≤ py ∧ py < rect.y + rect.h)

instance (rect : Rect) (px py : ℕ) : Decidable (rect.Has px py) :=
  inferInstanceAs (Decidable ((_ ∧ _) ∧ (_ ∧ _)))

/-- A rectangle of a `w` by `h` picture that is not empty. -/
structure Rect.Inside (rect : Rect) (w h : ℕ) : Prop where
  width : 0 < rect.w
  height : 0 < rect.h
  right : rect.x + rect.w ≤ w
  bottom : rect.y + rect.h ≤ h

/-- The pixels of a loop over the rectangle, row by row, with column and row. -/
def rectPixels (rect : Rect) : List (ℕ × ℕ) :=
  (List.range' rect.y rect.h).flatMap fun y => (List.range' rect.x rect.w).map fun x => (x, y)

theorem mem_rectPixels {pixel : ℕ × ℕ} {rect : Rect} :
    pixel ∈ rectPixels rect ↔ rect.Has pixel.1 pixel.2 := by
  simp only [rectPixels, List.mem_flatMap, List.mem_map, List.mem_range'_1, Rect.Has]
  refine ⟨?_, ?_⟩
  · rintro ⟨y, hy, x, hx, rfl⟩
    exact ⟨hx, hy⟩
  · rintro ⟨hx, hy⟩
    exact ⟨pixel.2, hy, pixel.1, hx, rfl⟩

/-- A nested loop over a rectangle is a loop over its pixels. -/
theorem foldl_rectPixels {State : Type*} (body : State → ℕ → ℕ → State) (rect : Rect)
    (state : State) :
    (List.range' rect.y rect.h).foldl (fun state y =>
        (List.range' rect.x rect.w).foldl (fun state x => body state x y) state) state =
      (rectPixels rect).foldl (fun state pixel => body state pixel.1 pixel.2) state := by
  simp only [rectPixels, List.foldl_flatMap, List.foldl_map]

/-- The indices of a loop over the rectangle, row by row. -/
def rectIndices (stride : ℕ) (rect : Rect) : List ℕ :=
  (List.range' rect.y rect.h).flatMap fun y =>
    (List.range' rect.x rect.w).map fun x => stride * y + x

theorem rectIndices_eq (stride : ℕ) (rect : Rect) :
    rectIndices stride rect = (rectPixels rect).map fun pixel => stride * pixel.2 + pixel.1 := by
  simp only [rectIndices, rectPixels, List.map_flatMap, List.map_map, Function.comp_def]

theorem mem_rectIndices {stride index : ℕ} {rect : Rect} :
    index ∈ rectIndices stride rect ↔ ∃ px py, rect.Has px py ∧ index = stride * py + px := by
  simp only [rectIndices_eq, List.mem_map, mem_rectPixels, Prod.exists]
  refine ⟨?_, ?_⟩
  · rintro ⟨px, py, hhas, rfl⟩
    exact ⟨px, py, hhas, rfl⟩
  · rintro ⟨px, py, hhas, rfl⟩
    exact ⟨px, py, hhas, rfl⟩

/-- The nested loop over a rectangle is the loop over its indices. -/
theorem foldl_rect (stride : ℕ) (rect : Rect) :
    ((List.range' rect.y rect.h).foldl (fun memory y =>
        (List.range' rect.x rect.w).foldl (fun memory x =>
          storePixel base memory (stride * y + x) (color (stride * y + x))) memory) memory) =
      storePixels base color memory (rectIndices stride rect) := by
  simp only [storePixels, rectIndices, List.foldl_flatMap, List.foldl_map]

/-- The column and the row of an index. -/
theorem index_mod_div {w px : ℕ} (hpx : px < w) (py : ℕ) :
    (w * py + px) % w = px ∧ (w * py + px) / w = py := by
  refine ⟨?_, ?_⟩
  · rw [Nat.mul_add_mod, Nat.mod_eq_of_lt hpx]
  · rw [Nat.mul_add_div (by omega), Nat.div_eq_of_lt hpx, Nat.add_zero]

/-- The rows of a picture are disjoint ranges of indices. -/
theorem index_eq_iff {w px px' py py' : ℕ} (hpx : px < w) (hpx' : px' < w) :
    w * py + px = w * py' + px' ↔ px = px' ∧ py = py' := by
  refine ⟨?_, ?_⟩
  · intro heq
    have hrow : py = py' := by rw [← (index_mod_div hpx py).2, heq, (index_mod_div hpx' py').2]
    subst hrow
    exact ⟨by omega, rfl⟩
  · intro hcase
    obtain ⟨rfl, rfl⟩ := hcase
    rfl

theorem index_lt {w h px py : ℕ} (hpx : px < w) (hpy : py < h) : w * py + px < w * h :=
  calc w * py + px < w * py + w := Nat.add_lt_add_left hpx _
    _ = w * (py + 1) := (Nat.mul_succ w py).symm
    _ ≤ w * h := Nat.mul_le_mul_left w hpy

theorem Rect.Inside.width_pos {rect : Rect} {w h : ℕ} (hin : rect.Inside w h) : 0 < w := by
  have := hin.width
  have := hin.right
  omega

theorem Rect.Inside.has_lt {rect : Rect} {w h px py : ℕ} (hin : rect.Inside w h)
    (hhas : rect.Has px py) : px < w ∧ py < h := by
  obtain ⟨⟨-, hpx⟩, -, hpy⟩ := hhas
  exact ⟨hpx.trans_le hin.right, hpy.trans_le hin.bottom⟩

theorem Rect.Inside.width_le {rect : Rect} {w h : ℕ} (hin : rect.Inside w h) : rect.w ≤ w :=
  (Nat.le_add_left _ _).trans hin.right

theorem Rect.Inside.height_le {rect : Rect} {w h : ℕ} (hin : rect.Inside w h) : rect.h ≤ h :=
  (Nat.le_add_left _ _).trans hin.bottom

theorem Rect.Inside.corner {rect : Rect} {w h : ℕ} (hin : rect.Inside w h) :
    rect.Has (rect.x + rect.w - 1) (rect.y + rect.h - 1) := by
  obtain ⟨hwidth, hheight, -, -⟩ := hin
  exact ⟨by omega, by omega⟩

/-- A loop over a rectangle of the picture stays in the picture, if the stride is no
larger than the picture's. -/
theorem lt_of_mem_rectIndices {rect : Rect} {w h stride index : ℕ} (hin : rect.Inside w h)
    (hstride : stride ≤ w) (hmem : index ∈ rectIndices stride rect) : index < w * h := by
  obtain ⟨px, py, hhas, rfl⟩ := mem_rectIndices.mp hmem
  obtain ⟨hpx, hpy⟩ := hin.has_lt hhas
  calc stride * py + px ≤ w * py + px := Nat.add_le_add_right (Nat.mul_le_mul_right py hstride) px
    _ < w * h := index_lt hpx hpy

/-- Every index of the picture has a column and a row. -/
theorem exists_pixel {w h index : ℕ} (hindex : index < w * h) :
    ∃ px py, px < w ∧ py < h ∧ index = w * py + px := by
  have hw : 0 < w := Nat.pos_of_mul_pos_right (Nat.zero_lt_of_lt hindex)
  exact ⟨index % w, index / w, Nat.mod_lt _ hw, Nat.div_lt_of_lt_mul hindex,
    (Nat.div_add_mod index w).symm⟩

end SsmIaas.Lib
