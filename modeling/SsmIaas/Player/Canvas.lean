import SsmIaas.Lib.Raster
import SsmIaas.Player.Pictures

/-!
# From a frame to the canvas

`YCbCrToRGBA` of `jsmpg.js`, with which `renderFrame2D` draws a frame that was decoded.  It goes
over two lines at a time with five running indices, and writes the colours of four pixels for
each pair of chrominance samples.

`canvas_shows_frame`: for a picture of even width and height every pixel gets the colour of the
samples that the decoder drew for it.  With `Shows` this leads from the stream to the canvas.
-/

namespace SsmIaas.Player

open Lib (Color index_eq_iff index_lt)

/-! ## The program -/

/-- A sample of a plane; behind its end it is `undefined`. -/
def sample (plane : List UInt8) (index : ℕ) : Option ℤ := plane[index]?.map fun byte => byte.toNat

/-- What is stored of a number; `NaN` is stored as 0. -/
def storeNumber (value : Option ℤ) : UInt8 := (value.map clampByte).getD 0

def chromaR (cr : ℤ) : ℤ := cr + cr * 103 / 256 - 179

def chromaG (cb cr : ℤ) : ℤ := cb * 88 / 256 - 44 + cr * 183 / 256 - 91

def chromaB (cb : ℤ) : ℤ := cb + cb * 198 / 256 - 227

def colorOf (y cb cr : Option ℤ) : Color where
  r := storeNumber do return (← y) + chromaR (← cr)
  -- `NaN >> 8` is 0, and nothing else of the chrominance goes into the green
  g := storeNumber do return (← y) - chromaG (cb.getD 0) (cr.getD 0)
  b := storeNumber do return (← y) + chromaB (← cb)

structure Conversion where
  yIndex1 : ℕ
  yIndex2 : ℕ
  cIndex : ℕ
  rgbaIndex1 : ℕ
  rgbaIndex2 : ℕ
  pRGBA : List UInt8

def putPixel (pRGBA : List UInt8) (index : ℕ) (color : Color) : List UInt8 :=
  ((pRGBA.set index color.r).set (index + 1) color.g).set (index + 2) color.b

/-- The body of the inner loop: two pixels of a line, and the two below them. -/
def convertBlock (frame : Frame) (s : Conversion) : Conversion :=
  let color (yIndex : ℕ) : Color :=
    colorOf (sample frame.Y yIndex) (sample frame.Cb s.cIndex) (sample frame.Cr s.cIndex)
  let pRGBA := putPixel s.pRGBA s.rgbaIndex1 (color s.yIndex1)
  let pRGBA := putPixel pRGBA (s.rgbaIndex1 + 4) (color (s.yIndex1 + 1))
  let pRGBA := putPixel pRGBA s.rgbaIndex2 (color s.yIndex2)
  let pRGBA := putPixel pRGBA (s.rgbaIndex2 + 4) (color (s.yIndex2 + 1))
  ⟨s.yIndex1 + 2, s.yIndex2 + 2, s.cIndex + 1, s.rgbaIndex1 + 8, s.rgbaIndex2 + 8, pRGBA⟩

def codedWidth (width : ℕ) : ℕ := 16 * (Sequence.ofSize width 0).mbWidth

def halfWidth (width : ℕ) : ℕ := 8 * (Sequence.ofSize width 0).mbWidth

/-- The end of the outer loop's body. -/
def next2Lines (width : ℕ) (s : Conversion) : Conversion :=
  let yNext2Lines := codedWidth width + (codedWidth width - width)
  { s with
    yIndex1 := s.yIndex1 + yNext2Lines
    yIndex2 := s.yIndex2 + yNext2Lines
    rgbaIndex1 := s.rgbaIndex1 + width * 4
    rgbaIndex2 := s.rgbaIndex2 + width * 4
    cIndex := s.cIndex + (halfWidth width - width / 2) }

def convert2Lines (width : ℕ) (frame : Frame) (s : Conversion) : Conversion :=
  next2Lines width ((convertBlock frame)^[width / 2] s)

def yCbCrToRGBA (width height : ℕ) (frame : Frame) (pRGBA : List UInt8) : List UInt8 :=
  ((convert2Lines width frame)^[height / 2] ⟨0, codedWidth width, 0, 0, width * 4, pRGBA⟩).pRGBA

/-! ## Pixels -/

def rgbAt (pRGBA : List UInt8) (index : ℕ) : Color :=
  ⟨pRGBA.getD (4 * index) 0, pRGBA.getD (4 * index + 1) 0, pRGBA.getD (4 * index + 2) 0⟩

def alphaAt (pRGBA : List UInt8) (index : ℕ) : UInt8 := pRGBA.getD (4 * index + 3) 0

@[simp] theorem length_putPixel (pRGBA : List UInt8) (index : ℕ) (color : Color) :
    (putPixel pRGBA index color).length = pRGBA.length := by
  simp [putPixel]

theorem getD_putPixel_of_ne (pRGBA : List UInt8) {index i : ℕ} (h : i < index ∨ index + 2 < i)
    (color : Color) : (putPixel pRGBA index color).getD i 0 = pRGBA.getD i 0 := by
  rw [List.getD_eq_getElem?_getD, putPixel, List.getElem?_set_ne (by omega),
    List.getElem?_set_ne (by omega), List.getElem?_set_ne (by omega), List.getD_eq_getElem?_getD]

theorem alphaAt_putPixel (pRGBA : List UInt8) (index : ℕ) (color : Color) (other : ℕ) :
    alphaAt (putPixel pRGBA (4 * index) color) other = alphaAt pRGBA other :=
  getD_putPixel_of_ne pRGBA (by omega) color

theorem rgbAt_putPixel {pRGBA : List UInt8} {index : ℕ} (h : index * 4 + 4 ≤ pRGBA.length)
    (color : Color) (other : ℕ) :
    rgbAt (putPixel pRGBA (4 * index) color) other =
      if other = index then color else rgbAt pRGBA other := by
  split_ifs with heq
  · subst heq
    simp [rgbAt, putPixel, show 4 * other < pRGBA.length by omega,
      show 4 * other + 1 < pRGBA.length by omega, show 4 * other + 2 < pRGBA.length by omega]
  · rw [rgbAt, getD_putPixel_of_ne pRGBA (by omega), getD_putPixel_of_ne pRGBA (by omega),
      getD_putPixel_of_ne pRGBA (by omega), rgbAt]

/-- A picture of so many lines, and a pixel that is put into it. -/
theorem rgbAt_putPixel_cell {pRGBA : List UInt8} {width height row col : ℕ}
    (hlength : pRGBA.length = 4 * (width * height)) (hrow : row < height) (hcol : col < width)
    (color : Color) (y : ℕ) {x : ℕ} (hx : x < width) :
    rgbAt (putPixel pRGBA (4 * (width * row + col)) color) (width * y + x) =
      if x = col ∧ y = row then color else rgbAt pRGBA (width * y + x) := by
  have hlt := index_lt hcol hrow
  rw [rgbAt_putPixel (by omega)]
  simp only [index_eq_iff hx hcol]

/-! ## The loops -/

/-- The colour of a pixel, by its own samples. -/
def Frame.color (frame : Frame) (width y x : ℕ) : Color :=
  let cIndex := y / 2 * halfWidth width + x / 2
  colorOf (sample frame.Y (y * codedWidth width + x)) (sample frame.Cb cIndex)
    (sample frame.Cr cIndex)

/-- So many pairs of lines, and so many blocks of the next, are converted. -/
structure Converted (width height : ℕ) (frame : Frame) (pRGBA : List UInt8) (row col : ℕ)
    (s : Conversion) : Prop where
  yIndex1 : s.yIndex1 = 2 * row * codedWidth width + 2 * col
  yIndex2 : s.yIndex2 = (2 * row + 1) * codedWidth width + 2 * col
  cIndex : s.cIndex = row * halfWidth width + col
  rgbaIndex1 : s.rgbaIndex1 = 4 * (width * (2 * row) + 2 * col)
  rgbaIndex2 : s.rgbaIndex2 = 4 * (width * (2 * row + 1) + 2 * col)
  length : s.pRGBA.length = 4 * (width * height)
  alpha : ∀ index, alphaAt s.pRGBA index = alphaAt pRGBA index
  pixels : ∀ y x, x < width → (y / 2 < row ∨ y / 2 = row ∧ x / 2 < col) →
    rgbAt s.pRGBA (width * y + x) = frame.color width y x

section

variable {width height : ℕ} {frame : Frame} {pRGBA : List UInt8} {row col : ℕ} {s : Conversion}

theorem Converted.block (h : Converted width height frame pRGBA row col s)
    (hrow : row < height / 2) (hcol : col < width / 2) :
    Converted width height frame pRGBA row (col + 1) (convertBlock frame s) := by
  have hright1 : s.rgbaIndex1 + 4 = 4 * (width * (2 * row) + (2 * col + 1)) := by
    rw [h.rgbaIndex1]; ring
  have hright2 : s.rgbaIndex2 + 4 = 4 * (width * (2 * row + 1) + (2 * col + 1)) := by
    rw [h.rgbaIndex2]; ring
  have hcolor : ∀ y x, y / 2 = row → x / 2 = col → ∀ index, index = y * codedWidth width + x →
      colorOf (sample frame.Y index) (sample frame.Cb s.cIndex) (sample frame.Cr s.cIndex) =
        frame.color width y x := by
    rintro y x rfl rfl index rfl
    rw [Frame.color, h.cIndex]
  constructor
  case yIndex1 => simp only [convertBlock, h.yIndex1]; ring
  case yIndex2 => simp only [convertBlock, h.yIndex2]; ring
  case cIndex => simp only [convertBlock, h.cIndex]; ring
  case rgbaIndex1 => simp only [convertBlock, h.rgbaIndex1]; ring
  case rgbaIndex2 => simp only [convertBlock, h.rgbaIndex2]; ring
  case length => simp only [convertBlock, length_putPixel, h.length]
  case alpha =>
    intro index
    simp only [convertBlock, hright1, hright2]
    simp only [h.rgbaIndex1, h.rgbaIndex2, alphaAt_putPixel, h.alpha]
  case pixels =>
    intro y x hx hdone
    simp only [convertBlock, hright1, hright2]
    rw [h.rgbaIndex1, h.rgbaIndex2]
    have hlength {l : List UInt8} (hl : l.length = 4 * (width * height)) (index : ℕ)
        (color : Color) : (putPixel l index color).length = 4 * (width * height) :=
      (length_putPixel l index color).trans hl
    have hlength1 := hlength h.length
    have hlength2 index color := hlength (hlength1 index color)
    have hlength3 index color index' color' := hlength (hlength2 index color index' color')
    rw [rgbAt_putPixel_cell (hlength3 ..) (by omega) (by omega) _ _ hx,
      rgbAt_putPixel_cell (hlength2 ..) (by omega) (by omega) _ _ hx,
      rgbAt_putPixel_cell (hlength1 ..) (by omega) (by omega) _ _ hx,
      rgbAt_putPixel_cell h.length (by omega) (by omega) _ _ hx]
    -- each of the four pixels has the samples that belong to it
    split_ifs with h4 h3 h2 h1
    · exact hcolor y x (by omega) (by omega) _ (by rw [h.yIndex2, h4.2, h4.1]; ring)
    · exact hcolor y x (by omega) (by omega) _ (by rw [h.yIndex2, h3.2, h3.1])
    · exact hcolor y x (by omega) (by omega) _ (by rw [h.yIndex1, h2.2, h2.1]; ring)
    · exact hcolor y x (by omega) (by omega) _ (by rw [h.yIndex1, h1.2, h1.1])
    · exact h.pixels y x hx (by omega)

theorem Converted.blocks (h : Converted width height frame pRGBA row 0 s)
    (hrow : row < height / 2) (hcol : col ≤ width / 2) :
    Converted width height frame pRGBA row col ((convertBlock frame)^[col] s) := by
  induction col with
  | zero => exact h
  | succ col ih =>
      rw [Function.iterate_succ_apply']
      exact (ih (by omega)).block hrow hcol

theorem width_le_codedWidth (width : ℕ) : width ≤ codedWidth width := by
  simp only [codedWidth, Sequence.ofSize]
  omega

theorem codedWidth_eq (width : ℕ) : codedWidth width = 2 * halfWidth width := by
  simp only [codedWidth, halfWidth]
  omega

theorem Converted.lineEnd (h : Converted width height frame pRGBA row (width / 2) s)
    (heven : width = 2 * (width / 2)) :
    Converted width height frame pRGBA (row + 1) 0 (next2Lines width s) := by
  have hle := width_le_codedWidth width
  have hhalf := codedWidth_eq width
  constructor
  case yIndex1 => simp only [next2Lines, h.yIndex1, Nat.mul_add, Nat.add_mul]; omega
  case yIndex2 => simp only [next2Lines, h.yIndex2, Nat.mul_add, Nat.add_mul]; omega
  case cIndex => simp only [next2Lines, h.cIndex, Nat.add_mul]; omega
  case rgbaIndex1 => simp only [next2Lines, h.rgbaIndex1, Nat.mul_add]; omega
  case rgbaIndex2 => simp only [next2Lines, h.rgbaIndex2, Nat.mul_add]; omega
  case length => exact h.length
  case alpha => exact h.alpha
  case pixels => exact fun y x hx hdone => h.pixels y x hx (by omega)

theorem Converted.lines (h : Converted width height frame pRGBA 0 0 s)
    (heven : width = 2 * (width / 2)) (hrow : row ≤ height / 2) :
    Converted width height frame pRGBA row 0 ((convert2Lines width frame)^[row] s) := by
  induction row with
  | zero => exact h
  | succ row ih =>
      rw [Function.iterate_succ_apply']
      exact ((ih (by omega)).blocks hrow le_rfl).lineEnd heven

end

/-- The state in which the loops end. -/
theorem converted_yCbCrToRGBA {width height : ℕ} (hwidth : width = 2 * (width / 2))
    (frame : Frame) {pRGBA : List UInt8} (hlength : pRGBA.length = 4 * (width * height)) :
    ∃ s, Converted width height frame pRGBA (height / 2) 0 s ∧
      yCbCrToRGBA width height frame pRGBA = s.pRGBA := by
  have hstart : Converted width height frame pRGBA 0 0
      ⟨0, codedWidth width, 0, 0, width * 4, pRGBA⟩ := by
    constructor <;> simp [hlength, Nat.mul_comm]
  exact ⟨_, hstart.lines hwidth le_rfl, rfl⟩

/-! ## The pixels of the decoder -/

/-- Where the decoder draws the luminance of a pixel of the canvas. -/
def Place.luma (y x : ℕ) : Place where
  mbRow := y / 16
  mbCol := x / 16
  block := ⟨2 * (y % 16 / 8) + x % 16 / 8, by omega⟩
  r := ⟨y % 8, by omega⟩
  c := ⟨x % 8, by omega⟩

/-- Where it draws the chrominance, which has a sample for four pixels. -/
def Place.chroma (block : Fin 6) (y x : ℕ) : Place where
  mbRow := y / 16
  mbCol := x / 16
  block := block
  r := ⟨y / 2 % 8, by omega⟩
  c := ⟨x / 2 % 8, by omega⟩

theorem Place.position_luma (mbWidth y x : ℕ) :
    (Place.luma y x).position mbWidth = y * (16 * mbWidth) + x := by
  have hblock : (Place.luma y x).block.val < 4 := by
    simp only [Place.luma]
    omega
  have hrow : (Place.luma y x).row = y := by
    rw [Place.row, Place.innerRow, sideOf, if_pos hblock, if_pos hblock]
    simp only [Place.luma]
    omega
  have hcol : (Place.luma y x).col = x := by
    rw [Place.col, Place.innerCol, sideOf, if_pos hblock, if_pos hblock]
    simp only [Place.luma]
    omega
  rw [Place.position, Place.width, hrow, hcol, sideOf, if_pos hblock]

theorem Place.position_chroma {block : Fin 6} (h : ¬block.val < 4) (mbWidth y x : ℕ) :
    (Place.chroma block y x).position mbWidth = y / 2 * (8 * mbWidth) + x / 2 := by
  have hblock : ¬(Place.chroma block y x).block.val < 4 := h
  have hrow : (Place.chroma block y x).row = y / 2 := by
    rw [Place.row, Place.innerRow, sideOf, if_neg hblock, if_neg hblock]
    simp only [Place.chroma]
    omega
  have hcol : (Place.chroma block y x).col = x / 2 := by
    rw [Place.col, Place.innerCol, sideOf, if_neg hblock, if_neg hblock]
    simp only [Place.chroma]
    omega
  rw [Place.position, Place.width, hrow, hcol, sideOf, if_neg hblock]

theorem Place.valid_luma {width height y x : ℕ} (hy : y < height) (hx : x < width) :
    (Place.luma y x).Valid (Sequence.ofSize width height).mbWidth
      (Sequence.ofSize width height).mbHeight := by
  simp only [Place.Valid, Place.luma, Sequence.ofSize]
  omega

theorem Place.valid_chroma {width height y x : ℕ} (block : Fin 6) (hy : y < height)
    (hx : x < width) :
    (Place.chroma block y x).Valid (Sequence.ofSize width height).mbWidth
      (Sequence.ofSize width height).mbHeight := by
  simp only [Place.Valid, Place.chroma, Sequence.ofSize]
  omega

/-- The colour of a pixel that was drawn with these samples. -/
def colorOfBytes (luma cb cr : UInt8) : Color where
  r := clampByte (luma.toNat + chromaR cr.toNat)
  g := clampByte (luma.toNat - chromaG cb.toNat cr.toNat)
  b := clampByte (luma.toNat + chromaB cb.toNat)

theorem Frame.color_eq {frame : Frame} {width y x : ℕ} (height : ℕ) {luma cb cr : UInt8}
    (hluma : frame.at (Sequence.ofSize width height).mbWidth (.luma y x) = some luma)
    (hcb : frame.at (Sequence.ofSize width height).mbWidth (.chroma 4 y x) = some cb)
    (hcr : frame.at (Sequence.ofSize width height).mbWidth (.chroma 5 y x) = some cr) :
    frame.color width y x = colorOfBytes luma cb cr := by
  have hplane : planeOf (Place.luma y x).block = .Y := by
    rw [planeOf, if_pos]
    simp only [Place.luma]
    omega
  rw [Frame.at, Place.position_luma, hplane] at hluma
  rw [Frame.at, Place.position_chroma (by decide)] at hcb hcr
  have hY : sample frame.Y (y * codedWidth width + x) = some (luma.toNat : ℤ) :=
    congrArg (Option.map fun byte : UInt8 => (byte.toNat : ℤ)) hluma
  have hCb : sample frame.Cb (y / 2 * halfWidth width + x / 2) = some (cb.toNat : ℤ) :=
    congrArg (Option.map fun byte : UInt8 => (byte.toNat : ℤ)) hcb
  have hCr : sample frame.Cr (y / 2 * halfWidth width + x / 2) = some (cr.toNat : ℤ) :=
    congrArg (Option.map fun byte : UInt8 => (byte.toNat : ℤ)) hcr
  simp only [Frame.color, hY, hCb, hCr]
  rfl

/-- **The canvas.**  In a picture of even width and height every pixel has the colour of the
samples that the decoder drew for it, whatever was on the canvas before; its opacity is kept. -/
theorem canvas_shows_frame {width height : ℕ} (hwidth : width = 2 * (width / 2))
    (hheight : height = 2 * (height / 2)) {frame : Frame}
    (hfits : frame.Fits (Sequence.ofSize width height).mbWidth
      (Sequence.ofSize width height).mbHeight)
    {pRGBA : List UInt8} (hlength : pRGBA.length = 4 * (width * height)) {y x : ℕ}
    (hy : y < height) (hx : x < width) :
    let pixel := frame.at (Sequence.ofSize width height).mbWidth
    ∃ luma cb cr, pixel (.luma y x) = some luma ∧ pixel (.chroma 4 y x) = some cb ∧
      pixel (.chroma 5 y x) = some cr ∧
      rgbAt (yCbCrToRGBA width height frame pRGBA) (width * y + x) = colorOfBytes luma cb cr ∧
      alphaAt (yCbCrToRGBA width height frame pRGBA) (width * y + x) =
        alphaAt pRGBA (width * y + x) := by
  intro pixel
  obtain ⟨luma, hluma⟩ := hfits.exists_at (Place.valid_luma hy hx)
  obtain ⟨cb, hcb⟩ := hfits.exists_at (Place.valid_chroma 4 hy hx)
  obtain ⟨cr, hcr⟩ := hfits.exists_at (Place.valid_chroma 5 hy hx)
  obtain ⟨s, hdone, hresult⟩ := converted_yCbCrToRGBA hwidth frame hlength
  refine ⟨luma, cb, cr, hluma, hcb, hcr, ?_, ?_⟩
  · rw [hresult, hdone.pixels y x hx (by omega), Frame.color_eq height hluma hcb hcr]
  · rw [hresult, hdone.alpha]

/-- The last of four grey pixels. -/
theorem canvas_shows_frame_grey :
    let frame : Frame := ⟨List.replicate 256 100, List.replicate 64 128, List.replicate 64 128⟩
    rgbAt (yCbCrToRGBA 2 2 frame (List.replicate 16 255)) (2 * 1 + 1) = ⟨100, 100, 100⟩ := by
  intro frame
  have hfits : frame.Fits 1 1 :=
    ⟨List.length_replicate, List.length_replicate, List.length_replicate⟩
  obtain ⟨luma, cb, cr, hluma, hcb, hcr, hpixel, -⟩ :=
    @canvas_shows_frame 2 2 rfl rfl frame hfits (List.replicate 16 255) rfl 1 1 (by decide)
      (by decide)
  obtain rfl : 100 = luma := Option.some.inj hluma
  obtain rfl : 128 = cb := Option.some.inj hcb
  obtain rfl : 128 = cr := Option.some.inj hcr
  exact hpixel.trans (by decide)

/-- What is on the canvas is the picture of the stream. -/
theorem Shows.canvas {width height : ℕ} (hwidth : width = 2 * (width / 2))
    (hheight : height = 2 * (height / 2)) {reference frame : Frame} {pic : CodedPicture}
    (h : Shows (Sequence.ofSize width height) reference pic frame) {pRGBA : List UInt8}
    (hlength : pRGBA.length = 4 * (width * height)) {y x : ℕ} (hy : y < height) (hx : x < width) :
    let pixel (place : Place) : UInt8 :=
      picturePixel ((Sequence.ofSize width height).announced pic.kind) reference pic.slices place 0
    rgbAt (yCbCrToRGBA width height frame pRGBA) (width * y + x) =
      colorOfBytes (pixel (.luma y x)) (pixel (.chroma 4 y x)) (pixel (.chroma 5 y x)) := by
  intro pixel
  obtain ⟨s, hdone, hresult⟩ := converted_yCbCrToRGBA hwidth frame hlength
  rw [hresult, hdone.pixels y x hx (by omega)]
  exact Frame.color_eq height (h.pixel _ (Place.valid_luma hy hx))
    (h.pixel _ (Place.valid_chroma 4 hy hx)) (h.pixel _ (Place.valid_chroma 5 hy hx))

end SsmIaas.Player
