import SsmIaas.Player.Idct
import SsmIaas.Player.Prediction
import SsmIaas.Player.Slices

/-!
# From the bits of a slice to its pixels

What `decodeBlock` and `copyMacroblock` of `jsmpg.js` draw for a slice.  A block overwrites or
is added to its place in one of the three planes, whose arrays clamp what is stored.

`slice_drawn` puts the decoder together: whatever bits stand for a slice, each pixel of its
macroblocks is the prediction that the motion vector asks for, with the transformed
coefficients added, and all other pixels are kept.
-/

namespace SsmIaas.Player

open Lib

/-! ## The program -/

inductive PlaneName
  | Y | Cr | Cb
  deriving DecidableEq, Repr

def Frame.plane (frame : Frame) : PlaneName → List UInt8
  | .Y => frame.Y
  | .Cr => frame.Cr
  | .Cb => frame.Cb

def Frame.setPlane (frame : Frame) (bytes : List UInt8) : PlaneName → Frame
  | .Y => { frame with Y := bytes }
  | .Cr => { frame with Cr := bytes }
  | .Cb => { frame with Cb := bytes }

/-- A number that is stored in a `Uint8ClampedArray`. -/
def clampByte (value : ℤ) : UInt8 := UInt8.ofNat (min 255 (max 0 value)).toNat

/-- What a block makes of a pixel: `=` if it is intra-coded, and otherwise `+=`. -/
def storeValue (intra : Bool) (value : ℤ) (old : UInt8) : UInt8 :=
  clampByte (if intra then value else old.toNat + value)

/-- `copyBlockToDestination` and `addBlockToDestination`; for a block with one value,
`copyValueToDestination` and `addValueToDestination`. -/
def storeBlock (intra : Bool) (values : BlockData) (dest : List UInt8) (destIndex scan : ℕ) :
    List UInt8 :=
  (List.range 64).foldl (fun dest n =>
    dest.modify (destIndex + n / 8 * (scan + 8) + n % 8) (storeValue intra (values n))) dest

/-- `destArray`. -/
def planeOf (block : ℕ) : PlaneName := if block < 4 then .Y else if block = 4 then .Cb else .Cr

def destIndexOf (codedWidth mbRow mbCol block : ℕ) : ℕ :=
  if block < 4 then
    (mbRow * codedWidth + mbCol) * 16 + (if block.testBit 0 then 8 else 0) +
      (if block.testBit 1 then codedWidth * 8 else 0)
  else mbRow * codedWidth * 4 + mbCol * 8

def scanOf (codedWidth block : ℕ) : ℕ := if block < 4 then codedWidth - 8 else codedWidth / 2 - 8

/-- The end of `decodeBlock`, where the block is moved to its place. -/
def drawBlock (mbWidth : ℕ) (frame : Frame) (mbRow mbCol block : ℕ) (intra : Bool) (n : ℕ)
    (data : BlockData) : Frame :=
  let codedWidth := 16 * mbWidth
  frame.setPlane (storeBlock intra (blockValues n data) (frame.plane (planeOf block))
    (destIndexOf codedWidth mbRow mbCol block) (scanOf codedWidth block)) (planeOf block)

def draw (p : Picture) (forward frame : Frame) : Draw → Option Frame
  | .copy mbRow mbCol motionH motionV =>
      copyMacroblock p.mbWidth mbRow.toNat mbCol.toNat motionH motionV forward frame
  | .block mbRow mbCol block intra n data =>
      some (drawBlock p.mbWidth frame mbRow.toNat mbCol.toNat block intra n data)

def drawAll (p : Picture) (forward frame : Frame) (draws : List Draw) : Option Frame :=
  draws.foldlM (draw p forward) frame

/-! ## Where blocks are -/

/-- A pixel: the macroblock and the block it is in, and its row and column there. -/
structure Place where
  mbRow : ℕ
  mbCol : ℕ
  block : Fin 6
  r : Fin 8
  c : Fin 8

/-- How many pixels a side a macroblock has in the plane. -/
def sideOf (block : ℕ) : ℕ := if block < 4 then 16 else 8

/-- The row of a pixel in its macroblock. -/
def Place.innerRow (x : Place) : ℕ :=
  if x.block.val < 4 then 8 * (x.block.val / 2) + x.r.val else x.r.val

/-- The column of a pixel in its macroblock. -/
def Place.innerCol (x : Place) : ℕ :=
  if x.block.val < 4 then 8 * (x.block.val % 2) + x.c.val else x.c.val

/-- The row of a pixel in its plane. -/
def Place.row (x : Place) : ℕ := sideOf x.block * x.mbRow + x.innerRow

/-- The column of a pixel in its plane. -/
def Place.col (x : Place) : ℕ := sideOf x.block * x.mbCol + x.innerCol

/-- The width of the plane. -/
def Place.width (mbWidth : ℕ) (x : Place) : ℕ := sideOf x.block * mbWidth

/-- A pixel as an index into its plane. -/
def Place.position (mbWidth : ℕ) (x : Place) : ℕ := x.row * x.width mbWidth + x.col

/-- The pixel is in the picture. -/
def Place.Valid (mbWidth mbHeight : ℕ) (x : Place) : Prop := x.mbCol < mbWidth ∧ x.mbRow < mbHeight

@[simp] theorem plane_setPlane (frame : Frame) (bytes : List UInt8) (name other : PlaneName) :
    (frame.setPlane bytes name).plane other =
      if other = name then bytes else frame.plane other := by
  cases name <;> cases other <;> rfl

theorem destIndex_eq {mbWidth : ℕ} (hwidth : 0 < mbWidth) (x : Place) :
    destIndexOf (16 * mbWidth) x.mbRow x.mbCol x.block +
        x.r * (scanOf (16 * mbWidth) x.block + 8) + x.c = x.position mbWidth := by
  obtain ⟨mbRow, mbCol, ⟨block, hblock⟩, r, c⟩ := x
  simp only [destIndexOf, scanOf, Place.position, Place.row, Place.col, Place.width,
    Place.innerRow, Place.innerCol, sideOf]
  split
  · rw [show 16 * mbWidth - 8 + 8 = 16 * mbWidth by omega]
    interval_cases block <;> simp [Nat.testBit] <;> ring
  · rw [show 16 * mbWidth / 2 - 8 + 8 = 8 * mbWidth by omega]
    ring

theorem row_col_unique {width row row' col col' : ℕ} (hcol : col < width) (hcol' : col' < width)
    (h : row * width + col = row' * width + col') : row = row' ∧ col = col' := by
  have hdiv : ∀ a b, b < width → (a * width + b) / width = a := by
    intro a b hb
    rw [Nat.mul_comm, Nat.mul_add_div (by omega), Nat.div_eq_of_lt hb, Nat.add_zero]
  have hrow : row = row' := by
    rw [← hdiv row col hcol, h, hdiv row' col' hcol']
  subst hrow
  exact ⟨rfl, by omega⟩

theorem Place.innerRow_lt (x : Place) : x.innerRow < sideOf x.block := by
  unfold Place.innerRow sideOf
  split <;> omega

theorem Place.innerCol_lt (x : Place) : x.innerCol < sideOf x.block := by
  unfold Place.innerCol sideOf
  split <;> omega

theorem Place.col_lt {mbWidth : ℕ} {x : Place} (h : x.mbCol < mbWidth) :
    x.col < x.width mbWidth := by
  have hinner := x.innerCol_lt
  have hle : sideOf x.block * x.mbCol + sideOf x.block ≤ sideOf x.block * mbWidth :=
    Nat.mul_le_mul_left _ h
  unfold Place.col Place.width
  omega

theorem planeOf_eq_Y {block : ℕ} : planeOf block = .Y ↔ block < 4 := by
  unfold planeOf
  split_ifs <;> simp_all

theorem sideOf_congr {block block' : ℕ} (h : planeOf block = planeOf block') :
    sideOf block = sideOf block' := by
  unfold sideOf
  exact if_congr (by rw [← planeOf_eq_Y, ← planeOf_eq_Y, h]) rfl rfl

/-- Different pixels have different places in a plane. -/
theorem Place.position_injective {mbWidth : ℕ} {x x' : Place} (hcol : x.mbCol < mbWidth)
    (hcol' : x'.mbCol < mbWidth) (hplane : planeOf x.block = planeOf x'.block)
    (h : x.position mbWidth = x'.position mbWidth) : x = x' := by
  have hside := sideOf_congr hplane
  have hlt' := Place.col_lt hcol'
  rw [Place.width, ← hside] at hlt'
  rw [Place.position, Place.position, Place.width, Place.width, ← hside] at h
  obtain ⟨hrow, hcolumn⟩ := row_col_unique (Place.col_lt hcol) hlt' h
  obtain ⟨mbRow, mbCol, ⟨block, hblock⟩, ⟨r, hr⟩, ⟨c, hc⟩⟩ := x
  obtain ⟨mbRow', mbCol', ⟨block', hblock'⟩, ⟨r', hr'⟩, ⟨c', hc'⟩⟩ := x'
  simp only [Place.row, Place.col, Place.innerRow, Place.innerCol, ← hside] at hrow hcolumn
  simp only [Place.mk.injEq, Fin.mk.injEq]
  by_cases hluma : block < 4
  · have hluma' : block' < 4 := by rwa [← planeOf_eq_Y, ← hplane, planeOf_eq_Y]
    simp only [sideOf, if_pos hluma, if_pos hluma'] at hrow hcolumn
    omega
  · have hluma' : ¬ block' < 4 := by rwa [← planeOf_eq_Y, ← hplane, planeOf_eq_Y]
    simp only [sideOf, if_neg hluma, if_neg hluma'] at hrow hcolumn
    have hsame : block = block' := by
      simp only [planeOf, if_neg hluma, if_neg hluma'] at hplane
      split at hplane <;> split at hplane <;> simp at hplane <;> omega
    omega

/-- Every pixel of a macroblock in a plane is one of its blocks. -/
theorem exists_place (mbWidth mbRow mbCol : ℕ) {block r c : ℕ} (hblock : block < 6)
    (hr : r < sideOf block) (hc : c < sideOf block) :
    ∃ x : Place, x.mbRow = mbRow ∧ x.mbCol = mbCol ∧ planeOf x.block = planeOf block ∧
      x.position mbWidth = (sideOf block * mbRow + r) * (sideOf block * mbWidth) +
        (sideOf block * mbCol + c) := by
  by_cases hluma : block < 4
  · have hside : sideOf block = 16 := if_pos hluma
    rw [hside] at hr hc ⊢
    refine ⟨⟨mbRow, mbCol, ⟨2 * (r / 8) + c / 8, by omega⟩, ⟨r % 8, by omega⟩, ⟨c % 8, by omega⟩⟩,
      rfl, rfl, ?_, ?_⟩
    · rw [planeOf_eq_Y.mpr hluma, planeOf_eq_Y]
      dsimp only
      omega
    · have hlt : 2 * (r / 8) + c / 8 < 4 := by omega
      simp only [Place.position, Place.row, Place.col, Place.width, Place.innerRow, Place.innerCol,
        sideOf, if_pos hlt]
      rw [show 8 * ((2 * (r / 8) + c / 8) / 2) + r % 8 = r by omega,
        show 8 * ((2 * (r / 8) + c / 8) % 2) + c % 8 = c by omega]
  · have hside : sideOf block = 8 := if_neg hluma
    rw [hside] at hr hc ⊢
    refine ⟨⟨mbRow, mbCol, ⟨block, hblock⟩, ⟨r, hr⟩, ⟨c, hc⟩⟩, rfl, rfl, rfl, ?_⟩
    simp only [Place.position, Place.row, Place.col, Place.width, Place.innerRow, Place.innerCol,
      hside, if_neg hluma]

/-! ## What a drawing does to a pixel -/

/-- The planes have the size of the picture. -/
structure Frame.Fits (mbWidth mbHeight : ℕ) (frame : Frame) : Prop where
  Y : frame.Y.length = 16 * mbWidth * (16 * mbHeight)
  Cr : frame.Cr.length = 8 * mbWidth * (8 * mbHeight)
  Cb : frame.Cb.length = 8 * mbWidth * (8 * mbHeight)

/-- The pixel at a place. -/
def Frame.at (mbWidth : ℕ) (frame : Frame) (x : Place) : Option UInt8 :=
  (frame.plane (planeOf x.block))[x.position mbWidth]?

/-- From one picture to the other, each pixel changes as said. -/
structure Drawn (mbWidth mbHeight : ℕ) (change : Place → UInt8 → UInt8) (frame result : Frame) :
    Prop where
  fits : result.Fits mbWidth mbHeight
  pixel : ∀ x, x.Valid mbWidth mbHeight →
    result.at mbWidth x = (frame.at mbWidth x).map (change x)

/-- A vector in the half pixels of a plane. -/
def vectorOf (block : ℕ) (motion : ℤ) : ℤ := if block < 4 then motion else motion.tdiv 2

/-- The prediction of a pixel. -/
def Place.predicted (mbWidth : ℕ) (forward : Frame) (motionH motionV : ℤ) (x : Place) : UInt8 :=
  let H := vectorOf x.block motionH
  let V := vectorOf x.block motionV
  halfPel (H % 2 = 1) (V % 2 = 1) (forward.plane (planeOf x.block)) (x.width mbWidth)
    (((x.row : ℤ) + V / 2) * x.width mbWidth + x.col + H / 2)

/-- What a drawing makes of a pixel. -/
def Draw.change (mbWidth : ℕ) (forward : Frame) (x : Place) (old : UInt8) : Draw → UInt8
  | .copy mbRow mbCol motionH motionV =>
      if x.mbRow = mbRow.toNat ∧ x.mbCol = mbCol.toNat then
        x.predicted mbWidth forward motionH motionV
      else old
  | .block mbRow mbCol number intra n data =>
      if x.mbRow = mbRow.toNat ∧ x.mbCol = mbCol.toNat ∧ x.block.val = number then
        storeValue intra (blockValues n data (8 * x.r + x.c)) old
      else old

/-- The drawing is in the picture. -/
def Draw.InRange (mbWidth mbHeight : ℕ) : Draw → Prop
  | .copy mbRow mbCol _ _ => mbRow.toNat < mbHeight ∧ mbCol.toNat < mbWidth
  | .block mbRow mbCol number _ _ _ =>
      mbRow.toNat < mbHeight ∧ mbCol.toNat < mbWidth ∧ number < 6

variable {mbWidth mbHeight : ℕ} {frame : Frame}

theorem Frame.Fits.length_plane (h : frame.Fits mbWidth mbHeight) (x : Place) :
    (frame.plane (planeOf x.block)).length =
      x.width mbWidth * (sideOf x.block * mbHeight) := by
  unfold planeOf Place.width sideOf
  split_ifs
  · exact h.Y
  · exact h.Cb
  · exact h.Cr

theorem Place.position_lt {x : Place} (h : x.Valid mbWidth mbHeight) :
    x.position mbWidth <
      x.width mbWidth * (sideOf x.block * mbHeight) := by
  have hcol := Place.col_lt h.1
  have hinner := x.innerRow_lt
  have hrow : sideOf x.block * x.mbRow + sideOf x.block ≤ sideOf x.block * mbHeight :=
    Nat.mul_le_mul_left _ h.2
  calc x.position mbWidth < x.row * x.width mbWidth + x.width mbWidth := by
        unfold Place.position; omega
    _ = x.width mbWidth * (x.row + 1) := by ring
    _ ≤ _ := Nat.mul_le_mul_left _ (by unfold Place.row; omega)

theorem Frame.Fits.exists_at (h : frame.Fits mbWidth mbHeight) {x : Place}
    (hx : x.Valid mbWidth mbHeight) : ∃ old, frame.at mbWidth x = some old := by
  have hlt := Place.position_lt hx
  rw [← h.length_plane] at hlt
  exact ⟨_, List.getElem?_eq_getElem hlt⟩

theorem length_storeBlock (intra : Bool) (values : BlockData) (dest : List UInt8)
    (destIndex scan : ℕ) : (storeBlock intra values dest destIndex scan).length = dest.length := by
  unfold storeBlock
  generalize List.range 64 = rounds
  induction rounds generalizing dest with
  | nil => rfl
  | cons n rest ih => rw [List.foldl_cons, ih, List.length_modify]

/-- The pixels that are drawn for a block. -/
theorem drawn_block (hfits : frame.Fits mbWidth mbHeight) (forward : Frame) {mbRow mbCol : ℤ}
    {block : ℕ} {intra : Bool} {n : ℕ} {data : BlockData}
    (hrange : (Draw.block mbRow mbCol block intra n data).InRange mbWidth mbHeight) :
    Drawn mbWidth mbHeight
      (fun x old => (Draw.block mbRow mbCol block intra n data).change mbWidth forward x old) frame
      (drawBlock mbWidth frame mbRow.toNat mbCol.toNat block intra n data) := by
  obtain ⟨hrow, hcol, hblock⟩ := hrange
  have hwidth : 0 < mbWidth := by omega
  -- round `k` of the loop changes this pixel
  have hround : ∀ k, ∀ hk : k < 64,
      destIndexOf (16 * mbWidth) mbRow.toNat mbCol.toNat block +
        k / 8 * (scanOf (16 * mbWidth) block + 8) + k % 8 =
      Place.position mbWidth ⟨mbRow.toNat, mbCol.toNat, ⟨block, hblock⟩, ⟨k / 8, by omega⟩,
        ⟨k % 8, by omega⟩⟩ := fun k hk =>
    destIndex_eq hwidth ⟨mbRow.toNat, mbCol.toNat, ⟨block, hblock⟩, ⟨k / 8, by omega⟩,
      ⟨k % 8, by omega⟩⟩
  refine ⟨?_, fun x hx => ?_⟩
  · have hlength : ∀ name, ((drawBlock mbWidth frame mbRow.toNat mbCol.toNat block intra n
        data).plane name).length = (frame.plane name).length := by
      intro name
      rw [drawBlock, plane_setPlane]
      split
      · rename_i hname
        rw [length_storeBlock, hname]
      · rfl
    exact ⟨(hlength .Y).trans hfits.Y, (hlength .Cr).trans hfits.Cr,
      (hlength .Cb).trans hfits.Cb⟩
  by_cases hsame : x.mbRow = mbRow.toNat ∧ x.mbCol = mbCol.toNat ∧ x.block.val = block
  · simp only [Draw.change, if_pos hsame]
    obtain ⟨hmbRow, hmbCol, rfl⟩ := hsame
    have hindex : destIndexOf (16 * mbWidth) mbRow.toNat mbCol.toNat x.block +
        (8 * x.r.val + x.c.val) / 8 * (scanOf (16 * mbWidth) x.block + 8) +
          (8 * x.r.val + x.c.val) % 8 = x.position mbWidth := by
      rw [← hmbRow, ← hmbCol, show (8 * x.r.val + x.c.val) / 8 = x.r.val by omega,
        show (8 * x.r.val + x.c.val) % 8 = x.c.val by omega, destIndex_eq hwidth x]
    rw [Frame.at, Frame.at, drawBlock, plane_setPlane, if_pos rfl, storeBlock, ← hindex]
    refine getElem?_foldl_modify (fun j hj k hk hjk => ?_)
      (show 8 * x.r.val + x.c.val < 64 by omega)
    rw [hround j hj, hround k hk] at hjk
    have heq := Place.position_injective hcol hcol (by rfl) hjk
    simp only [Place.mk.injEq, Fin.mk.injEq, true_and] at heq
    omega
  · simp only [Draw.change, if_neg hsame]
    rw [Frame.at, Frame.at, drawBlock, plane_setPlane]
    split
    · rename_i hplane
      rw [storeBlock, getElem?_foldl_modify_of_ne, hplane, Option.map_id']
      intro k hk hindex
      rw [hround k hk] at hindex
      have heq := Place.position_injective hcol hx.1 hplane.symm hindex
      exact hsame (by rw [← heq]; exact ⟨rfl, rfl, rfl⟩)
    · rw [Option.map_id']

/-- The pixels that are drawn for a prediction. -/
theorem drawn_copy (hfits : frame.Fits mbWidth mbHeight) (forward : Frame) {mbRow mbCol : ℤ}
    {motionH motionV : ℤ}
    (hrange : (Draw.copy mbRow mbCol motionH motionV).InRange mbWidth mbHeight) :
    ∃ result, copyMacroblock mbWidth mbRow.toNat mbCol.toNat motionH motionV forward frame =
        some result ∧
      Drawn mbWidth mbHeight
        (fun x old => (Draw.copy mbRow mbCol motionH motionV).change mbWidth forward x old) frame
        result := by
  obtain ⟨hrow, hcol⟩ := hrange
  obtain ⟨result, hcopy, hY, hCr, hCb⟩ := copyMacroblock_eq_halfPel mbWidth mbHeight mbRow.toNat
    mbCol.toNat motionH motionV forward frame hcol hrow hfits.Y hfits.Cr hfits.Cb
  refine ⟨result, hcopy, ⟨hY.length.trans hfits.Y, hCr.length.trans hfits.Cr,
    hCb.length.trans hfits.Cb⟩, fun x hx => ?_⟩
  have hplane : Predicted (vectorOf x.block motionH % 2 = 1) (vectorOf x.block motionV % 2 = 1)
      (vectorOf x.block motionH / 2) (vectorOf x.block motionV / 2) (sideOf x.block)
      (sideOf x.block * mbWidth) mbRow.toNat mbCol.toNat (forward.plane (planeOf x.block))
      (frame.plane (planeOf x.block)) (result.plane (planeOf x.block)) := by
    unfold planeOf vectorOf sideOf
    split_ifs
    · exact hY
    · exact hCb
    · exact hCr
  obtain ⟨old, hold⟩ := hfits.exists_at hx
  by_cases hsame : x.mbRow = mbRow.toNat ∧ x.mbCol = mbCol.toNat
  · simp only [Draw.change, if_pos hsame]
    have hinside := hplane.inside x.innerRow x.innerRow_lt x.innerCol x.innerCol_lt
    rw [← hsame.1, ← hsame.2] at hinside
    rw [hold]
    exact hinside
  · simp only [Draw.change, if_neg hsame, Option.map_id']
    refine hplane.outside _ fun r hr c hc heq => hsame ?_
    obtain ⟨y, hyRow, hyCol, hyPlane, hy⟩ := exists_place mbWidth mbRow.toNat mbCol.toNat
      x.block.isLt hr hc
    have hxy := Place.position_injective hx.1 (by rwa [hyCol]) hyPlane.symm (heq.trans hy.symm)
    rw [hxy]
    exact ⟨hyRow, hyCol⟩

/-- What drawings make of a pixel, one after the other. -/
def changeAll (mbWidth : ℕ) (forward : Frame) (draws : List Draw) (x : Place) (old : UInt8) :
    UInt8 :=
  draws.foldl (fun old d => d.change mbWidth forward x old) old

theorem changeAll_append (mbWidth : ℕ) (forward : Frame) (before after : List Draw) (x : Place)
    (old : UInt8) :
    changeAll mbWidth forward (before ++ after) x old =
      changeAll mbWidth forward after x (changeAll mbWidth forward before x old) :=
  List.foldl_append

/-- Drawings in the picture change the pixels as said, one after the other. -/
theorem drawAll_drawn {p : Picture} (forward : Frame) {draws : List Draw}
    (hfits : frame.Fits p.mbWidth mbHeight) (hrange : ∀ d ∈ draws, d.InRange p.mbWidth mbHeight) :
    ∃ result, drawAll p forward frame draws = some result ∧
      Drawn p.mbWidth mbHeight (changeAll p.mbWidth forward draws) frame result := by
  induction draws generalizing frame with
  | nil => exact ⟨frame, rfl, hfits, fun x _ => Option.map_id'.symm⟩
  | cons d rest ih =>
      rw [List.forall_mem_cons] at hrange
      obtain ⟨next, hdraw, hnext⟩ : ∃ next, draw p forward frame d = some next ∧
          Drawn p.mbWidth mbHeight (fun x old => d.change p.mbWidth forward x old) frame next := by
        cases d with
        | copy mbRow mbCol motionH motionV => exact drawn_copy hfits forward hrange.1
        | block mbRow mbCol block intra n data =>
            exact ⟨_, rfl, drawn_block hfits forward hrange.1⟩
      obtain ⟨result, hrest, hresult⟩ := ih hnext.fits hrange.2
      refine ⟨result, ?_, hresult.fits, fun x hx => ?_⟩
      · rw [drawAll, List.foldlM_cons, hdraw]
        exact hrest
      · rw [hresult.pixel x hx, hnext.pixel x hx, Option.map_map]
        rfl

/-! ## Macroblocks -/

/-- The number of the macroblock that a pixel is in. -/
def Place.address (mbWidth : ℕ) (x : Place) : ℕ := x.mbRow * mbWidth + x.mbCol

/-- What a macroblock makes of a pixel: the prediction, and the coefficients. -/
def Macroblock.pixel (p : Picture) (forward : Frame) (mb : Macroblock) (x : Place) (old : UInt8) :
    UInt8 :=
  let base :=
    if mb.intra then old
    else x.predicted p.mbWidth forward (p.halfPel (mb.vector.getD (0, 0)).1)
      (p.halfPel (mb.vector.getD (0, 0)).2)
  match mb.blocks x.block with
  | none => base
  | some b =>
      storeValue mb.intra (idct (b.data (p.quantizer mb.intra mb.scale)).2 (8 * x.r + x.c)) base

variable {p : Picture} {x : Place}

theorem address_iff (hcol : x.mbCol < p.mbWidth) (address : ℕ) :
    (x.mbRow = ((address : ℤ) / p.mbWidth).toNat ∧ x.mbCol = ((address : ℤ) % p.mbWidth).toNat) ↔
      x.address p.mbWidth = address := by
  have hdiv : ((address : ℤ) / p.mbWidth).toNat = address / p.mbWidth := by
    rw [← Int.natCast_div, Int.toNat_natCast]
  have hmod : ((address : ℤ) % p.mbWidth).toNat = address % p.mbWidth := by
    rw [← Int.natCast_mod, Int.toNat_natCast]
  have hsplit := Nat.div_add_mod' address p.mbWidth
  rw [hdiv, hmod]
  refine ⟨fun ⟨hrow, hcolumn⟩ => by rw [Place.address, hrow, hcolumn, hsplit], fun h => ?_⟩
  exact row_col_unique hcol (Nat.mod_lt _ (by omega)) (by rw [hsplit]; exact h)

theorem change_copyAt (hcol : x.mbCol < p.mbWidth) (forward : Frame) (address : ℕ)
    (motionH motionV : ℤ) (old : UInt8) :
    (p.copyAt address motionH motionV).change p.mbWidth forward x old =
      if x.address p.mbWidth = address then x.predicted p.mbWidth forward motionH motionV
      else old :=
  if_congr (address_iff hcol address) rfl rfl

theorem change_blockAt (hcol : x.mbCol < p.mbWidth) (forward : Frame) (address block : ℕ)
    (intra : Bool) (result : ℕ × BlockData) (old : UInt8) :
    (p.blockAt address block intra result).change p.mbWidth forward x old =
      if x.address p.mbWidth = address ∧ x.block.val = block then
        storeValue intra (blockValues result.1 result.2 (8 * x.r + x.c)) old
      else old := by
  refine if_congr ?_ rfl rfl
  rw [← and_assoc, address_iff hcol address]

/-- What the block that a pixel is in makes of it. -/
def Macroblock.addBlock (p : Picture) (mb : Macroblock) (x : Place) (old : UInt8) : UInt8 :=
  match mb.blocks x.block with
  | none => old
  | some b =>
      storeValue mb.intra (idct (b.data (p.quantizer mb.intra mb.scale)).2 (8 * x.r + x.c)) old

/-- Of the blocks of a macroblock, the one that a pixel is in changes it. -/
theorem changeAll_blocks (hcol : x.mbCol < p.mbWidth) (forward : Frame) (mb : Macroblock) (n : ℕ)
    (old : UInt8) :
    changeAll p.mbWidth forward ((List.range n).flatMap fun block =>
      ((mb.blocks block).map fun b =>
        p.blockAt mb.address block mb.intra
          (b.data (p.quantizer mb.intra mb.scale))).toList) x old =
      if x.address p.mbWidth = mb.address ∧ x.block.val < n then mb.addBlock p x old else old := by
  induction n with
  | zero => simp [changeAll]
  | succ n ih =>
      rw [List.range_succ, List.flatMap_append, changeAll_append, ih, List.flatMap_singleton]
      by_cases hlast : x.address p.mbWidth = mb.address ∧ x.block.val = n
      · rw [if_neg (by omega), if_pos (by omega), Macroblock.addBlock, hlast.2]
        cases mb.blocks n with
        | none => rfl
        | some b =>
            have hchange := change_blockAt hcol forward mb.address n mb.intra
              (b.data (p.quantizer mb.intra mb.scale)) old
            rw [if_pos hlast, blockValues_eq_idct _ _ (by omega)] at hchange
            exact hchange
      · have hkeep : ∀ old, changeAll p.mbWidth forward ((mb.blocks n).map fun b =>
            p.blockAt mb.address n mb.intra (b.data (p.quantizer mb.intra mb.scale))).toList x old =
            old := by
          intro old
          cases mb.blocks n with
          | none => rfl
          | some b =>
              have hchange := change_blockAt hcol forward mb.address n mb.intra
                (b.data (p.quantizer mb.intra mb.scale)) old
              rw [if_neg hlast] at hchange
              exact hchange
        rw [hkeep]
        exact if_congr (by omega) rfl rfl

theorem changeAll_macroblock (hcol : x.mbCol < p.mbWidth) (forward : Frame) (mb : Macroblock)
    (old : UInt8) :
    changeAll p.mbWidth forward (mb.draws p) x old =
      if x.address p.mbWidth = mb.address then mb.pixel p forward x old else old := by
  rw [Macroblock.draws, changeAll_append, changeAll_blocks hcol]
  by_cases hhere : x.address p.mbWidth = mb.address
  · rw [if_pos ⟨hhere, x.block.isLt⟩, if_pos hhere, Macroblock.pixel, Macroblock.addBlock]
    cases hintra : mb.intra with
    | true => rfl
    | false =>
        have hcopy := change_copyAt hcol forward mb.address (p.halfPel (mb.vector.getD (0, 0)).1)
          (p.halfPel (mb.vector.getD (0, 0)).2) old
        rw [if_pos hhere] at hcopy
        simp only [changeAll, Bool.false_eq_true, if_false, List.foldl_cons, List.foldl_nil, hcopy]
  · rw [if_neg (by omega), if_neg hhere]
    cases hintra : mb.intra with
    | true => rfl
    | false =>
        have hcopy := change_copyAt hcol forward mb.address (p.halfPel (mb.vector.getD (0, 0)).1)
          (p.halfPel (mb.vector.getD (0, 0)).2) old
        rw [if_neg hhere] at hcopy
        simp only [changeAll, Bool.false_eq_true, if_false, List.foldl_cons, List.foldl_nil, hcopy]

/-! ## Slices -/

/-- What a slice makes of a pixel: its macroblocks, and between them copies from the same
place. -/
def slicePixel (p : Picture) (forward : Frame) (mbs : List Macroblock) (x : Place) (old : UInt8) :
    UInt8 :=
  match mbs.find? fun mb => mb.address = x.address p.mbWidth with
  | some mb => mb.pixel p forward x old
  | none =>
      if (∃ mb ∈ mbs, mb.address < x.address p.mbWidth) ∧
          ∃ mb ∈ mbs, x.address p.mbWidth < mb.address then
        x.predicted p.mbWidth forward 0 0
      else old

theorem changeAll_skipped (hcol : x.mbCol < p.mbWidth) (forward : Frame) (last address : ℕ)
    (old : UInt8) :
    changeAll p.mbWidth forward (skippedDraws p last address) x old =
      if last < x.address p.mbWidth ∧ x.address p.mbWidth < address then
        x.predicted p.mbWidth forward 0 0
      else old := by
  have hrange : ∀ n, changeAll p.mbWidth forward
      ((List.range n).map fun (i : ℕ) => p.copyAt ((last : ℤ) + 1 + i) 0 0) x old =
        if last < x.address p.mbWidth ∧ x.address p.mbWidth < last + 1 + n then
          x.predicted p.mbWidth forward 0 0
        else old := by
    intro n
    induction n with
    | zero =>
        rw [if_neg (by omega)]
        rfl
    | succ n ih =>
        have hcopy := change_copyAt hcol forward (last + 1 + n) 0 0
        push_cast at hcopy
        rw [List.range_succ, List.map_append, changeAll_append, ih]
        simp only [changeAll, List.map_cons, List.map_nil, List.foldl_cons, List.foldl_nil, hcopy]
        by_cases hhere : x.address p.mbWidth = last + 1 + n
        · rw [if_pos hhere, if_pos (by omega)]
        · rw [if_neg hhere]
          exact if_congr (by omega) rfl rfl
  rw [skippedDraws, hrange]
  exact if_congr (by omega) rfl rfl

/-- Nothing is drawn in front of a slice. -/
theorem slicePixel_of_lt {mbs : List Macroblock} (h : ∀ mb ∈ mbs, x.address p.mbWidth < mb.address)
    (forward : Frame) (old : UInt8) : slicePixel p forward mbs x old = old := by
  have hfind : (mbs.find? fun mb => mb.address = x.address p.mbWidth) = none := by
    rw [List.find?_eq_none]
    intro mb hmem
    simpa using (h mb hmem).ne'
  rw [slicePixel, hfind]
  refine if_neg ?_
  rintro ⟨⟨mb, hmem, hbefore⟩, -⟩
  exact absurd (h mb hmem) (by omega)

/-- Behind its second macroblock, a slice is as without the first. -/
theorem slicePixel_cons_of_le {mb mb' : Macroblock} {rest : List Macroblock}
    (hlt : mb.address < mb'.address) (h : mb'.address ≤ x.address p.mbWidth) (forward : Frame)
    (old : UInt8) :
    slicePixel p forward (mb :: mb' :: rest) x old = slicePixel p forward (mb' :: rest) x old := by
  rw [slicePixel, slicePixel, List.find?_cons_of_neg (by simp; omega)]
  cases hfind : (mb' :: rest).find? fun mb => mb.address = x.address p.mbWidth with
  | some other => rfl
  | none =>
      have hne : mb'.address ≠ x.address p.mbWidth := by
        simpa using List.find?_eq_none.mp hfind mb' List.mem_cons_self
      refine if_congr (and_congr ?_ ?_) rfl rfl
      · rw [List.exists_mem_cons_iff]
        exact ⟨fun _ => ⟨mb', List.mem_cons_self, by omega⟩, .inr⟩
      · rw [List.exists_mem_cons_iff]
        exact ⟨fun h => h.resolve_left (by omega), .inr⟩

/-- The drawings of a slice make of each pixel what the slice says. -/
theorem changeAll_slice (hcol : x.mbCol < p.mbWidth) (forward : Frame) {mbs : List Macroblock}
    (hsorted : mbs.Pairwise fun mb mb' => mb.address < mb'.address) (old : UInt8) :
    changeAll p.mbWidth forward (sliceDraws p mbs) x old = slicePixel p forward mbs x old := by
  induction mbs generalizing old with
  | nil => simp [changeAll, sliceDraws, slicePixel]
  | cons mb rest ih =>
      obtain ⟨hbehind, hsorted⟩ := List.pairwise_cons.mp hsorted
      -- a pixel up to the first macroblock is only in that
      have hfirst : x.address p.mbWidth ≤ mb.address → slicePixel p forward (mb :: rest) x old =
          if x.address p.mbWidth = mb.address then mb.pixel p forward x old else old := by
        intro hle
        split
        · rename_i heq
          rw [slicePixel, List.find?_cons_of_pos (by simpa using heq.symm)]
        · refine slicePixel_of_lt (fun other hother => ?_) forward old
          rcases List.mem_cons.mp hother with rfl | hmem
          · omega
          · have hlt := hbehind other hmem
            omega
      cases rest with
      | nil =>
          rw [sliceDraws, macroblocksDraws, List.append_nil, changeAll_macroblock hcol]
          by_cases hle : x.address p.mbWidth ≤ mb.address
          · exact (hfirst hle).symm
          · rw [if_neg (by omega), slicePixel, List.find?_cons_of_neg (by simp; omega)]
            simp
            omega
      | cons mb' rest =>
          have hlt := hbehind mb' List.mem_cons_self
          have hdraws : sliceDraws p (mb :: mb' :: rest) =
              mb.draws p ++
                (skippedDraws p mb.address mb'.address ++ sliceDraws p (mb' :: rest)) := by
            simp only [sliceDraws, macroblocksDraws, List.append_assoc]
          rw [hdraws, changeAll_append, changeAll_append, ih hsorted, changeAll_macroblock hcol,
            changeAll_skipped hcol]
          by_cases hnext : mb'.address ≤ x.address p.mbWidth
          · rw [if_neg (by omega), if_neg (by omega), slicePixel_cons_of_le hlt hnext]
          have hrest : ∀ other ∈ mb' :: rest, x.address p.mbWidth < other.address := by
            intro other hother
            rcases List.mem_cons.mp hother with rfl | hmem
            · omega
            · have hmore := (List.pairwise_cons.mp hsorted).1 other hmem
              omega
          rw [slicePixel_of_lt hrest]
          by_cases hle : x.address p.mbWidth ≤ mb.address
          · rw [if_neg (by omega), hfirst hle]
          · rw [if_pos (by omega), slicePixel, List.find?_cons_of_neg (by simp; omega),
              List.find?_eq_none.mpr (fun other hother => by simpa using (hrest other hother).ne')]
            dsimp only
            rw [if_pos ⟨⟨mb, List.mem_cons_self, by omega⟩, mb',
              List.mem_cons_of_mem _ List.mem_cons_self, by omega⟩]

theorem inRange_of_address {address : ℕ} (h : address < p.mbWidth * mbHeight) :
    ((address : ℤ) / p.mbWidth).toNat < mbHeight ∧
      ((address : ℤ) % p.mbWidth).toNat < p.mbWidth := by
  have hwidth : 0 < p.mbWidth := Nat.pos_of_mul_pos_right (Nat.zero_lt_of_lt h)
  rw [← Int.natCast_div, ← Int.natCast_mod, Int.toNat_natCast, Int.toNat_natCast]
  exact ⟨Nat.div_lt_of_lt_mul h, Nat.mod_lt _ hwidth⟩

theorem inRange_macroblock {mb : Macroblock} (h : mb.address < p.mbWidth * mbHeight) :
    ∀ d ∈ mb.draws p, d.InRange p.mbWidth mbHeight := by
  intro d hd
  rw [Macroblock.draws, List.mem_append] at hd
  rcases hd with hcopy | hblock
  · split at hcopy
    · simp at hcopy
    · rw [List.mem_singleton.mp hcopy]
      exact inRange_of_address h
  · obtain ⟨block, hsix, hd⟩ := List.mem_flatMap.mp hblock
    obtain ⟨b, -, rfl⟩ := Option.map_eq_some_iff.mp (Option.mem_toList.mp hd)
    exact ⟨(inRange_of_address h).1, (inRange_of_address h).2, List.mem_range.mp hsix⟩

theorem inRange_skipped {last address : ℕ} (h : address ≤ p.mbWidth * mbHeight) :
    ∀ d ∈ skippedDraws p last address, d.InRange p.mbWidth mbHeight := by
  intro d hd
  obtain ⟨i, hi, rfl⟩ := List.mem_map.mp hd
  rw [List.mem_range] at hi
  have hrange := @inRange_of_address mbHeight p (last + 1 + i) (by omega)
  push_cast at hrange
  exact hrange

theorem inRange_slice {mbs : List Macroblock} (h : ∀ mb ∈ mbs, mb.address < p.mbWidth * mbHeight) :
    ∀ d ∈ sliceDraws p mbs, d.InRange p.mbWidth mbHeight := by
  have hrest : ∀ (mbs : List Macroblock) (last : ℕ),
      (∀ mb ∈ mbs, mb.address < p.mbWidth * mbHeight) →
      ∀ d ∈ macroblocksDraws p last mbs, d.InRange p.mbWidth mbHeight := by
    intro mbs
    induction mbs with
    | nil => simp [macroblocksDraws]
    | cons mb rest ih =>
        intro last h d hd
        rw [List.forall_mem_cons] at h
        rw [macroblocksDraws, List.mem_append, List.mem_append] at hd
        rcases hd with (hskipped | hmb) | hmore
        · exact inRange_skipped h.1.le d hskipped
        · exact inRange_macroblock h.1 d hmb
        · exact ih _ h.2 d hmore
  cases mbs with
  | nil => simp [sliceDraws]
  | cons mb rest =>
      intro d hd
      rw [List.forall_mem_cons] at h
      rcases List.mem_append.mp hd with hmb | hmore
      · exact inRange_macroblock h.1 d hmb
      · exact hrest rest _ h.2 d hmore

/-- Addresses grow, and only the first can be outside. -/
theorem MacroblocksCode.addresses {c : Coder} {mbs : List Macroblock} {words : List (List Bool)}
    (h : MacroblocksCode p c mbs words) :
    (∀ mb ∈ mbs, c.address < mb.address) ∧
      (mbs.Pairwise fun mb mb' => mb.address < mb'.address) ∧
      ((c.first = true → ∀ mb ∈ mbs.head?, mb.address < p.mbSize) →
        ∀ mb ∈ mbs, mb.address < p.mbSize) := by
  induction h with
  | nil => simp
  | @cons c mb rest bits restBits h hrest ih =>
      obtain ⟨hbehind, hsorted, hinside⟩ := ih
      obtain ⟨hincrement, haddress, hin⟩ := h
      have hpos := hincrement.pos
      have hnext : ∀ other ∈ rest, mb.address < other.address := by
        intro other hother
        have hlt := hbehind other hother
        dsimp only [Coder.next] at hlt
        omega
      refine ⟨?_, List.pairwise_cons.mpr ⟨hnext, hsorted⟩, fun hfirst => ?_⟩
      · intro other hother
        rcases List.mem_cons.mp hother with rfl | hmem
        · omega
        · have hlt := hnext other hmem
          omega
      · rw [List.forall_mem_cons]
        refine ⟨?_, hinside fun hnot => by simp [Coder.next] at hnot⟩
        cases hc : c.first with
        | true => exact hfirst hc mb (by simp)
        | false => exact hin hc

/-- **Slices.**  Whatever bits stand for a slice, they are read to the end, and what is drawn
makes of each pixel what the slice says. -/
theorem slice_drawn (p : Picture) (mbHeight : ℕ) (hsize : p.mbSize = p.mbWidth * mbHeight)
    (slice : ℕ) {scale : ℕ} (hscale : scale < 32) (extra : List UInt8) {mbs : List Macroblock}
    {words : List (List Bool)} (h : MacroblocksCode p (firstCoder p slice scale) mbs words)
    (hfirst : ∀ mb ∈ mbs.head?, mb.address < p.mbSize) {r : BitReader}
    (hahead : r.Ahead (sliceBits scale extra words))
    (hends : EndsAfter (r.skip (5 + (extraBits extra).length)) words) {fuel : ℕ}
    (hfuel : (sliceBits scale extra words).length < fuel) (forward : Frame) {frame : Frame}
    (hfits : frame.Fits p.mbWidth mbHeight) :
    ∃ s result, (decodeSlice p slice fuel).run r =
        some (s, r.skip (sliceBits scale extra words).length) ∧
      drawAll p forward frame s.draws = some result ∧
      Drawn p.mbWidth mbHeight (slicePixel p forward mbs) frame result := by
  obtain ⟨-, hsorted, hinside⟩ := h.addresses
  have haddresses := hinside fun _ => hfirst
  rw [hsize] at haddresses
  obtain ⟨s, hrun, hdraws⟩ := run_decodeSlice p slice hscale extra h hahead hends hfuel
  obtain ⟨result, hdraw, hdrawn⟩ := drawAll_drawn forward hfits (inRange_slice haddresses)
  refine ⟨s, result, hrun, by rw [hdraws, hdraw], hdrawn.fits, fun x hx => ?_⟩
  rw [hdrawn.pixel x hx]
  congr 1
  funext old
  exact changeAll_slice hx.1 forward hsorted old

end SsmIaas.Player
