import SsmIaas.Player.Reconstruction
import SsmIaas.Player.Stream

/-!
# Pictures

`decodePicture` of `jsmpg.js` reads the header of a picture, draws its slices into one frame
with the other as reference, and swaps the two.  The bytes of a picture lie in `buffer`, with
what was there before behind them.

`Encodes` says which bytes stand for a picture.  `run_decodePicture`: such a picture is decoded,
whatever lies behind it, and the reader is left at the start code that ended it.  From there
another call decodes nothing (`run_decodePicture_again`).  What a complete picture shows does
not depend on the frame it is drawn into (`Drawn.shows`).
-/

namespace SsmIaas.Player

open Lib

/-! ## The program -/

/-- What is set once for a stream. -/
structure Sequence where
  mbWidth : ℕ
  mbHeight : ℕ
  intraQuantMatrix : List ℤ
  nonIntraQuantMatrix : List ℤ

def Sequence.picture (q : Sequence) (pictureCodingType : ℕ) (fullPelForward : Bool)
    (forwardRSize : Fin 7) : Picture where
  mbWidth := q.mbWidth
  mbSize := q.mbWidth * q.mbHeight
  pictureCodingType := pictureCodingType
  fullPelForward := fullPelForward
  forwardRSize := forwardRSize
  forwardRSize_le := Nat.le_of_lt_succ forwardRSize.isLt
  intraQuantMatrix := q.intraQuantMatrix
  nonIntraQuantMatrix := q.nonIntraQuantMatrix

/-- The fields of the player that `decodePicture` uses. -/
structure Decoder where
  sequence : Sequence
  fullPelForward : Bool
  forwardRSize : Fin 7
  current : Frame
  forward : Frame
  /-- the frames that were decoded, and if they were rendered -/
  frames : List (Frame × Bool)

/-- `DEFAULT_INTRA_QUANT_MATRIX` -/
def defaultIntraQuantMatrix : List ℤ := [
  8, 16, 19, 22, 26, 27, 29, 34,
  16, 16, 22, 24, 27, 29, 34, 37,
  19, 22, 26, 27, 29, 34, 34, 38,
  22, 22, 26, 27, 29, 34, 37, 40,
  22, 26, 27, 29, 32, 35, 40, 48,
  26, 27, 29, 32, 35, 40, 48, 58,
  26, 27, 29, 34, 38, 46, 56, 69,
  27, 29, 35, 38, 46, 56, 69, 83]

/-- `DEFAULT_NON_INTRA_QUANT_MATRIX` -/
def defaultNonIntraQuantMatrix : List ℤ := List.replicate 64 16

/-- A picture of zeros. -/
def Sequence.blank (q : Sequence) : Frame :=
  let codedSize := 16 * q.mbWidth * (16 * q.mbHeight)
  ⟨List.replicate codedSize 0, List.replicate (codedSize / 4) 0, List.replicate (codedSize / 4) 0⟩

def Sequence.ofSize (width height : ℕ) : Sequence where
  mbWidth := (width + 15) / 16
  mbHeight := (height + 15) / 16
  intraQuantMatrix := defaultIntraQuantMatrix
  nonIntraQuantMatrix := defaultNonIntraQuantMatrix

/-- `initBuffers ()`, when no sequence was started yet. -/
def initBuffers (width height : ℕ) : Decoder :=
  let q := Sequence.ofSize width height
  ⟨q, false, 0, q.blank, q.blank, []⟩

def BitReader.rewind (r : BitReader) (count : ℕ) : BitReader := { r with index := r.index - count }

/-- A start code: `none` is no code of a slice or of user data. -/
def nextStartCode : Parser (Option UInt8) := fun r =>
  let (code, r) := r.findNextMPEGStartCode
  some (code.join, r)

def isUserData (code : UInt8) : Bool := code == 0xB5 || code == 0xB2

def isSlice (code : UInt8) : Bool := 0x01 ≤ code && code ≤ 0xAF

/-- Extensions and user data are skipped. -/
def skipUserData : ℕ → Parser (Option UInt8)
  | 0 => failure
  | fuel + 1 => do
      let code ← nextStartCode
      if code.any isUserData then skipUserData fuel else return code

/-- The loop over the slices, behind the start code of the next one. -/
def decodeSlices (p : Picture) (forward : Frame) (fuel : ℕ) :
    ℕ → Option UInt8 → Frame → Parser Frame
  | 0, _, _ => failure
  | count + 1, code, current => do
      if code.any isSlice then
        let s ← decodeSlice p (code.getD 0).toNat fuel
        let current ← drawAll p forward current s.draws
        let code ← nextStartCode
        decodeSlices p forward fuel count code current
      else return current

/-- `decodePicture` behind the header: the frame is drawn, and the frames are swapped. -/
def decodeFrame (fuel : ℕ) (skipOutput : Bool) (pictureCodingType : ℕ) (d : Decoder) :
    Parser Decoder := do
  let code ← skipUserData fuel
  let frame ← decodeSlices (d.sequence.picture pictureCodingType d.fullPelForward d.forwardRSize)
    d.forward fuel fuel code d.current
  modify fun r => r.rewind 32
  return { d with
    current := d.forward
    forward := frame
    frames := d.frames ++ [(frame, !skipOutput)] }

def decodePicture (fuel : ℕ) (skipOutput : Bool) (d : Decoder) : Parser Decoder := do
  advance 10
  let pictureCodingType ← getBits 3
  advance 16
  if pictureCodingType ≤ 0 ∨ 3 ≤ pictureCodingType then return d
  else if pictureCodingType = 2 then
    let fullPelForward ← getBits 1
    let forwardFCode ← getBits 3
    let d := { d with fullPelForward := fullPelForward ≠ 0 }
    if forwardFCode = 0 then return d
    else
      decodeFrame fuel skipOutput 2
        { d with forwardRSize := Fin.ofNat 7 (forwardFCode - 1).toNat }
  else decodeFrame fuel skipOutput 1 d

/-! ## Pictures in bytes -/

/-- A start code in a sequence of bytes. -/
def CodeAt (bytes : List UInt8) (i : ℕ) (code : UInt8) : Prop :=
  bytes[i]? = some 0 ∧ bytes[i + 1]? = some 0 ∧ bytes[i + 2]? = some 1 ∧ bytes[i + 3]? = some code

instance (bytes : List UInt8) (i : ℕ) (code : UInt8) : Decidable (CodeAt bytes i code) :=
  inferInstanceAs (Decidable (_ ∧ _))

/-- A reader of some bytes, with others behind them. -/
def readerOf (bytes behind : List UInt8) (index : ℕ) : BitReader :=
  ⟨bytes ++ behind, bytes.length, index⟩

/-- There is no start code between two places. -/
def Quiet (bytes : List UInt8) (first last : ℕ) : Prop :=
  ∀ i < last, first ≤ i → (readerOf bytes [] 0).startCodeAt i = false

instance (bytes : List UInt8) (first last : ℕ) : Decidable (Quiet bytes first last) :=
  inferInstanceAs (Decidable (∀ _ < _, _))

/-- A slice with the number in its start code. -/
structure CodedSlice where
  number : UInt8
  scale : ℕ
  extra : List UInt8
  mbs : List Macroblock
  words : List (List Bool)

def CodedSlice.bits (s : CodedSlice) : List Bool := sliceBits s.scale s.extra s.words

structure CodedSlice.Valid (p : Picture) (s : CodedSlice) : Prop where
  number : isSlice s.number = true
  scale : s.scale < 32
  macroblocks : MacroblocksCode p (firstCoder p s.number.toNat s.scale) s.mbs s.words
  first : ∀ mb ∈ s.mbs.head?, mb.address < p.mbSize

/-- Slices follow each other from a start code on, up to one that is no slice. -/
inductive SlicesAt (p : Picture) (bytes : List UInt8) : ℕ → List CodedSlice → ℕ → Prop
  | done {i : ℕ} {code : UInt8} (hcode : CodeAt bytes i code) (hend : isSlice code = false) :
      SlicesAt p bytes i [] i
  | slice {i e : ℕ} {s : CodedSlice} {rest : List CodedSlice} (hcode : CodeAt bytes i s.number)
      (hvalid : s.Valid p) (hahead : (readerOf bytes [] (8 * (i + 4))).Ahead s.bits)
      (hends : EndsAfter (readerOf bytes [] (8 * (i + 4) + (5 + (extraBits s.extra).length)))
        s.words)
      (hrest : SlicesAt p bytes ((8 * (i + 4) + s.bits.length + 7) / 8) rest e) :
      SlicesAt p bytes i (s :: rest) e

/-- The first start code that is not for user data. -/
inductive StartsAt (bytes : List UInt8) : ℕ → ℕ → Prop
  | here {first i : ℕ} {code : UInt8} (hle : first ≤ i) (hquiet : Quiet bytes first i)
      (hcode : CodeAt bytes i code) (hdata : isUserData code = false) : StartsAt bytes first i
  | behind {first i next : ℕ} {code : UInt8} (hle : first ≤ i) (hquiet : Quiet bytes first i)
      (hcode : CodeAt bytes i code) (hdata : isUserData code = true)
      (hrest : StartsAt bytes (i + 4) next) : StartsAt bytes first next

/-- The types of pictures that are decoded, with what is sent about their vectors. -/
inductive PictureKind
  | intra
  | predicted (fullPelForward : Bool) (forwardRSize : Fin 7)

structure CodedPicture where
  temporalReference : ℕ
  vbvDelay : ℕ
  kind : PictureKind
  slices : List CodedSlice

def PictureKind.type : PictureKind → ℕ
  | .intra => 1
  | .predicted _ _ => 2

def PictureKind.bits : PictureKind → List Bool
  | .intra => []
  | .predicted fullPelForward forwardRSize =>
      [fullPelForward] ++ toBits 3 (forwardRSize.val + 1)

def CodedPicture.headerBits (pic : CodedPicture) : List Bool :=
  toBits 10 pic.temporalReference ++ (toBits 3 pic.kind.type ++ (toBits 16 pic.vbvDelay ++
    pic.kind.bits))

/-- The picture that a header announces.  Vectors do not matter without prediction. -/
def Sequence.announced (q : Sequence) : PictureKind → Picture
  | .intra => q.picture 1 false 0
  | .predicted fullPelForward forwardRSize => q.picture 2 fullPelForward forwardRSize

/-- The bytes of a picture: its header, its slices, and a start code that ends it. -/
structure PictureAt (q : Sequence) (bytes : List UInt8) (pic : CodedPicture) (i e : ℕ) : Prop where
  header : (readerOf bytes [] 0).Ahead pic.headerBits
  start : StartsAt bytes ((pic.headerBits.length + 7) / 8) i
  slices : SlicesAt (q.announced pic.kind) bytes i pic.slices e

def Encodes (q : Sequence) (bytes : List UInt8) (pic : CodedPicture) : Prop :=
  ∃ i e, PictureAt q bytes pic i e

/-! ## What lies behind the bytes does not matter -/

section

variable {bytes : List UInt8} {i e : ℕ} {code : UInt8}

theorem readerOf_skip (bytes behind : List UInt8) (index count : ℕ) :
    (readerOf bytes behind index).skip count = readerOf bytes behind (index + count) := rfl

theorem CodeAt.lt (h : CodeAt bytes i code) : i + 3 < bytes.length :=
  (List.getElem?_eq_some_iff.mp h.2.2.2).1

theorem startCodeAt_readerOf (behind : List UInt8) (index : ℕ) (h : i + 2 < bytes.length) :
    (readerOf bytes behind index).startCodeAt i = (readerOf bytes [] 0).startCodeAt i := by
  simp only [BitReader.startCodeAt, readerOf, List.append_nil]
  rw [List.getElem?_append_left (by omega), List.getElem?_append_left (by omega),
    List.getElem?_append_left h]

theorem CodeAt.startCodeAt (h : CodeAt bytes i code) (behind : List UInt8) (index : ℕ) :
    (readerOf bytes behind index).startCodeAt i = true := by
  have hlt := h.lt
  rw [startCodeAt_readerOf behind index (by omega)]
  simp [BitReader.startCodeAt, readerOf, h.1, h.2.1, h.2.2.1]

theorem ahead_readerOf {index : ℕ} {bits : List Bool} (behind : List UInt8)
    (h : (readerOf bytes [] index).Ahead bits) (hlt : index + bits.length ≤ 8 * bytes.length) :
    (readerOf bytes behind index).Ahead bits := by
  refine Eq.trans ?_ h
  refine List.map_congr_left fun k hk => ?_
  have hk := List.mem_range.mp hk
  simp only [bitAt, readerOf, List.append_nil]
  rw [List.getD_append _ _ _ _ (by omega)]

theorem nextBytesAreStartCode_readerOf (behind : List UInt8) (index : ℕ)
    (h : (index + 7) / 8 + 2 < bytes.length) :
    (readerOf bytes behind index).nextBytesAreStartCode =
      (readerOf bytes [] index).nextBytesAreStartCode := by
  simp only [BitReader.nextBytesAreStartCode, readerOf, List.append_nil]
  rw [List.getElem?_append_left (by omega), List.getElem?_append_left (by omega),
    List.getElem?_append_left h]
  rfl

theorem endsAfter_readerOf {words : List (List Bool)} {index : ℕ} (behind : List UInt8)
    (h : EndsAfter (readerOf bytes [] index) words)
    (hlt : (index + words.flatten.length + 7) / 8 + 2 < bytes.length) :
    EndsAfter (readerOf bytes behind index) words := by
  induction words generalizing index with
  | nil => exact h
  | cons bits rest ih =>
      rw [List.flatten_cons, List.length_append] at hlt
      have hcode := nextBytesAreStartCode_readerOf behind (index + bits.length)
        (show _ < bytes.length by omega)
      cases rest with
      | nil => exact hcode.trans h
      | cons next rest =>
          refine ⟨hcode.trans h.1, ?_⟩
          rw [readerOf_skip]
          exact ih h.2 (by omega)

/-! ## Start codes -/

theorem CodeAt.unique {code' : UInt8} (h : CodeAt bytes i code) (h' : CodeAt bytes i code') :
    code' = code :=
  Option.some.inj (h'.2.2.2.symm.trans h.2.2.2)

theorem run_nextStartCode {index : ℕ} (behind : List UInt8) (hle : (index + 7) / 8 ≤ i)
    (hquiet : Quiet bytes ((index + 7) / 8) i) (hcode : CodeAt bytes i code) :
    nextStartCode.run (readerOf bytes behind index) =
      some (some code, readerOf bytes behind (8 * (i + 4))) := by
  have hlt := hcode.lt
  have hfind : (List.range' ((index + 7) / 8) (bytes.length - (index + 7) / 8)).find?
      (readerOf bytes behind index).startCodeAt = some i := by
    rw [List.find?_range'_eq_some]
    refine ⟨hcode.startCodeAt behind index, List.mem_range'_1.mpr (by omega), fun k hk hki => ?_⟩
    rw [startCodeAt_readerOf behind index (by omega), hquiet k hki hk]
    rfl
  have hnext : (readerOf bytes behind index).findNextMPEGStartCode =
      (some (some code), readerOf bytes behind (8 * (i + 4))) := by
    unfold BitReader.findNextMPEGStartCode
    dsimp only [readerOf] at hfind ⊢
    rw [hfind]
    dsimp only
    rw [List.getElem?_append_left hlt, hcode.2.2.2, Nat.mul_comm]
  show some ((readerOf bytes behind index).findNextMPEGStartCode.1.join,
    (readerOf bytes behind index).findNextMPEGStartCode.2) = _
  rw [hnext]
  rfl

theorem StartsAt.exists_code {first : ℕ} (h : StartsAt bytes first i) :
    first ≤ i ∧ ∃ code, CodeAt bytes i code := by
  induction h with
  | here hle hquiet hcode hdata => exact ⟨hle, _, hcode⟩
  | behind hle hquiet hcode hdata hrest ih => exact ⟨by omega, ih.2⟩

theorem run_skipUserData {first index n : ℕ} (behind : List UInt8) (h : StartsAt bytes first i)
    (hindex : (index + 7) / 8 = first) (hn : bytes.length < n + first)
    (hcode : CodeAt bytes i code) :
    (skipUserData n).run (readerOf bytes behind index) =
      some (some code, readerOf bytes behind (8 * (i + 4))) := by
  induction h generalizing index n with
  | @here first i own hle hquiet hown hdata =>
      subst hindex
      have hlt := hown.lt
      obtain rfl := hcode.unique hown
      obtain ⟨n, rfl⟩ := Nat.exists_eq_add_of_lt (show 0 < n by omega)
      rw [skipUserData, StateT.run_bind, run_nextStartCode behind hle hquiet hown]
      show (if isUserData own then _ else _ : Parser _).run _ = _
      rw [if_neg (by simp [hdata])]
      rfl
  | @behind first i next other hle hquiet hother hdata hrest ih =>
      subst hindex
      have hlt := hother.lt
      obtain ⟨n, rfl⟩ := Nat.exists_eq_add_of_lt (show 0 < n by omega)
      rw [skipUserData, StateT.run_bind, run_nextStartCode behind hle hquiet hother]
      show (if isUserData other then _ else _ : Parser _).run _ = _
      rw [if_pos hdata]
      exact ih (by omega) (by omega) hcode

/-! ## Slices -/

theorem Drawn.trans {mbWidth mbHeight : ℕ} {change change' : Place → UInt8 → UInt8}
    {frame next result : Frame} (h : Drawn mbWidth mbHeight change frame next)
    (h' : Drawn mbWidth mbHeight change' next result) :
    Drawn mbWidth mbHeight (fun x old => change' x (change x old)) frame result where
  fits := h'.fits
  pixel x hx := by
    rw [h'.pixel x hx, h.pixel x hx, Option.map_map]
    rfl

/-- What slices make of a pixel, one after the other. -/
def picturePixel (p : Picture) (forward : Frame) (slices : List CodedSlice) (x : Place)
    (old : UInt8) : UInt8 :=
  slices.foldl (fun old s => slicePixel p forward s.mbs x old) old

theorem SlicesAt.le {p : Picture} {slices : List CodedSlice} (h : SlicesAt p bytes i slices e) :
    i ≤ e ∧ ∃ code, CodeAt bytes e code ∧ isSlice code = false := by
  induction h with
  | done hcode hend => exact ⟨le_rfl, _, hcode, hend⟩
  | slice hcode hvalid hahead hends hrest ih => exact ⟨by omega, ih.2⟩

theorem decodeSlices_slice {p : Picture} {forward frame drawn : Frame} {fuel n : ℕ}
    {r r' r'' : BitReader} {s : SliceState} {next : Option UInt8} (hslice : isSlice code = true)
    (hrun : (decodeSlice p code.toNat fuel).run r = some (s, r'))
    (hdraw : drawAll p forward frame s.draws = some drawn)
    (hnext : nextStartCode.run r' = some (next, r'')) :
    (decodeSlices p forward fuel (n + 1) (some code) frame).run r =
      (decodeSlices p forward fuel n next drawn).run r'' := by
  simp [decodeSlices, hslice, hrun, hdraw, hnext]

theorem run_decodeSlices {p : Picture} {mbHeight fuel : ℕ} {slices : List CodedSlice}
    (hsize : p.mbSize = p.mbWidth * mbHeight) (h : SlicesAt p bytes i slices e)
    (hcode : CodeAt bytes i code) (behind : List UInt8) (forward : Frame) {frame : Frame}
    (hfits : frame.Fits p.mbWidth mbHeight) (hfuel : 8 * bytes.length < fuel) {n : ℕ}
    (hn : bytes.length < n + i) :
    ∃ result, (decodeSlices p forward fuel n (some code) frame).run
        (readerOf bytes behind (8 * (i + 4))) =
          some (result, readerOf bytes behind (8 * (e + 4))) ∧
      Drawn p.mbWidth mbHeight (picturePixel p forward slices) frame result := by
  induction h generalizing n frame code with
  | @done i own hown hend =>
      have hlt := hown.lt
      obtain rfl := hcode.unique hown
      obtain ⟨n, rfl⟩ := Nat.exists_eq_add_of_lt (show 0 < n by omega)
      refine ⟨frame, ?_, hfits, fun x _ => Option.map_id'.symm⟩
      rw [decodeSlices, if_neg (by simp [hend])]
      rfl
  | @slice i e s rest hown hvalid hahead hends hrest ih =>
      have hlt := hown.lt
      obtain rfl := hcode.unique hown
      obtain ⟨n, rfl⟩ := Nat.exists_eq_add_of_lt (show 0 < n by omega)
      obtain ⟨hle, last, hlast, -⟩ := hrest.le
      have hlastlt := hlast.lt
      have hnext : ∃ code, CodeAt bytes ((8 * (i + 4) + s.bits.length + 7) / 8) code := by
        cases hrest with
        | done hcode _ => exact ⟨_, hcode⟩
        | slice hcode => exact ⟨_, hcode⟩
      obtain ⟨code, hnext⟩ := hnext
      have hlength : s.bits.length = 5 + (extraBits s.extra).length + s.words.flatten.length := by
        simp only [CodedSlice.bits, sliceBits, List.length_append, length_toBits]
        omega
      have hahead := ahead_readerOf behind hahead (show _ ≤ 8 * bytes.length by omega)
      have hends := endsAfter_readerOf behind hends (show _ < bytes.length by omega)
      obtain ⟨state, drawn, hrun, hdraw, hdrawn⟩ := slice_drawn p mbHeight hsize s.number.toNat
        hvalid.scale s.extra hvalid.macroblocks hvalid.first hahead hends
        (show s.bits.length < fuel by omega) forward hfits
      obtain ⟨result, hmore, hresult⟩ := ih hnext hdrawn.fits (show _ < 0 + n + _ by omega)
      refine ⟨result, ?_, hdrawn.trans hresult⟩
      have hstart := run_nextStartCode behind (show _ ≤ _ from le_rfl)
        (fun k hlt hle => absurd hlt (by omega)) hnext
      rw [decodeSlices_slice hvalid.number hrun hdraw hstart, hmore]

/-- The frame is drawn, and becomes the reference. -/
theorem run_decodeFrame {d : Decoder} {pictureCodingType fuel index : ℕ} {slices : List CodedSlice}
    (hstart : StartsAt bytes ((index + 7) / 8) i)
    (h : SlicesAt (d.sequence.picture pictureCodingType d.fullPelForward d.forwardRSize) bytes i
      slices e) (behind : List UInt8)
    (hfits : d.current.Fits d.sequence.mbWidth d.sequence.mbHeight)
    (hfuel : 8 * bytes.length < fuel) (skipOutput : Bool) :
    ∃ frame, (decodeFrame fuel skipOutput pictureCodingType d).run (readerOf bytes behind index) =
        some ({ d with
          current := d.forward
          forward := frame
          frames := d.frames ++ [(frame, !skipOutput)] }, readerOf bytes behind (8 * e)) ∧
      Drawn d.sequence.mbWidth d.sequence.mbHeight
        (picturePixel (d.sequence.picture pictureCodingType d.fullPelForward d.forwardRSize)
          d.forward slices) d.current frame := by
  obtain ⟨-, code, hcode⟩ := hstart.exists_code
  have hskip := run_skipUserData behind hstart rfl (show _ < fuel + _ by omega) hcode
  obtain ⟨frame, hrun, hdrawn⟩ := run_decodeSlices rfl h hcode behind d.forward hfits hfuel
    (show _ < fuel + i by omega)
  refine ⟨frame, ?_, hdrawn⟩
  have hback : (readerOf bytes behind (8 * (e + 4))).rewind 32 = readerOf bytes behind (8 * e) := by
    simp only [BitReader.rewind, readerOf]
    congr 1
  simp only [decodeFrame, StateT.run_bind, hskip, Option.bind_eq_bind, Option.bind_some, hrun,
    ← hback]
  rfl

/-! ## Pictures without prediction -/

/-- In a picture of type I all macroblocks are intra-coded, and it does not matter what was sent
about vectors before. -/
theorem MacroblocksCode.of_intra {q : Sequence} {f : Bool} {r : Fin 7} {c : Coder}
    {mbs : List Macroblock} {words : List (List Bool)}
    (h : MacroblocksCode (q.picture 1 f r) c mbs words) (f' : Bool) (r' : Fin 7) :
    MacroblocksCode (q.picture 1 f' r') c mbs words ∧ ∀ mb ∈ mbs, mb.intra = true := by
  induction h with
  | nil => exact ⟨.nil, by simp⟩
  | @cons c mb rest bits restBits h hrest ih =>
      obtain ⟨hincrement, haddress, hinside, hskipped, htype, hintra, hpredicted, hscale, hvector,
        hpattern, hcbp, hblocks⟩ := h
      have hmb : mb.intra = true := by
        by_contra hnot
        have htwo : (1 : ℕ) = 2 := hpredicted (Bool.eq_false_iff.mpr hnot)
        omega
      rw [if_pos hmb] at hvector
      refine ⟨.cons ⟨hincrement, haddress, hinside, hskipped, htype, hintra, hpredicted, hscale,
        ?_, hpattern, hcbp, hblocks⟩ ih.1, List.forall_mem_cons.mpr ⟨hmb, ih.2⟩⟩
      rw [if_pos hmb]
      exact hvector

theorem slicePixel_of_intra (q : Sequence) {mbs : List Macroblock}
    (h : ∀ mb ∈ mbs, mb.intra = true) (f f' : Bool) (r r' : Fin 7) (forward : Frame) (x : Place)
    (old : UInt8) :
    slicePixel (q.picture 1 f r) forward mbs x old =
      slicePixel (q.picture 1 f' r') forward mbs x old := by
  cases hfind : mbs.find? fun mb => mb.address = x.address (q.picture 1 f r).mbWidth with
  | none =>
      have hfind' : (mbs.find? fun mb => mb.address = x.address (q.picture 1 f' r').mbWidth) =
        none := hfind
      rw [slicePixel, slicePixel, hfind, hfind']
      rfl
  | some mb =>
      have hfind' : (mbs.find? fun mb => mb.address = x.address (q.picture 1 f' r').mbWidth) =
        some mb := hfind
      have hmb := h mb (List.mem_of_find?_eq_some hfind)
      rw [slicePixel, slicePixel, hfind, hfind']
      simp only [Macroblock.pixel, hmb, if_true]
      rfl

theorem SlicesAt.of_intra {q : Sequence} {f : Bool} {r : Fin 7} {slices : List CodedSlice}
    (h : SlicesAt (q.picture 1 f r) bytes i slices e) (f' : Bool) (r' : Fin 7) :
    SlicesAt (q.picture 1 f' r') bytes i slices e ∧
      ∀ forward x old, picturePixel (q.picture 1 f' r') forward slices x old =
        picturePixel (q.picture 1 f r) forward slices x old := by
  induction h with
  | done hcode hend => exact ⟨.done hcode hend, fun _ _ _ => rfl⟩
  | @slice i e s rest hcode hvalid hahead hends hrest ih =>
      obtain ⟨hmacroblocks, hintra⟩ := hvalid.macroblocks.of_intra f' r'
      refine ⟨.slice hcode ⟨hvalid.number, hvalid.scale, hmacroblocks, hvalid.first⟩ hahead hends
        ih.1, fun forward x old => ?_⟩
      have hpixel := slicePixel_of_intra q hintra f' f r' r forward x old
      have hrest := ih.2 forward x (slicePixel (q.picture 1 f r) forward s.mbs x old)
      simp only [picturePixel, List.foldl_cons, hpixel] at hrest ⊢
      exact hrest

/-! ## The header -/

/-- What a header changes. -/
def Decoder.announce (d : Decoder) : PictureKind → Decoder
  | .intra => d
  | .predicted fullPelForward forwardRSize =>
      { d with fullPelForward := fullPelForward, forwardRSize := forwardRSize }

theorem run_advance_bind {α : Type} (count : ℕ) (next : Unit → Parser α) (r : BitReader) :
    (advance count >>= next).run r = (next ()).run (r.skip count) := rfl

theorem run_header {pic : CodedPicture} {r : BitReader} (h : r.Ahead pic.headerBits) (d : Decoder)
    (fuel : ℕ) (skipOutput : Bool) :
    (decodePicture fuel skipOutput d).run r =
      (decodeFrame fuel skipOutput pic.kind.type (d.announce pic.kind)).run
        (r.skip pic.headerBits.length) := by
  obtain ⟨-, h⟩ := BitReader.ahead_append.mp h
  obtain ⟨htype, h⟩ := BitReader.ahead_append.mp h
  obtain ⟨-, hkind⟩ := BitReader.ahead_append.mp h
  have htypelt : pic.kind.type < 2 ^ 3 := by cases pic.kind <;> simp [PictureKind.type]
  simp only [CodedPicture.headerBits, List.length_append, length_toBits, BitReader.skip_skip]
    at htype hkind ⊢
  rw [decodePicture, run_advance_bind, (reads_toBits (by decide) htypelt).run_bind htype,
    run_advance_bind, length_toBits, r.skip_skip, r.skip_skip]
  cases hpic : pic.kind with
  | intra =>
      show (if ((1 : ℕ) : ℤ) ≤ 0 ∨ 3 ≤ ((1 : ℕ) : ℤ) then pure d
        else if ((1 : ℕ) : ℤ) = 2 then _ else decodeFrame fuel skipOutput 1 d : Parser _).run _ = _
      rw [if_neg (by decide), if_neg (by decide)]
      rfl
  | predicted fullPelForward forwardRSize =>
      rw [hpic] at hkind
      obtain ⟨hfull, hcode⟩ := BitReader.ahead_append.mp hkind
      have hlt : forwardRSize.val + 1 < 2 ^ 3 := by omega
      have hsize : Fin.ofNat 7 (((forwardRSize.val + 1 : ℕ) : ℤ) - 1).toNat = forwardRSize := by
        refine Fin.ext ?_
        rw [Fin.val_ofNat,
          show (((forwardRSize.val + 1 : ℕ) : ℤ) - 1).toNat = forwardRSize by omega,
          Nat.mod_eq_of_lt forwardRSize.isLt]
      have hbool : decide (((fullPelForward.toNat : ℕ) : ℤ) ≠ 0) = fullPelForward := by
        cases fullPelForward <;> rfl
      rw [if_neg (by simp [PictureKind.type]), if_pos (by rfl), (reads_bit _).run_bind hfull,
        (reads_toBits (by decide) hlt).run_bind hcode]
      rw [if_neg (by omega), hsize, hbool, r.skip_skip, r.skip_skip]
      rfl

/-- **Pictures.**  A picture is decoded from its bytes, whatever lies behind them, into the frame
that was not the reference, and becomes the reference. -/
theorem run_decodePicture {d : Decoder} {pic : CodedPicture}
    (h : PictureAt d.sequence bytes pic i e) (behind : List UInt8)
    (hfits : d.current.Fits d.sequence.mbWidth d.sequence.mbHeight) {fuel : ℕ}
    (hfuel : 8 * bytes.length < fuel) (skipOutput : Bool) :
    ∃ d', (decodePicture fuel skipOutput d).run (readerOf bytes behind 0) =
        some (d', readerOf bytes behind (8 * e)) ∧
      d'.sequence = d.sequence ∧ d'.current = d.forward ∧
      d'.frames = d.frames ++ [(d'.forward, !skipOutput)] ∧
      Drawn d.sequence.mbWidth d.sequence.mbHeight
        (picturePixel (d.sequence.announced pic.kind) d.forward pic.slices)
        d.current d'.forward := by
  obtain ⟨hheader, hstart, hslices⟩ := h
  obtain ⟨hle, code, hcode⟩ := hstart.exists_code
  have hlt := hcode.lt
  obtain ⟨hown, hpixel⟩ : SlicesAt (d.sequence.picture pic.kind.type
        (d.announce pic.kind).fullPelForward (d.announce pic.kind).forwardRSize) bytes i pic.slices
          e ∧
      ∀ forward x old, picturePixel (d.sequence.picture pic.kind.type
        (d.announce pic.kind).fullPelForward (d.announce pic.kind).forwardRSize) forward pic.slices
          x old = picturePixel (d.sequence.announced pic.kind) forward pic.slices x old := by
    cases hpic : pic.kind with
    | intra =>
        rw [hpic] at hslices
        exact hslices.of_intra d.fullPelForward d.forwardRSize
    | predicted fullPelForward forwardRSize =>
        rw [hpic] at hslices
        exact ⟨hslices, fun _ _ _ => rfl⟩
  have hsame : (d.announce pic.kind).sequence = d.sequence ∧
      (d.announce pic.kind).current = d.current ∧ (d.announce pic.kind).forward = d.forward ∧
      (d.announce pic.kind).frames = d.frames := by
    cases pic.kind <;> exact ⟨rfl, rfl, rfl, rfl⟩
  obtain ⟨hsequence, hcurrent, hforward, hframes⟩ := hsame
  rw [← hsequence] at hown
  obtain ⟨frame, hrun, hdrawn⟩ := run_decodeFrame hstart hown behind
    (by rw [hcurrent, hsequence]; exact hfits) hfuel skipOutput
  have hahead := ahead_readerOf behind hheader (show _ ≤ 8 * bytes.length by omega)
  have hall := run_header hahead d fuel skipOutput
  rw [readerOf_skip, Nat.zero_add, hrun, hframes] at hall
  rw [hsequence, hforward, hcurrent] at hdrawn
  refine ⟨_, hall, hsequence, hforward, rfl, hdrawn.fits, fun x hx => ?_⟩
  rw [hdrawn.pixel x hx]
  congr 1
  funext old
  exact hpixel d.forward x old

/-- Where the type is zero, no picture begins. -/
theorem run_decodePicture_zero {r : BitReader} (h : (r.skip 10).Ahead (toBits 3 0)) (d : Decoder)
    (fuel : ℕ) (skipOutput : Bool) :
    (decodePicture fuel skipOutput d).run r = some (d, r.skip 29) := by
  rw [decodePicture, run_advance_bind, (reads_toBits (by decide) (by decide)).run_bind h,
    run_advance_bind, if_pos (.inl le_rfl)]
  rfl

/-- **A second call.**  Where the decoder has stopped, no picture begins. -/
theorem run_decodePicture_again (h : CodeAt bytes e code) (behind : List UInt8) (d : Decoder)
    (fuel : ℕ) (skipOutput : Bool) :
    (decodePicture fuel skipOutput d).run (readerOf bytes behind (8 * e)) =
      some (d, readerOf bytes behind (8 * e + 29)) := by
  have hlt := h.lt
  have htype : (readerOf bytes behind (8 * e + 10)).Ahead (toBits 3 0) := by
    refine ahead_readerOf behind ?_ (by rw [length_toBits]; omega)
    rw [BitReader.Ahead, BitReader.ahead, length_toBits, readerOf, List.append_nil]
    have hfield := bitField_byte bytes (e + 1) (show 2 + 3 ≤ 8 by decide)
    rw [List.getD_eq_getElem?_getD, h.2.1] at hfield
    exact hfield
  rw [← readerOf_skip] at htype
  rw [run_decodePicture_zero htype d fuel skipOutput, readerOf_skip]

end

/-! ## Pictures that are drawn completely -/

/-- The type of an intra-coded macroblock never announces a pattern. -/
theorem pattern_of_intra {p : Picture} {word : List Bool} {flags : ℕ}
    (h : Codeword p.typeTable word flags) (hintra : flags.testBit 0 = true) :
    flags.testBit 1 = false := by
  have hleaf : (flags : ℤ).toNat.testBit 0 = true → (flags : ℤ).toNat.testBit 1 = false := by
    rcases h with ⟨-, hfollow⟩
    unfold Picture.typeTable at hfollow
    split at hfollow
    · exact follow_forall (P := fun v => v.toNat.testBit 0 = true → v.toNat.testBit 1 = false)
        [0, 3] (by decide +kernel) (by decide) hfollow
    · exact follow_forall (P := fun v => v.toNat.testBit 0 = true → v.toNat.testBit 1 = false)
        [0, 3, 9, 15, 21, 24, 27] (by decide +kernel) (by decide) hfollow
  exact hleaf hintra

theorem MacroblockCode.blocks_of_intra {p : Picture} {c : Coder} {mb : Macroblock}
    {bits : List Bool} (h : MacroblockCode p c mb bits) (hintra : mb.intra = true) {block : ℕ}
    (hblock : block < 6) : (mb.blocks block).isSome = true := by
  obtain ⟨-, -, -, -, htype, hflags, -, -, -, hpattern, hcbp, -⟩ := h
  rw [pattern_of_intra htype (hflags.trans hintra), hintra] at hpattern
  rw [← hcbp block hblock]
  cases hpattern
  interval_cases block <;> rfl

theorem MacroblocksCode.blocks_of_intra {p : Picture} {c : Coder} {mbs : List Macroblock}
    {words : List (List Bool)} (h : MacroblocksCode p c mbs words) :
    ∀ mb ∈ mbs, mb.intra = true → ∀ block < 6, (mb.blocks block).isSome = true := by
  induction h with
  | nil => simp
  | cons h hrest ih =>
      exact List.forall_mem_cons.mpr ⟨fun hintra block => h.blocks_of_intra hintra, ih⟩

/-- The address is between the first macroblock of a slice and the last. -/
def CodedSlice.Covers (s : CodedSlice) (address : ℕ) : Prop :=
  (∃ mb ∈ s.mbs, mb.address ≤ address) ∧ ∃ mb ∈ s.mbs, address ≤ mb.address

instance (s : CodedSlice) (address : ℕ) : Decidable (s.Covers address) :=
  inferInstanceAs (Decidable (_ ∧ _))

/-- What a slice makes of the pixels it covers does not depend on what was there. -/
theorem slicePixel_of_covers {p : Picture} {c : Coder} {s : CodedSlice} {x : Place}
    (h : MacroblocksCode p c s.mbs s.words) (hcovers : s.Covers (x.address p.mbWidth))
    (forward : Frame) (old old' : UInt8) :
    slicePixel p forward s.mbs x old = slicePixel p forward s.mbs x old' := by
  unfold slicePixel
  cases hfind : s.mbs.find? fun mb => mb.address = x.address p.mbWidth with
  | none =>
      have hne : ∀ mb ∈ s.mbs, mb.address ≠ x.address p.mbWidth := by
        simpa using List.find?_eq_none.mp hfind
      obtain ⟨⟨mb, hmem, hle⟩, mb', hmem', hle'⟩ := hcovers
      have hbetween : (∃ mb ∈ s.mbs, mb.address < x.address p.mbWidth) ∧
          ∃ mb ∈ s.mbs, x.address p.mbWidth < mb.address :=
        ⟨⟨mb, hmem, lt_of_le_of_ne hle (hne mb hmem)⟩, mb', hmem',
          lt_of_le_of_ne hle' (hne mb' hmem').symm⟩
      dsimp only
      rw [if_pos hbetween, if_pos hbetween]
  | some mb =>
      have hblocks := h.blocks_of_intra mb (List.mem_of_find?_eq_some hfind)
      dsimp only [Macroblock.pixel]
      cases hintra : mb.intra with
      | false => rfl
      | true =>
          obtain ⟨b, hb⟩ := Option.isSome_iff_exists.mp (hblocks hintra x.block x.block.isLt)
          rw [hb]
          rfl

theorem picturePixel_of_covers {p : Picture} {bytes : List UInt8} {i e : ℕ}
    {slices : List CodedSlice} {x : Place} (h : SlicesAt p bytes i slices e)
    (hcovers : ∃ s ∈ slices, s.Covers (x.address p.mbWidth)) (forward : Frame)
    (old old' : UInt8) :
    picturePixel p forward slices x old = picturePixel p forward slices x old' := by
  induction h generalizing old old' with
  | done => simp at hcovers
  | slice hcode hvalid hahead hends hrest ih =>
      rw [List.exists_mem_cons_iff] at hcovers
      simp only [picturePixel, List.foldl_cons]
      rcases hcovers with hhere | hlater
      · rw [slicePixel_of_covers hvalid.macroblocks hhere forward old old']
      · exact ih hlater _ _

/-- Every macroblock is in a slice, or skipped within one. -/
def CodedPicture.Complete (q : Sequence) (pic : CodedPicture) : Prop :=
  ∀ address < q.mbWidth * q.mbHeight, ∃ s ∈ pic.slices, s.Covers address

instance (q : Sequence) (pic : CodedPicture) : Decidable (pic.Complete q) :=
  inferInstanceAs (Decidable (∀ _ < _, _))

theorem Place.address_lt {mbWidth mbHeight : ℕ} {x : Place} (h : x.Valid mbWidth mbHeight) :
    x.address mbWidth < mbWidth * mbHeight := by
  obtain ⟨hcol, hrow⟩ := h
  calc x.mbRow * mbWidth + x.mbCol < x.mbRow * mbWidth + mbWidth := Nat.add_lt_add_left hcol _
    _ = mbWidth * (x.mbRow + 1) := by ring
    _ ≤ mbWidth * mbHeight := Nat.mul_le_mul_left _ hrow

/-- A frame shows a picture, next to the reference. -/
structure Shows (q : Sequence) (reference : Frame) (pic : CodedPicture) (frame : Frame) :
    Prop where
  fits : frame.Fits q.mbWidth q.mbHeight
  pixel : ∀ x, x.Valid q.mbWidth q.mbHeight → frame.at q.mbWidth x =
    some (picturePixel (q.announced pic.kind) reference pic.slices x 0)

/-- A complete picture does not depend on the frame it is drawn into. -/
theorem Drawn.shows {q : Sequence} {bytes : List UInt8} {pic : CodedPicture} {i e : ℕ}
    {reference frame result : Frame} (hpicture : PictureAt q bytes pic i e)
    (hcomplete : pic.Complete q) (hfits : frame.Fits q.mbWidth q.mbHeight)
    (h : Drawn q.mbWidth q.mbHeight (picturePixel (q.announced pic.kind) reference pic.slices)
      frame result) : Shows q reference pic result where
  fits := h.fits
  pixel x hx := by
    obtain ⟨old, hold⟩ := hfits.exists_at hx
    have hwidth : (q.announced pic.kind).mbWidth = q.mbWidth := by cases pic.kind <;> rfl
    have hcovers := hcomplete _ (Place.address_lt hx)
    rw [← hwidth] at hcovers
    rw [h.pixel x hx, hold, Option.map_some,
      picturePixel_of_covers hpicture.slices hcovers reference old 0]

end SsmIaas.Player
