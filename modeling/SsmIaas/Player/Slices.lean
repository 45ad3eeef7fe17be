import SsmIaas.Player.MotionVectors

/-!
# Macroblocks and slices

`decodeSlice`, `decodeMacroblock` and `decodeMotionVectors` of `jsmpg.js`.  The decoder goes
from macroblock to macroblock, of which some are skipped, and predicts addresses, motion
vectors and first coefficients from what came before.  What it draws is kept as a list: copies
from the picture before and blocks.

A slice as it is meant has no predictions: every macroblock has its address, its vector and
its blocks.  `MacroblockCode` says which bits stand for a macroblock, next to what was sent
before.  `run_decodeSlice`: whatever bits an encoder has chosen for a slice, the decoder draws
the slice.
-/

namespace SsmIaas.Player

open Lib

/-- The fields of the player that stay as they are within a picture. -/
structure Picture where
  mbWidth : ℕ
  mbSize : ℕ
  pictureCodingType : ℕ
  fullPelForward : Bool
  /-- one less than `forwardFCode`, which has three bits -/
  forwardRSize : ℕ
  forwardRSize_le : forwardRSize ≤ 6
  intraQuantMatrix : List ℤ
  nonIntraQuantMatrix : List ℤ

/-- `motionFwH`, `motionFwHPrev`, `motionFwV` and `motionFwVPrev`. -/
structure Motion where
  fwH : ℤ
  fwHPrev : ℤ
  fwV : ℤ
  fwVPrev : ℤ
  deriving DecidableEq, Repr

/-- What is drawn at a place given by `mbRow` and `mbCol`. -/
inductive Draw
  /-- `copyMacroblock` from the picture before -/
  | copy (mbRow mbCol motionH motionV : ℤ)
  /-- a block with its coefficients: the inverse transform, and a copy or an addition -/
  | block (mbRow mbCol : ℤ) (block : ℕ) (intra : Bool) (n : ℕ) (data : BlockData)

structure SliceState where
  sliceBegin : Bool
  macroblockAddress : ℤ
  motion : Motion
  predictors : Predictors
  quantizerScale : ℤ
  draws : List Draw

def stillMotion : Motion := ⟨0, 0, 0, 0⟩

def resetPredictors : Predictors := ⟨128, 128, 128⟩

namespace Picture

variable (p : Picture)

/-- `MACROBLOCK_TYPE_TABLES[this.pictureCodingType]`; pictures of other types are skipped. -/
def typeTable : List ℤ := if p.pictureCodingType = 1 then macroblockTypeI else macroblockTypeP

def copyAt (address motionH motionV : ℤ) : Draw :=
  .copy (address / p.mbWidth) (address % p.mbWidth) motionH motionV

def blockAt (address : ℤ) (block : ℕ) (intra : Bool) (result : ℕ × BlockData) : Draw :=
  .block (address / p.mbWidth) (address % p.mbWidth) block intra result.1 result.2

def quantizer (intra : Bool) (quantizerScale : ℤ) : Quantizer :=
  ⟨intra, quantizerScale, if intra then p.intraQuantMatrix else p.nonIntraQuantMatrix⟩

/-- A vector in half pixels. -/
def halfPel (vector : ℤ) : ℤ := if p.fullPelForward then 2 * vector else vector

end Picture

/-! ## The decoder -/

/-- The first code that is no stuffing, `while (t == 34)`. -/
def skipStuffing : ℕ → Parser ℤ
  | 0 => failure
  | fuel + 1 => do
      let t ← readCode macroblockAddressIncrement
      if t = 34 then skipStuffing fuel else return t

/-- Escapes, `while (t == 35)`, and the last part. -/
def addEscapes : ℕ → ℤ → ℤ → Parser ℤ
  | 0, _, _ => failure
  | fuel + 1, increment, t => do
      if t = 35 then
        let t ← readCode macroblockAddressIncrement
        addEscapes fuel (increment + 33) t
      else return increment + t

def readIncrement (fuel : ℕ) : Parser ℤ := do
  let t ← skipStuffing fuel
  addEscapes fuel 0 t

def decodeMotionVectors (p : Picture) (macroblockMotFw : Bool) (m : Motion) : Parser Motion := do
  if macroblockMotFw then
    let h ← decodeMotionVector p.forwardRSize m.fwHPrev
    let v ← decodeMotionVector p.forwardRSize m.fwVPrev
    return ⟨p.halfPel h, h, p.halfPel v, v⟩
  else if p.pictureCodingType = 2 then return stillMotion
  else return m

/-- The macroblocks up to the one that was sent, which is not the first of its slice. -/
def predictSkipped (p : Picture) (s : SliceState) (increment : ℤ) : SliceState :=
  let s := if increment > 1 then
      { s with
        predictors := resetPredictors
        motion := if p.pictureCodingType = 2 then stillMotion else s.motion }
    else s
  let s := (List.range (increment - 1).toNat).foldl (fun s _ =>
    let address := s.macroblockAddress + 1
    { s with
      macroblockAddress := address
      draws := s.draws ++ [p.copyAt address s.motion.fwH s.motion.fwV] }) s
  { s with macroblockAddress := s.macroblockAddress + 1 }

/-- The loop over the six blocks. -/
def decodeBlocks (p : Picture) (address : ℤ) (q : Quantizer) (cbp fuel : ℕ) :
    List ℕ → Predictors → List Draw → Parser (Predictors × List Draw)
  | [], predictors, draws => return (predictors, draws)
  | block :: rest, predictors, draws => do
      if cbp.testBit (5 - block) then
        let (predictors, result) ← decodeBlock q predictors block fuel
        decodeBlocks p address q cbp fuel rest predictors
          (draws ++ [p.blockAt address block q.intra result])
      else decodeBlocks p address q cbp fuel rest predictors draws

/-- The motion vectors and the prediction of a macroblock that is not intra-coded. -/
def decodePrediction (p : Picture) (intra motFw : Bool) (s : SliceState) : Parser SliceState := do
  if intra then return { s with motion := stillMotion }
  else
    let motion ← decodeMotionVectors p motFw s.motion
    return { s with
      predictors := resetPredictors
      motion := motion
      draws := s.draws ++ [p.copyAt s.macroblockAddress motion.fwH motion.fwV] }

def readScale (flag : Bool) (quantizerScale : ℤ) : Parser ℤ :=
  if flag then getBits 5 else pure quantizerScale

/-- Which blocks there are; an intra-coded macroblock has all. -/
def readPattern (flag intra : Bool) : Parser ℤ :=
  if flag then readCode codeBlockPattern else pure (if intra then 0x3f else 0)

/-- `decodeMacroblock ()` once the address is known. -/
def decodeContent (p : Picture) (fuel : ℕ) (s : SliceState) : Parser SliceState := do
  let macroblockType ← readCode p.typeTable
  let flags := macroblockType.toNat
  let intra := flags.testBit 0
  let quantizerScale ← readScale (flags.testBit 4) s.quantizerScale
  let s ← decodePrediction p intra (flags.testBit 3) { s with quantizerScale := quantizerScale }
  let cbp ← readPattern (flags.testBit 1) intra
  let (predictors, draws) ← decodeBlocks p s.macroblockAddress (p.quantizer intra s.quantizerScale)
    cbp.toNat fuel (List.range 6) s.predictors s.draws
  return { s with predictors := predictors, draws := draws }

def decodeMacroblock (p : Picture) (fuel : ℕ) (s : SliceState) : Parser SliceState := do
  let increment ← readIncrement fuel
  if s.sliceBegin then
    decodeContent p fuel
      { s with sliceBegin := false, macroblockAddress := s.macroblockAddress + increment }
  else if s.macroblockAddress + increment ≥ p.mbSize then return s
  else decodeContent p fuel (predictSkipped p s increment)

def BitReader.nextBytesAreStartCode (r : BitReader) : Bool :=
  let i := (r.index + 7) / 8
  i ≥ r.writePos ||
    (r.bytes[i]? == some 0 && r.bytes[i + 1]? == some 0 && r.bytes[i + 2]? == some 1)

/-- The loop over the macroblocks of a slice. -/
def decodeMacroblocks (p : Picture) : ℕ → SliceState → Parser SliceState
  | 0, _ => failure
  | fuel + 1, s => do
      let s ← decodeMacroblock p fuel s
      if (← get).nextBytesAreStartCode then return s else decodeMacroblocks p fuel s

/-- `while (this.buffer.getBits (1))`: extra information. -/
def skipExtra : ℕ → Parser Unit
  | 0 => failure
  | fuel + 1 => do
      let bit ← getBits 1
      if bit ≠ 0 then
        advance 8
        skipExtra fuel
      else return ()

def decodeSlice (p : Picture) (slice fuel : ℕ) : Parser SliceState := do
  let quantizerScale ← getBits 5
  skipExtra fuel
  decodeMacroblocks p fuel
    ⟨true, ((slice : ℤ) - 1) * p.mbWidth - 1, stillMotion, resetPredictors, quantizerScale, []⟩

/-! ## Codes of addresses -/

/-- The bits of an increment: any number of escapes, each for 33, and the rest. -/
inductive EscapeCode : ℕ → List Bool → Prop
  | last {word : List Bool} {increment : ℕ} (hlt : 0 < increment ∧ increment ≤ 33)
      (h : Codeword macroblockAddressIncrement word increment) : EscapeCode increment word
  | escape {word bits : List Bool} {increment : ℕ}
      (h : Codeword macroblockAddressIncrement word 35) (hrest : EscapeCode increment bits) :
      EscapeCode (increment + 33) (word ++ bits)

/-- The bits of an increment behind any amount of stuffing. -/
inductive IncrementCode : ℕ → List Bool → Prop
  | code {increment : ℕ} {bits : List Bool} (h : EscapeCode increment bits) :
      IncrementCode increment bits
  | stuffing {word bits : List Bool} {increment : ℕ}
      (h : Codeword macroblockAddressIncrement word 34) (hrest : IncrementCode increment bits) :
      IncrementCode increment (word ++ bits)

theorem EscapeCode.pos {increment : ℕ} {bits : List Bool} (h : EscapeCode increment bits) :
    0 < increment ∧ 0 < bits.length := by
  cases h with
  | last hlt h => exact ⟨hlt.1, h.length_pos⟩
  | escape h hrest =>
      have hpos := h.length_pos
      rw [List.length_append]
      omega

theorem IncrementCode.pos {increment : ℕ} {bits : List Bool} (h : IncrementCode increment bits) :
    0 < increment ∧ 0 < bits.length := by
  induction h with
  | code h => exact h.pos
  | stuffing h hrest ih =>
      rw [List.length_append]
      omega

/-- An increment without stuffing: its first code, and what is added behind it. -/
theorem EscapeCode.reads {increment : ℕ} {bits : List Bool} (h : EscapeCode increment bits) :
    ∃ word t rest, bits = word ++ rest ∧ Codeword macroblockAddressIncrement word t ∧ t ≠ 34 ∧
      ∀ fuel ≥ bits.length, ∀ acc, Reads (addEscapes fuel acc t) rest (acc + increment) := by
  induction h with
  | @last word increment hlt h =>
      refine ⟨word, increment, [], by simp, h, by omega, fun fuel hfuel acc => ?_⟩
      have hpos := h.length_pos
      obtain ⟨fuel, rfl⟩ := Nat.exists_eq_add_of_lt (show 0 < fuel by omega)
      rw [addEscapes, if_neg (by omega)]
      exact reads_pure _
  | @escape word bits increment h hrest ih =>
      obtain ⟨next, t, rest, rfl, hnext, -, hreads⟩ := ih
      refine ⟨word, 35, next ++ rest, rfl, h, by decide, fun fuel hfuel acc => ?_⟩
      have hpos := h.length_pos
      rw [List.length_append] at hfuel
      obtain ⟨fuel, rfl⟩ := Nat.exists_eq_add_of_lt (show 0 < fuel by omega)
      rw [addEscapes, if_pos rfl]
      refine (reads_readCode hnext).bind ?_
      have hrest := hreads (0 + fuel) (by omega) (acc + 33)
      rwa [show acc + 33 + (increment : ℤ) = acc + ((increment + 33 : ℕ) : ℤ) by push_cast; ring]
        at hrest

theorem IncrementCode.reads {increment : ℕ} {bits : List Bool} (h : IncrementCode increment bits)
    {fuel : ℕ} (hfuel : bits.length ≤ fuel) : Reads (readIncrement fuel) bits increment := by
  have hsplit : ∀ fuel ≥ bits.length, ∃ front t back, bits = front ++ back ∧
      Reads (skipStuffing fuel) front t ∧
      ∀ fuel ≥ bits.length, Reads (addEscapes fuel 0 t) back increment := by
    clear hfuel
    induction h with
    | @code increment bits h =>
        intro fuel hfuel
        obtain ⟨word, t, rest, hbits, hword, ht, hreads⟩ := h.reads
        have hpos := h.pos
        obtain ⟨fuel, rfl⟩ := Nat.exists_eq_add_of_lt (show 0 < fuel by omega)
        refine ⟨word, t, rest, hbits, ?_, fun fuel hfuel => ?_⟩
        · rw [skipStuffing]
          refine (reads_readCode hword).bind_nil ?_
          rw [if_neg ht]
          exact reads_pure _
        · simpa using hreads fuel hfuel 0
    | @stuffing word bits increment h hrest ih =>
        intro fuel hfuel
        have hpos := h.length_pos
        rw [List.length_append] at hfuel
        obtain ⟨fuel, rfl⟩ := Nat.exists_eq_add_of_lt (show 0 < fuel by omega)
        obtain ⟨front, t, back, hbits, hfront, hback⟩ := ih (0 + fuel) (by omega)
        refine ⟨word ++ front, t, back, by rw [hbits, List.append_assoc], ?_, fun fuel hfuel => ?_⟩
        · rw [skipStuffing]
          refine (reads_readCode h).bind ?_
          rw [if_pos rfl]
          exact hfront
        · exact hback fuel (by rw [List.length_append] at hfuel; omega)
  obtain ⟨front, t, back, hbits, hfront, hback⟩ := hsplit fuel hfuel
  rw [hbits]
  exact hfront.bind (hback fuel hfuel)

/-! ## Slices as they are meant -/

/-- A macroblock that is sent.  The vector is in the unit of the picture; without one, a
macroblock that is not intra-coded is predicted from the same place. -/
structure Macroblock where
  address : ℕ
  scale : ℕ
  intra : Bool
  vector : Option (ℤ × ℤ)
  blocks : ℕ → Option Block

/-- The prediction of a macroblock, and then its blocks. -/
def Macroblock.draws (p : Picture) (mb : Macroblock) : List Draw :=
  (if mb.intra then []
    else [p.copyAt mb.address (p.halfPel (mb.vector.getD (0, 0)).1)
      (p.halfPel (mb.vector.getD (0, 0)).2)]) ++
  (List.range 6).flatMap fun block =>
    ((mb.blocks block).map fun b =>
      p.blockAt mb.address block mb.intra (b.data (p.quantizer mb.intra mb.scale))).toList

/-- Macroblocks that are not sent are copied from the same place. -/
def skippedDraws (p : Picture) (last address : ℤ) : List Draw :=
  (List.range (address - last - 1).toNat).map fun (i : ℕ) => p.copyAt (last + 1 + i) 0 0

/-- The macroblocks of a slice, behind the address of the last. -/
def macroblocksDraws (p : Picture) (last : ℤ) : List Macroblock → List Draw
  | [] => []
  | mb :: rest =>
      skippedDraws p last mb.address ++ mb.draws p ++ macroblocksDraws p mb.address rest

/-- The macroblocks of a slice; nothing is drawn in front of the first. -/
def sliceDraws (p : Picture) : List Macroblock → List Draw
  | [] => []
  | mb :: rest => mb.draws p ++ macroblocksDraws p mb.address rest

/-! ## Codes of macroblocks -/

/-- What a decoder knows from the macroblocks before. -/
structure Coder where
  first : Bool
  address : ℤ
  motionH : ℤ
  motionV : ℤ
  predictors : Predictors
  scale : ℤ

/-- Skipped macroblocks, if there are any, reset the predictions. -/
def Coder.skipTo (c : Coder) (address : ℤ) : Coder :=
  if c.first = false ∧ c.address + 1 < address then
    { c with motionH := 0, motionV := 0, predictors := resetPredictors }
  else c

/-- The predictions behind some blocks. -/
def predictAll (intra : Bool) (blocks : ℕ → Option Block) : List ℕ → Predictors → Predictors
  | [], predictors => predictors
  | block :: rest, predictors =>
      match blocks block with
      | none => predictAll intra blocks rest predictors
      | some b => predictAll intra blocks rest (b.predict intra block predictors)

/-- The predictors when the blocks of a macroblock begin. -/
def Coder.blockPredictors (c : Coder) (intra : Bool) : Predictors :=
  if intra then c.predictors else resetPredictors

def Coder.next (c : Coder) (mb : Macroblock) : Coder where
  first := false
  address := mb.address
  motionH := if mb.intra then 0 else (mb.vector.getD (0, 0)).1
  motionV := if mb.intra then 0 else (mb.vector.getD (0, 0)).2
  predictors := predictAll mb.intra mb.blocks (List.range 6)
    ((c.skipTo mb.address).blockPredictors mb.intra)
  scale := mb.scale

/-- The scale is sent if the type says so. -/
inductive ScaleCode (current : ℤ) : Bool → ℕ → List Bool → Prop
  | kept {scale : ℕ} (h : (scale : ℤ) = current) : ScaleCode current false scale []
  | sent {scale : ℕ} (h : scale < 32) : ScaleCode current true scale (toBits 5 scale)

/-- So is the vector, as differences to the last. -/
inductive VectorCode (p : Picture) (c : Coder) : Bool → Option (ℤ × ℤ) → List Bool → Prop
  | still : VectorCode p c false none []
  | sent {h v dH dV : ℤ} {bitsH bitsV : List Bool} (hrange : InRange p.forwardRSize h)
      (hcode : MotionCode p.forwardRSize dH bitsH) (hleads : LeadsTo p.forwardRSize c.motionH dH h)
      (vrange : InRange p.forwardRSize v) (vcode : MotionCode p.forwardRSize dV bitsV)
      (vleads : LeadsTo p.forwardRSize c.motionV dV v) :
      VectorCode p c true (some (h, v)) (bitsH ++ bitsV)

/-- And which blocks there are. -/
inductive PatternCode (intra : Bool) : Bool → ℕ → List Bool → Prop
  | implied : PatternCode intra false (if intra then 0x3f else 0) []
  | sent {word : List Bool} {cbp : ℕ} (h : Codeword codeBlockPattern word cbp) :
      PatternCode intra true cbp word

inductive BlocksCode (intra : Bool) (blocks : ℕ → Option Block) :
    List ℕ → Predictors → List Bool → Prop
  | nil {predictors : Predictors} : BlocksCode intra blocks [] predictors []
  | skip {block : ℕ} {rest : List ℕ} {predictors : Predictors} {bits : List Bool}
      (h : blocks block = none) (hrest : BlocksCode intra blocks rest predictors bits) :
      BlocksCode intra blocks (block :: rest) predictors bits
  | coded {block : ℕ} {rest : List ℕ} {predictors : Predictors} {b : Block}
      {bits restBits : List Bool} (h : blocks block = some b)
      (hcode : BlockCode predictors block intra b bits)
      (hrest : BlocksCode intra blocks rest (b.predict intra block predictors) restBits) :
      BlocksCode intra blocks (block :: rest) predictors (bits ++ restBits)

/-- The bits of a macroblock.  Only pictures of type P have predicted and skipped
macroblocks. -/
inductive MacroblockCode (p : Picture) (c : Coder) (mb : Macroblock) : List Bool → Prop
  | mk {increment flags cbp : ℕ}
      {incrementBits typeBits scaleBits vectorBits patternBits blockBits : List Bool}
      (hincrement : IncrementCode increment incrementBits)
      (haddress : (mb.address : ℤ) = c.address + increment)
      (hinside : c.first = false → mb.address < p.mbSize)
      (hskipped : c.first = false → increment ≠ 1 → p.pictureCodingType = 2)
      (htype : Codeword p.typeTable typeBits flags) (hintra : flags.testBit 0 = mb.intra)
      (hpredicted : mb.intra = false → p.pictureCodingType = 2)
      (hscale : ScaleCode c.scale (flags.testBit 4) mb.scale scaleBits)
      (hvector : if mb.intra then vectorBits = []
        else VectorCode p (c.skipTo mb.address) (flags.testBit 3) mb.vector vectorBits)
      (hpattern : PatternCode mb.intra (flags.testBit 1) cbp patternBits)
      (hcbp : ∀ block < 6, cbp.testBit (5 - block) = (mb.blocks block).isSome)
      (hblocks : BlocksCode mb.intra mb.blocks (List.range 6)
        ((c.skipTo mb.address).blockPredictors mb.intra) blockBits) :
      MacroblockCode p c mb (incrementBits ++ (typeBits ++ (scaleBits ++ (vectorBits ++
        (patternBits ++ blockBits)))))

/-! ## Reading a macroblock -/

/-- The decoder knows what it should. -/
structure Agrees (c : Coder) (s : SliceState) : Prop where
  sliceBegin : s.sliceBegin = c.first
  address : s.macroblockAddress = c.address
  motionH : s.motion.fwHPrev = c.motionH
  motionV : s.motion.fwVPrev = c.motionV
  predictors : s.predictors = c.predictors
  scale : s.quantizerScale = c.scale

/-- The blocks that are drawn. -/
def blocksDraws (p : Picture) (address : ℤ) (q : Quantizer) (blocks : ℕ → Option Block)
    (numbers : List ℕ) : List Draw :=
  numbers.flatMap fun block =>
    ((blocks block).map fun b => p.blockAt address block q.intra (b.data q)).toList

theorem reads_decodeBlocks {p : Picture} {address : ℤ} {q : Quantizer} {cbp : ℕ}
    {blocks : ℕ → Option Block} {numbers : List ℕ} {predictors : Predictors} {bits : List Bool}
    (h : BlocksCode q.intra blocks numbers predictors bits)
    (hcbp : ∀ block ∈ numbers, cbp.testBit (5 - block) = (blocks block).isSome) {fuel : ℕ}
    (hfuel : bits.length ≤ fuel) (draws : List Draw) :
    Reads (decodeBlocks p address q cbp fuel numbers predictors draws) bits
      (predictAll q.intra blocks numbers predictors,
        draws ++ blocksDraws p address q blocks numbers) := by
  induction h generalizing draws with
  | nil =>
      rw [decodeBlocks, blocksDraws, List.flatMap_nil, List.append_nil]
      exact reads_pure _
  | @skip block rest predictors bits h hrest ih =>
      obtain ⟨hblock, hcbp⟩ := List.forall_mem_cons.mp hcbp
      rw [h] at hblock
      have hread := ih hcbp hfuel draws
      rw [decodeBlocks, if_neg (by simpa using hblock), predictAll, blocksDraws, List.flatMap_cons,
        h]
      exact hread
  | @coded block rest predictors b bits restBits h hcode hrest ih =>
      obtain ⟨hblock, hcbp⟩ := List.forall_mem_cons.mp hcbp
      rw [h] at hblock
      rw [List.length_append] at hfuel
      have hread := ih hcbp (by omega) (draws ++ [p.blockAt address block q.intra (b.data q)])
      have hlt := hcode.length_lt
      rw [decodeBlocks, if_pos (by simpa using hblock), predictAll, blocksDraws,
        List.flatMap_cons, h]
      refine (reads_decodeBlock hcode (by omega)).bind ?_
      rw [List.append_assoc] at hread
      exact hread

theorem reads_decodeMotionVectors {p : Picture} {c : Coder} {motFw : Bool}
    {vector : Option (ℤ × ℤ)} {bits : List Bool} (h : VectorCode p c motFw vector bits) {m : Motion}
    (hH : m.fwHPrev = c.motionH) (hV : m.fwVPrev = c.motionV) (hp : p.pictureCodingType = 2) :
    Reads (decodeMotionVectors p motFw m) bits
      ⟨p.halfPel (vector.getD (0, 0)).1, (vector.getD (0, 0)).1,
        p.halfPel (vector.getD (0, 0)).2, (vector.getD (0, 0)).2⟩ := by
  rw [decodeMotionVectors]
  cases h with
  | still =>
      have hzero : p.halfPel 0 = 0 := by simp [Picture.halfPel]
      rw [if_neg (by decide), if_pos hp, Option.getD_none, hzero]
      exact reads_pure _
  | sent hrange hcode hleads vrange vcode vleads =>
      rw [if_pos rfl, hH, hV]
      exact (reads_decodeMotionVector hcode p.forwardRSize_le hrange hleads).bind
        ((reads_decodeMotionVector vcode p.forwardRSize_le vrange vleads).bind_nil (reads_pure _))

/-- **Motion vectors.**  In a picture of any range, every vector in it can be sent behind every
other, and is read back as it is. -/
theorem motion_vectors_round_trip (p : Picture) (m : Motion) {h v : ℤ}
    (hprev : InRange p.forwardRSize m.fwHPrev) (vprev : InRange p.forwardRSize m.fwVPrev)
    (hrange : InRange p.forwardRSize h) (vrange : InRange p.forwardRSize v) :
    ∃ bits, Reads (decodeMotionVectors p true m) bits ⟨p.halfPel h, h, p.halfPel v, v⟩ := by
  obtain ⟨dH, bitsH, hcode, hleads⟩ := exists_leadsTo hprev hrange
  obtain ⟨dV, bitsV, vcode, vleads⟩ := exists_leadsTo vprev vrange
  refine ⟨bitsH ++ bitsV, ?_⟩
  rw [decodeMotionVectors, if_pos rfl]
  exact (reads_decodeMotionVector hcode p.forwardRSize_le hrange hleads).bind
    ((reads_decodeMotionVector vcode p.forwardRSize_le vrange vleads).bind_nil (reads_pure _))

/-- From one end of the range to the other. -/
theorem motion_vectors_round_trip_wrapped :
    let p : Picture := ⟨2, 4, 2, false, 0, by decide, List.replicate 64 16, List.replicate 64 16⟩
    ∃ bits, Reads (decodeMotionVectors p true ⟨15, 15, -16, -16⟩) bits ⟨-16, -16, 15, 15⟩ := by
  intro p
  have hread := motion_vectors_round_trip p ⟨15, 15, -16, -16⟩ (h := -16) (v := 15) (by decide)
    (by decide) (by decide) (by decide)
  exact hread

/-- The decoder has come to a macroblock that is sent. -/
structure Entered (c : Coder) (mb : Macroblock) (s : SliceState) : Prop where
  sliceBegin : s.sliceBegin = false
  address : s.macroblockAddress = mb.address
  motionH : s.motion.fwHPrev = (c.skipTo mb.address).motionH
  motionV : s.motion.fwVPrev = (c.skipTo mb.address).motionV
  predictors : s.predictors = (c.skipTo mb.address).predictors
  scale : s.quantizerScale = c.scale

/-- The copies of skipped macroblocks. -/
theorem foldl_skipped (p : Picture) (s : SliceState) (n : ℕ) :
    (List.range n).foldl (fun s _ =>
      let address := s.macroblockAddress + 1
      { s with
        macroblockAddress := address
        draws := s.draws ++ [p.copyAt address s.motion.fwH s.motion.fwV] }) s =
      { s with
        macroblockAddress := s.macroblockAddress + n
        draws := s.draws ++ (List.range n).map fun (i : ℕ) =>
          p.copyAt (s.macroblockAddress + 1 + i) s.motion.fwH s.motion.fwV } := by
  induction n with
  | zero => simp
  | succ n ih =>
      rw [List.range_succ, List.foldl_append, ih, List.foldl_cons, List.foldl_nil, List.map_append,
        List.map_singleton]
      dsimp only
      congr 1
      · push_cast
        ring
      · rw [List.append_assoc]
        congr 3
        ring_nf

theorem entered_predictSkipped {p : Picture} {c : Coder} {mb : Macroblock} {s : SliceState}
    (h : Agrees c s) (hfirst : c.first = false) {increment : ℕ} (hpos : 0 < increment)
    (haddress : (mb.address : ℤ) = c.address + increment)
    (hskipped : increment ≠ 1 → p.pictureCodingType = 2) :
    Entered c mb (predictSkipped p s increment) ∧
      (predictSkipped p s increment).draws =
        s.draws ++ skippedDraws p c.address mb.address := by
  have hbegin : s.sliceBegin = false := h.sliceBegin.trans hfirst
  rcases Nat.eq_or_lt_of_le (show 1 ≤ increment from hpos) with hone | hmany
  · subst hone
    have hskip : c.skipTo mb.address = c := if_neg (by omega)
    have hnone : skippedDraws p c.address mb.address = [] := by
      rw [skippedDraws, show ((mb.address : ℤ) - c.address - 1).toNat = 0 by omega]
      rfl
    rw [hnone, List.append_nil]
    refine ⟨⟨hbegin, ?_, ?_, ?_, ?_, h.scale⟩, rfl⟩
    · rw [haddress, ← h.address]
      rfl
    · rw [hskip, ← h.motionH]
      rfl
    · rw [hskip, ← h.motionV]
      rfl
    · rw [hskip, ← h.predictors]
      rfl
  · have hskip : c.skipTo mb.address =
        { c with motionH := 0, motionV := 0, predictors := resetPredictors } :=
      if_pos ⟨hfirst, by omega⟩
    have hresult : predictSkipped p s increment =
        { s with
          macroblockAddress := s.macroblockAddress + (((increment : ℤ) - 1).toNat : ℕ) + 1
          motion := stillMotion
          predictors := resetPredictors
          draws := s.draws ++ (List.range ((increment : ℤ) - 1).toNat).map fun (i : ℕ) =>
            p.copyAt (s.macroblockAddress + 1 + i) 0 0 } := by
      simp only [predictSkipped, if_pos (show (increment : ℤ) > 1 by omega),
        if_pos (hskipped (by omega)), foldl_skipped]
      rfl
    rw [hresult]
    refine ⟨⟨hbegin, ?_, by rw [hskip]; rfl, by rw [hskip]; rfl, by rw [hskip], h.scale⟩, ?_⟩
    · rw [haddress, ← h.address]
      dsimp only
      omega
    · rw [skippedDraws, ← h.address, haddress, ← h.address,
        show s.macroblockAddress + (increment : ℤ) - s.macroblockAddress - 1 = increment - 1 by
          ring]

/-- The first macroblock of a slice. -/
theorem entered_first {c : Coder} {mb : Macroblock} {s : SliceState} (h : Agrees c s)
    (hfirst : c.first = true) {increment : ℕ}
    (haddress : (mb.address : ℤ) = c.address + increment) :
    Entered c mb { s with
      sliceBegin := false, macroblockAddress := s.macroblockAddress + increment } := by
  have hskip : c.skipTo mb.address = c := if_neg (by simp [hfirst])
  refine ⟨rfl, ?_, ?_, ?_, ?_, h.scale⟩
  · rw [haddress, ← h.address]
  · rw [hskip, ← h.motionH]
  · rw [hskip, ← h.motionV]
  · rw [hskip, ← h.predictors]

/-- The prediction of a macroblock: what is known then, and what was drawn. -/
theorem reads_decodePrediction {p : Picture} {c : Coder} {mb : Macroblock} {s : SliceState}
    (h : Entered c mb s) {motFw : Bool} {bits : List Bool}
    (hpredicted : mb.intra = false → p.pictureCodingType = 2)
    (hvector : if mb.intra then bits = []
      else VectorCode p (c.skipTo mb.address) motFw mb.vector bits) (scale : ℤ) :
    ∃ s', Reads (decodePrediction p mb.intra motFw { s with quantizerScale := scale }) bits s' ∧
      s'.sliceBegin = false ∧ s'.macroblockAddress = mb.address ∧ s'.quantizerScale = scale ∧
      s'.motion.fwHPrev = (c.next mb).motionH ∧ s'.motion.fwVPrev = (c.next mb).motionV ∧
      s'.predictors = (c.skipTo mb.address).blockPredictors mb.intra ∧
      s'.draws = s.draws ++ if mb.intra then [] else
        [p.copyAt mb.address (p.halfPel (mb.vector.getD (0, 0)).1)
          (p.halfPel (mb.vector.getD (0, 0)).2)] := by
  simp only [decodePrediction, Coder.next, Coder.blockPredictors]
  cases hintra : mb.intra with
  | true =>
      rw [hintra, if_pos rfl] at hvector
      subst hvector
      exact ⟨_, reads_pure _, h.sliceBegin, h.address, rfl, rfl, rfl, h.predictors, by simp⟩
  | false =>
      rw [hintra, if_neg (by decide)] at hvector
      have hmotion := reads_decodeMotionVectors hvector h.motionH h.motionV (hpredicted hintra)
      refine ⟨_, hmotion.bind_nil (reads_pure _), h.sliceBegin, h.address, rfl, rfl, rfl, rfl, ?_⟩
      simp [h.address]

theorem reads_scale {current : ℤ} {flag : Bool} {scale : ℕ} {bits : List Bool}
    (h : ScaleCode current flag scale bits) :
    Reads (readScale flag current) bits scale := by
  rw [readScale]
  cases h with
  | kept h =>
      rw [← h]
      exact reads_pure _
  | sent h => exact reads_toBits (by decide) h

theorem reads_pattern {intra flag : Bool} {cbp : ℕ} {bits : List Bool}
    (h : PatternCode intra flag cbp bits) :
    Reads (readPattern flag intra) bits (cbp : ℤ) := by
  rw [readPattern]
  cases h with
  | implied => cases intra <;> exact reads_pure _
  | sent h =>
      rw [if_pos rfl]
      exact reads_readCode h

/-- The content of a macroblock. -/
theorem reads_decodeContent {p : Picture} {c : Coder} {mb : Macroblock} {s : SliceState}
    (h : Entered c mb s) {flags cbp : ℕ}
    {typeBits scaleBits vectorBits patternBits blockBits : List Bool}
    (htype : Codeword p.typeTable typeBits flags) (hintra : flags.testBit 0 = mb.intra)
    (hpredicted : mb.intra = false → p.pictureCodingType = 2)
    (hscale : ScaleCode c.scale (flags.testBit 4) mb.scale scaleBits)
    (hvector : if mb.intra then vectorBits = []
      else VectorCode p (c.skipTo mb.address) (flags.testBit 3) mb.vector vectorBits)
    (hpattern : PatternCode mb.intra (flags.testBit 1) cbp patternBits)
    (hcbp : ∀ block < 6, cbp.testBit (5 - block) = (mb.blocks block).isSome)
    (hblocks : BlocksCode mb.intra mb.blocks (List.range 6)
      ((c.skipTo mb.address).blockPredictors mb.intra) blockBits) {fuel : ℕ}
    (hfuel : blockBits.length ≤ fuel) :
    ∃ s', Reads (decodeContent p fuel s)
        (typeBits ++ (scaleBits ++ (vectorBits ++ (patternBits ++ blockBits)))) s' ∧
      Agrees (c.next mb) s' ∧ s'.draws = s.draws ++ mb.draws p := by
  obtain ⟨s', hread, hbegin, haddress, hquantizer, hH, hV, hpredictors, hdraws⟩ :=
    reads_decodePrediction h hpredicted hvector mb.scale
  rw [← h.scale] at hscale
  rw [← hpredictors] at hblocks
  have hall : Reads (decodeBlocks p s'.macroblockAddress (p.quantizer mb.intra mb.scale) cbp fuel
      (List.range 6) s'.predictors s'.draws) blockBits _ :=
    reads_decodeBlocks hblocks (fun block hmem => hcbp block (List.mem_range.mp hmem)) hfuel
      s'.draws
  refine ⟨{ s' with
      predictors := predictAll mb.intra mb.blocks (List.range 6) s'.predictors
      draws := s'.draws ++ blocksDraws p s'.macroblockAddress (p.quantizer mb.intra mb.scale)
        mb.blocks (List.range 6) }, ?_, ?_, ?_⟩
  · rw [decodeContent]
    refine (reads_readCode htype).bind ?_
    simp only [Int.toNat_natCast, hintra]
    refine (reads_scale hscale).bind ?_
    refine hread.bind ?_
    refine (reads_pattern hpattern).bind ?_
    rw [Int.toNat_natCast, hquantizer]
    exact hall.bind_nil (reads_pure _)
  · refine ⟨hbegin, haddress, hH, hV, ?_, hquantizer⟩
    rw [hpredictors]
    rfl
  · rw [hdraws, haddress, List.append_assoc]
    rfl

/-- One macroblock: the decoder draws it, and knows what it should afterwards. -/
theorem reads_decodeMacroblock {p : Picture} {c : Coder} {mb : Macroblock} {bits : List Bool}
    (h : MacroblockCode p c mb bits) {s : SliceState} (hs : Agrees c s) {fuel : ℕ}
    (hfuel : bits.length ≤ fuel) :
    ∃ s', Reads (decodeMacroblock p fuel s) bits s' ∧ Agrees (c.next mb) s' ∧
      s'.draws = s.draws ++ (if c.first then [] else skippedDraws p c.address mb.address) ++
        mb.draws p := by
  obtain ⟨hincrement, haddress, hinside, hskipped, htype, hintra, hpredicted, hscale, hvector,
    hpattern, hcbp, hblocks⟩ := h
  simp only [List.length_append] at hfuel
  have hpos := hincrement.pos
  rw [decodeMacroblock]
  cases hfirst : c.first with
  | true =>
      obtain ⟨s', hread, hagrees, hdraws⟩ := reads_decodeContent (entered_first hs hfirst haddress)
        htype hintra hpredicted hscale hvector hpattern hcbp hblocks (show _ ≤ fuel by omega)
      refine ⟨s', ?_, hagrees, ?_⟩
      · refine (hincrement.reads (by omega)).bind ?_
        rw [if_pos (hs.sliceBegin.trans hfirst)]
        exact hread
      · rw [hdraws, if_pos rfl, List.append_nil]
  | false =>
      obtain ⟨hentered, hskippedDraws⟩ :=
        entered_predictSkipped hs hfirst hpos.1 haddress (hskipped hfirst)
      obtain ⟨s', hread, hagrees, hdraws⟩ := reads_decodeContent hentered
        htype hintra hpredicted hscale hvector hpattern hcbp hblocks (show _ ≤ fuel by omega)
      have hlt := hinside hfirst
      refine ⟨s', ?_, hagrees, ?_⟩
      · refine (hincrement.reads (by omega)).bind ?_
        rw [if_neg (by simp [hs.sliceBegin, hfirst]), if_neg (by rw [hs.address]; omega)]
        exact hread
      · rw [hdraws, hskippedDraws, if_neg (by decide)]

/-! ## Whole slices -/

/-- The bits of macroblocks that follow each other, one string for each. -/
inductive MacroblocksCode (p : Picture) : Coder → List Macroblock → List (List Bool) → Prop
  | nil {c : Coder} : MacroblocksCode p c [] []
  | cons {c : Coder} {mb : Macroblock} {rest : List Macroblock} {bits : List Bool}
      {restBits : List (List Bool)} (h : MacroblockCode p c mb bits)
      (hrest : MacroblocksCode p (c.next mb) rest restBits) :
      MacroblocksCode p c (mb :: rest) (bits :: restBits)

/-- There is a start code, or the end of the buffer, behind the last macroblock, and not
before. -/
def EndsAfter (r : BitReader) : List (List Bool) → Prop
  | [] => False
  | [bits] => (r.skip bits.length).nextBytesAreStartCode = true
  | bits :: next :: rest =>
      (r.skip bits.length).nextBytesAreStartCode = false ∧
        EndsAfter (r.skip bits.length) (next :: rest)

/-- A byte of extra information has a 1 in front, and a 0 ends it. -/
def extraBits (extra : List UInt8) : List Bool :=
  extra.flatMap (fun byte => true :: toBits 8 byte.toNat) ++ [false]

theorem MacroblockCode.length_pos {p : Picture} {c : Coder} {mb : Macroblock} {bits : List Bool}
    (h : MacroblockCode p c mb bits) : 0 < bits.length := by
  obtain ⟨hincrement⟩ := h
  have hpos := hincrement.pos
  rw [List.length_append]
  omega

/-- The draws of the macroblocks that are still to come. -/
def Coder.draws (p : Picture) (c : Coder) (mbs : List Macroblock) : List Draw :=
  if c.first then sliceDraws p mbs else macroblocksDraws p c.address mbs

theorem Coder.draws_cons (p : Picture) (c : Coder) (mb : Macroblock) (rest : List Macroblock) :
    c.draws p (mb :: rest) = (if c.first then [] else skippedDraws p c.address mb.address) ++
      mb.draws p ++ (c.next mb).draws p rest := by
  have hnext : (c.next mb).draws p rest = macroblocksDraws p mb.address rest := rfl
  rw [hnext, Coder.draws]
  cases c.first <;> rfl

/-- The loop over the macroblocks of a slice. -/
theorem run_decodeMacroblocks {p : Picture} {c : Coder} {mbs : List Macroblock}
    {words : List (List Bool)} (h : MacroblocksCode p c mbs words) {s : SliceState}
    (hs : Agrees c s) {r : BitReader} (hahead : r.Ahead words.flatten) (hends : EndsAfter r words)
    {fuel : ℕ} (hfuel : words.flatten.length < fuel) :
    ∃ s', (decodeMacroblocks p fuel s).run r = some (s', r.skip words.flatten.length) ∧
      s'.draws = s.draws ++ c.draws p mbs := by
  induction h generalizing s r fuel with
  | nil => exact hends.elim
  | @cons c mb rest bits restBits h hrest ih =>
      have hpos := h.length_pos
      rw [List.flatten_cons] at hahead hfuel ⊢
      rw [List.length_append] at hfuel ⊢
      obtain ⟨fuel, rfl⟩ := Nat.exists_eq_add_of_lt (show 0 < fuel by omega)
      obtain ⟨hbits, hafter⟩ := BitReader.ahead_append.mp hahead
      obtain ⟨s', hread, hagrees, hdraws⟩ :=
        reads_decodeMacroblock h hs (show bits.length ≤ 0 + fuel by omega)
      -- the loop has read one macroblock, and looks for a start code
      have hstep : (decodeMacroblocks p (0 + fuel + 1) s).run r =
          if (r.skip bits.length).nextBytesAreStartCode then some (s', r.skip bits.length)
          else (decodeMacroblocks p (0 + fuel) s').run (r.skip bits.length) := by
        rw [decodeMacroblocks, hread.run_bind hbits]
        cases hcode : (r.skip bits.length).nextBytesAreStartCode <;> simp [hcode]
      rw [hstep, c.draws_cons]
      cases hrest with
      | nil =>
          have hcode : (r.skip bits.length).nextBytesAreStartCode = true := hends
          rw [if_pos hcode]
          exact ⟨s', rfl, by rw [hdraws]; simp [Coder.draws, Coder.next, macroblocksDraws]⟩
      | @cons _ mb' rest' bits' restBits' h' hrest' =>
          obtain ⟨hmore, hends⟩ := hends
          obtain ⟨s'', hrun, hdraws'⟩ := ih hagrees hafter hends (show _ < 0 + fuel by omega)
          refine ⟨s'', ?_, ?_⟩
          · rw [if_neg (by simp [hmore]), hrun, r.skip_skip]
          · rw [hdraws', hdraws]
            simp only [List.append_assoc]

theorem reads_skipExtra (extra : List UInt8) {fuel : ℕ} (hfuel : extra.length < fuel) :
    Reads (skipExtra fuel) (extraBits extra) () := by
  induction extra generalizing fuel with
  | nil =>
      obtain ⟨fuel, rfl⟩ := Nat.exists_eq_add_of_lt hfuel
      rw [skipExtra]
      refine (reads_bit false).bind_nil ?_
      exact reads_pure _
  | cons byte rest ih =>
      cases fuel with
      | zero => simp at hfuel
      | succ fuel =>
          have hread := ih (show rest.length < fuel by simpa using hfuel)
          have hbits : extraBits (byte :: rest) =
              [true] ++ (toBits 8 byte.toNat ++ extraBits rest) := by simp [extraBits]
          rw [skipExtra, hbits]
          refine (reads_bit true).bind ?_
          rw [if_pos (by decide)]
          refine (reads_advance (length_toBits 8 byte.toNat)).bind ?_
          exact hread

/-- What is known when a slice begins. -/
def firstCoder (p : Picture) (slice scale : ℕ) : Coder :=
  ⟨true, ((slice : ℤ) - 1) * p.mbWidth - 1, 0, 0, resetPredictors, scale⟩

/-- The bits of a slice behind its start code. -/
def sliceBits (scale : ℕ) (extra : List UInt8) (words : List (List Bool)) : List Bool :=
  toBits 5 scale ++ (extraBits extra ++ words.flatten)

/-- **Slices.**  Whatever bits stand for a slice, the decoder reads them to the end and draws
the slice, if it has as many rounds as there are bits. -/
theorem run_decodeSlice (p : Picture) (slice : ℕ) {scale : ℕ} (hscale : scale < 32)
    (extra : List UInt8) {mbs : List Macroblock} {words : List (List Bool)}
    (h : MacroblocksCode p (firstCoder p slice scale) mbs words) {r : BitReader}
    (hahead : r.Ahead (sliceBits scale extra words))
    (hends : EndsAfter (r.skip (5 + (extraBits extra).length)) words) {fuel : ℕ}
    (hfuel : (sliceBits scale extra words).length < fuel) :
    ∃ s, (decodeSlice p slice fuel).run r =
        some (s, r.skip (sliceBits scale extra words).length) ∧ s.draws = sliceDraws p mbs := by
  obtain ⟨hfront, hahead⟩ := BitReader.ahead_append.mp hahead
  obtain ⟨hmiddle, hwords⟩ := BitReader.ahead_append.mp hahead
  rw [length_toBits] at hmiddle hwords
  rw [r.skip_skip] at hwords
  have hlength : (sliceBits scale extra words).length =
      5 + (extraBits extra).length + words.flatten.length := by
    simp only [sliceBits, List.length_append, length_toBits]
    omega
  have hextra : extra.length ≤ (extraBits extra).length := by
    simp only [extraBits, List.length_append, List.length_flatMap, List.length_cons, length_toBits]
    simp
    omega
  rw [hlength] at hfuel ⊢
  have hagrees : Agrees (firstCoder p slice scale) ⟨true, ((slice : ℤ) - 1) * p.mbWidth - 1,
      stillMotion, resetPredictors, scale, []⟩ := ⟨rfl, rfl, rfl, rfl, rfl, rfl⟩
  obtain ⟨s, hrun, hdraws⟩ :=
    run_decodeMacroblocks h hagrees hwords hends (show _ < fuel by omega)
  refine ⟨s, ?_, hdraws⟩
  rw [decodeSlice, (reads_toBits (by decide) hscale).run_bind hfront, length_toBits,
    (reads_skipExtra extra (by omega)).run_bind hmiddle, r.skip_skip, hrun, r.skip_skip]

end SsmIaas.Player
