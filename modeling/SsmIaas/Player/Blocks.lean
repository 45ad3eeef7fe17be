import SsmIaas.Player.Codes

/-!
# Blocks

`decodeBlock` of `jsmpg.js` up to the inverse transform: the coefficients of a block, in the
order of a zigzag, each as a number of zeros to skip and a level, or as an escape; for an
intra-coded block the first is a difference to that of the block before.

The inductive predicates say what the codes of the format are.  `reads_decodeBlock`: whatever
code an encoder has chosen for a block, the function reads it to its end, finds every
coefficient at its place, and keeps the prediction.
-/

namespace SsmIaas.Player

open Lib

/-- `ZIG_ZAG` -/
def zigZag : List ℕ := [
  0, 1, 8, 16, 9, 2, 3, 10,
  17, 24, 32, 25, 18, 11, 4, 5,
  12, 19, 26, 33, 40, 48, 41, 34,
  27, 20, 13, 6, 7, 14, 21, 28,
  35, 42, 49, 56, 57, 50, 43, 36,
  29, 22, 15, 23, 30, 37, 44, 51,
  58, 59, 52, 45, 38, 31, 39, 46,
  53, 60, 61, 54, 47, 55, 62, 63]

/-- `PREMULTIPLIER_MATRIX` -/
def premultiplierMatrix : List ℤ := [
  32, 44, 42, 38, 32, 25, 17, 9,
  44, 62, 58, 52, 44, 35, 24, 12,
  42, 58, 55, 49, 42, 33, 23, 12,
  38, 52, 49, 44, 38, 30, 20, 10,
  32, 44, 42, 38, 32, 25, 17, 9,
  25, 35, 33, 30, 25, 20, 14, 7,
  17, 24, 23, 20, 17, 14, 9, 5,
  9, 12, 12, 10, 9, 7, 5, 2]

/-- `this.blockData`, which is zero whenever a block begins. -/
abbrev BlockData := ℕ → ℤ

/-- How the levels of a block are to be scaled. -/
structure Quantizer where
  intra : Bool
  quantizerScale : ℤ
  quantMatrix : List ℤ

/-- Dequantize, oddify, clip. -/
def Quantizer.dequantize (q : Quantizer) (place : ℕ) (level : ℤ) : ℤ :=
  let level := 2 * level
  let level := if q.intra then level else level + if level < 0 then -1 else 1
  let level := level * q.quantizerScale * q.quantMatrix.getD place 0 / 16
  let level := if level % 2 = 0 then level - (if level > 0 then 1 else -1) else level
  if level > 2047 then 2047 else if level < -2048 then -2048 else level

/-- A coefficient is put at its place; there is none behind the last. -/
def Quantizer.put (q : Quantizer) (data : BlockData) (n : ℕ) (level : ℤ) : BlockData :=
  match zigZag[n]? with
  | none => data
  | some place =>
      Function.update data place (q.dequantize place level * premultiplierMatrix.getD place 0)

/-- The run and the level behind a code. -/
def runLevel (coeff : ℤ) : Parser (ℤ × ℤ) := do
  if coeff = 0xffff then
    let run ← getBits 6
    let level ← getBits 8
    if level = 0 then
      let level ← getBits 8
      return (run, level)
    else if level = 128 then
      let level ← getBits 8
      return (run, level - 256)
    else if level > 128 then return (run, level - 256)
    else return (run, level)
  else
    let sign ← getBits 1
    return (coeff / 256, if sign ≠ 0 then -(coeff % 256) else coeff % 256)

/-- `(coeff == 0x0001) && (n > 0) && (this.buffer.getBits (1) == 0)` -/
def endOfBlock (coeff : ℤ) (n : ℕ) : Parser Bool := do
  if coeff = 1 ∧ n > 0 then
    let bit ← getBits 1
    return bit = 0
  else return false

/-- The loop over the coefficients: how far it came, and the data. -/
def decodeCoefficients (q : Quantizer) : ℕ → ℕ → BlockData → Parser (ℕ × BlockData)
  | 0, _, _ => failure
  | fuel + 1, n, data => do
      let coeff ← readCode dctCoeff
      if ← endOfBlock coeff n then return (n, data)
      else
        let (run, level) ← runLevel coeff
        let n := n + run.toNat
        decodeCoefficients q fuel (n + 1) (q.put data n level)

/-! ## Codes of coefficients -/

def signed (negative : Bool) (level : ℤ) : ℤ := if negative then -level else level

@[simp] theorem signed_false (level : ℤ) : signed false level = level := rfl

@[simp] theorem signed_true (level : ℤ) : signed true level = -level := rfl

/-- The bits of a level behind an escape. -/
inductive EscapeLevel : ℤ → List Bool → Prop
  | short (level : ℕ) (h : 0 < level ∧ level < 128) : EscapeLevel level (toBits 8 level)
  | long (level : ℕ) (h : level < 256) : EscapeLevel level (toBits 8 0 ++ toBits 8 level)
  | shortNegative (level : ℕ) (h : 0 < level ∧ level < 128) :
      EscapeLevel (-level) (toBits 8 (256 - level))
  | longNegative (level : ℕ) (h : 0 < level ∧ level ≤ 256) :
      EscapeLevel (-level) (toBits 8 128 ++ toBits 8 (256 - level))

/-- The bits of a coefficient.  A run of 0 and a level of 1 has a code of its own, shorter for
the first coefficient, with which a block cannot end. -/
inductive CoeffCode : Bool → ℕ → ℤ → List Bool → Prop
  | first (negative : Bool) : CoeffCode true 0 (signed negative 1) [true, negative]
  | next (negative : Bool) : CoeffCode false 0 (signed negative 1) [true, true, negative]
  | table {first : Bool} {word : List Bool} {run level : ℕ} (negative : Bool)
      (h : Codeword dctCoeff word ((256 * run + level : ℕ) : ℤ)) (hlevel : level < 256)
      (hone : 256 * run + level ≠ 1) (hescape : 256 * run + level ≠ 0xffff) :
      CoeffCode first run (signed negative level) (word ++ [negative])
  | escape {first : Bool} {word bits : List Bool} {run : ℕ} {level : ℤ}
      (h : Codeword dctCoeff word 0xffff) (hrun : run < 64) (hlevel : EscapeLevel level bits) :
      CoeffCode first run level (word ++ (toBits 6 run ++ bits))

/-- The bits of coefficients up to the end of a block. -/
inductive CoeffsCode : Bool → List (ℕ × ℤ) → List Bool → Prop
  | done : CoeffsCode false [] [true, false]
  | coeff {first : Bool} {run : ℕ} {level : ℤ} {bits restBits : List Bool}
      {rest : List (ℕ × ℤ)} (h : CoeffCode first run level bits)
      (hrest : CoeffsCode false rest restBits) :
      CoeffsCode first ((run, level) :: rest) (bits ++ restBits)

theorem CoeffCode.length_pos {first : Bool} {run : ℕ} {level : ℤ} {bits : List Bool}
    (h : CoeffCode first run level bits) : 0 < bits.length := by
  cases h <;> simp

theorem CoeffsCode.length_lt {first : Bool} {coeffs : List (ℕ × ℤ)} {bits : List Bool}
    (h : CoeffsCode first coeffs bits) : coeffs.length < bits.length := by
  induction h with
  | done => decide
  | coeff h hrest ih =>
      have hpos := h.length_pos
      rw [List.length_cons, List.length_append]
      omega

/-- What runs and levels mean: where the last ends, and the data. -/
def Quantizer.putAll (q : Quantizer) : ℕ → BlockData → List (ℕ × ℤ) → ℕ × BlockData
  | n, data, [] => (n, data)
  | n, data, (run, level) :: rest => q.putAll (n + run + 1) (q.put data (n + run) level) rest

/-! ## Reading coefficients -/

theorem codeword_one : Codeword dctCoeff [true] 1 := by decide +kernel

/-- A number and the bit behind it. -/
theorem reads_runLevel {run level : ℕ} (negative : Bool) (hlevel : level < 256)
    (hescape : 256 * run + level ≠ 0xffff) :
    Reads (runLevel ((256 * run + level : ℕ) : ℤ)) [negative]
      ((run : ℤ), signed negative level) := by
  have hcoeff : ¬ ((256 * run + level : ℕ) : ℤ) = 0xffff := by omega
  have hrun : ((256 * run + level : ℕ) : ℤ) / 256 = run := by omega
  have hrest : ((256 * run + level : ℕ) : ℤ) % 256 = level := by omega
  rw [runLevel, if_neg hcoeff, hrun, hrest]
  refine (reads_bit negative).bind_nil ?_
  cases negative <;> exact reads_pure _

theorem reads_escapeLevel {level : ℤ} {bits : List Bool} (h : EscapeLevel level bits) {run : ℕ}
    (hrun : run < 64) : Reads (runLevel 0xffff) (toBits 6 run ++ bits) ((run : ℤ), level) := by
  have hbyte : ∀ {n : ℕ}, n < 256 → Reads (getBits 8) (toBits 8 n) n := fun hn =>
    reads_toBits (by decide) hn
  rw [runLevel, if_pos rfl]
  refine (reads_toBits (by decide) hrun).bind ?_
  cases h with
  | short level h =>
      refine (hbyte (by omega)).bind_nil ?_
      rw [if_neg (by omega), if_neg (by omega), if_neg (by omega)]
      exact reads_pure _
  | long level h =>
      refine (hbyte (by omega)).bind ?_
      rw [if_pos (by decide)]
      exact (hbyte h).bind_nil (reads_pure _)
  | shortNegative level h =>
      refine (hbyte (by omega)).bind_nil ?_
      rw [if_neg (by omega), if_neg (by omega), if_pos (by omega),
        show ((256 - level : ℕ) : ℤ) - 256 = -level by omega]
      exact reads_pure _
  | longNegative level h =>
      refine (hbyte (by omega)).bind ?_
      rw [if_neg (by decide), if_pos (by decide)]
      refine (hbyte (by omega)).bind_nil ?_
      rw [show ((256 - level : ℕ) : ℤ) - 256 = -level by omega]
      exact reads_pure _

theorem reads_endOfBlock_of_ne {coeff : ℤ} {n : ℕ} (h : ¬ (coeff = 1 ∧ n > 0)) :
    Reads (endOfBlock coeff n) [] false := by
  rw [endOfBlock, if_neg h]
  exact reads_pure _

theorem reads_endOfBlock (bit : Bool) {n : ℕ} (h : n > 0) :
    Reads (endOfBlock 1 n) [bit] !bit := by
  rw [endOfBlock, if_pos ⟨rfl, h⟩]
  refine (reads_bit bit).bind_nil ?_
  cases bit <;> exact reads_pure _

section

variable {q : Quantizer} {fuel n run : ℕ} {level : ℤ} {data : BlockData}
  {restBits : List Bool} {result : ℕ × BlockData}

/-- One round of the loop, by the parts of a code. -/
theorem reads_round {coeff : ℤ} {word mark bits : List Bool}
    (hcode : Codeword dctCoeff word coeff) (hmark : Reads (endOfBlock coeff n) mark false)
    (hbits : Reads (runLevel coeff) bits ((run : ℤ), level))
    (hrest : Reads (decodeCoefficients q fuel (n + run + 1) (q.put data (n + run) level)) restBits
      result) :
    Reads (decodeCoefficients q (fuel + 1) n data) (word ++ (mark ++ (bits ++ restBits)))
      result := by
  rw [decodeCoefficients]
  refine (reads_readCode hcode).bind (hmark.bind ?_)
  rw [if_neg (by decide)]
  exact hbits.bind hrest

theorem reads_coefficient {bits : List Bool} (h : CoeffCode (decide (n = 0)) run level bits)
    (hrest : Reads (decodeCoefficients q fuel (n + run + 1) (q.put data (n + run) level)) restBits
      result) :
    Reads (decodeCoefficients q (fuel + 1) n data) (bits ++ restBits) result := by
  generalize hfirst : decide (n = 0) = first at h
  cases h with
  | first negative =>
      have hn : n = 0 := by simpa using hfirst
      exact reads_round codeword_one (reads_endOfBlock_of_ne (by omega))
        (reads_runLevel negative (show 1 < 256 by decide) (show 256 * 0 + 1 ≠ 0xffff by decide))
        hrest
  | next negative =>
      have hn : n > 0 := by
        have : n ≠ 0 := by simpa using hfirst
        omega
      exact reads_round codeword_one (reads_endOfBlock true hn)
        (reads_runLevel negative (show 1 < 256 by decide) (show 256 * 0 + 1 ≠ 0xffff by decide))
        hrest
  | table negative h hlevel hone hescape =>
      rw [List.append_assoc]
      exact reads_round h (reads_endOfBlock_of_ne (by omega))
        (reads_runLevel negative hlevel hescape) hrest
  | escape h hrun hlevel =>
      rw [List.append_assoc]
      exact reads_round h (reads_endOfBlock_of_ne (by omega)) (reads_escapeLevel hlevel hrun) hrest

end

theorem reads_decodeCoefficients {q : Quantizer} {coeffs : List (ℕ × ℤ)} {bits : List Bool}
    {n : ℕ} (h : CoeffsCode (decide (n = 0)) coeffs bits) {fuel : ℕ} (hfuel : coeffs.length < fuel)
    (data : BlockData) :
    Reads (decodeCoefficients q fuel n data) bits (q.putAll n data coeffs) := by
  generalize hfirst : decide (n = 0) = first at h
  induction h generalizing n fuel data with
  | done =>
      have hn : n ≠ 0 := by simpa using hfirst
      obtain ⟨fuel, rfl⟩ := Nat.exists_eq_add_of_lt hfuel
      rw [decodeCoefficients]
      exact (reads_readCode codeword_one).bind
        ((reads_endOfBlock false (Nat.pos_of_ne_zero hn)).bind_nil (reads_pure _))
  | coeff hcoeff hrest ih =>
      cases fuel with
      | zero => simp at hfuel
      | succ fuel =>
          rw [← hfirst] at hcoeff
          exact reads_coefficient hcoeff (ih (by simpa using hfuel) _ (by simp))

/-! ## Where the coefficients are -/

/-- The levels in the order of the zigzag; `none` where a run has a zero. -/
def levels (coeffs : List (ℕ × ℤ)) : List (Option ℤ) :=
  coeffs.flatMap fun (run, level) => List.replicate run none ++ [some level]

theorem zigZag_nodup : zigZag.Nodup := by decide

theorem Quantizer.putAll_fst (q : Quantizer) (n : ℕ) (data : BlockData) (coeffs : List (ℕ × ℤ)) :
    (q.putAll n data coeffs).1 = n + (levels coeffs).length := by
  induction coeffs generalizing n data with
  | nil => rfl
  | cons pair rest ih =>
      obtain ⟨run, level⟩ := pair
      rw [Quantizer.putAll, ih, levels, levels, List.flatMap_cons, List.length_append]
      simp only [List.length_append, List.length_replicate, List.length_singleton]
      omega

theorem Quantizer.put_zigZag (q : Quantizer) (data : BlockData) (n : ℕ) (level : ℤ) {k : ℕ}
    (hk : k < 64) :
    q.put data n level zigZag[k] =
      if k = n then q.dequantize zigZag[k] level * premultiplierMatrix.getD zigZag[k] 0
      else data zigZag[k] := by
  rw [Quantizer.put]
  by_cases hn : n < 64
  · rw [List.getElem?_eq_getElem hn]
    by_cases heq : k = n
    · subst heq
      rw [if_pos rfl]
      exact Function.update_self ..
    · rw [if_neg heq]
      exact Function.update_of_ne (fun h => heq (zigZag_nodup.getElem_inj_iff.mp h)) ..
  · rw [List.getElem?_eq_none (Nat.le_of_not_lt hn), if_neg (by omega)]

/-- The place of every coefficient is that of its number in the zigzag. -/
theorem Quantizer.putAll_zigZag (q : Quantizer) (n : ℕ) (data : BlockData)
    (coeffs : List (ℕ × ℤ)) {k : ℕ} (hk : k < 64) :
    (q.putAll n data coeffs).2 zigZag[k] =
      match (List.replicate n none ++ levels coeffs)[k]? with
      | some (some level) => q.dequantize zigZag[k] level * premultiplierMatrix.getD zigZag[k] 0
      | _ => data zigZag[k] := by
  induction coeffs generalizing n data with
  | nil =>
      simp only [Quantizer.putAll, levels, List.flatMap_nil, List.append_nil,
        List.getElem?_replicate]
      split <;> simp_all
  | cons pair rest ih =>
      obtain ⟨run, level⟩ := pair
      have hlist : List.replicate n none ++ levels ((run, level) :: rest) =
          List.replicate (n + run) none ++ some level :: levels rest := by
        rw [levels, List.flatMap_cons, List.append_assoc, ← List.append_assoc,
          List.replicate_append_replicate]
        rfl
      rw [Quantizer.putAll, ih, hlist, q.put_zigZag data (n + run) level hk]
      rcases Nat.lt_trichotomy k (n + run) with hlt | heq | hgt
      · rw [List.getElem?_append_left (by simp; omega),
          List.getElem?_append_left (by simpa using hlt), List.getElem?_replicate,
          List.getElem?_replicate, if_pos (by omega), if_pos hlt, if_neg hlt.ne]
      · rw [List.getElem?_append_left (by simp; omega), List.getElem?_append_right (by simp [heq]),
          List.getElem?_replicate, if_pos (by omega), if_pos heq]
        simp [heq]
      · rw [List.getElem?_append_right (by simp; omega),
          List.getElem?_append_right (by simp; omega), if_neg hgt.ne', List.length_replicate,
          List.length_replicate]
        obtain ⟨j, rfl⟩ := Nat.exists_eq_add_of_lt hgt
        rw [show n + run + j + 1 - (n + run) = j + 1 by omega, List.getElem?_cons_succ,
          show n + run + j + 1 - (n + run + 1) = j by omega]

/-! ## Whole blocks -/

/-- The number that is left of one in 32 bits. -/
def int32 (value : ℤ) : ℤ := (BitVec.ofInt 32 value).toInt

/-- `dcPredictorY`, `dcPredictorCr` and `dcPredictorCb`. -/
structure Predictors where
  y : ℤ
  cr : ℤ
  cb : ℤ
  deriving DecidableEq, Repr

def Predictors.get (p : Predictors) (block : ℕ) : ℤ :=
  if block < 4 then p.y else if block = 4 then p.cr else p.cb

def Predictors.set (p : Predictors) (block : ℕ) (value : ℤ) : Predictors :=
  if block < 4 then { p with y := value }
  else if block = 4 then { p with cr := value }
  else { p with cb := value }

/-- The table for the size of a first coefficient. -/
def dcSizeTable (block : ℕ) : List ℤ :=
  if block < 4 then dctDcSizeLuminance else dctDcSizeChrominance

/-- The first coefficient of an intra-coded block. -/
def decodeDc (block : ℕ) (predictor : ℤ) : Parser ℤ := do
  let dctSize ← readCode (dcSizeTable block)
  if dctSize > 0 then
    let differential ← getBits dctSize.toNat
    -- `(differential & (1 << (dctSize - 1))) != 0`
    if differential.toNat.testBit (dctSize.toNat - 1) then return predictor + differential
    else
      return predictor +
        ((-1 : BitVec 32) <<< dctSize.toNat ||| BitVec.ofInt 32 (differential + 1)).toInt
  else return predictor

/-- `decodeBlock (block)` up to the inverse transform: the predictors, how many coefficients
there are up to the last, and the data. -/
def decodeBlock (q : Quantizer) (predictors : Predictors) (block fuel : ℕ) :
    Parser (Predictors × ℕ × BlockData) := do
  if q.intra then
    let dc ← decodeDc block (predictors.get block)
    let (n, data) ← decodeCoefficients q fuel 1 (Function.update 0 0 (int32 (dc * 256)))
    return (predictors.set block dc, n, data)
  else
    let (n, data) ← decodeCoefficients q fuel 0 0
    return (predictors, n, data)

/-- The bits of a difference between first coefficients. -/
inductive DcCode (table : List ℤ) : ℤ → List Bool → Prop
  | zero {word : List Bool} (h : Codeword table word 0) : DcCode table 0 word
  | positive {word : List Bool} {size value : ℕ} (h : Codeword table word size)
      (hsize : 0 < size ∧ size ≤ 8) (hvalue : 2 ^ (size - 1) ≤ value ∧ value < 2 ^ size) :
      DcCode table value (word ++ toBits size value)
  | negative {word : List Bool} {size value : ℕ} (h : Codeword table word size)
      (hsize : 0 < size ∧ size ≤ 8) (hvalue : 2 ^ (size - 1) ≤ value ∧ value < 2 ^ size) :
      DcCode table (-value) (word ++ toBits size (2 ^ size - 1 - value))

/-- The two ways to take a difference, by its first bit. -/
theorem dc_differential : ∀ size ≤ 8, 0 < size → ∀ value : ℕ, value < 2 ^ size →
    (value.testBit (size - 1) = decide (2 ^ (size - 1) ≤ value)) ∧
    (value < 2 ^ (size - 1) →
      ((-1 : BitVec 32) <<< size ||| BitVec.ofInt 32 ((value : ℤ) + 1)).toInt =
        (value : ℤ) + 1 - 2 ^ size) := by
  decide +kernel

theorem reads_decodeDc {block : ℕ} {difference : ℤ} {bits : List Bool}
    (h : DcCode (dcSizeTable block) difference bits) (predictor : ℤ) :
    Reads (decodeDc block predictor) bits (predictor + difference) := by
  cases h with
  | zero h =>
      refine (reads_readCode h).bind_nil ?_
      rw [if_neg (by decide), Int.add_zero]
      exact reads_pure _
  | @positive word size value h hsize hvalue =>
      obtain ⟨hbit, -⟩ := dc_differential size hsize.2 hsize.1 value hvalue.2
      refine (reads_readCode h).bind ?_
      rw [if_pos (by omega), Int.toNat_natCast]
      refine (reads_toBits (by omega) hvalue.2).bind_nil ?_
      rw [Int.toNat_natCast, if_pos (by simpa [hbit] using hvalue.1)]
      exact reads_pure _
  | @negative word size value h hsize hvalue =>
      have hpow : 2 ^ size = 2 ^ (size - 1) + 2 ^ (size - 1) := by
        rw [← Nat.two_mul, ← Nat.pow_succ', Nat.succ_eq_add_one, Nat.sub_add_cancel hsize.1]
      have hlow : 2 ^ size - 1 - value < 2 ^ (size - 1) := by omega
      obtain ⟨hbit, hor⟩ := dc_differential size hsize.2 hsize.1 (2 ^ size - 1 - value) (by omega)
      refine (reads_readCode h).bind ?_
      rw [if_pos (by omega), Int.toNat_natCast]
      refine (reads_toBits (by omega) (by omega)).bind_nil ?_
      have hcast : (((2 ^ size - 1 - value : ℕ) : ℤ) + 1 - 2 ^ size) = -value := by
        have hone : 1 ≤ 2 ^ size := Nat.one_le_two_pow
        push_cast [Nat.cast_sub (show value ≤ 2 ^ size - 1 by omega), Nat.cast_sub hone]
        ring
      rw [Int.toNat_natCast, if_neg (by simpa [hbit] using hlow), hor hlow, hcast]
      exact reads_pure _

/-- A block as it should be: the first coefficient of an intra-coded block, and runs and
levels. -/
structure Block where
  dc : ℤ
  coeffs : List (ℕ × ℤ)

/-- What a block means. -/
def Block.data (q : Quantizer) (b : Block) : ℕ × BlockData :=
  if q.intra then q.putAll 1 (Function.update 0 0 (int32 (b.dc * 256))) b.coeffs
  else q.putAll 0 0 b.coeffs

/-- The predictors behind a block. -/
def Block.predict (intra : Bool) (block : ℕ) (b : Block) (p : Predictors) : Predictors :=
  if intra then p.set block b.dc else p

/-- The bits of a block, next to the predictors. -/
inductive BlockCode (predictors : Predictors) (block : ℕ) : Bool → Block → List Bool → Prop
  | intra {b : Block} {dcBits bits : List Bool}
      (hdc : DcCode (dcSizeTable block) (b.dc - predictors.get block) dcBits)
      (h : CoeffsCode false b.coeffs bits) : BlockCode predictors block true b (dcBits ++ bits)
  | inter {b : Block} {bits : List Bool} (h : CoeffsCode true b.coeffs bits) :
      BlockCode predictors block false b bits

theorem BlockCode.length_lt {predictors : Predictors} {block : ℕ} {intra : Bool} {b : Block}
    {bits : List Bool} (h : BlockCode predictors block intra b bits) :
    b.coeffs.length < bits.length := by
  cases h with
  | intra hdc h =>
      have hlt := h.length_lt
      rw [List.length_append]
      omega
  | inter h => exact h.length_lt

/-- **Blocks.**  Every code of a block is read to its end, and gives the block. -/
theorem reads_decodeBlock {q : Quantizer} {predictors : Predictors} {block : ℕ} {b : Block}
    {bits : List Bool} (h : BlockCode predictors block q.intra b bits) {fuel : ℕ}
    (hfuel : b.coeffs.length < fuel) :
    Reads (decodeBlock q predictors block fuel) bits
      (b.predict q.intra block predictors, b.data q) := by
  rw [decodeBlock, Block.predict, Block.data]
  generalize hintra : q.intra = intra at h
  cases h with
  | intra hdc h =>
      have hread := reads_decodeDc hdc (predictors.get block)
      rw [show predictors.get block + (b.dc - predictors.get block) = b.dc by ring] at hread
      have hcoeffs := reads_decodeCoefficients (q := q) (n := 1) h hfuel
      exact hread.bind ((hcoeffs _).bind_nil (reads_pure _))
  | inter h =>
      have hcoeffs := reads_decodeCoefficients (q := q) (n := 0) h hfuel
      exact (hcoeffs _).bind_nil (reads_pure _)

/-- The coefficient at a number of the zigzag. -/
def Block.coefficient (q : Quantizer) (b : Block) (k : ℕ) : ℤ :=
  if q.intra ∧ k = 0 then int32 (b.dc * 256)
  else
    match (levels b.coeffs)[if q.intra then k - 1 else k]? with
    | some (some level) =>
        q.dequantize (zigZag.getD k 0) level * premultiplierMatrix.getD (zigZag.getD k 0) 0
    | _ => 0

/-- The data of a block, place by place. -/
theorem Block.data_zigZag (q : Quantizer) (b : Block) {k : ℕ} (hk : k < 64) :
    (b.data q).2 (zigZag.getD k 0) = b.coefficient q k := by
  have hplace : zigZag.getD k 0 = zigZag[k] := List.getD_eq_getElem zigZag 0 hk
  rw [Block.data, Block.coefficient, hplace]
  cases hintra : q.intra with
  | false =>
      simp only [Bool.false_eq_true, if_false, false_and, q.putAll_zigZag 0 0 b.coeffs hk,
        List.replicate_zero, List.nil_append]
      rfl
  | true =>
      simp only [if_true, true_and, q.putAll_zigZag 1 _ b.coeffs hk]
      cases k with
      | zero => rfl
      | succ k =>
          have hne : zigZag[k + 1] ≠ 0 := fun h =>
            absurd (zigZag_nodup.getElem_inj_iff.mp (h.trans (show 0 = zigZag[0] from rfl)))
              (by omega)
          rw [if_neg (by omega), Function.update_of_ne hne, Nat.add_sub_cancel,
            List.getElem?_append_right (by simp), List.length_replicate, Nat.add_sub_cancel]
          rfl

/-- **Blocks.**  Whatever bits stand for a block, they are read to the end, and every place of
the data has the coefficient that the zigzag leads to it, or zero. -/
theorem block_round_trip {q : Quantizer} {predictors : Predictors} {block : ℕ} {b : Block}
    {bits : List Bool} (h : BlockCode predictors block q.intra b bits) {fuel : ℕ}
    (hfuel : b.coeffs.length < fuel) :
    ∃ n data, Reads (decodeBlock q predictors block fuel) bits
        (b.predict q.intra block predictors, n, data) ∧
      ∀ k < 64, data (zigZag.getD k 0) = b.coefficient q k :=
  ⟨_, _, reads_decodeBlock h hfuel, fun _ hk => b.data_zigZag q hk⟩

/-- A block with one coefficient behind a run of two zeros. -/
theorem block_round_trip_run :
    ∃ n data, Reads (decodeBlock ⟨false, 8, List.replicate 64 16⟩ ⟨128, 128, 128⟩ 0 2)
        (toBits 4 5 ++ [false] ++ [true, false]) (⟨128, 128, 128⟩, n, data) ∧
      ∀ k < 64, data (zigZag.getD k 0) =
        Block.coefficient ⟨false, 8, List.replicate 64 16⟩ ⟨0, [(2, 1)]⟩ k :=
  have hcoeff : CoeffCode true 2 1 (toBits 4 5 ++ [false]) :=
    @CoeffCode.table true (toBits 4 5) 2 1 false (by decide +kernel) (by decide) (by decide)
      (by decide)
  block_round_trip (b := ⟨0, [(2, 1)]⟩) (.inter (.coeff hcoeff .done)) (by decide)

end SsmIaas.Player
