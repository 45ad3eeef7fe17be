import SsmIaas.Player.Blocks
import Mathlib.Tactic.Linarith

/-!
# The inverse transform

`IDCT` of `jsmpg.js` transforms the columns of a block in place and then its rows.  Products
are brought back by shifts, which drop what does not fit into 32 bits, and the array holds
32-bit numbers.  For a block with a single coefficient in front, `decodeBlock` takes a shortcut
instead.

* `block_transform_exact`: no coefficients that the decoder can produce make a number too
  large, so the transform is the same as with numbers of any size.
* `blockValues_eq_idct`: the shortcut gives what the transform would give.
-/

namespace SsmIaas.Player

/-! ## The program -/

/-- `x >> 8`. -/
def shr8 (x : ℤ) : ℤ := int32 x / 256

/-- One pass over eight numbers; `shr` stands for the shift. -/
def butterfly (shr : ℤ → ℤ) (d0 d1 d2 d3 d4 d5 d6 d7 : ℤ) : List ℤ :=
  let b1 := d4
  let b3 := d2 + d6
  let b4 := d5 - d3
  let tmp1 := d1 + d7
  let tmp2 := d3 + d5
  let b6 := d1 - d7
  let b7 := tmp1 + tmp2
  let m0 := d0
  let x4 := shr (b6 * 473 - b4 * 196 + 128) - b7
  let x0 := x4 - shr ((tmp1 - tmp2) * 362 + 128)
  let x1 := m0 - b1
  let x2 := shr ((d2 - d6) * 362 + 128) - b3
  let x3 := m0 + b1
  let y3 := x1 + x2
  let y4 := x3 + b3
  let y5 := x1 - x2
  let y6 := x3 - b3
  let y7 := -x0 - shr (b4 * 473 + b6 * 196 + 128)
  [b7 + y4, x4 + y3, y5 - x0, y6 - y7, y6 + y7, x0 + y5, y3 - x4, y4 - b7]

/-- What a pass makes of column `i`. -/
def columnOf (shr : ℤ → ℤ) (data : BlockData) (i : ℕ) : List ℤ :=
  butterfly shr (data i) (data (8 + i)) (data (16 + i)) (data (24 + i)) (data (32 + i))
    (data (40 + i)) (data (48 + i)) (data (56 + i))

/-- What a pass makes of the row that begins at `i`. -/
def rowOfBlock (shr : ℤ → ℤ) (data : BlockData) (i : ℕ) : List ℤ :=
  butterfly shr (data i) (data (i + 1)) (data (i + 2)) (data (i + 3)) (data (i + 4))
    (data (i + 5)) (data (i + 6)) (data (i + 7))

/-- Column `i` is transformed; `store` stands for putting a number into the array. -/
def transformColumn (shr store : ℤ → ℤ) (data : BlockData) (i : ℕ) : BlockData := fun place =>
  if place % 8 = i then store ((columnOf shr data i).getD (place / 8) 0) else data place

/-- Row `i` is transformed. -/
def transformRow (shr : ℤ → ℤ) (data : BlockData) (i : ℕ) : BlockData := fun place =>
  if place / 8 = i then shr ((rowOfBlock shr data (8 * i)).getD (place % 8) 0 + 128) else data place

/-- The two loops. -/
def transform (shr store : ℤ → ℤ) (data : BlockData) : BlockData :=
  (List.range 8).foldl (transformRow shr) ((List.range 8).foldl (transformColumn shr store) data)

/-- `IDCT ()`. -/
def idct (data : BlockData) : BlockData := transform shr8 int32 data

/-- What is drawn for a block whose last coefficient is in front of `n`. -/
def blockValues (n : ℕ) (data : BlockData) : BlockData :=
  if n = 1 then fun _ => shr8 (data 0 + 128) else idct data

/-- The array behind a block: the shortcut puts a zero in front, otherwise all are zero. -/
def afterBlock (n : ℕ) (data : BlockData) : BlockData :=
  if n = 1 then Function.update data 0 0 else 0

/-! ## Loops in place -/

/-- A loop whose rounds change and read one class of places each. -/
theorem foldl_classes {f : BlockData → ℕ → BlockData} (kind : ℕ → ℕ)
    (hkeep : ∀ data i place, kind place ≠ i → f data i place = data place) {n : ℕ}
    (hread : ∀ i < n, ∀ data data' : BlockData,
      (∀ place, kind place = i → data place = data' place) →
      ∀ place, kind place = i → f data i place = f data' i place) (data : BlockData) (place : ℕ) :
    (List.range n).foldl f data place =
      if kind place < n then f data (kind place) place else data place := by
  induction n generalizing place with
  | zero => rfl
  | succ n ih =>
      have ih' := ih fun i hi => hread i (by omega)
      rw [List.range_succ, List.foldl_append, List.foldl_cons, List.foldl_nil]
      by_cases hkind : kind place = n
      · rw [hkind, if_pos (by omega)]
        refine hread n (by omega) _ _ (fun other hother => ?_) place hkind
        rw [ih' other, if_neg (by omega)]
      · rw [hkeep _ _ _ hkind, ih' place]
        by_cases hlt : kind place < n
        · rw [if_pos hlt, if_pos (by omega)]
        · rw [if_neg hlt, if_neg (by omega)]

variable {shr store : ℤ → ℤ} {data : BlockData}

theorem columns_apply (place : ℕ) :
    (List.range 8).foldl (transformColumn shr store) data place =
      store ((columnOf shr data (place % 8)).getD (place / 8) 0) := by
  rw [foldl_classes (fun place => place % 8), if_pos (Nat.mod_lt _ (by decide)),
    transformColumn, if_pos rfl]
  · intro data i place hne
    exact if_neg hne
  · intro i hi data data' hsame place hplace
    rw [transformColumn, transformColumn, if_pos hplace, if_pos hplace, columnOf, columnOf]
    congr 3 <;> exact hsame _ (by omega)

theorem transform_apply {place : ℕ} (hplace : place < 64) :
    transform shr store data place =
      shr ((rowOfBlock shr (fun place => store ((columnOf shr data (place % 8)).getD (place / 8) 0))
        (8 * (place / 8))).getD (place % 8) 0 + 128) := by
  rw [transform, foldl_classes (fun place => place / 8), if_pos (by omega), transformRow,
    if_pos rfl]
  · simp only [rowOfBlock, columns_apply]
  · intro data i place hne
    exact if_neg hne
  · intro i _ data data' hsame place hplace
    rw [transformRow, transformRow, if_pos hplace, if_pos hplace, rowOfBlock, rowOfBlock]
    congr 4 <;> exact hsame _ (by omega)

/-! ## No number gets too large -/

/-- `x >> 8` for numbers of any size. -/
def floorShr8 (x : ℤ) : ℤ := x / 256

/-- The transform with numbers of any size. -/
def exactIdct (data : BlockData) : BlockData := transform floorShr8 id data

theorem int32_eq {x : ℤ} (hlo : -2 ^ 31 ≤ x) (hhi : x < 2 ^ 31) : int32 x = x := by
  rw [int32, BitVec.toInt_ofInt, Int.bmod_eq_of_le_mul_two (by omega) (by omega)]

theorem shr8_eq {x : ℤ} (hlo : -2 ^ 31 ≤ x) (hhi : x < 2 ^ 31) : shr8 x = floorShr8 x := by
  rw [shr8, int32_eq hlo hhi, floorShr8]

/-- Inputs of a pass between `-bound` and `bound`. -/
structure Bounded (bound d0 d1 d2 d3 d4 d5 d6 d7 : ℤ) : Prop where
  h0 : -bound ≤ d0 ∧ d0 ≤ bound
  h1 : -bound ≤ d1 ∧ d1 ≤ bound
  h2 : -bound ≤ d2 ∧ d2 ≤ bound
  h3 : -bound ≤ d3 ∧ d3 ≤ bound
  h4 : -bound ≤ d4 ∧ d4 ≤ bound
  h5 : -bound ≤ d5 ∧ d5 ≤ bound
  h6 : -bound ≤ d6 ∧ d6 ≤ bound
  h7 : -bound ≤ d7 ∧ d7 ≤ bound

section Pass

variable {d0 d1 d2 d3 d4 d5 d6 d7 : ℤ}

theorem butterfly_exact (h : Bounded 1450000 d0 d1 d2 d3 d4 d5 d6 d7) :
    butterfly shr8 d0 d1 d2 d3 d4 d5 d6 d7 = butterfly floorShr8 d0 d1 d2 d3 d4 d5 d6 d7 := by
  obtain ⟨-, h1, h2, h3, -, h5, h6, h7⟩ := h
  have hx4 : shr8 ((d1 - d7) * 473 - (d5 - d3) * 196 + 128) =
      floorShr8 ((d1 - d7) * 473 - (d5 - d3) * 196 + 128) := shr8_eq (by omega) (by omega)
  have hx0 : shr8 ((d1 + d7 - (d3 + d5)) * 362 + 128) =
      floorShr8 ((d1 + d7 - (d3 + d5)) * 362 + 128) := shr8_eq (by omega) (by omega)
  have hx2 : shr8 ((d2 - d6) * 362 + 128) = floorShr8 ((d2 - d6) * 362 + 128) :=
    shr8_eq (by omega) (by omega)
  have hy7 : shr8 ((d5 - d3) * 473 + (d1 - d7) * 196 + 128) =
      floorShr8 ((d5 - d3) * 473 + (d1 - d7) * 196 + 128) := shr8_eq (by omega) (by omega)
  simp only [butterfly, hx4, hx0, hx2, hy7]

/-- A pass makes numbers larger by a factor of 11.4 at most. -/
theorem butterfly_bounded {bound : ℤ} (h : Bounded bound d0 d1 d2 d3 d4 d5 d6 d7) (k : ℕ) :
    -(57 * bound + 25) ≤ 5 * (butterfly floorShr8 d0 d1 d2 d3 d4 d5 d6 d7).getD k 0 ∧
      5 * (butterfly floorShr8 d0 d1 d2 d3 d4 d5 d6 d7).getD k 0 ≤ 57 * bound + 25 := by
  obtain ⟨h0, h1, h2, h3, h4, h5, h6, h7⟩ := h
  simp only [butterfly, floorShr8]
  match k with
  | 0 => simp only [List.getD_cons_zero]; omega
  | 1 => simp only [List.getD_cons_succ, List.getD_cons_zero]; omega
  | 2 => simp only [List.getD_cons_succ, List.getD_cons_zero]; omega
  | 3 => simp only [List.getD_cons_succ, List.getD_cons_zero]; omega
  | 4 => simp only [List.getD_cons_succ, List.getD_cons_zero]; omega
  | 5 => simp only [List.getD_cons_succ, List.getD_cons_zero]; omega
  | 6 => simp only [List.getD_cons_succ, List.getD_cons_zero]; omega
  | 7 => simp only [List.getD_cons_succ, List.getD_cons_zero]; omega
  | k + 8 =>
      simp only [List.getD_cons_succ, List.getD_nil]
      omega

end Pass

/-- Data that is small enough. -/
def Small (bound : ℤ) (data : BlockData) : Prop := ∀ place, -bound ≤ data place ∧ data place ≤ bound

theorem Small.bounded {bound : ℤ} (h : Small bound data) (p0 p1 p2 p3 p4 p5 p6 p7 : ℕ) :
    Bounded bound (data p0) (data p1) (data p2) (data p3) (data p4) (data p5) (data p6) (data p7) :=
  ⟨h p0, h p1, h p2, h p3, h p4, h p5, h p6, h p7⟩

theorem Small.mono {bound bound' : ℤ} (h : Small bound data) (hle : bound ≤ bound') :
    Small bound' data := by
  intro place
  have hplace := h place
  omega

theorem idct_eq_exactIdct (h : Small 126976 data) {place : ℕ} (hplace : place < 64) :
    idct data place = exactIdct data place := by
  have hcolumn : ∀ i, columnOf shr8 data i = columnOf floorShr8 data i := fun i =>
    butterfly_exact ((h.mono (by decide)).bounded _ _ _ _ _ _ _ _)
  have hsmall : Small 1450000 fun place =>
      (columnOf floorShr8 data (place % 8)).getD (place / 8) 0 := by
    intro place
    have hbounded := butterfly_bounded (h.bounded (place % 8) (8 + place % 8) (16 + place % 8)
      (24 + place % 8) (32 + place % 8) (40 + place % 8) (48 + place % 8) (56 + place % 8))
      (place / 8)
    show -1450000 ≤ (butterfly floorShr8 _ _ _ _ _ _ _ _).getD (place / 8) 0 ∧
      (butterfly floorShr8 _ _ _ _ _ _ _ _).getD (place / 8) 0 ≤ 1450000
    omega
  have hstore : (fun place => int32 ((columnOf shr8 data (place % 8)).getD (place / 8) 0)) =
      fun place => (columnOf floorShr8 data (place % 8)).getD (place / 8) 0 := by
    funext other
    have hother := hsmall other
    dsimp only at hother
    rw [hcolumn, int32_eq (by omega) (by omega)]
  have hrow := butterfly_bounded (hsmall.bounded (8 * (place / 8)) (8 * (place / 8) + 1)
    (8 * (place / 8) + 2) (8 * (place / 8) + 3) (8 * (place / 8) + 4) (8 * (place / 8) + 5)
    (8 * (place / 8) + 6) (8 * (place / 8) + 7)) (place % 8)
  rw [idct, exactIdct, transform_apply hplace, transform_apply hplace, hstore, rowOfBlock,
    rowOfBlock, butterfly_exact (hsmall.bounded _ _ _ _ _ _ _ _)]
  exact shr8_eq (by omega) (by omega)

/-! ## The coefficients of a block -/

theorem premultiplier_bounds (place : ℕ) :
    0 ≤ premultiplierMatrix.getD place 0 ∧ premultiplierMatrix.getD place 0 ≤ 62 := by
  have hall : ∀ value ∈ premultiplierMatrix, 0 ≤ value ∧ value ≤ 62 := by decide
  by_cases hplace : place < premultiplierMatrix.length
  · rw [List.getD_eq_getElem _ _ hplace]
    exact hall _ (List.getElem_mem hplace)
  · rw [List.getD_eq_default _ _ (by omega)]
    decide

theorem dequantize_bounds (q : Quantizer) (place : ℕ) (level : ℤ) :
    -2048 ≤ q.dequantize place level ∧ q.dequantize place level ≤ 2047 := by
  unfold Quantizer.dequantize
  dsimp only
  split_ifs <;> omega

theorem coefficient_bounds (q : Quantizer) (place : ℕ) (level : ℤ) :
    -126976 ≤ q.dequantize place level * premultiplierMatrix.getD place 0 ∧
      q.dequantize place level * premultiplierMatrix.getD place 0 ≤ 126976 := by
  obtain ⟨hlo, hhi⟩ := dequantize_bounds q place level
  obtain ⟨hplo, hphi⟩ := premultiplier_bounds place
  constructor <;> nlinarith

theorem Small.put (h : Small 126976 data) (q : Quantizer) (n : ℕ) (level : ℤ) :
    Small 126976 (q.put data n level) := by
  unfold Quantizer.put
  split
  · exact h
  · rename_i place _
    intro other
    by_cases hother : other = place
    · rw [hother, Function.update_self]
      exact coefficient_bounds q place level
    · rw [Function.update_of_ne hother]
      exact h other

theorem Small.putAll (h : Small 126976 data) (q : Quantizer) (n : ℕ) (coeffs : List (ℕ × ℤ)) :
    Small 126976 (q.putAll n data coeffs).2 := by
  induction coeffs generalizing n data with
  | nil => exact h
  | cons pair rest ih => exact ih (h.put q _ _) _

theorem small_zero : Small 126976 0 := fun _ => by simp

/-- Whatever coefficients a block has, the transform is exact: with the first one in the range
of a pixel, no number gets too large for 32 bits. -/
theorem block_transform_exact (q : Quantizer) (b : Block) (hdc : -255 ≤ b.dc ∧ b.dc ≤ 255)
    {place : ℕ} (hplace : place < 64) :
    idct (b.data q).2 place = exactIdct (b.data q).2 place := by
  refine idct_eq_exactIdct ?_ hplace
  unfold Block.data
  split
  · refine Small.putAll (fun other => ?_) q _ _
    by_cases hother : other = 0
    · rw [hother, Function.update_self, int32_eq (by omega) (by omega)]
      omega
    · rw [Function.update_of_ne hother]
      exact small_zero other
  · exact small_zero.putAll q _ _

theorem block_transform_exact_intra :
    idct (Block.data ⟨true, 31, List.replicate 64 83⟩ ⟨255, [(0, 255), (3, -255)]⟩).2 9 =
      exactIdct (Block.data ⟨true, 31, List.replicate 64 83⟩ ⟨255, [(0, 255), (3, -255)]⟩).2 9 :=
  block_transform_exact _ _ (by decide) (by decide)

/-! ## The shortcut -/

theorem int32_int32 (x : ℤ) : int32 (int32 x) = int32 x := by
  have hlo := BitVec.le_toInt (BitVec.ofInt 32 x)
  have hhi := BitVec.toInt_lt (x := BitVec.ofInt 32 x)
  exact int32_eq (by unfold int32; omega) (by unfold int32; omega)

theorem length_levels_cons (run : ℕ) (level : ℤ) (rest : List (ℕ × ℤ)) :
    (levels ((run, level) :: rest)).length = run + 1 + (levels rest).length := by
  simp only [levels, List.flatMap_cons, List.length_append, List.length_replicate,
    List.length_singleton]

theorem levels_eq_nil {coeffs : List (ℕ × ℤ)} (h : (levels coeffs).length = 0) : coeffs = [] := by
  cases coeffs with
  | nil => rfl
  | cons pair rest =>
      rw [length_levels_cons] at h
      omega

/-- A block that ends behind its first place has nothing but that. -/
theorem data_of_one (q : Quantizer) (b : Block) (h : (b.data q).1 = 1) :
    ∃ value, int32 value = value ∧ (b.data q).2 = Function.update (0 : BlockData) 0 value := by
  unfold Block.data at h ⊢
  split at h
  · rename_i hintra
    rw [q.putAll_fst] at h
    rw [if_pos hintra, levels_eq_nil (show (levels b.coeffs).length = 0 by omega)]
    exact ⟨int32 (b.dc * 256), int32_int32 _, rfl⟩
  · rename_i hinter
    rw [q.putAll_fst] at h
    rw [if_neg hinter]
    match hcoeffs : b.coeffs with
    | [] =>
        rw [hcoeffs] at h
        exact absurd h (by decide)
    | (run, level) :: rest =>
        rw [hcoeffs, length_levels_cons] at h
        obtain rfl : run = 0 := by omega
        obtain rfl : rest = [] := levels_eq_nil (by omega)
        have hbounds := coefficient_bounds q 0 level
        exact ⟨q.dequantize 0 level * premultiplierMatrix.getD 0 0,
          int32_eq (by omega) (by omega), rfl⟩

theorem butterfly_first (value : ℤ) :
    butterfly shr8 value 0 0 0 0 0 0 0 = List.replicate 8 value := by
  have hzero : shr8 128 = 0 := by decide
  simp [butterfly, hzero]

/-- A block with nothing but its first place is transformed to a constant. -/
theorem idct_first {value : ℤ} (h : int32 value = value) {place : ℕ} (hplace : place < 64) :
    idct (Function.update (0 : BlockData) 0 value) place = shr8 (value + 128) := by
  have hcolumn : ∀ other < 64,
      int32 ((columnOf shr8 (Function.update (0 : BlockData) 0 value) (other % 8)).getD
        (other / 8) 0) = if other % 8 = 0 then value else 0 := by
    intro other hother
    have hread : ∀ i, i ≠ 0 → Function.update (0 : BlockData) 0 value i = 0 := fun i hi =>
      Function.update_of_ne hi _ _
    have hlt : other / 8 < 8 := by omega
    rw [columnOf, hread (8 + _) (by omega), hread (16 + _) (by omega), hread (24 + _) (by omega),
      hread (32 + _) (by omega), hread (40 + _) (by omega), hread (48 + _) (by omega),
      hread (56 + _) (by omega), butterfly_first, List.getD_replicate _ hlt]
    split
    · rename_i hzero
      rw [hzero, Function.update_self, h]
    · rename_i hne
      rw [hread _ hne]
      decide
  have hrow : ∀ k < 8, int32 ((columnOf shr8 (Function.update (0 : BlockData) 0 value)
      ((8 * (place / 8) + k) % 8)).getD ((8 * (place / 8) + k) / 8) 0) =
        if k = 0 then value else 0 := by
    intro k hk
    rw [hcolumn _ (by omega)]
    exact if_congr (by omega) rfl rfl
  have hfirst := hrow 0 (by decide)
  rw [Nat.add_zero] at hfirst
  rw [idct, transform_apply hplace, rowOfBlock, hfirst, hrow 1 (by decide),
    hrow 2 (by decide), hrow 3 (by decide), hrow 4 (by decide), hrow 5 (by decide),
    hrow 6 (by decide), hrow 7 (by decide)]
  show shr8 ((butterfly shr8 value 0 0 0 0 0 0 0).getD (place % 8) 0 + 128) = shr8 (value + 128)
  rw [butterfly_first, List.getD_replicate _ (Nat.mod_lt _ (by decide))]

/-- The shortcut gives what the transform would give. -/
theorem blockValues_eq_idct (q : Quantizer) (b : Block) {place : ℕ} (hplace : place < 64) :
    blockValues (b.data q).1 (b.data q).2 place = idct (b.data q).2 place := by
  unfold blockValues
  split
  · rename_i hone
    obtain ⟨value, hvalue, hdata⟩ := data_of_one q b hone
    rw [hdata, idct_first hvalue hplace, Function.update_self]
  · rfl

/-- The array is zero again when the next block begins. -/
theorem afterBlock_eq_zero (q : Quantizer) (b : Block) :
    afterBlock (b.data q).1 (b.data q).2 = 0 := by
  unfold afterBlock
  split
  · rename_i hone
    obtain ⟨value, -, hdata⟩ := data_of_one q b hone
    rw [hdata, Function.update_idem, Function.update_eq_self_iff]
    rfl
  · rfl

end SsmIaas.Player
