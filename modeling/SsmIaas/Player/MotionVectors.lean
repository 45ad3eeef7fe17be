import SsmIaas.Player.Blocks

/-!
# Motion vectors

A motion vector is sent as its difference to the one before.  The difference is reduced to
half the range of the vectors, since the decoder comes back at the other end when it leaves
the range, and is sent in two parts: a word of the table `MOTION`, and as many low bits as
the picture says.

`reads_decodeMotionVector`: if a difference leads from one vector in the range to another,
then the decoder gets there.  `exists_motionCode`: there is such a difference for any two.
-/

namespace SsmIaas.Player

open Lib

/-- The difference `d`, with `forwardF = 1 << forwardRSize`. -/
def motionDifference (forwardRSize : ℕ) : Parser ℤ := do
  let code ← readCode motion
  if code ≠ 0 ∧ (2 : ℤ) ^ forwardRSize ≠ 1 then
    let r ← getBits forwardRSize
    let d := ((code.natAbs : ℤ) - 1) * 2 ^ forwardRSize + r + 1
    return if code < 0 then -d else d
  else return code

/-- A vector that has left the range comes back at the other end. -/
def wrapMotion (forwardRSize : ℕ) (vector : ℤ) : ℤ :=
  if vector > 2 ^ forwardRSize * 16 - 1 then vector - 2 ^ forwardRSize * 32
  else if vector < -2 ^ forwardRSize * 16 then vector + 2 ^ forwardRSize * 32
  else vector

/-- One direction of `decodeMotionVectors ()`: the new `motionFwHPrev` or `motionFwVPrev`. -/
def decodeMotionVector (forwardRSize : ℕ) (prev : ℤ) : Parser ℤ := do
  let d ← motionDifference forwardRSize
  return wrapMotion forwardRSize (prev + d)

/-- The vectors of a picture. -/
def InRange (forwardRSize : ℕ) (vector : ℤ) : Prop :=
  -(2 ^ forwardRSize * 16) ≤ vector ∧ vector < 2 ^ forwardRSize * 16

instance (forwardRSize : ℕ) (vector : ℤ) : Decidable (InRange forwardRSize vector) :=
  inferInstanceAs (Decidable (_ ∧ _))

/-- The bits of a difference. -/
inductive MotionCode (forwardRSize : ℕ) : ℤ → List Bool → Prop
  | zero {word : List Bool} (h : Codeword motion word 0) : MotionCode forwardRSize 0 word
  | whole {word : List Bool} {code : ℤ} (hsize : forwardRSize = 0) (h : Codeword motion word code)
      (hcode : -16 ≤ code ∧ code ≤ 16) : MotionCode forwardRSize code word
  | parts {word : List Bool} {negative : Bool} {high low : ℕ} (hsize : 0 < forwardRSize)
      (h : Codeword motion word (signed negative (high + 1))) (hhigh : high < 16)
      (hlow : low < 2 ^ forwardRSize) :
      MotionCode forwardRSize (signed negative (high * 2 ^ forwardRSize + low + 1))
        (word ++ toBits forwardRSize low)

/-- The difference leads from one vector to another, perhaps around the range. -/
def LeadsTo (forwardRSize : ℕ) (prev d vector : ℤ) : Prop :=
  prev + d = vector ∨ prev + d = vector + 2 ^ forwardRSize * 32 ∨
    prev + d = vector - 2 ^ forwardRSize * 32

section

variable {forwardRSize : ℕ} {d : ℤ} {bits : List Bool}

theorem reads_motionDifference (h : MotionCode forwardRSize d bits) (hsize : forwardRSize ≤ 6) :
    Reads (motionDifference forwardRSize) bits d := by
  rw [motionDifference]
  cases h with
  | zero h =>
      refine (reads_readCode h).bind_nil ?_
      rw [if_neg (by simp)]
      exact reads_pure _
  | whole hzero h hcode =>
      refine (reads_readCode h).bind_nil ?_
      rw [if_neg (by simp [hzero])]
      exact reads_pure _
  | @parts word negative high low hpos h hhigh hlow =>
      have hcode : signed negative ((high : ℤ) + 1) ≠ 0 := by
        cases negative <;> simp only [signed_false, signed_true] <;> omega
      have hsizes : (2 : ℤ) ^ forwardRSize ≠ 1 := by
        have hlt : (2 : ℤ) ^ 0 < 2 ^ forwardRSize := pow_lt_pow_right₀ (by decide) hpos
        simpa using hlt.ne'
      have habs : ((signed negative ((high : ℤ) + 1)).natAbs : ℤ) - 1 = high := by
        cases negative <;> simp only [signed_false, signed_true] <;> omega
      refine (reads_readCode h).bind ?_
      rw [if_pos ⟨hcode, hsizes⟩]
      refine (reads_toBits (by omega) hlow).bind_nil ?_
      dsimp only
      rw [habs]
      cases negative with
      | false =>
          rw [if_neg (by rw [signed_false]; omega)]
          exact reads_pure _
      | true =>
          rw [if_pos (by rw [signed_true]; omega)]
          exact reads_pure _

/-- **Motion vectors.**  A difference that leads from one vector to another in the range is
read to its end, and gives the other. -/
theorem reads_decodeMotionVector (h : MotionCode forwardRSize d bits) (hsize : forwardRSize ≤ 6)
    {prev vector : ℤ} (hvector : InRange forwardRSize vector)
    (hleads : LeadsTo forwardRSize prev d vector) :
    Reads (decodeMotionVector forwardRSize prev) bits vector := by
  refine (reads_motionDifference h hsize).bind_nil ?_
  have hwrap : wrapMotion forwardRSize (prev + d) = vector := by
    obtain ⟨hlow, hhigh⟩ := hvector
    simp only [LeadsTo, wrapMotion] at hleads ⊢
    generalize (2 : ℤ) ^ forwardRSize = f at hlow hhigh hleads ⊢
    split_ifs <;> omega
  rw [hwrap]
  exact reads_pure _

/-! ## Every vector can be sent -/

/-- The words of `MOTION` for -16 to 16, each by its length and its number. -/
def motionWords : List (ℕ × ℕ) := [
  (11, 25), (11, 27), (11, 29), (11, 31), (11, 33), (11, 35), (10, 19), (10, 21), (10, 23),
  (8, 7), (8, 9), (8, 11), (7, 7), (5, 3), (4, 3), (3, 3), (1, 1), (3, 2), (4, 2), (5, 2), (7, 6),
  (8, 10), (8, 8), (8, 6), (10, 22), (10, 20), (10, 18), (11, 34), (11, 32), (11, 30), (11, 28),
  (11, 26), (11, 24)]

theorem codeword_motionWords : ∀ i < 33, Codeword motion
    (toBits (motionWords.getD i 0).1 (motionWords.getD i 0).2) ((i : ℤ) - 16) := by
  decide +kernel

theorem exists_codeword_motion {code : ℤ} (h : -16 ≤ code ∧ code ≤ 16) :
    ∃ word, Codeword motion word code := by
  have hword := codeword_motionWords (code + 16).toNat (by omega)
  rw [show ((code + 16).toNat : ℤ) - 16 = code by omega] at hword
  exact ⟨_, hword⟩

/-- Any difference up to half the range has a code. -/
theorem exists_motionCode (hd : InRange forwardRSize d) :
    ∃ bits, MotionCode forwardRSize d bits := by
  obtain ⟨hlow, hhigh⟩ := hd
  by_cases hzero : d = 0
  · obtain ⟨word, hword⟩ := exists_codeword_motion (show -16 ≤ (0 : ℤ) ∧ (0 : ℤ) ≤ 16 by decide)
    exact ⟨word, hzero ▸ .zero hword⟩
  rcases Nat.eq_zero_or_pos forwardRSize with hsize | hsize
  · rw [hsize] at hlow hhigh
    obtain ⟨word, hword⟩ := exists_codeword_motion (show -16 ≤ d ∧ d ≤ 16 by omega)
    exact ⟨word, .whole hsize hword (by omega)⟩
  · -- the amount, counted from 0, is taken apart at the low bits
    have hpos : 0 < 2 ^ forwardRSize := by positivity
    have hamount : d.natAbs - 1 < 16 * 2 ^ forwardRSize := by
      have hcast : ((16 * 2 ^ forwardRSize : ℕ) : ℤ) = 2 ^ forwardRSize * 16 := by push_cast; ring
      omega
    have hparts : (((d.natAbs - 1) / 2 ^ forwardRSize : ℕ) : ℤ) * 2 ^ forwardRSize +
        ((d.natAbs - 1) % 2 ^ forwardRSize : ℕ) + 1 = d.natAbs := by
      have hdiv := Nat.div_add_mod (d.natAbs - 1) (2 ^ forwardRSize)
      rw [Nat.mul_comm] at hdiv
      have hall : (d.natAbs - 1) / 2 ^ forwardRSize * 2 ^ forwardRSize +
          (d.natAbs - 1) % 2 ^ forwardRSize + 1 = d.natAbs := by omega
      exact_mod_cast hall
    have hsixteen : (d.natAbs - 1) / 2 ^ forwardRSize < 16 :=
      (Nat.div_lt_iff_lt_mul hpos).mpr hamount
    have hsigned : signed (decide (d < 0)) (d.natAbs : ℤ) = d := by
      by_cases hneg : d < 0 <;> simp only [hneg, decide_true, decide_false, signed_true,
        signed_false] <;> omega
    obtain ⟨word, hword⟩ : ∃ word, Codeword motion word
        (signed (decide (d < 0)) (((d.natAbs - 1) / 2 ^ forwardRSize : ℕ) + 1)) := by
      apply exists_codeword_motion
      generalize (d.natAbs - 1) / 2 ^ forwardRSize = high at hsixteen ⊢
      cases decide (d < 0) <;> simp only [signed_true, signed_false] <;> omega
    have hcode := MotionCode.parts hsize hword hsixteen
      (Nat.mod_lt (d.natAbs - 1) hpos)
    rw [hparts, hsigned] at hcode
    exact ⟨_, hcode⟩

/-- **Encoders exist.**  For any two vectors in the range there is a code that leads from one
to the other. -/
theorem exists_leadsTo {prev vector : ℤ} (hprev : InRange forwardRSize prev)
    (hvector : InRange forwardRSize vector) :
    ∃ d bits, MotionCode forwardRSize d bits ∧ LeadsTo forwardRSize prev d vector := by
  obtain ⟨d, hd, hleads⟩ : ∃ d, InRange forwardRSize d ∧ LeadsTo forwardRSize prev d vector := by
    simp only [InRange, LeadsTo] at hprev hvector ⊢
    generalize (2 : ℤ) ^ forwardRSize = f at hprev hvector ⊢
    by_cases hbelow : vector - prev < -(f * 16)
    · exact ⟨vector - prev + f * 32, by omega, by omega⟩
    by_cases habove : vector - prev < f * 16
    · exact ⟨vector - prev, by omega, by omega⟩
    · exact ⟨vector - prev - f * 32, by omega, by omega⟩
  obtain ⟨bits, hbits⟩ := exists_motionCode hd
  exact ⟨d, bits, hbits, hleads⟩

end

end SsmIaas.Player
