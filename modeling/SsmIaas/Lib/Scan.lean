import Mathlib.Tactic.Common
import Mathlib.Algebra.Order.Group.Nat

/-!
# A counting loop that stops at the first hit

`for (index = lo; index < lo + n; index++) if (p (index)) break;` is the one
search loop of the modelled programs.  `scan p lo n` is the value of `index`
after it: the first hit, or `lo + n` when there is none.
-/

namespace SsmIaas.Lib

/-- The loop variable after scanning `n` places from `lo` for the first hit. -/
def scan (p : ℕ → Bool) : ℕ → ℕ → ℕ
  | lo, 0 => lo
  | lo, n + 1 => if p lo then lo else scan p (lo + 1) n

variable {p : ℕ → Bool}

theorem le_scan (lo n : ℕ) : lo ≤ scan p lo n := by
  induction n generalizing lo with
  | zero => exact le_rfl
  | succ n ih =>
      unfold scan
      split
      · exact le_rfl
      · exact (Nat.le_succ lo).trans (ih (lo + 1))

/-- A loop that ends before its bound has hit. -/
theorem scan_hit {lo n : ℕ} (h : scan p lo n < lo + n) : p (scan p lo n) = true := by
  induction n generalizing lo with
  | zero => simp [scan] at h
  | succ n ih =>
      by_cases hp : p lo
      · simp [scan, hp]
      · simp only [scan, hp] at h ⊢
        exact ih (by simp only [Bool.false_eq_true, if_false] at h; omega)

/-- Nothing before the place where the loop ended is a hit. -/
theorem scan_before {lo n j : ℕ} (hlo : lo ≤ j) (hj : j < scan p lo n) : p j = false := by
  induction n generalizing lo with
  | zero => simp [scan] at hj; omega
  | succ n ih =>
      by_cases hp : p lo
      · simp [scan, hp] at hj; omega
      · simp only [scan, hp, Bool.false_eq_true, if_false] at hj
        rcases hlo.lt_or_eq with hlt | rfl
        · exact ih hlt hj
        · simpa using hp

/-- A hit inside the bound stops the loop no later than there. -/
theorem scan_le_of_hit {lo n j : ℕ} (hlo : lo ≤ j) (hp : p j = true) : scan p lo n ≤ j := by
  by_contra hlt
  have := scan_before hlo (not_le.mp hlt)
  simp [hp] at this

theorem scan_lt_iff {lo n : ℕ} :
    scan p lo n < lo + n ↔ ∃ j, lo ≤ j ∧ j < lo + n ∧ p j = true := by
  refine ⟨?_, ?_⟩
  · intro h
    exact ⟨_, le_scan lo n, h, scan_hit h⟩
  · intro hcase
    obtain ⟨j, hlo, hj, hp⟩ := hcase
    exact (scan_le_of_hit hlo hp).trans_lt hj

/-- The first hit is where the loop stops. -/
theorem scan_eq {lo n j : ℕ} (hlo : lo ≤ j) (hj : j < lo + n) (hp : p j = true)
    (hbefore : ∀ i, lo ≤ i → i < j → p i = false) : scan p lo n = j := by
  refine le_antisymm (scan_le_of_hit hlo hp) ?_
  by_contra hlt
  have hstop : scan p lo n < j := not_le.mp hlt
  have := hbefore _ (le_scan lo n) hstop
  rw [scan_hit (hstop.trans hj)] at this
  simp at this

end SsmIaas.Lib
