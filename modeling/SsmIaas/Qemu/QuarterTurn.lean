import Mathlib.Data.Set.Function
import SsmIaas.Qemu.AndroidTouch

/-!
# The index arithmetic of the quarter turn

`make_frameData` computes where pixel `i` of the screen goes from `i % h` and `i / h`.
Within the picture the subtraction in it never gets below zero, every pixel is reached from
exactly one pixel of the screen, and two turns in a row, of the screen and of the picture,
are the half turn `i ↦ w * h - 1 - i`.  So four of them change nothing (`quarter_turn`).
-/

namespace SsmIaas.Qemu

open Lib

section

variable {w h i : ℕ}

theorem turnedIndex_lt (hi : i < w * h) : turnedIndex w h i < w * h := by
  obtain ⟨xs, ys, hxs, hys, rfl⟩ := exists_pixel (Nat.mul_comm w h ▸ hi)
  rw [turnedIndex_pixel hxs]
  exact index_lt (by omega) hxs

/-- No truncation: the formula is the same with integers. -/
theorem cast_turnedIndex (hi : i < w * h) :
    (turnedIndex w h i : ℤ) = w * (i % h) + ((w - 1) - i / h) := by
  have hrow : i / h < w := Nat.div_lt_of_lt_mul (Nat.mul_comm w h ▸ hi)
  have hcolumn : (w - 1) - i / h + (i / h + 1) = w := by omega
  have hcast : (((w - 1) - i / h : ℕ) : ℤ) = (w - 1) - i / h := by
    have hsum : (((w - 1) - i / h + (i / h + 1) : ℕ) : ℤ) = w := by rw [hcolumn]
    push_cast at hsum ⊢
    omega
  simp only [turnedIndex]
  push_cast [hcast]
  ring

/-- The turned picture has the pixels of the screen, each of them once. -/
theorem bijOn_turnedIndex (w h : ℕ) :
    Set.BijOn (turnedIndex w h) (Set.Iio (w * h)) (Set.Iio (w * h)) := by
  have hinverse : Set.InvOn (screenIndex w h) (turnedIndex w h) (Set.Iio (w * h))
      (Set.Iio (w * h)) := by
    refine ⟨fun i hi => screenIndex_turnedIndex hi, fun index hindex => ?_⟩
    obtain ⟨xd, yd, hxd, hyd, rfl⟩ := exists_pixel hindex
    exact turnedIndex_screenIndex hxd hyd
  have hback : Set.MapsTo (screenIndex w h) (Set.Iio (w * h)) (Set.Iio (w * h)) := by
    intro index hindex
    obtain ⟨xd, yd, hxd, hyd, rfl⟩ := exists_pixel hindex
    exact screenIndex_lt hxd hyd
  exact hinverse.bijOn (fun i hi => turnedIndex_lt hi) hback

/-- Two quarter turns are a half turn. -/
theorem turnedIndex_twice (hi : i < w * h) :
    turnedIndex h w (turnedIndex w h i) = w * h - 1 - i := by
  obtain ⟨xs, ys, hxs, hys, rfl⟩ := exists_pixel (Nat.mul_comm w h ▸ hi)
  obtain ⟨below, rfl⟩ : ∃ below, w = ys + 1 + below := ⟨w - (ys + 1), by omega⟩
  have hcolumn : (ys + 1 + below - 1) - ys = below := by omega
  have hsize : (ys + 1 + below) * h = h * ys + h + h * below := by ring
  rw [turnedIndex_pixel hxs, turnedIndex_pixel (by omega), hcolumn, hsize]
  omega

end

/-- **Quarter turns.**  The index of the turned picture is computed without truncation, it is
a permutation of the indices of the picture, and four turns are the identity. -/
theorem quarter_turn (w h : ℕ) :
    (∀ i < w * h, (turnedIndex w h i : ℤ) = w * (i % h) + ((w - 1) - i / h)) ∧
    Set.BijOn (turnedIndex w h) (Set.Iio (w * h)) (Set.Iio (w * h)) ∧
    ∀ i < w * h,
      turnedIndex h w (turnedIndex w h (turnedIndex h w (turnedIndex w h i))) = i := by
  refine ⟨fun i hi => cast_turnedIndex hi, bijOn_turnedIndex w h, fun i hi => ?_⟩
  have hhalf : w * h - 1 - i < w * h := by omega
  rw [turnedIndex_twice hi, turnedIndex_twice hhalf]
  omega

end SsmIaas.Qemu
