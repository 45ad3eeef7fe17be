import Mathlib.Data.List.Basic
import Mathlib.Data.Nat.ModEq
import Mathlib.Tactic.Common

/-!
# A stream cut into pieces, and names on a ring

Two facts about a stream that is stored piece by piece under a bounded number of
names.

* `piece size stream n` is the `n`-th run of `size` elements.  A full piece does
  not change when the stream grows (`piece_append_of_full`), the last one grows
  with it (`piece_append_last`), and the first pieces put together are a prefix
  of the stream (`flatten_pieces`).
* `ringName size n` is the name of piece `n` when names are used in turn, from 1
  to `size`.  Names tell pieces apart as long as these are fewer than `size` apart
  (`ringName_inj`), and no longer (`ringName_add_size`).
-/

namespace SsmIaas.Lib

/-! ## Pieces -/

variable {α : Type*}

/-- The `n`-th piece of a stream; the last one may be shorter. -/
def piece (size : ℕ) (stream : List α) (n : ℕ) : List α := (stream.drop (size * n)).take size

theorem piece_eq_nil {size n : ℕ} {stream : List α} (h : stream.length ≤ size * n) :
    piece size stream n = [] := by
  rw [piece, List.drop_eq_nil_of_le h, List.take_nil]

theorem length_piece {size n : ℕ} {stream : List α} (h : size * (n + 1) ≤ stream.length) :
    (piece size stream n).length = size := by
  rw [Nat.mul_succ] at h
  rw [piece, List.length_take, List.length_drop]
  omega

/-- A full piece stays as it is. -/
theorem piece_append_of_full {size n : ℕ} {stream : List α} (more : List α)
    (h : size * (n + 1) ≤ stream.length) : piece size (stream ++ more) n = piece size stream n := by
  rw [Nat.mul_succ] at h
  rw [piece, piece, List.drop_append_of_le_length (by omega), List.take_append_of_le_length]
  rw [List.length_drop]
  omega

/-- The piece that is not full yet grows with the stream. -/
theorem piece_append_last {size n : ℕ} {stream : List α} (a : α) (hstart : size * n ≤ stream.length)
    (hroom : stream.length < size * (n + 1)) :
    piece size (stream ++ [a]) n = piece size stream n ++ [a] := by
  rw [Nat.mul_succ] at hroom
  have hlast : (stream.drop (size * n)).length < size := by
    rw [List.length_drop]
    omega
  rw [piece, piece, List.drop_append_of_le_length hstart,
    List.take_of_length_le (Nat.le_of_lt hlast), List.take_of_length_le]
  rw [List.length_append, List.length_singleton]
  omega

/-- The first pieces, put together, are the beginning of the stream. -/
theorem flatten_pieces (size : ℕ) (stream : List α) (count : ℕ) :
    ((List.range count).map (piece size stream)).flatten = stream.take (size * count) := by
  induction count with
  | zero => simp
  | succ count ih =>
      rw [List.range_succ, List.map_append, List.flatten_append, ih, Nat.mul_succ, List.take_add]
      simp [piece]

/-- The elements of a piece are those between its two ends. -/
theorem getElem?_of_mem_piece {size n : ℕ} {stream : List α} {a : α} (h : a ∈ piece size stream n) :
    ∃ i, size * n ≤ i ∧ i < size * (n + 1) ∧ stream[i]? = some a := by
  obtain ⟨j, hj⟩ := List.mem_iff_getElem?.mp h
  rw [piece, List.getElem?_take] at hj
  split at hj
  · rename_i hlt
    rw [List.getElem?_drop] at hj
    exact ⟨size * n + j, Nat.le_add_right _ _, by rw [Nat.mul_succ]; omega, hj⟩
  · simp at hj

/-! ## Names -/

/-- The name of piece `n` on a ring of `size` names that are counted from 1. -/
def ringName (size n : ℕ) : ℕ := n % size + 1

theorem ringName_succ {size : ℕ} (hsize : 0 < size) (n : ℕ) :
    (if ringName size n = size then 1 else ringName size n + 1) = ringName size (n + 1) := by
  have hlt := Nat.mod_lt n hsize
  have hmod : (n + 1) % size = (n % size + 1) % size := by simp
  unfold ringName
  rw [hmod]
  split
  · rename_i hlast
    rw [hlast, Nat.mod_self]
  · rw [Nat.mod_eq_of_lt (by omega : n % size + 1 < size)]

theorem ringName_add_size (size n : ℕ) : ringName size (n + size) = ringName size n := by
  simp [ringName]

theorem ringName_inj {size m n : ℕ} (hle : m ≤ n) (hlt : n < m + size)
    (h : ringName size m = ringName size n) : m = n := by
  have hmod : Nat.ModEq size m n := by
    simpa [ringName, Nat.ModEq] using h
  have hdvd := (Nat.modEq_iff_dvd' hle).mp hmod
  have hzero := Nat.eq_zero_of_dvd_of_lt hdvd (by omega)
  omega

/-- Two pieces of one window, a ring long, have different names. -/
theorem ringName_ne {size start m n : ℕ} (hm : start ≤ m ∧ m < start + size)
    (hn : start ≤ n ∧ n < start + size) (hne : m ≠ n) : ringName size m ≠ ringName size n := by
  intro heq
  rcases Nat.le_total m n with hle | hle
  · exact hne (ringName_inj hle (by omega) heq)
  · exact hne (ringName_inj hle (by omega) heq.symm).symm

end SsmIaas.Lib
