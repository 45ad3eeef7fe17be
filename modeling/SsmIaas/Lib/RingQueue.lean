import Mathlib.Data.List.Basic
import Mathlib.Data.List.Range
import Mathlib.Data.Nat.ModEq
import Mathlib.Logic.Function.Basic
import Mathlib.Tactic.Common

/-!
# Queues in an array, and sequences up to repetition

* `window cells size head count` is the contents of a queue that is kept in an array of
  `size` cells: `count` of them, from `head` on, round the end of the array.  Every cell
  outside the window may be written without a trace (`window_update_of_ge`), and writing
  the first of them is what makes the queue longer (`window_update_last`).
* `changes first values` is what remains of a sequence of values when every value that is
  equal to the one before it is left out.  Two observers that look at one variable at
  different times see the same sequence up to `changes`.
-/

namespace SsmIaas.Lib

variable {α : Type*}

/-! ## The window of a ring -/

/-- The contents of `count` cells of a ring, from `head` on. -/
def window (cells : ℕ → α) (size head count : ℕ) : List α :=
  (List.range count).map fun i => cells ((head + i) % size)

section

variable (cells : ℕ → α) (size head : ℕ)

@[simp] theorem window_zero : window cells size head 0 = [] := rfl

@[simp] theorem length_window (count : ℕ) : (window cells size head count).length = count := by
  simp [window]

theorem window_succ (count : ℕ) :
    window cells size head (count + 1) =
      window cells size head count ++ [cells ((head + count) % size)] := by
  simp [window, List.range_succ]

theorem window_cons (count : ℕ) :
    window cells size head (count + 1) =
      cells (head % size) :: window cells size ((head + 1) % size) count := by
  have hshift : ∀ i, (head + (i + 1)) % size = ((head + 1) % size + i) % size := by
    intro i
    rw [Nat.mod_add_mod, Nat.add_assoc, Nat.add_comm i 1]
  simp only [window, List.range_succ_eq_map, List.map_cons, List.map_map, Nat.add_zero]
  exact congrArg _ (List.map_congr_left fun i _ => congrArg cells (hshift i))

end

section

variable {cells : ℕ → α} {size head : ℕ}

/-- Places of one ring are told apart by their distance from the head. -/
theorem add_mod_inj {i j : ℕ} (hi : i < size) (hj : j < size)
    (h : (head + i) % size = (head + j) % size) : i = j := by
  have hmod : Nat.ModEq size i j := Nat.ModEq.add_left_cancel' head h
  rwa [Nat.ModEq, Nat.mod_eq_of_lt hi, Nat.mod_eq_of_lt hj] at hmod

/-- A cell behind the window is not part of it. -/
theorem window_update_of_ge {count i : ℕ} (hcount : count ≤ i) (hi : i < size) (a : α) :
    window (Function.update cells ((head + i) % size) a) size head count =
      window cells size head count := by
  refine List.map_congr_left fun j hj => ?_
  have hlt := List.mem_range.mp hj
  rw [Function.update_of_ne]
  intro heq
  have := add_mod_inj (by omega) hi heq
  omega

/-- Writing the cell behind the window and counting it in. -/
theorem window_update_last {count : ℕ} (hcount : count < size) (a : α) :
    window (Function.update cells ((head + count) % size) a) size head (count + 1) =
      window cells size head count ++ [a] := by
  rw [window_succ, window_update_of_ge le_rfl hcount, Function.update_self]

/-- Writing the first cell. -/
theorem window_update_first {count : ℕ} (hcount : count < size) (a : α) :
    window (Function.update cells (head % size) a) size head (count + 1) =
      a :: window cells size ((head + 1) % size) count := by
  rw [window_cons, Function.update_self]
  refine congrArg (a :: ·) (List.map_congr_left fun i hi => ?_)
  have hlt := List.mem_range.mp hi
  rw [Function.update_of_ne]
  intro heq
  rw [Nat.mod_add_mod, Nat.add_assoc] at heq
  have := add_mod_inj (j := 0) (by omega) (by omega) heq
  omega

end

/-! ## Values without repetitions -/

section

variable [DecidableEq α]

/-- The values of a sequence that differ from the one before them. -/
def changes (first : α) : List α → List α
  | [] => []
  | a :: rest => if a = first then changes first rest else a :: changes a rest

theorem changes_append (first : α) (before after : List α) :
    changes first (before ++ after) =
      changes first before ++ changes (before.getLastD first) after := by
  induction before generalizing first with
  | nil => rfl
  | cons a rest ih =>
      rw [List.cons_append, changes, changes, List.getLastD_cons]
      split
      · rename_i heq
        rw [ih, heq]
      · rw [ih, List.cons_append]

theorem getLastD_changes (first : α) (values : List α) :
    (changes first values).getLastD first = values.getLastD first := by
  induction values generalizing first with
  | nil => rfl
  | cons a rest ih =>
      rw [changes, List.getLastD_cons]
      split
      · rename_i heq
        rw [ih, heq]
      · rw [List.getLastD_cons, ih]

/-- Two observers agree on where the value is now. -/
theorem getLastD_eq_of_changes_eq {first : α} {seen real : List α}
    (h : changes first seen = changes first real) : seen.getLastD first = real.getLastD first := by
  rw [← getLastD_changes, h, getLastD_changes]

/-- The same value is added on both sides. -/
theorem changes_concat_congr {first : α} {seen real : List α}
    (h : changes first seen = changes first real) (a : α) :
    changes first (seen ++ [a]) = changes first (real ++ [a]) := by
  rw [changes_append, changes_append, h, getLastD_eq_of_changes_eq h]

/-- A repetition is not seen, at the end of a sequence or within it. -/
theorem changes_concat_self (first : α) (values : List α) :
    changes first (values ++ [values.getLastD first]) = changes first values := by
  rw [changes_append]
  simp [changes]

theorem changes_repeat (first : α) (before : List α) (a : α) (after : List α) :
    changes first (before ++ [a] ++ a :: after) = changes first (before ++ a :: after) := by
  rw [List.append_cons before a after, changes_append first (before ++ [a]),
    changes_append first (before ++ [a]), List.getLastD_concat, changes, if_pos rfl]

end

end SsmIaas.Lib
