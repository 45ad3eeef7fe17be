import Mathlib.Data.List.Basic
import Mathlib.Tactic.Common

/-!
# Parts of a list

A buffer is a list of a fixed length that is written to in place.  `segment` is the part of
it between two positions, `overwrite` puts other elements over a part of it.
-/

namespace SsmIaas.Lib

variable {α : Type*}

/-- The elements from position `first` up to `last`. -/
def segment (first last : ℕ) (l : List α) : List α := (l.take last).drop first

/-- The list with `m` put over it at a position. -/
def overwrite (l m : List α) (position : ℕ) : List α :=
  l.take position ++ m ++ l.drop (position + m.length)

theorem getElem?_segment (first last : ℕ) (l : List α) (i : ℕ) :
    (segment first last l)[i]? = if first + i < last then l[first + i]? else none := by
  rw [segment, List.getElem?_drop, List.getElem?_take]

theorem getElem?_overwrite {l m : List α} {position : ℕ} (h : position + m.length ≤ l.length)
    (i : ℕ) :
    (overwrite l m position)[i]? =
      if position ≤ i ∧ i < position + m.length then m[i - position]? else l[i]? := by
  have htake : (l.take position).length = position := by rw [List.length_take]; omega
  rw [overwrite, List.append_assoc]
  by_cases hbefore : i < position
  · rw [List.getElem?_append_left (by omega), List.getElem?_take_of_lt hbefore,
      if_neg (by omega)]
  rw [List.getElem?_append_right (by omega), htake]
  by_cases hin : i < position + m.length
  · rw [List.getElem?_append_left (by omega), if_pos (by omega)]
  · rw [List.getElem?_append_right (by omega), List.getElem?_drop, if_neg (by omega),
      show position + m.length + (i - position - m.length) = i by omega]

@[simp] theorem length_overwrite {l m : List α} {position : ℕ}
    (h : position + m.length ≤ l.length) : (overwrite l m position).length = l.length := by
  simp only [overwrite, List.length_append, List.length_take, List.length_drop]
  omega

@[simp] theorem segment_self (first : ℕ) (l : List α) : segment first first l = [] :=
  List.drop_eq_nil_of_le (List.length_take_le _ _)

theorem segment_append {first middle last : ℕ} (hfirst : first ≤ middle) (hlast : middle ≤ last)
    (l : List α) :
    segment first middle l ++ segment middle last l = segment first last l := by
  have htake : (l.take last).take middle = l.take middle := by
    rw [List.take_take, Nat.min_eq_left hlast]
  calc segment first middle l ++ segment middle last l
      = ((l.take last).take middle).drop first ++ (l.take last).drop middle := by
        rw [htake, segment, segment]
    _ = segment first last l := by
        rw [segment, List.drop_take]
        nth_rewrite 2 [show middle = first + (middle - first) by omega]
        rw [← List.drop_drop, List.take_append_drop]

theorem length_segment {first last : ℕ} {l : List α} (h : last ≤ l.length) :
    (segment first last l).length = last - first := by
  rw [segment, List.length_drop, List.length_take, Nat.min_eq_left h]

section Overwrite

variable {l m : List α} {position first last : ℕ}

/-- What lies in front of a write is kept. -/
theorem segment_overwrite_before (h : position + m.length ≤ l.length) (hlast : last ≤ position) :
    segment first last (overwrite l m position) = segment first last l := by
  refine List.ext_getElem? fun i => ?_
  rw [getElem?_segment, getElem?_segment, getElem?_overwrite h]
  split
  · rw [if_neg (by omega)]
  · rfl

/-- What lies behind a write is kept. -/
theorem segment_overwrite_behind (h : position + m.length ≤ l.length)
    (hfirst : position + m.length ≤ first) :
    segment first last (overwrite l m position) = segment first last l := by
  refine List.ext_getElem? fun i => ?_
  rw [getElem?_segment, getElem?_segment, getElem?_overwrite h,
    if_neg (show ¬ (position ≤ first + i ∧ first + i < position + m.length) by omega)]

/-- What was written is there. -/
theorem segment_overwrite_self (h : position + m.length ≤ l.length) :
    segment position (position + m.length) (overwrite l m position) = m := by
  refine List.ext_getElem? fun i => ?_
  rw [getElem?_segment, getElem?_overwrite h]
  by_cases hi : i < m.length
  · rw [if_pos (by omega), if_pos (by omega), Nat.add_sub_cancel_left]
  · rw [if_neg (by omega), List.getElem?_eq_none (by omega)]

/-- A write right behind a part makes the part longer. -/
theorem segment_overwrite_append (h : position + m.length ≤ l.length) (hfirst : first ≤ position) :
    segment first (position + m.length) (overwrite l m position) =
      segment first position l ++ m := by
  rw [← segment_append hfirst (Nat.le_add_right _ _), segment_overwrite_before h (Nat.le_refl _),
    segment_overwrite_self h]

/-- Two writes next to each other are one. -/
theorem overwrite_overwrite {m' : List α} (h : position + (m ++ m').length ≤ l.length) :
    overwrite (overwrite l m position) m' (position + m.length) =
      overwrite l (m ++ m') position := by
  have hlength : position + m.length + m'.length ≤ l.length := by
    rwa [List.length_append, ← Nat.add_assoc] at h
  have hfits : position + m.length ≤ l.length := by omega
  refine List.ext_getElem? fun i => ?_
  rw [getElem?_overwrite (by rwa [length_overwrite hfits]), getElem?_overwrite hfits,
    getElem?_overwrite h, List.length_append]
  by_cases hback : position + m.length ≤ i ∧ i < position + m.length + m'.length
  · rw [if_pos hback, if_pos (by omega), List.getElem?_append_right (by omega), Nat.sub_sub]
  rw [if_neg hback]
  by_cases hfront : position ≤ i ∧ i < position + m.length
  · rw [if_pos hfront, if_pos (by omega), List.getElem?_append_left (by omega)]
  · rw [if_neg hfront, if_neg (by omega)]

end Overwrite

/-! ## Loops that change one element a round -/

section Modify

variable {index : ℕ → ℕ} {f : ℕ → α → α} {n : ℕ} {l : List α}

theorem getElem?_foldl_modify_of_ne {i : ℕ} (h : ∀ k < n, index k ≠ i) :
    ((List.range n).foldl (fun l k => l.modify (index k) (f k)) l)[i]? = l[i]? := by
  induction n with
  | zero => rfl
  | succ n ih =>
      rw [List.range_succ, List.foldl_append, List.foldl_cons, List.foldl_nil,
        List.getElem?_modify_ne _ _ (h n (by omega)), ih fun k hk => h k (by omega)]

theorem getElem?_foldl_modify (hindex : ∀ j < n, ∀ k < n, index j = index k → j = k) {k : ℕ}
    (hk : k < n) :
    ((List.range n).foldl (fun l k => l.modify (index k) (f k)) l)[index k]? =
      l[index k]?.map (f k) := by
  induction n with
  | zero => omega
  | succ n ih =>
      rw [List.range_succ, List.foldl_append, List.foldl_cons, List.foldl_nil]
      by_cases hlast : k = n
      · subst hlast
        rw [List.getElem?_modify_eq, getElem?_foldl_modify_of_ne]
        · rfl
        · intro j hj heq
          have hsame := hindex j (by omega) k (by omega) heq
          omega
      · rw [List.getElem?_modify_ne, ih (fun j hj k hk => hindex j (by omega) k (by omega))
          (by omega)]
        intro heq
        exact hlast (hindex n (by omega) k hk heq).symm

end Modify

end SsmIaas.Lib
