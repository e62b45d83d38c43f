import Mathlib.Algebra.Order.Group.Int
import Mathlib.Data.Int.Notation
import Mathlib.Data.List.TakeDrop
import Mathlib.Tactic.Common

/-!
# Slices

A part of a list between two indexes, or from an index on, and a list with another one in the place
of a part.  An index below zero counts from the end, and a range that is too long ends where the list
ends.
-/

namespace Slp

namespace Slice

variable {α : Type*}

/-- The position of an index. -/
def position (n : ℕ) (i : ℤ) : ℤ := if i < 0 then i + n else i

/-- The elements from one index up to another one, if the first is not behind the second. -/
def slice (xs : List α) (start stop : ℤ) : Option (List α) :=
  let first := position xs.length start
  let last := min (position xs.length stop) xs.length
  if 0 ≤ first ∧ first ≤ last then some ((xs.drop first.toNat).take (last.toNat - first.toNat))
  else none

/-- So many elements from an index on. -/
def segment (xs : List α) (start : ℤ) (count : ℕ) : Option (List α) :=
  let first := position xs.length start
  if 0 ≤ first ∧ first ≤ xs.length then some ((xs.drop first.toNat).take count) else none

/-- The list with `ys` in the place of so many elements from a position on. -/
def splice (xs ys : List α) (first count : ℕ) : List α := xs.take first ++ ys ++ xs.drop (first + count)

/-- An index that counts from the end, and so many elements on an index that counts from the
beginning. -/
def Crosses (n : ℕ) (start count : ℤ) : Prop :=
  start < 0 ∧ 0 ≤ start + n ∧ 0 ≤ start + count ∧ start + count < n

instance (n : ℕ) (start count : ℤ) : Decidable (Crosses n start count) :=
  inferInstanceAs (Decidable (_ ∧ _))

variable {xs ys : List α} {n first count : ℕ} {start stop : ℤ}

@[simp] theorem position_length (n : ℕ) : position n n = n := if_neg (by omega)

theorem slice_of_le (hfirst : 0 ≤ position xs.length start)
    (hle : position xs.length start ≤ min (position xs.length stop) xs.length) :
    slice xs start stop = some ((xs.drop (position xs.length start).toNat).take
      ((min (position xs.length stop) xs.length).toNat - (position xs.length start).toNat)) :=
  if_pos ⟨hfirst, hle⟩

theorem slice_eq_none : slice xs start stop = none ↔
    position xs.length start < 0 ∨ min (position xs.length stop) xs.length < position xs.length start := by
  unfold slice
  dsimp only
  split_ifs with hin
  · simp only [false_iff]
    omega
  · simp only [true_iff]
    omega

/-- A slice up to the end is a segment, of any length that reaches there. -/
theorem take_drop_of_le {p : ℕ} (hcount : xs.length ≤ p + count) :
    (xs.drop p).take count = xs.drop p := List.take_of_length_le (by rw [List.length_drop]; omega)

/-- A segment is the slice to the sum of the index and the length, unless that is an index from the
other end. -/
theorem segment_eq_slice_iff :
    segment xs start count = slice xs start (start + count) ↔ ¬Crosses xs.length start count := by
  unfold segment slice Crosses position
  dsimp only
  by_cases hneg : start < 0
  · rw [if_pos hneg]
    by_cases hstop : start + count < 0
    · -- both count from the end
      rw [if_pos hstop]
      refine iff_of_true ?_ fun hcross => by omega
      by_cases hfirst : 0 ≤ start + xs.length
      · rw [if_pos ⟨hfirst, by omega⟩, if_pos ⟨hfirst, by omega⟩]
        congr 2
        omega
      · rw [if_neg fun hin => hfirst hin.1, if_neg fun hin => hfirst hin.1]
    · rw [if_neg hstop]
      by_cases hfirst : 0 ≤ start + xs.length
      · rw [if_pos ⟨hfirst, by omega⟩]
        by_cases hover : (xs.length : ℤ) ≤ start + count
        · refine iff_of_true ?_ fun hcross => by omega
          rw [if_pos ⟨hfirst, by omega⟩, take_drop_of_le (by omega), take_drop_of_le (by omega)]
        · -- the slice ends too early, if it is one at all
          refine iff_of_false ?_ (not_not.2 ⟨hneg, hfirst, by omega, by omega⟩)
          intro heq
          split_ifs at heq with hle
          · have hlength := congrArg List.length (Option.some.inj heq)
            rw [List.length_take, List.length_take, List.length_drop] at hlength
            omega
      · rw [if_neg fun hin => hfirst hin.1, if_neg fun hin => hfirst hin.1]
        exact iff_of_true rfl fun hcross => hfirst hcross.2.1
  · rw [if_neg hneg, if_neg (show ¬start + count < 0 by omega)]
    refine iff_of_true ?_ fun hcross => hneg hcross.1
    by_cases hfirst : start ≤ xs.length
    · rw [if_pos ⟨by omega, hfirst⟩, if_pos (show 0 ≤ start ∧ start ≤ min (start + count) (xs.length : ℤ) by omega)]
      by_cases hover : (xs.length : ℤ) ≤ start + count
      · rw [take_drop_of_le (by omega), take_drop_of_le (by omega)]
      · congr 2
        omega
    · rw [if_neg fun hin => hfirst hin.2,
        if_neg (show ¬(0 ≤ start ∧ start ≤ min (start + count) (xs.length : ℤ)) by omega)]

/-- The part that was asked for is one of the list. -/
theorem Crosses.segment_ne_none {n : ℤ} (hcross : Crosses xs.length start n) (count : ℕ) :
    segment xs start count ≠ none := by
  obtain ⟨hneg, hfirst, -⟩ := hcross
  unfold segment position
  rw [if_pos hneg, if_pos ⟨hfirst, by omega⟩]
  exact Option.some_ne_none _

theorem length_splice (hfirst : first ≤ xs.length) :
    (splice xs ys first count).length = first + ys.length + (xs.length - (first + count)) := by
  rw [splice, List.length_append, List.length_append, List.length_take, List.length_drop,
    min_eq_left hfirst]

/-- A range that is too long is cut at the end. -/
theorem splice_min (hfirst : first ≤ xs.length) :
    splice xs ys first (min count (xs.length - first)) = splice xs ys first count := by
  unfold splice
  by_cases hcount : count ≤ xs.length - first
  · rw [min_eq_left hcount]
  · rw [min_eq_right (by omega), List.drop_of_length_le (by omega), List.drop_of_length_le (by omega)]

/-- Nothing changes exactly when a part is put in its own place. -/
theorem splice_eq_self_iff :
    splice xs ys first count = xs ↔ (xs.drop first).take count = ys := by
  have hself : xs = xs.take first ++ (xs.drop first).take count ++ xs.drop (first + count) := by
    rw [List.append_assoc, ← List.drop_drop, List.take_append_drop, List.take_append_drop]
  constructor
  · intro heq
    have hparts := hself.symm.trans heq.symm
    rw [splice, List.append_assoc, List.append_assoc] at hparts
    exact List.append_cancel_right (List.append_cancel_left hparts)
  · rintro rfl
    exact hself.symm

end Slice

end Slp
