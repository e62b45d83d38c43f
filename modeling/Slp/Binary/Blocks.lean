import Mathlib.Algebra.Order.Group.Nat
import Mathlib.Data.List.Basic
import Mathlib.Data.Nat.Notation
import Mathlib.Tactic.Common

/-!
# Blocks of a text

The blocks of a fixed size that a text starts with, one behind the other, and the rest of it.

* `blocks`, `residue` : the whole blocks of a text, and what is behind the last of them;
* `blocks_append`, `residue_append` : what is appended counts from the last whole block on, so that
  a text that comes in parts is cut into the same blocks.
-/

namespace Slp

variable {α : Type*} {n : ℕ} {xs ys : List α}

/-- The whole blocks of `n` elements. -/
def blocks (n : ℕ) (xs : List α) : List (List α) :=
  (List.range (xs.length / n)).map fun k => (xs.drop (n * k)).take n

/-- What is behind the last whole block. -/
def residue (n : ℕ) (xs : List α) : List α := xs.drop (n * (xs.length / n))

theorem length_residue (n : ℕ) (xs : List α) : (residue n xs).length = xs.length % n := by
  rw [residue, List.length_drop, Nat.mod_eq_sub_mul_div]

theorem blocks_of_lt (hn : xs.length < n) : blocks n xs = [] := by
  rw [blocks, Nat.div_eq_of_lt hn]
  rfl

theorem residue_of_lt (hn : xs.length < n) : residue n xs = xs := by
  rw [residue, Nat.div_eq_of_lt hn, Nat.mul_zero, List.drop_zero]

/-- The first block. -/
theorem blocks_cons (hpos : 0 < n) (hn : n ≤ xs.length) :
    blocks n xs = xs.take n :: blocks n (xs.drop n) := by
  have hdiv : xs.length / n = (xs.drop n).length / n + 1 := by
    rw [List.length_drop, Nat.div_eq_sub_div hpos hn]
  rw [blocks, hdiv, List.range_succ_eq_map, List.map_cons, List.map_map, Nat.mul_zero,
    List.drop_zero]
  refine congrArg (xs.take n :: ·) (List.map_congr_left fun k _ => ?_)
  rw [Function.comp_apply, List.drop_drop, Nat.mul_succ, Nat.add_comm]

theorem residue_drop (hpos : 0 < n) (hn : n ≤ xs.length) :
    residue n (xs.drop n) = residue n xs := by
  rw [residue, residue, List.drop_drop, List.length_drop, Nat.div_eq_sub_div hpos hn, Nat.mul_succ,
    Nat.add_comm]

/-- Induction on the number of whole blocks. -/
theorem blockInduction (hpos : 0 < n) {P : List α → Prop} (short : ∀ xs, xs.length < n → P xs)
    (block : ∀ xs, n ≤ xs.length → P (xs.drop n) → P xs) (xs : List α) : P xs := by
  induction hlen : xs.length using Nat.strong_induction_on generalizing xs with
  | _ len ih =>
    rcases Nat.lt_or_ge xs.length n with hlt | hge
    · exact short xs hlt
    · exact block xs hge (ih (xs.drop n).length (by rw [List.length_drop]; omega) _ rfl)

/-- What is appended goes on from the residue. -/
theorem blocks_append (hpos : 0 < n) (xs ys : List α) :
    blocks n (xs ++ ys) = blocks n xs ++ blocks n (residue n xs ++ ys) := by
  induction xs using blockInduction hpos with
  | short xs hlt => rw [blocks_of_lt hlt, residue_of_lt hlt, List.nil_append]
  | block xs hge ih =>
    rw [blocks_cons hpos hge, ← residue_drop hpos hge, List.cons_append, ← ih,
      blocks_cons hpos (by rw [List.length_append]; omega), List.take_append_of_le_length hge,
      List.drop_append_of_le_length hge]

theorem residue_append (hpos : 0 < n) (xs ys : List α) :
    residue n (xs ++ ys) = residue n (residue n xs ++ ys) := by
  induction xs using blockInduction hpos with
  | short xs hlt => rw [residue_of_lt hlt]
  | block xs hge ih =>
    rw [← residue_drop hpos hge, ← ih, ← List.drop_append_of_le_length hge,
      residue_drop hpos (by rw [List.length_append]; omega)]

end Slp
