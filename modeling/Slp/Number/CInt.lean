import Mathlib.Algebra.Order.Group.Int
import Mathlib.Data.Int.Notation
import Mathlib.Tactic.Common

/-!
# The type `int` of C

An `int` has 32 bits.  An operation whose result does not fit has no defined behaviour.
-/

namespace Slp

namespace CInt

/-- The numbers that an `int` holds. -/
def IsInt (n : ℤ) : Prop := -2147483648 ≤ n ∧ n ≤ 2147483647

instance (n : ℤ) : Decidable (IsInt n) := inferInstanceAs (Decidable (_ ∧ _))

/-- The result of an operation, if it fits. -/
def checked (n : ℤ) : Option ℤ := if IsInt n then some n else none

/-- The conversion of a `uint32_t`. -/
def ofUInt32 (n : ℕ) : ℤ := if n < 2147483648 then n else n - 4294967296

variable {n : ℕ} {m : ℤ}

theorem checked_of_isInt (hm : IsInt m) : checked m = some m := if_pos hm

theorem checked_eq_none : checked m = none ↔ ¬IsInt m := by
  unfold checked
  split_ifs with hm <;> simp [hm]

theorem checked_eq_some {k : ℤ} : checked m = some k ↔ IsInt m ∧ m = k := by
  unfold checked
  split_ifs with hm <;> simp [hm]

theorem ofUInt32_of_lt (hn : n < 2147483648) : ofUInt32 n = n := if_pos hn

theorem ofUInt32_of_le (hn : 2147483648 ≤ n) : ofUInt32 n = n - 4294967296 :=
  if_neg (Nat.not_lt.2 hn)

end CInt

/-- A number that fits into an `int`. -/
abbrev CInt := {n : ℤ // CInt.IsInt n}

end Slp
