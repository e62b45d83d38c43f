import Mathlib.Algebra.Order.Ring.Nat
import Mathlib.Data.Nat.Log
import Mathlib.Tactic.Positivity
import Mathlib.Tactic.Ring

/-!
# Rounding to a binary format

A number of a binary format has a fraction of `p` bits and an exponent.  The bits of a positive one
are the exponent and the fraction side by side, so that they are ordered as the numbers are.

* `nearest` : a quotient rounded to the nearest integer, and to the even one of two;
* `encode` : the bits of the number that is nearest to an integer;
* `encode_mono` : rounding keeps the order;
* `encode_lt_encode` : it keeps integers apart that have at most `p + 1` bits.
-/

namespace Slp

namespace Rounding

variable {n m d q p bias : ℕ}

/-- The integer nearest to `n / d`, the even one of two. -/
def nearest (n d : ℕ) : ℕ :=
  if 2 * (n % d) < d ∨ 2 * (n % d) = d ∧ n / d % 2 = 0 then n / d else n / d + 1

theorem div_le_nearest : n / d ≤ nearest n d := by
  unfold nearest
  split_ifs <;> omega

theorem nearest_le_div_succ : nearest n d ≤ n / d + 1 := by
  unfold nearest
  split_ifs <;> omega

/-- An integer is nearest to itself. -/
theorem nearest_mul (hd : 0 < d) (q : ℕ) : nearest (q * d) d = q := by
  rw [nearest, Nat.mul_mod_left, Nat.mul_div_cancel q hd, if_pos (.inl (by omega))]

theorem nearest_mono (d : ℕ) (h : n ≤ m) : nearest n d ≤ nearest m d := by
  rcases (Nat.div_le_div_right h : n / d ≤ m / d).lt_or_eq with hlt | heq
  · exact nearest_le_div_succ.trans (hlt.trans_le div_le_nearest)
  · -- between the same two integers the remainder decides
    have hn := Nat.div_add_mod n d
    have hm := Nat.div_add_mod m d
    rw [heq] at hn
    unfold nearest
    rw [heq]
    split_ifs <;> omega

/-- The bits of the number that is nearest to `n`: of an `n` with `e + 1` bits those behind the first
`p + 1` are rounded off.  The leading one of these is added to the exponent, and the carry too when
they are rounded up to the next power of two. -/
def encode (p bias n : ℕ) : ℕ :=
  if n = 0 then 0 else (bias + Nat.log 2 n) * 2 ^ p + nearest (n * 2 ^ p) (2 ^ Nat.log 2 n)

theorem encode_zero (p bias : ℕ) : encode p bias 0 = 0 := if_pos rfl

theorem encode_of_pos (hn : 0 < n) (p bias : ℕ) :
    encode p bias n = (bias + Nat.log 2 n) * 2 ^ p + nearest (n * 2 ^ p) (2 ^ Nat.log 2 n) :=
  if_neg hn.ne'

/-- The rounded number has a leading one. -/
theorem le_encode (hn : 0 < n) (p bias : ℕ) : (bias + Nat.log 2 n + 1) * 2 ^ p ≤ encode p bias n := by
  have hle : 2 ^ p * 2 ^ Nat.log 2 n ≤ n * 2 ^ p := by
    rw [Nat.mul_comm]
    exact Nat.mul_le_mul_right _ (Nat.pow_log_le_self 2 hn.ne')
  have hlead := nearest_mono (2 ^ Nat.log 2 n) hle
  rw [nearest_mul (by positivity)] at hlead
  rw [encode_of_pos hn, Nat.succ_mul]
  exact Nat.add_le_add_left hlead _

/-- It is at most the next power of two. -/
theorem encode_le (hn : 0 < n) (p bias : ℕ) : encode p bias n ≤ (bias + Nat.log 2 n + 2) * 2 ^ p := by
  have hle : n * 2 ^ p ≤ (2 * 2 ^ p) * 2 ^ Nat.log 2 n := by
    calc n * 2 ^ p ≤ 2 ^ (Nat.log 2 n + 1) * 2 ^ p :=
          Nat.mul_le_mul_right _ (Nat.lt_pow_succ_log_self Nat.one_lt_two n).le
      _ = (2 * 2 ^ p) * 2 ^ Nat.log 2 n := by ring
  have hlead := nearest_mono (2 ^ Nat.log 2 n) hle
  rw [nearest_mul (by positivity)] at hlead
  rw [encode_of_pos hn, Nat.add_mul _ 2]
  exact Nat.add_le_add_left hlead _

theorem encode_pos (hn : 0 < n) (p bias : ℕ) : 0 < encode p bias n :=
  lt_of_lt_of_le (by positivity) (le_encode hn p bias)

theorem encode_eq_zero : encode p bias n = 0 ↔ n = 0 := by
  constructor
  · intro h
    by_contra hn
    exact (encode_pos (Nat.pos_of_ne_zero hn) p bias).ne' h
  · rintro rfl
    exact encode_zero p bias

/-- **Rounding keeps the order.** -/
theorem encode_mono (p bias : ℕ) (h : n ≤ m) : encode p bias n ≤ encode p bias m := by
  rcases Nat.eq_zero_or_pos n with rfl | hn
  · rw [encode_zero]
    exact Nat.zero_le _
  · have hm : 0 < m := hn.trans_le h
    rcases (Nat.log_mono_right h : Nat.log 2 n ≤ Nat.log 2 m).lt_or_eq with hlt | heq
    · calc encode p bias n ≤ (bias + Nat.log 2 n + 2) * 2 ^ p := encode_le hn p bias
        _ ≤ (bias + Nat.log 2 m + 1) * 2 ^ p := Nat.mul_le_mul_right _ (by omega)
        _ ≤ encode p bias m := le_encode hm p bias
    · rw [encode_of_pos hn, encode_of_pos hm, heq]
      exact Nat.add_le_add_left (nearest_mono _ (Nat.mul_le_mul_right _ h)) _

/-- An integer with at most `p + 1` bits is not rounded. -/
theorem encode_of_lt (hn : 0 < n) (hsmall : n < 2 ^ (p + 1)) (bias : ℕ) :
    encode p bias n = (bias + Nat.log 2 n) * 2 ^ p + n * 2 ^ (p - Nat.log 2 n) := by
  have hlog : Nat.log 2 n ≤ p := Nat.le_of_lt_succ (Nat.log_lt_of_lt_pow hn.ne' hsmall)
  have hpow : n * 2 ^ p = n * 2 ^ (p - Nat.log 2 n) * 2 ^ Nat.log 2 n := by
    rw [Nat.mul_assoc, ← Nat.pow_add, Nat.sub_add_cancel hlog]
  rw [encode_of_pos hn, hpow, nearest_mul (by positivity)]

/-- **It keeps an integer with at most `p + 1` bits apart from the greater ones.** -/
theorem encode_lt_encode (hsmall : n < 2 ^ (p + 1)) (bias : ℕ) (h : n < m) :
    encode p bias n < encode p bias m := by
  refine lt_of_lt_of_le ?_ (encode_mono p bias (Nat.succ_le_of_lt h))
  rcases Nat.eq_zero_or_pos n with rfl | hn
  · rw [encode_zero]
    exact encode_pos Nat.one_pos p bias
  · rw [encode_of_lt hn hsmall]
    have hlog : Nat.log 2 n ≤ p := Nat.le_of_lt_succ (Nat.log_lt_of_lt_pow hn.ne' hsmall)
    rcases (Nat.log_mono_right (Nat.le_succ n) : Nat.log 2 n ≤ Nat.log 2 (n + 1)).lt_or_eq with hlt | heq
    · -- the next integer has one bit more
      have hn' : n < 2 ^ (Nat.log 2 n + 1) := Nat.lt_pow_succ_log_self Nat.one_lt_two n
      have hbelow : n * 2 ^ (p - Nat.log 2 n) < 2 * 2 ^ p := by
        calc n * 2 ^ (p - Nat.log 2 n) < 2 ^ (Nat.log 2 n + 1) * 2 ^ (p - Nat.log 2 n) :=
              Nat.mul_lt_mul_of_pos_right hn' (by positivity)
          _ = 2 * 2 ^ p := by rw [← Nat.pow_add, ← Nat.pow_succ']; congr 1; omega
      calc (bias + Nat.log 2 n) * 2 ^ p + n * 2 ^ (p - Nat.log 2 n)
          < (bias + Nat.log 2 n) * 2 ^ p + 2 * 2 ^ p := Nat.add_lt_add_left hbelow _
        _ = (bias + Nat.log 2 n + 2) * 2 ^ p := by ring
        _ ≤ (bias + Nat.log 2 (n + 1) + 1) * 2 ^ p := Nat.mul_le_mul_right _ (by omega)
        _ ≤ encode p bias (n + 1) := le_encode (Nat.succ_pos n) p bias
    · have hlt' : n + 1 < 2 ^ (p + 1) := by
        rcases Nat.lt_or_ge (n + 1) (2 ^ (p + 1)) with hlt | hge
        · exact hlt
        · have hlog' := Nat.log_mono_right (b := 2) hge
          rw [Nat.log_pow Nat.one_lt_two] at hlog'
          omega
      rw [encode_of_lt (Nat.succ_pos n) hlt', ← heq]
      exact Nat.add_lt_add_left (Nat.mul_lt_mul_of_pos_right (Nat.lt_succ_self n) (by positivity)) _

end Rounding

end Slp
