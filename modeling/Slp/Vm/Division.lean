import Slp.Vm.Compound

/-!
# Integer division

What `OP_DIVIDE`, `OP_MODULO` and the divide of `OP_TUPLE_COMPOUND` make of two operands that count
as integers: both are brought to the width of the wider one, `int` or `long`.

* `Euclidean x y q r`: `q` and `r` are quotient and remainder of the machine integers `x` and `y`;
* `DivisionLaw`: a zero divisor is refused by all three, and for every other one they give a
  quotient and a remainder;
* `divisionLaw_iff`: **the law holds for all operands but the least integer over minus one**.

Both divisions replace the quotient of that pair, which is out of range.  The remainder, which a
processor computes together with the quotient, is not guarded in `OP_MODULO`.
-/

namespace Slp

/-- A quotient and a remainder of machine integers: the remainder is nearer to zero than the divisor
and on the side of the dividend. -/
structure Euclidean {w : ℕ} (x y q r : BitVec w) : Prop where
  eq : x = q * y + r
  lt : r.toInt.natAbs < y.toInt.natAbs
  sign : r.toInt = 0 ∨ r.toInt.sign = x.toInt.sign

section Quotients

variable {w : ℕ} {x y : BitVec w}

theorem toInt_ne_zero (hy : y ≠ 0) : y.toInt ≠ 0 := fun h =>
  hy (BitVec.eq_of_toInt_eq (h.trans BitVec.toInt_zero.symm))

/-- The truncated quotient and remainder of the payloads, brought back to the width. -/
theorem sdiv_mul_add_srem (x y : BitVec w) : x = x.sdiv y * y + x.srem y := by
  have hq : x.sdiv y = BitVec.ofInt w (x.toInt.tdiv y.toInt) :=
    BitVec.eq_of_toInt_eq (by rw [BitVec.toInt_sdiv, BitVec.toInt_ofInt])
  have hr : x.srem y = BitVec.ofInt w (x.toInt.tmod y.toInt) := by
    rw [← BitVec.toInt_srem, BitVec.ofInt_toInt]
  have hsum := congrArg (BitVec.ofInt w) (Int.tdiv_mul_add_tmod x.toInt y.toInt)
  rw [BitVec.ofInt_add, BitVec.ofInt_mul, BitVec.ofInt_toInt, BitVec.ofInt_toInt] at hsum
  rw [hq, hr, hsum]

theorem natAbs_srem_lt (hy : y ≠ 0) : (x.srem y).toInt.natAbs < y.toInt.natAbs := by
  rw [BitVec.toInt_srem, Int.natAbs_tmod]
  exact Nat.mod_lt _ (Int.natAbs_pos.2 (toInt_ne_zero hy))

theorem sign_srem (x y : BitVec w) :
    (x.srem y).toInt = 0 ∨ (x.srem y).toInt.sign = x.toInt.sign := by
  rw [BitVec.toInt_srem, Int.sign_tmod]
  split
  · next hdvd => exact .inl (Int.tmod_eq_zero_of_dvd hdvd)
  · exact .inr rfl

theorem euclidean_srem (x : BitVec w) (hy : y ≠ 0) : Euclidean x y (x.sdiv y) (x.srem y) :=
  ⟨sdiv_mul_add_srem x y, natAbs_srem_lt hy, sign_srem x y⟩

end Quotients

namespace OperandValue

variable {D O : Type} (A : DoubleArith D) (describe : O → ℕ → Option Bytes)

/-- The least integer of the width is divided by minus one. -/
def Trapping {w : ℕ} (x y : BitVec w) : Prop := x = BitVec.intMin w ∧ y = -1

/-- What the divisions owe two operands that are divided as the machine integers `x` and `y`. -/
structure Divides {w : ℕ} (make : BitVec w → OperandValue D O) (x y : BitVec w)
    (a b : OperandValue D O) : Prop where
  zero : y = 0 →
    divide A a b = .error (.runtimeError "Division by zero.") ∧
      compound A describe .divide a b = .error (.runtimeError "Division by zero.") ∧
      modulo A a b = .error (.runtimeError "Modulo by zero.")
  nonzero : y ≠ 0 → ∃ q r, Euclidean x y q r ∧
    divide A a b = .ok (propagateTaintBinary (make q) a b) ∧
      compound A describe .divide a b = .ok (propagateTaintBinary (make q) a b) ∧
      modulo A a b = .ok (propagateTaintBinary (make r) a b)

/-- The law of the divisions, for two operands that count as integers. -/
def DivisionLaw (a b : OperandValue D O) : Prop :=
  match widestNumericKind A a b with
  | .int => Divides A describe (ofInt32 A) (a.numericIntValue A) (b.numericIntValue A) a b
  | .long => Divides A describe long (a.numericLongValue A) (b.numericLongValue A) a b
  | .double => True

/-- The operands are divided as the least integer and minus one. -/
def LeastByMinusOne (a b : OperandValue D O) : Prop :=
  match widestNumericKind A a b with
  | .int => Trapping (a.numericIntValue A) (b.numericIntValue A)
  | .long => Trapping (a.numericLongValue A) (b.numericLongValue A)
  | .double => False

section Laws

variable {A describe} {w : ℕ} {make : BitVec w → OperandValue D O} {x y : BitVec w}
  {a b : OperandValue D O}

theorem quotient_eq_sdiv (x y : BitVec w) : quotient x y = x.sdiv y := by
  unfold quotient
  split
  · next h =>
    rw [h.1, h.2]
    exact BitVec.intMin_sdiv_neg_one.symm
  · rfl

theorem compound_divide (a b : OperandValue D O) : compound A describe .divide a b = divide A a b := by
  rw [compound, evaluate_divide]
  rfl

/-- What the divisions give on machine integers. -/
theorem divides_iff (hone : (-1 : BitVec w) ≠ 0)
    (hdivide : divideResult A a b = if y = 0 then .error (.runtimeError "Division by zero.")
      else .ok (make (quotient x y)))
    (hmodulo : moduloResult A a b = if y = 0 then .error (.runtimeError "Modulo by zero.")
      else (remainder x y).map make) :
    Divides A describe make x y a b ↔ ¬Trapping x y := by
  constructor
  · rintro h ⟨hx, hy⟩
    -- the remainder of the pair has no value
    have hne : y ≠ 0 := hy ▸ hone
    obtain ⟨q, r, -, -, -, hr⟩ := h.nonzero hne
    rw [modulo, hmodulo, if_neg hne, remainder, if_pos ⟨hx, hy⟩] at hr
    cases hr
  · intro htrap
    unfold Trapping at htrap
    refine ⟨fun hy => ?_, fun hy => ⟨x.sdiv y, x.srem y, euclidean_srem x hy, ?_, ?_, ?_⟩⟩
    · rw [compound_divide, divide, modulo, hdivide, hmodulo, if_pos hy, if_pos hy]
      exact ⟨rfl, rfl, rfl⟩
    · rw [divide, hdivide, if_neg hy, quotient_eq_sdiv]
      rfl
    · rw [compound_divide, divide, hdivide, if_neg hy, quotient_eq_sdiv]
      rfl
    · rw [modulo, hmodulo, if_neg hy, remainder, if_neg htrap]
      rfl

/-- A zero divisor is refused, and every other one gives a quotient and a remainder, for all operands
but the least integer over minus one. -/
theorem divisionLaw_iff (a b : OperandValue D O) :
    DivisionLaw A describe a b ↔ ¬LeastByMinusOne A a b := by
  unfold DivisionLaw LeastByMinusOne
  cases hkind : widestNumericKind A a b with
  | int =>
    refine divides_iff (by decide) ?_ ?_
    · rw [divideResult, hkind]
    · rw [moduloResult, hkind]
  | long =>
    refine divides_iff (by decide) ?_ ?_
    · rw [divideResult, hkind]
    · rw [moduloResult, hkind]
  | double => exact iff_of_true trivial not_false

/-- The remainder of the least `long` by minus one has no value. -/
theorem not_divisionLaw_intMin :
    ¬DivisionLaw Operator.wholeNumbers Empty.elim
      (.long (BitVec.intMin 64) : OperandValue ℤ Empty) (.long (-1)) := by
  intro h
  obtain ⟨q, r, -, -, -, hmodulo⟩ :=
    Divides.nonzero (x := BitVec.intMin 64) (y := -1) h (by decide)
  cases hmodulo

end Laws

end OperandValue

end Slp
