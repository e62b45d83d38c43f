import Slp.Vm.Taint

/-!
# Conversions to machine integers

The numbers of a script are doubles, and an instruction that works on integers converts them first.
In C such a conversion has no defined result unless the integer part is in the range of the target.
The conversions of an instruction are listed here next to what it computes (`exec_congr`: its result
depends on no other ones).

* `Operator.conversions`, `Operator.shifts`, `IndexOpcode.conversions`: the conversions and the shift
  counts of an instruction;
* `Operator.Fits`, `IndexOpcode.Fits`: the operands that are converted are in the range;
* `staysInRange_iff`: **all conversions are in range exactly if the operands fit; a shift count
  always is.**

Where a number is printed it is compared with the bounds of `int` before it is converted, so that a
text, and a key of a hash, is made of any number.
-/

namespace Slp

/-- A conversion of a double to `int32_t` or to `int64_t`, of a wider integer to `int32_t`, or of a
size to `uint32_t`. -/
inductive Conversion (D : Type) where
  | toInt32 (d : D)
  | toInt64 (d : D)
  | narrow (n : ℤ)
  | toUInt32 (n : ℕ)

/-- The integer part is in the range of the target; that of no number is in none. -/
def Conversion.InRange {D : Type} (A : DoubleArith D) : Conversion D → Prop
  | toInt32 d => A.lt (A.ofInt (-2147483649)) d ∧ A.lt d (A.ofInt 2147483648)
  | toInt64 d => A.lt d (A.ofInt (-2 ^ 63)) = false ∧ A.lt d (A.ofInt (2 ^ 63))
  | narrow n => -2147483648 ≤ n ∧ n ≤ 2147483647
  | toUInt32 n => n < 2 ^ 32

/-- What is used of doubles: small integers are exact, the order is one of numbers, and the exponents
that are printed are small. -/
structure DoubleArith.Faithful {D : Type} (A : DoubleArith D) (exponent : D → Option ℤ) : Prop where
  lt_ofInt : ∀ m n : ℤ, n.natAbs < 2 ^ 53 → (A.lt (A.ofInt m) (A.ofInt n) ↔ m < n)
  ofInt_lt : ∀ m n : ℤ, n.natAbs < 2 ^ 53 → (A.lt (A.ofInt n) (A.ofInt m) ↔ n < m)
  lt_of_le : ∀ d, A.isfinite d → A.lt d (A.ofInt (-2147483648)) = false →
    A.lt (A.ofInt (-2147483649)) d
  lt_of_ge : ∀ d, A.isfinite d → A.lt (A.ofInt 2147483647) d = false → A.lt d (A.ofInt 2147483648)
  exponent_small : ∀ d n, exponent d = some n → n.natAbs < 2 ^ 31

namespace OperandValue

variable {D O : Type} (A : DoubleArith D) (describe : O → ℕ → Option Bytes) (exponent : D → Option ℤ)
  (formatted : O → ℕ → List D)

/-! ### The conversions of the helpers -/

/-- `numeric_int_value`. -/
def intConversions (v : OperandValue D O) : List (Conversion D) := [.toInt32 (v.asNumber A)]

/-- `numeric_long_value`. -/
def longConversions (v : OperandValue D O) : List (Conversion D) :=
  match v.unwrapTaint with
  | long _ => []
  | w => [.toInt64 (w.asNumber A)]

/-- The comparison with the bounds of `int` before a number is printed. -/
def withinInts (d : D) : Bool :=
  A.isfinite d && !A.lt d (A.ofInt (-2147483648)) && !A.lt (A.ofInt 2147483647) d

/-- `format_sleep_number`; `exponent` is the one it reads in the digits of `snprintf`. -/
def formatConversions (d : D) : List (Conversion D) :=
  if A.isfinite d then
    (if withinInts A d then [.toInt32 d] else []) ++
      if withinInts A d && A.eq d (A.ofInt (A.toInt32 d).toInt) then []
      else (exponent d).toList.map .narrow
  else []

/-- `stringify_value`, where `formatted` are the numbers that are printed for an object. -/
def stringifyConversions : OperandValue D O → ℕ → List (Conversion D)
  | scalarCell v, depth => stringifyConversions v depth
  | tainted v, depth => if 32 < depth then [] else stringifyConversions v (depth + 1)
  | num d, depth => if 32 < depth then [] else formatConversions A exponent d
  | double d, depth =>
    if 32 < depth ∨ (withinInts A d && A.eq d (A.trunc d)) then []
    else formatConversions A exponent d
  | other o, depth =>
    if 32 < depth then [] else (formatted o depth).flatMap (formatConversions A exponent)
  | _, _ => []

/-- What is in a chain of cells. -/
def dereference : OperandValue D O → OperandValue D O
  | scalarCell v => dereference v
  | v => v

/-- `hash_key_repr`. -/
def keyConversions (key : OperandValue D O) : List (Conversion D) :=
  match key.dereference.unwrapTaint with
  | num d => if withinInts A d then [.toInt32 d] else []
  | _ => []

/-- `canonical_hash_key`. -/
def canonicalConversions (key : OperandValue D O) : List (Conversion D) :=
  match key.dereference with
  | bool _ => []
  | key => stringifyConversions A exponent formatted key 0

/-! ### The conversions of the instructions -/

/-- The integers of a kind. -/
def kindConversions (v : OperandValue D O) : NumericKind → List (Conversion D)
  | .double => []
  | .long => v.longConversions A
  | .int => v.intConversions A

/-- The integers that an instruction on bits works on. -/
def integerKind : NumericKind → NumericKind
  | .long => .long
  | _ => .int

/-- An arithmetic instruction on two operands that cannot fail. -/
def arithmeticConversions (a b : OperandValue D O) : List (Conversion D) :=
  a.kindConversions A (widestNumericKind A a b) ++ b.kindConversions A (widestNumericKind A a b)

/-- An arithmetic instruction on one operand. -/
def unaryConversions (v : OperandValue D O) : List (Conversion D) :=
  v.kindConversions A (v.numericKind A)

/-- `OP_DIVIDE` and `OP_MODULO`: a zero divisor is refused before the dividend is converted, and an
`int` divisor has been widened and is narrowed again. -/
def divisionConversions (a b : OperandValue D O) : List (Conversion D) :=
  match widestNumericKind A a b with
  | .double => []
  | .long =>
    b.longConversions A ++ if b.numericLongValue A = 0 then [] else a.longConversions A
  | .int =>
    b.intConversions A ++ if b.numericIntValue A = 0 then []
      else a.intConversions A ++ [.narrow (b.numericIntValue A).toInt]

/-- A bitwise instruction on two operands. -/
def bitwiseConversions (a b : OperandValue D O) : List (Conversion D) :=
  a.kindConversions A (integerKind (widestNumericKind A a b)) ++
    b.kindConversions A (integerKind (widestNumericKind A a b))

/-- `OP_BIT_NOT`. -/
def bitNotConversions (v : OperandValue D O) : List (Conversion D) :=
  v.kindConversions A (integerKind (v.numericKind A))

/-- `OP_LSHIFT` and `OP_RSHIFT`: the kind of the left operand alone decides. -/
def shiftConversions (a b : OperandValue D O) : List (Conversion D) :=
  b.intConversions A ++ a.kindConversions A (integerKind (a.numericKind A))

/-- The width and the count of a shift. -/
def shiftCount (a b : OperandValue D O) : ℕ × ℕ :=
  match a.numericKind A with
  | .long => (64, (b.numericIntValue A &&& 63).toNat)
  | _ => (32, (b.numericIntValue A &&& 31).toNat)

/-- `OP_ALIGN`: the length of a text with padding is cut to `uint32_t`. -/
def alignConversions (below value : OperandValue D O) : List (Conversion D) :=
  below.intConversions A ++ stringifyConversions A exponent formatted value 0 ++
    match stringify A describe value with
    | none => []
    | some text =>
      let padding := (below.numericIntValue A).toInt.natAbs - text.length
      if padding = 0 then [] else [.toUInt32 (text.length + padding)]

/-- `OP_REPEAT`: the count is a `long`. -/
def repeatConversions (a b : OperandValue D O) : List (Conversion D) :=
  stringifyConversions A exponent formatted a 0 ++ [.toInt64 (b.asNumber A)] ++
    match stringify A describe a with
    | none => []
    | some str =>
      let count := (A.toInt64 (b.asNumber A)).toInt
      let total := str.length * count.toNat % 2 ^ 64
      if count ≤ 0 ∨ str.length = 0 ∨ 2 ^ 32 - 1 < total ∨ total / count.toNat ≠ str.length then []
      else [.toUInt32 total]

/-! ### Operands that fit -/

/-- The number that an operand is read as has its integer part in the range of `int32_t`. -/
def Fits32 : OperandValue D O → Prop
  | scalarCell v | tainted v => Fits32 v
  | num d | double d => (Conversion.toInt32 d).InRange A
  | string chars => (Conversion.toInt32 (A.strtod chars)).InRange A
  | long n => -2147483648 ≤ n.toInt ∧ n.toInt ≤ 2147483647
  | _ => True

/-- The number that an operand is read as has its integer part in the range of `int64_t`. -/
def Reads64 : OperandValue D O → Prop
  | scalarCell v | tainted v => Reads64 v
  | num d | double d => (Conversion.toInt64 d).InRange A
  | string chars => (Conversion.toInt64 (A.strtod chars)).InRange A
  | long n => (Conversion.toInt64 (A.ofInt n.toInt)).InRange A
  | _ => True

/-- The same of an operand that is taken as it is if it is a `long`. -/
def Fits64 : OperandValue D O → Prop
  | tainted v => Fits64 v
  | long _ => True
  | v => v.Reads64 A

/-- The operand fits the kind that the instruction works on. -/
def FitsKind (v : OperandValue D O) : NumericKind → Prop
  | .double => True
  | .long => v.Fits64 A
  | .int => v.Fits32 A

/-- The divisor of a division is zero. -/
def ZeroDivisor (b : OperandValue D O) : NumericKind → Prop
  | .double => False
  | .long => b.numericLongValue A = 0
  | .int => b.numericIntValue A = 0

end OperandValue

/-! ### Instructions -/

namespace Operator

open OperandValue

variable {D O : Type} (A : DoubleArith D) (describe : O → ℕ → Option Bytes) (exponent : D → Option ℤ)
  (formatted : O → ℕ → List D)

/-- The conversions of an operator instruction, on the stack, topmost value first. -/
def conversions : Operator → List (OperandValue D O) → List (Conversion D)
  | add, b :: a :: _ | subtract, b :: a :: _ | multiply, b :: a :: _ => arithmeticConversions A a b
  | divide, b :: a :: _ | modulo, b :: a :: _ => divisionConversions A a b
  | negate, v :: _ | increment, v :: _ | decrement, v :: _ => unaryConversions A v
  | concat, b :: a :: _ =>
    stringifyConversions A exponent formatted a 0 ++ stringifyConversions A exponent formatted b 0
  | align, value :: below :: _ => alignConversions A describe exponent formatted below value
  | «repeat», b :: a :: _ => repeatConversions A describe exponent formatted a b
  | bitAnd, b :: a :: _ | bitOr, b :: a :: _ | bitXor, b :: a :: _ => bitwiseConversions A a b
  | bitNot, v :: _ => bitNotConversions A v
  | lshift, b :: a :: _ | rshift, b :: a :: _ => shiftConversions A a b
  | _, _ => []

/-- The widths and the counts of the shifts of an operator instruction. -/
def shifts : Operator → List (OperandValue D O) → List (ℕ × ℕ)
  | lshift, b :: a :: _ | rshift, b :: a :: _ => [shiftCount A a b]
  | _, _ => []

/-- The operands that an operator instruction converts are in the range. -/
def Fits : Operator → List (OperandValue D O) → Prop
  | add, b :: a :: _ | subtract, b :: a :: _ | multiply, b :: a :: _ =>
    a.FitsKind A (widestNumericKind A a b) ∧ b.FitsKind A (widestNumericKind A a b)
  | divide, b :: a :: _ | modulo, b :: a :: _ =>
    b.FitsKind A (widestNumericKind A a b) ∧
      (¬b.ZeroDivisor A (widestNumericKind A a b) → a.FitsKind A (widestNumericKind A a b))
  | negate, v :: _ | increment, v :: _ | decrement, v :: _ => v.FitsKind A (v.numericKind A)
  | align, _ :: below :: _ => below.Fits32 A
  | «repeat», b :: _ :: _ => b.Reads64 A
  | bitAnd, b :: a :: _ | bitOr, b :: a :: _ | bitXor, b :: a :: _ =>
    a.FitsKind A (integerKind (widestNumericKind A a b)) ∧
      b.FitsKind A (integerKind (widestNumericKind A a b))
  | bitNot, v :: _ => v.FitsKind A (integerKind (v.numericKind A))
  | lshift, b :: a :: _ | rshift, b :: a :: _ =>
    b.Fits32 A ∧ a.FitsKind A (integerKind (a.numericKind A))
  | _, _ => True

end Operator

/-- The instructions with an index. -/
inductive IndexOpcode where
  | get | set | ensure | tupleGet
  deriving DecidableEq, Repr

/-- What an index is applied to: an array, a hash or the scope of a closure, with the keys that the
lookup is compared with, or something else. -/
inductive IndexBase (D O : Type) where
  | array (readOnly : Bool)
  | hash (keys : List (OperandValue D O))
  | closure (keys : List (OperandValue D O))
  | scalar (value : OperandValue D O)

namespace IndexOpcode

open OperandValue

variable {D O : Type} (A : DoubleArith D) (exponent : D → Option ℤ) (formatted : O → ℕ → List D)

/-- The conversions of an index instruction; a read-only array is not written, and the warning about
a base that has no elements shows both operands. -/
def conversions (op : IndexOpcode) (base : IndexBase D O) (idx : OperandValue D O) :
    List (Conversion D) :=
  match op, base with
  | .set, .array true | .ensure, .array true => []
  | _, .array _ => idx.intConversions A
  | .tupleGet, _ => []
  | _, .hash keys => canonicalConversions A exponent formatted idx ++ keys.flatMap (keyConversions A)
  | _, .closure keys => idx.keyConversions A ++ keys.flatMap (keyConversions A)
  | .get, .scalar value =>
    stringifyConversions A exponent formatted value 0 ++
      stringifyConversions A exponent formatted idx 0
  | _, .scalar _ => []

/-- The index of an array that is read, or may be written, is in the range. -/
def Fits (op : IndexOpcode) (base : IndexBase D O) (idx : OperandValue D O) : Prop :=
  match op, base with
  | .set, .array true | .ensure, .array true => True
  | _, .array _ => idx.Fits32 A
  | _, _ => True

end IndexOpcode

/-- An instruction with its operands. -/
inductive NumericStep (D O : Type) where
  | operator (op : Operator) (stack : List (OperandValue D O))
  | index (op : IndexOpcode) (base : IndexBase D O) (idx : OperandValue D O)

namespace NumericStep

variable {D O : Type} (A : DoubleArith D) (describe : O → ℕ → Option Bytes) (exponent : D → Option ℤ)
  (formatted : O → ℕ → List D)

def conversions : NumericStep D O → List (Conversion D)
  | operator op stack => op.conversions A describe exponent formatted stack
  | index op base idx => op.conversions A exponent formatted base idx

def shifts : NumericStep D O → List (ℕ × ℕ)
  | operator op stack => op.shifts A stack
  | index _ _ _ => []

/-- The conversions are in range, and the shift counts are smaller than the widths. -/
def StaysInRange (i : NumericStep D O) : Prop :=
  (∀ c ∈ i.conversions A describe exponent formatted, c.InRange A) ∧ ∀ s ∈ i.shifts A, s.2 < s.1

/-- What is converted without a comparison before is in the range. -/
def Fits : NumericStep D O → Prop
  | operator op stack => op.Fits A stack
  | index op base idx => op.Fits A base idx

end NumericStep

namespace OperandValue

variable {D O : Type} {A : DoubleArith D} {describe : O → ℕ → Option Bytes}
  {exponent : D → Option ℤ} {formatted : O → ℕ → List D} {a b v : OperandValue D O}

/-! ### Reads of an operand -/

section Reads

variable (hA : A.Faithful exponent)
include hA

theorem inRange_ofInt32 {n : ℤ} :
    (Conversion.toInt32 (A.ofInt n)).InRange A ↔ -2147483648 ≤ n ∧ n ≤ 2147483647 := by
  rw [Conversion.InRange, hA.ofInt_lt n (-2147483649) (by decide),
    hA.lt_ofInt n 2147483648 (by decide)]
  omega

theorem inRange_ofInt64 {n : ℤ} (hn : n = 0 ∨ n = 1) :
    (Conversion.toInt64 (A.ofInt n)).InRange A := by
  have hsmall : n.natAbs < 2 ^ 53 := by rcases hn with rfl | rfl <;> decide
  rw [Conversion.InRange, ← Bool.not_eq_true, hA.ofInt_lt (-2 ^ 63) n hsmall,
    hA.ofInt_lt (2 ^ 63) n hsmall]
  omega

/-- The number that an operand is read as is in the range of `int32_t` exactly if the operand fits. -/
theorem inRange_asNumber32 (v : OperandValue D O) :
    (Conversion.toInt32 (v.asNumber A)).InRange A ↔ v.Fits32 A := by
  induction v with
  | scalarCell v ih => exact ih
  | tainted v ih => exact ih
  | num d => exact Iff.rfl
  | double d => exact Iff.rfl
  | string chars => exact Iff.rfl
  | long n => exact inRange_ofInt32 hA
  | null => exact iff_of_true ((inRange_ofInt32 hA).2 (by decide)) trivial
  | other o => exact iff_of_true ((inRange_ofInt32 hA).2 (by decide)) trivial
  | bool b =>
    refine iff_of_true ?_ trivial
    cases b <;> exact (inRange_ofInt32 hA).2 (by decide)

theorem inRange_asNumber64 (v : OperandValue D O) :
    (Conversion.toInt64 (v.asNumber A)).InRange A ↔ v.Reads64 A := by
  induction v with
  | scalarCell v ih => exact ih
  | tainted v ih => exact ih
  | num d => exact Iff.rfl
  | double d => exact Iff.rfl
  | string chars => exact Iff.rfl
  | long n => exact Iff.rfl
  | null => exact iff_of_true (inRange_ofInt64 hA (.inl rfl)) trivial
  | other o => exact iff_of_true (inRange_ofInt64 hA (.inl rfl)) trivial
  | bool b =>
    refine iff_of_true ?_ trivial
    cases b
    · exact inRange_ofInt64 hA (.inl rfl)
    · exact inRange_ofInt64 hA (.inr rfl)

theorem inRange_intConversions (v : OperandValue D O) :
    (∀ c ∈ v.intConversions A, c.InRange A) ↔ v.Fits32 A := by
  rw [intConversions, List.forall_mem_singleton]
  exact inRange_asNumber32 hA v

theorem inRange_longConversions (v : OperandValue D O) :
    (∀ c ∈ v.longConversions A, c.InRange A) ↔ v.Fits64 A := by
  induction v with
  | tainted v ih => exact ih
  | long n => exact iff_of_true (by simp [longConversions, unwrapTaint]) trivial
  | scalarCell v => exact List.forall_mem_singleton.trans (inRange_asNumber64 hA (.scalarCell v))
  | null => exact List.forall_mem_singleton.trans (inRange_asNumber64 hA null)
  | bool b => exact List.forall_mem_singleton.trans (inRange_asNumber64 hA (.bool b))
  | num d => exact List.forall_mem_singleton.trans (inRange_asNumber64 hA (.num d))
  | string chars => exact List.forall_mem_singleton.trans (inRange_asNumber64 hA (.string chars))
  | double d => exact List.forall_mem_singleton.trans (inRange_asNumber64 hA (.double d))
  | other o => exact List.forall_mem_singleton.trans (inRange_asNumber64 hA (.other o))

theorem inRange_kindConversions (v : OperandValue D O) (kind : NumericKind) :
    (∀ c ∈ v.kindConversions A kind, c.InRange A) ↔ v.FitsKind A kind := by
  cases kind with
  | double => exact iff_of_true (fun c hc => absurd hc List.not_mem_nil) trivial
  | long => exact inRange_longConversions hA v
  | int => exact inRange_intConversions hA v

/-! ### Printed numbers -/

theorem inRange_of_withinInts {d : D} (hd : withinInts A d) : (Conversion.toInt32 d).InRange A := by
  simp only [withinInts, Bool.and_eq_true, Bool.not_eq_true'] at hd
  obtain ⟨⟨hfinite, hlow⟩, hhigh⟩ := hd
  exact ⟨hA.lt_of_le d hfinite hlow, hA.lt_of_ge d hfinite hhigh⟩

/-- A number is compared with the bounds before it is converted to be printed. -/
theorem inRange_formatConversions (d : D) :
    ∀ c ∈ formatConversions A exponent d, c.InRange A := by
  intro c hc
  unfold formatConversions at hc
  by_cases hfinite : A.isfinite d
  · rw [if_pos hfinite] at hc
    rcases List.mem_append.1 hc with hc | hc
    · split_ifs at hc with hints
      · rw [List.mem_singleton.1 hc]
        exact inRange_of_withinInts hA hints
      · cases hc
    · split_ifs at hc
      · cases hc
      · obtain ⟨n, hn, rfl⟩ := List.mem_map.1 hc
        have hsmall := hA.exponent_small d n (Option.mem_toList.1 hn)
        rw [Conversion.InRange]
        omega
  · rw [if_neg hfinite] at hc
    cases hc

theorem inRange_stringifyConversions (v : OperandValue D O) (depth : ℕ) :
    ∀ c ∈ stringifyConversions A exponent formatted v depth, c.InRange A := by
  induction v generalizing depth with
  | scalarCell v ih => exact ih depth
  | tainted v ih =>
    intro c hc
    rw [stringifyConversions] at hc
    split_ifs at hc
    · cases hc
    · exact ih _ c hc
  | num d =>
    intro c hc
    rw [stringifyConversions] at hc
    split_ifs at hc
    · cases hc
    · exact inRange_formatConversions hA d c hc
  | double d =>
    intro c hc
    rw [stringifyConversions] at hc
    split_ifs at hc
    · cases hc
    · exact inRange_formatConversions hA d c hc
  | other o =>
    intro c hc
    rw [stringifyConversions] at hc
    split_ifs at hc
    · cases hc
    · obtain ⟨d, -, hd⟩ := List.mem_flatMap.1 hc
      exact inRange_formatConversions hA d c hd
  | null => exact fun c hc => absurd hc List.not_mem_nil
  | bool b => exact fun c hc => absurd hc List.not_mem_nil
  | string chars => exact fun c hc => absurd hc List.not_mem_nil
  | long n => exact fun c hc => absurd hc List.not_mem_nil

theorem inRange_keyConversions (key : OperandValue D O) :
    ∀ c ∈ key.keyConversions A, c.InRange A := by
  intro c hc
  unfold keyConversions at hc
  split at hc
  · split_ifs at hc with hints
    · rw [List.mem_singleton.1 hc]
      exact inRange_of_withinInts hA hints
    · cases hc
  · cases hc

theorem inRange_canonicalConversions (key : OperandValue D O) :
    ∀ c ∈ canonicalConversions A exponent formatted key, c.InRange A := by
  intro c hc
  unfold canonicalConversions at hc
  split at hc
  · cases hc
  · exact inRange_stringifyConversions hA _ 0 c hc

/-! ### Instructions on operands -/

theorem inRange_divisionConversions (a b : OperandValue D O) :
    (∀ c ∈ divisionConversions A a b, c.InRange A) ↔
      b.FitsKind A (widestNumericKind A a b) ∧
        (¬b.ZeroDivisor A (widestNumericKind A a b) → a.FitsKind A (widestNumericKind A a b)) := by
  unfold divisionConversions
  cases widestNumericKind A a b with
  | double => exact iff_of_true (fun c hc => absurd hc List.not_mem_nil) ⟨trivial, fun _ => trivial⟩
  | long =>
    dsimp only [FitsKind, ZeroDivisor]
    rw [List.forall_mem_append, inRange_longConversions hA]
    refine and_congr_right fun _ => ?_
    split_ifs with hzero
    · simp [hzero]
    · rw [inRange_longConversions hA]
      exact (imp_iff_right hzero).symm
  | int =>
    dsimp only [FitsKind, ZeroDivisor]
    rw [List.forall_mem_append, inRange_intConversions hA]
    refine and_congr_right fun _ => ?_
    split_ifs with hzero
    · simp [hzero]
    · -- the divisor comes from an `int`
      have hnarrow : (Conversion.narrow (b.numericIntValue A).toInt).InRange A := by
        have hlow := BitVec.le_toInt (b.numericIntValue A)
        have hhigh := BitVec.toInt_lt (x := b.numericIntValue A)
        rw [Conversion.InRange]
        omega
      rw [List.forall_mem_append, inRange_intConversions hA, List.forall_mem_singleton]
      exact ⟨fun h _ => h.1, fun h => ⟨h hzero, hnarrow⟩⟩

theorem inRange_alignConversions (below value : OperandValue D O) :
    (∀ c ∈ alignConversions A describe exponent formatted below value, c.InRange A) ↔
      below.Fits32 A := by
  rw [alignConversions, List.forall_mem_append, List.forall_mem_append, inRange_intConversions hA]
  refine ⟨fun h => h.1.1, fun h => ⟨⟨h, inRange_stringifyConversions hA value 0⟩, ?_⟩⟩
  intro c hc
  split at hc
  · cases hc
  · rename_i text _
    dsimp only at hc
    split_ifs at hc with hpadding
    · cases hc
    · -- a text that is padded is as long as the width
      have hlow := BitVec.le_toInt (below.numericIntValue A)
      have hhigh := BitVec.toInt_lt (x := below.numericIntValue A)
      rw [List.mem_singleton.1 hc, Conversion.InRange]
      omega

theorem inRange_repeatConversions (a b : OperandValue D O) :
    (∀ c ∈ repeatConversions A describe exponent formatted a b, c.InRange A) ↔ b.Reads64 A := by
  rw [repeatConversions, List.forall_mem_append, List.forall_mem_append, List.forall_mem_singleton,
    inRange_asNumber64 hA]
  refine ⟨fun h => h.1.2, fun h => ⟨⟨inRange_stringifyConversions hA a 0, h⟩, ?_⟩⟩
  intro c hc
  split at hc
  · cases hc
  · dsimp only at hc
    split_ifs at hc with hrefused
    · cases hc
    · rw [List.mem_singleton.1 hc, Conversion.InRange]
      push Not at hrefused
      omega

theorem inRange_flatMap_keyConversions (keys : List (OperandValue D O)) :
    ∀ c ∈ keys.flatMap (keyConversions A), c.InRange A := by
  intro c hc
  obtain ⟨key, -, hkey⟩ := List.mem_flatMap.1 hc
  exact inRange_keyConversions hA key c hkey

end Reads

/-- A shift count is cut to the width. -/
theorem shiftCount_lt (a b : OperandValue D O) : (shiftCount A a b).2 < (shiftCount A a b).1 := by
  unfold shiftCount
  split
  · refine Nat.lt_of_le_of_lt ?_ (by decide : 63 < 64)
    rw [BitVec.toNat_and]
    exact Nat.and_le_right
  · refine Nat.lt_of_le_of_lt ?_ (by decide : 31 < 32)
    rw [BitVec.toNat_and]
    exact Nat.and_le_right

/-! ### The listed conversions are all -/

section Complete

variable {f : D → BitVec 32} {g : D → BitVec 64} {cs cs' : List (Conversion D)}

/-- Other conversions that are the same on those listed. -/
structure Agree (A : DoubleArith D) (f : D → BitVec 32) (g : D → BitVec 64)
    (cs : List (Conversion D)) : Prop where
  int : ∀ d, .toInt32 d ∈ cs → f d = A.toInt32 d
  long : ∀ d, .toInt64 d ∈ cs → g d = A.toInt64 d

theorem Agree.left (h : Agree A f g (cs ++ cs')) : Agree A f g cs :=
  ⟨fun d hd => h.int d (List.mem_append_left _ hd), fun d hd => h.long d (List.mem_append_left _ hd)⟩

theorem Agree.right (h : Agree A f g (cs ++ cs')) : Agree A f g cs' :=
  ⟨fun d hd => h.int d (List.mem_append_right _ hd),
    fun d hd => h.long d (List.mem_append_right _ hd)⟩

/-- Doubles with other conversions. -/
def withConversions (A : DoubleArith D) (f : D → BitVec 32) (g : D → BitVec 64) : DoubleArith D :=
  { A with toInt32 := f, toInt64 := g }

theorem asNumber_withConversions (v : OperandValue D O) :
    v.asNumber (withConversions A f g) = v.asNumber A := by
  induction v with
  | scalarCell v ih => exact ih
  | tainted v ih => exact ih
  | _ => rfl

theorem numericKind_withConversions (v : OperandValue D O) :
    v.numericKind (withConversions A f g) = v.numericKind A := rfl

theorem widestNumericKind_withConversions (a b : OperandValue D O) :
    widestNumericKind (withConversions A f g) a b = widestNumericKind A a b := rfl

theorem stringifyValue_withConversions (v : OperandValue D O) (depth : ℕ) :
    stringifyValue (withConversions A f g) describe v depth = stringifyValue A describe v depth := by
  induction v generalizing depth with
  | scalarCell v ih => exact ih depth
  | tainted v ih => rw [stringifyValue, stringifyValue, ih]
  | _ => rfl

theorem stringify_withConversions (v : OperandValue D O) :
    stringify (withConversions A f g) describe v = stringify A describe v := by
  cases v with
  | string chars => rfl
  | _ => exact stringifyValue_withConversions _ 0

theorem numericIntValue_withConversions (h : Agree A f g (v.intConversions A)) :
    v.numericIntValue (withConversions A f g) = v.numericIntValue A := by
  rw [numericIntValue, asNumber_withConversions]
  exact h.int _ List.mem_cons_self

theorem numericLongValue_withConversions (h : Agree A f g (v.longConversions A)) :
    v.numericLongValue (withConversions A f g) = v.numericLongValue A := by
  unfold numericLongValue
  unfold longConversions at h
  generalize v.unwrapTaint = w at h ⊢
  cases w with
  | long n => rfl
  | _ =>
    dsimp only at h ⊢
    rw [asNumber_withConversions]
    exact h.long _ List.mem_cons_self

theorem arithmetic_withConversions (onDouble : D → D → D) (onLong onInt)
    (h : Agree A f g (arithmeticConversions A a b)) :
    arithmetic (withConversions A f g) onDouble onLong onInt a b =
      arithmetic A onDouble onLong onInt a b := by
  unfold arithmetic
  unfold arithmeticConversions at h
  rw [widestNumericKind_withConversions]
  cases hkind : widestNumericKind A a b with
  | double => rw [asNumber_withConversions, asNumber_withConversions]
  | long =>
    rw [hkind] at h
    dsimp only
    rw [numericLongValue_withConversions h.left, numericLongValue_withConversions h.right]
  | int =>
    rw [hkind] at h
    dsimp only
    rw [numericIntValue_withConversions h.left, numericIntValue_withConversions h.right]
    rfl

theorem arithmeticUnary_withConversions (onDouble : D → D) (onLong onInt)
    (h : Agree A f g (unaryConversions A v)) :
    arithmeticUnary (withConversions A f g) onDouble onLong onInt v =
      arithmeticUnary A onDouble onLong onInt v := by
  unfold arithmeticUnary
  unfold unaryConversions at h
  rw [numericKind_withConversions]
  cases hkind : v.numericKind A with
  | double => rw [asNumber_withConversions]
  | long =>
    rw [hkind] at h
    dsimp only
    rw [numericLongValue_withConversions h]
  | int =>
    rw [hkind] at h
    dsimp only
    rw [numericIntValue_withConversions h]
    rfl

theorem division_withConversions (h : Agree A f g (divisionConversions A a b)) :
    divideResult (withConversions A f g) a b = divideResult A a b ∧
      moduloResult (withConversions A f g) a b = moduloResult A a b := by
  unfold divideResult moduloResult
  unfold divisionConversions at h
  rw [widestNumericKind_withConversions]
  cases hkind : widestNumericKind A a b with
  | double =>
    dsimp only
    rw [asNumber_withConversions, asNumber_withConversions]
    exact ⟨rfl, rfl⟩
  | long =>
    rw [hkind] at h
    dsimp only
    rw [numericLongValue_withConversions h.left]
    have hrest := h.right
    split_ifs at hrest ⊢ with hzero
    · exact ⟨rfl, rfl⟩
    · rw [numericLongValue_withConversions hrest]
      exact ⟨rfl, rfl⟩
  | int =>
    rw [hkind] at h
    dsimp only
    rw [numericIntValue_withConversions h.left]
    have hrest := h.right
    split_ifs at hrest ⊢ with hzero
    · exact ⟨rfl, rfl⟩
    · rw [numericIntValue_withConversions hrest.left]
      exact ⟨rfl, rfl⟩

theorem bitwise_withConversions (onLong onInt) (h : Agree A f g (bitwiseConversions A a b)) :
    bitwise (withConversions A f g) onLong onInt a b = bitwise A onLong onInt a b := by
  unfold bitwise
  unfold bitwiseConversions at h
  rw [widestNumericKind_withConversions]
  cases hkind : widestNumericKind A a b with
  | long =>
    rw [hkind] at h
    dsimp only
    rw [numericLongValue_withConversions h.left, numericLongValue_withConversions h.right]
  | int | double =>
    rw [hkind] at h
    dsimp only
    rw [numericIntValue_withConversions h.left, numericIntValue_withConversions h.right]
    rfl

theorem bitNot_withConversions (h : Agree A f g (bitNotConversions A v)) :
    bitNot (withConversions A f g) v = bitNot A v := by
  unfold bitNot
  unfold bitNotConversions at h
  rw [numericKind_withConversions]
  cases hkind : v.numericKind A with
  | long =>
    rw [hkind] at h
    dsimp only
    rw [numericLongValue_withConversions h]
  | int | double =>
    rw [hkind] at h
    dsimp only
    rw [numericIntValue_withConversions h]
    rfl

theorem shift_withConversions (onLong onInt) (h : Agree A f g (shiftConversions A a b)) :
    shift (withConversions A f g) onLong onInt a b = shift A onLong onInt a b := by
  unfold shift
  unfold shiftConversions at h
  rw [numericKind_withConversions]
  have hleft := h.right
  cases hkind : a.numericKind A with
  | long =>
    rw [hkind] at hleft
    dsimp only
    rw [numericLongValue_withConversions hleft, numericIntValue_withConversions h.left]
  | int | double =>
    rw [hkind] at hleft
    dsimp only
    rw [numericIntValue_withConversions hleft, numericIntValue_withConversions h.left]
    rfl

theorem align_withConversions
    (h : Agree A f g (alignConversions A describe exponent formatted a b)) :
    align (withConversions A f g) describe a b = align A describe a b := by
  unfold align
  rw [numericIntValue_withConversions h.left.left, stringify_withConversions]

theorem repeat_withConversions
    (h : Agree A f g (repeatConversions A describe exponent formatted a b)) :
    OperandValue.repeat (withConversions A f g) describe a b = OperandValue.repeat A describe a b := by
  have hcount : (withConversions A f g).toInt64 (b.asNumber A) = A.toInt64 (b.asNumber A) :=
    h.left.right.long _ List.mem_cons_self
  unfold OperandValue.repeat
  rw [asNumber_withConversions, stringify_withConversions, hcount]

end Complete

end OperandValue

open OperandValue

variable {D O : Type} {A : DoubleArith D} {describe : O → ℕ → Option Bytes}
  {exponent : D → Option ℤ} {formatted : O → ℕ → List D}

theorem Operator.inRange_conversions (hA : A.Faithful exponent) (op : Operator)
    (stack : List (OperandValue D O)) :
    (∀ c ∈ op.conversions A describe exponent formatted stack, c.InRange A) ↔ op.Fits A stack := by
  have hnone : (∀ c ∈ ([] : List (Conversion D)), c.InRange A) ↔ True :=
    iff_of_true (fun c hc => absurd hc List.not_mem_nil) trivial
  have hkinds : ∀ (a b : OperandValue D O) (kind : NumericKind),
      (∀ c ∈ a.kindConversions A kind ++ b.kindConversions A kind, c.InRange A) ↔
        a.FitsKind A kind ∧ b.FitsKind A kind := by
    intro a b kind
    rw [List.forall_mem_append, inRange_kindConversions hA, inRange_kindConversions hA]
  have hshift : ∀ a b : OperandValue D O, (∀ c ∈ shiftConversions A a b, c.InRange A) ↔
      b.Fits32 A ∧ a.FitsKind A (integerKind (a.numericKind A)) := by
    intro a b
    rw [shiftConversions, List.forall_mem_append, inRange_intConversions hA,
      inRange_kindConversions hA]
  match stack with
  | [] => cases op <;> exact hnone
  | [v] =>
    cases op with
    | negate | increment | decrement | bitNot => exact inRange_kindConversions hA v _
    | _ => exact hnone
  | b :: a :: rest =>
    cases op with
    | add | subtract | multiply | bitAnd | bitOr | bitXor => exact hkinds a b _
    | divide | modulo => exact inRange_divisionConversions hA a b
    | negate | increment | decrement | bitNot => exact inRange_kindConversions hA b _
    | concat =>
      refine iff_of_true ?_ trivial
      exact List.forall_mem_append.2
        ⟨inRange_stringifyConversions hA a 0, inRange_stringifyConversions hA b 0⟩
    | align => exact inRange_alignConversions hA a b
    | «repeat» => exact inRange_repeatConversions hA a b
    | lshift | rshift => exact hshift a b
    | power | spaceship => exact hnone

section

variable {f : D → BitVec 32} {g : D → BitVec 64} {a b v : OperandValue D O}

theorem Operator.binary_congr {k k' : OperandValue D O → OperandValue D O →
    Except Fault (OperandValue D O)} (stack : List (OperandValue D O))
    (h : ∀ b a rest, stack = b :: a :: rest → k a b = k' a b) :
    Operator.binary k stack = Operator.binary k' stack := by
  match stack with
  | [] => rfl
  | [_] => rfl
  | b :: a :: rest => rw [Operator.binary, Operator.binary, h b a rest rfl]

theorem Operator.unary_congr {k k' : OperandValue D O → Except Fault (OperandValue D O)}
    (stack : List (OperandValue D O)) (h : ∀ v rest, stack = v :: rest → k v = k' v) :
    Operator.unary k stack = Operator.unary k' stack := by
  cases stack with
  | nil => rfl
  | cons v rest => rw [Operator.unary, Operator.unary, h v rest rfl]

/-- The result of an instruction depends on the listed conversions only. -/
theorem Operator.exec_congr (op : Operator) (stack : List (OperandValue D O))
    (h : Agree A f g (op.conversions A describe exponent formatted stack)) :
    op.exec (withConversions A f g) describe stack = op.exec A describe stack := by
  cases op with
  | add | subtract | multiply =>
    refine Operator.binary_congr stack ?_
    rintro b a rest rfl
    exact congrArg (fun v => Except.ok (propagateTaintBinary v a b))
      (arithmetic_withConversions _ _ _ h)
  | divide =>
    refine Operator.binary_congr stack ?_
    rintro b a rest rfl
    rw [OperandValue.divide, OperandValue.divide, (division_withConversions h).1]
  | modulo =>
    refine Operator.binary_congr stack ?_
    rintro b a rest rfl
    rw [OperandValue.modulo, OperandValue.modulo, (division_withConversions h).2]
  | power =>
    refine Operator.binary_congr stack ?_
    rintro b a rest rfl
    rw [OperandValue.power, OperandValue.power, asNumber_withConversions, asNumber_withConversions]
    rfl
  | spaceship =>
    refine Operator.binary_congr stack ?_
    rintro b a rest rfl
    rw [OperandValue.spaceship, OperandValue.spaceship, asNumber_withConversions,
      asNumber_withConversions]
    rfl
  | negate =>
    refine Operator.unary_congr stack ?_
    rintro v rest rfl
    exact congrArg (fun w => Except.ok (propagateTaintUnary w v))
      (arithmeticUnary_withConversions _ _ _ h)
  | increment | decrement =>
    refine Operator.unary_congr stack ?_
    rintro v rest rfl
    exact congrArg Except.ok (arithmeticUnary_withConversions _ _ _ h)
  | concat =>
    refine Operator.binary_congr stack ?_
    rintro b a rest rfl
    unfold OperandValue.concat concatResult
    rw [stringify_withConversions, stringify_withConversions]
  | align =>
    refine Operator.binary_congr stack ?_
    rintro b a rest rfl
    exact align_withConversions h
  | «repeat» =>
    refine Operator.binary_congr stack ?_
    rintro b a rest rfl
    exact repeat_withConversions h
  | bitAnd | bitOr | bitXor =>
    refine Operator.binary_congr stack ?_
    rintro b a rest rfl
    exact congrArg Except.ok (bitwise_withConversions _ _ h)
  | bitNot =>
    refine Operator.unary_congr stack ?_
    rintro v rest rfl
    exact bitNot_withConversions h
  | lshift | rshift =>
    refine Operator.binary_congr stack ?_
    rintro b a rest rfl
    exact congrArg Except.ok (shift_withConversions _ _ h)

end

theorem Operator.shifts_lt (op : Operator) (stack : List (OperandValue D O)) :
    ∀ s ∈ op.shifts A stack, s.2 < s.1 := by
  intro s hs
  unfold Operator.shifts at hs
  split at hs
  · rw [List.mem_singleton.1 hs]
    exact shiftCount_lt _ _
  · rw [List.mem_singleton.1 hs]
    exact shiftCount_lt _ _
  · cases hs

theorem IndexOpcode.inRange_conversions (hA : A.Faithful exponent) (op : IndexOpcode)
    (base : IndexBase D O) (idx : OperandValue D O) :
    (∀ c ∈ op.conversions A exponent formatted base idx, c.InRange A) ↔ op.Fits A base idx := by
  have hnone : (∀ c ∈ ([] : List (Conversion D)), c.InRange A) ↔ True :=
    iff_of_true (fun c hc => absurd hc List.not_mem_nil) trivial
  have hhash : ∀ keys : List (OperandValue D O), ∀ c ∈
      canonicalConversions A exponent formatted idx ++ keys.flatMap (keyConversions A),
      c.InRange A := fun keys => List.forall_mem_append.2
    ⟨inRange_canonicalConversions hA idx, inRange_flatMap_keyConversions hA keys⟩
  have hclosure : ∀ keys : List (OperandValue D O), ∀ c ∈
      idx.keyConversions A ++ keys.flatMap (keyConversions A), c.InRange A := fun keys =>
    List.forall_mem_append.2 ⟨inRange_keyConversions hA idx, inRange_flatMap_keyConversions hA keys⟩
  cases base with
  | array readOnly =>
    cases op with
    | get | tupleGet => exact inRange_intConversions hA idx
    | set | ensure =>
      cases readOnly with
      | true => exact hnone
      | false => exact inRange_intConversions hA idx
  | hash keys =>
    cases op with
    | tupleGet => exact hnone
    | _ => exact iff_of_true (hhash keys) trivial
  | closure keys =>
    cases op with
    | tupleGet => exact hnone
    | _ => exact iff_of_true (hclosure keys) trivial
  | scalar value =>
    cases op with
    | get =>
      exact iff_of_true (List.forall_mem_append.2 ⟨inRange_stringifyConversions hA value 0,
        inRange_stringifyConversions hA idx 0⟩) trivial
    | _ => exact hnone

namespace NumericStep

/-- All conversions of an instruction are in range exactly if what it converts fits. -/
theorem staysInRange_iff (hA : A.Faithful exponent) (i : NumericStep D O) :
    i.StaysInRange A describe exponent formatted ↔ i.Fits A := by
  cases i with
  | operator op stack =>
    rw [StaysInRange, conversions, Operator.inRange_conversions hA]
    exact and_iff_left (op.shifts_lt stack)
  | index op base idx =>
    rw [StaysInRange, conversions, IndexOpcode.inRange_conversions hA]
    exact and_iff_left fun s hs => absurd hs List.not_mem_nil

theorem faithful_wholeNumbers : Operator.wholeNumbers.Faithful fun _ => none where
  lt_ofInt m n _ := by simp [Operator.wholeNumbers]
  ofInt_lt m n _ := by simp [Operator.wholeNumbers]
  lt_of_le d _ hd := by
    simp only [Operator.wholeNumbers, id, decide_eq_false_iff_not, decide_eq_true_eq] at hd ⊢
    omega
  lt_of_ge d _ hd := by
    simp only [Operator.wholeNumbers, id, decide_eq_false_iff_not, decide_eq_true_eq] at hd ⊢
    omega
  exponent_small d n hn := by cases hn

/-- Two small numbers are added. -/
theorem staysInRange_iff_add :
    (operator .add [.num 1, .num 2] : NumericStep ℤ Empty).StaysInRange Operator.wholeNumbers
      Empty.elim (fun _ => none) fun _ _ => [] :=
  (staysInRange_iff faithful_wholeNumbers _).2 ⟨⟨by decide, by decide⟩, by decide, by decide⟩

/-- A number above the range of `int` is converted to one, as in `3000000000 + 1`. -/
theorem not_staysInRange_add :
    ¬(operator .add [.num 1, .num 3000000000] : NumericStep ℤ Empty).StaysInRange
      Operator.wholeNumbers Empty.elim (fun _ => none) fun _ _ => [] := by
  intro h
  have hfirst := h.1 (.toInt32 3000000000) List.mem_cons_self
  exact absurd hfirst.2 (by decide)

end NumericStep

end Slp
