import Mathlib.Algebra.GroupWithZero.Nat
import Mathlib.Algebra.Group.Int.Defs
import Slp.Object.Basic

/-!
# The operator instructions

The operands of the arithmetic, text and bitwise instructions, the coercions these make (to a
`double`, to the widest kind of number, to a text), and what each instruction takes off the stack
and pushes.

An operand is a tree: a scalar, a text, or a scalar cell or a taint wrapper around an operand.  The
rest of the heap objects, the containers among them, count as numbers for nothing and are seen
through their text only; they are a type `O` with a text for each object and depth.  The C type
`double` is a type `D` with the operations the machine uses.  Allocations succeed.
-/

namespace Slp

/-- The operations on `double` the instructions use, the conversions among them. -/
structure DoubleArith (D : Type) where
  ofInt : ℤ → D
  add : D → D → D
  sub : D → D → D
  mul : D → D → D
  div : D → D → D
  fmod : D → D → D
  pow : D → D → D
  neg : D → D
  trunc : D → D
  lt : D → D → Bool
  eq : D → D → Bool
  isfinite : D → Bool
  toInt32 : D → BitVec 32
  toInt64 : D → BitVec 64
  /-- The leading numeric part of a text. -/
  strtod : Bytes → D
  /-- `format_sleep_number`. -/
  formatSleepNumber : D → Bytes
  /-- `snprintf` with `%.1f`. -/
  formatOneDigit : D → Bytes

/-- A value as an operator sees it. -/
inductive OperandValue (D O : Type) where
  | null
  | bool (b : Bool)
  | num (d : D)
  | string (chars : Bytes)
  | long (value : BitVec 64)
  | double (value : D)
  | scalarCell (value : OperandValue D O)
  | tainted (value : OperandValue D O)
  | other (object : O)
  deriving DecidableEq, Repr

/-- Why an instruction does not complete. -/
inductive Fault where
  | runtimeError (message : String)
  /-- The C code has no defined behaviour: an empty stack, a quotient out of range, a write past
  the buffer. -/
  | undefined
  deriving DecidableEq, Repr

inductive NumericKind where
  | int | long | double
  deriving DecidableEq, Repr

/-- The wider of two kinds. -/
def NumericKind.widest : NumericKind → NumericKind → NumericKind
  | .double, _ | _, .double => .double
  | .long, _ | _, .long => .long
  | .int, .int => .int

namespace OperandValue

variable {D O : Type}

/-! ### Taint -/

/-- `slp_value_unwrap_taint`. -/
def unwrapTaint : OperandValue D O → OperandValue D O
  | tainted v => unwrapTaint v
  | v => v

/-- `slp_value_is_tainted`. -/
def isTainted : OperandValue D O → Bool
  | scalarCell v => isTainted v
  | tainted _ => true
  | _ => false

/-- `slp_vm_taint_value` on a value that is no container; the containers are tainted in place. -/
def taintValue (v : OperandValue D O) : OperandValue D O := if v.isTainted then v else tainted v

/-- The same operand without its taint wrappers. -/
def untaint : OperandValue D O → OperandValue D O
  | tainted v => untaint v
  | scalarCell v => scalarCell (untaint v)
  | v => v

/-- `propagate_taint_binary`. -/
def propagateTaintBinary (result left right : OperandValue D O) : OperandValue D O :=
  if left.isTainted || right.isTainted then result.taintValue else result

/-- `propagate_taint_unary`. -/
def propagateTaintUnary (result operand : OperandValue D O) : OperandValue D O :=
  if operand.isTainted then result.taintValue else result

/-! ### Numbers -/

variable (A : DoubleArith D)

/-- `slp_value_as_number`. -/
def asNumber : OperandValue D O → D
  | tainted v => asNumber v
  | scalarCell v => asNumber v
  | num d => d
  | bool b => if b then A.ofInt 1 else A.ofInt 0
  | string chars => A.strtod chars
  | long n => A.ofInt n.toInt
  | double d => d
  | null | other _ => A.ofInt 0

/-- `numeric_kind`: a cell is not looked into, so that it counts as an integer. -/
def numericKind (v : OperandValue D O) : NumericKind :=
  match v.unwrapTaint with
  | double _ => .double
  | long _ => .long
  | num d => if !A.isfinite d then .double else if !A.eq d (A.trunc d) then .double else .int
  | _ => .int

/-- `widest_numeric_kind`. -/
def widestNumericKind (left right : OperandValue D O) : NumericKind :=
  (left.numericKind A).widest (right.numericKind A)

/-- `numeric_int_value`. -/
def numericIntValue (v : OperandValue D O) : BitVec 32 := A.toInt32 (v.asNumber A)

/-- `numeric_long_value`. -/
def numericLongValue (v : OperandValue D O) : BitVec 64 :=
  match v.unwrapTaint with
  | long n => n
  | w => A.toInt64 (w.asNumber A)

/-- `SLP_NUM_VAL` of a 32-bit integer. -/
def ofInt32 (n : BitVec 32) : OperandValue D O := num (A.ofInt n.toInt)

/-! ### Texts -/

variable (describe : O → ℕ → Option Bytes)

/-- `format_sleep_double`. -/
def formatSleepDouble (d : D) : Bytes :=
  if A.isfinite d && !A.lt d (A.ofInt (-2147483648)) && !A.lt (A.ofInt 2147483647) d &&
      A.eq d (A.trunc d) then A.formatOneDigit d
  else A.formatSleepNumber d

/-- `stringify_value` without quotes: what it appends for a value at a depth, `none` where the
builder fails.  Cells are read through first; a taint wrapper counts as one more level. -/
def stringifyValue : OperandValue D O → ℕ → Option Bytes
  | scalarCell v, depth => stringifyValue v depth
  | tainted v, depth => if 32 < depth then some (ascii "...") else stringifyValue v (depth + 1)
  | null, depth => if 32 < depth then some (ascii "...") else some []
  | bool b, depth =>
    if 32 < depth then some (ascii "...") else some (ascii (if b then "true" else "false"))
  | num d, depth => if 32 < depth then some (ascii "...") else some (A.formatSleepNumber d)
  | string chars, depth => if 32 < depth then some (ascii "...") else some chars
  | long n, depth => if 32 < depth then some (ascii "...") else some (ascii (toString n.toInt))
  | double d, depth => if 32 < depth then some (ascii "...") else some (formatSleepDouble A d)
  | other o, depth => if 32 < depth then some (ascii "...") else describe o depth

/-- `slp_vm_stringify`. -/
def stringify : OperandValue D O → Option Bytes
  | string chars => some chars
  | v => stringifyValue A describe v 0

/-! ### Arithmetic -/

/-- The three branches of an arithmetic instruction that cannot fail. -/
def arithmetic (onDouble : D → D → D) (onLong : BitVec 64 → BitVec 64 → BitVec 64)
    (onInt : BitVec 32 → BitVec 32 → BitVec 32) (a b : OperandValue D O) : OperandValue D O :=
  match widestNumericKind A a b with
  | .double => double (onDouble (a.asNumber A) (b.asNumber A))
  | .long => long (onLong (a.numericLongValue A) (b.numericLongValue A))
  | .int => ofInt32 A (onInt (a.numericIntValue A) (b.numericIntValue A))

/-- `OP_ADD`. -/
def add (a b : OperandValue D O) : Except Fault (OperandValue D O) :=
  .ok (propagateTaintBinary (arithmetic A A.add (· + ·) (· + ·) a b) a b)

/-- `OP_SUBTRACT`. -/
def subtract (a b : OperandValue D O) : Except Fault (OperandValue D O) :=
  .ok (propagateTaintBinary (arithmetic A A.sub (· - ·) (· - ·) a b) a b)

/-- `OP_MULTIPLY`. -/
def multiply (a b : OperandValue D O) : Except Fault (OperandValue D O) :=
  .ok (propagateTaintBinary (arithmetic A A.mul (· * ·) (· * ·) a b) a b)

/-- The quotient of two machine integers, the one that does not fit replaced by the least one. -/
def quotient {w : ℕ} (dividend divisor : BitVec w) : BitVec w :=
  if dividend = BitVec.intMin w ∧ divisor = -1 then BitVec.intMin w else dividend.sdiv divisor

/-- The quotient `OP_DIVIDE` pushes, before the taint. -/
def divideResult (a b : OperandValue D O) : Except Fault (OperandValue D O) :=
  match widestNumericKind A a b with
  | .double => .ok (double (A.div (a.asNumber A) (b.asNumber A)))
  | .long =>
    if b.numericLongValue A = 0 then .error (.runtimeError "Division by zero.")
    else .ok (long (quotient (a.numericLongValue A) (b.numericLongValue A)))
  | .int =>
    if b.numericIntValue A = 0 then .error (.runtimeError "Division by zero.")
    else .ok (ofInt32 A (quotient (a.numericIntValue A) (b.numericIntValue A)))

/-- `OP_DIVIDE`. -/
def divide (a b : OperandValue D O) : Except Fault (OperandValue D O) :=
  (divideResult A a b).map (propagateTaintBinary · a b)

/-- The C operator `%`: the least integer has no remainder by minus one. -/
def remainder {w : ℕ} (dividend divisor : BitVec w) : Except Fault (BitVec w) :=
  if dividend = BitVec.intMin w ∧ divisor = -1 then .error .undefined
  else .ok (dividend.srem divisor)

/-- The remainder `OP_MODULO` pushes, before the taint. -/
def moduloResult (a b : OperandValue D O) : Except Fault (OperandValue D O) :=
  match widestNumericKind A a b with
  | .double =>
    if A.eq (b.asNumber A) (A.ofInt 0) then .error (.runtimeError "Modulo by zero.")
    else .ok (double (A.fmod (a.asNumber A) (b.asNumber A)))
  | .long =>
    if b.numericLongValue A = 0 then .error (.runtimeError "Modulo by zero.")
    else (remainder (a.numericLongValue A) (b.numericLongValue A)).map long
  | .int =>
    if b.numericIntValue A = 0 then .error (.runtimeError "Modulo by zero.")
    else (remainder (a.numericIntValue A) (b.numericIntValue A)).map (ofInt32 A)

/-- `OP_MODULO`. -/
def modulo (a b : OperandValue D O) : Except Fault (OperandValue D O) :=
  (moduloResult A a b).map (propagateTaintBinary · a b)

/-- `OP_POWER`. -/
def power (a b : OperandValue D O) : Except Fault (OperandValue D O) :=
  .ok (propagateTaintBinary (double (A.pow (a.asNumber A) (b.asNumber A))) a b)

/-- The three branches of an arithmetic instruction on one operand. -/
def arithmeticUnary (onDouble : D → D) (onLong : BitVec 64 → BitVec 64)
    (onInt : BitVec 32 → BitVec 32) (v : OperandValue D O) : OperandValue D O :=
  match v.numericKind A with
  | .double => double (onDouble (v.asNumber A))
  | .long => long (onLong (v.numericLongValue A))
  | .int => ofInt32 A (onInt (v.numericIntValue A))

/-- `OP_NEGATE`. -/
def negate (v : OperandValue D O) : Except Fault (OperandValue D O) :=
  .ok (propagateTaintUnary (arithmeticUnary A A.neg (0 - ·) (0 - ·) v) v)

/-- `OP_INCREMENT`. -/
def increment (v : OperandValue D O) : Except Fault (OperandValue D O) :=
  .ok (arithmeticUnary A (A.add · (A.ofInt 1)) (· + 1) (· + 1) v)

/-- `OP_DECREMENT`. -/
def decrement (v : OperandValue D O) : Except Fault (OperandValue D O) :=
  .ok (arithmeticUnary A (A.sub · (A.ofInt 1)) (· - 1) (· - 1) v)

/-- `OP_SPACESHIP`. -/
def spaceship (a b : OperandValue D O) : Except Fault (OperandValue D O) :=
  let da := a.asNumber A
  let db := b.asNumber A
  .ok (num (if A.lt da db then A.ofInt (-1) else if A.lt db da then A.ofInt 1 else A.ofInt 0))

/-! ### Bits -/

/-- The two branches of a bitwise instruction: a `double` is cut to an integer. -/
def bitwise (onLong : BitVec 64 → BitVec 64 → BitVec 64) (onInt : BitVec 32 → BitVec 32 → BitVec 32)
    (a b : OperandValue D O) : OperandValue D O :=
  match widestNumericKind A a b with
  | .long => long (onLong (a.numericLongValue A) (b.numericLongValue A))
  | _ => ofInt32 A (onInt (a.numericIntValue A) (b.numericIntValue A))

/-- `OP_BIT_AND`. -/
def bitAnd (a b : OperandValue D O) : Except Fault (OperandValue D O) :=
  .ok (bitwise A (· &&& ·) (· &&& ·) a b)

/-- `OP_BIT_OR`. -/
def bitOr (a b : OperandValue D O) : Except Fault (OperandValue D O) :=
  .ok (bitwise A (· ||| ·) (· ||| ·) a b)

/-- `OP_BIT_XOR`. -/
def bitXor (a b : OperandValue D O) : Except Fault (OperandValue D O) :=
  .ok (bitwise A (· ^^^ ·) (· ^^^ ·) a b)

/-- `OP_BIT_NOT`. -/
def bitNot (v : OperandValue D O) : Except Fault (OperandValue D O) :=
  .ok (match v.numericKind A with
    | .long => long (~~~ v.numericLongValue A)
    | _ => ofInt32 A (~~~ v.numericIntValue A))

/-- The two branches of a shift: the kind of the left operand alone decides, and the distance is
cut to the width. -/
def shift (onLong : BitVec 64 → ℕ → BitVec 64) (onInt : BitVec 32 → ℕ → BitVec 32)
    (a b : OperandValue D O) : OperandValue D O :=
  match a.numericKind A with
  | .long => long (onLong (a.numericLongValue A) (b.numericIntValue A &&& 63).toNat)
  | _ => ofInt32 A (onInt (a.numericIntValue A) (b.numericIntValue A &&& 31).toNat)

/-- `OP_LSHIFT`. -/
def lshift (a b : OperandValue D O) : Except Fault (OperandValue D O) :=
  .ok (shift A (· <<< ·) (· <<< ·) a b)

/-- `OP_RSHIFT`. -/
def rshift (a b : OperandValue D O) : Except Fault (OperandValue D O) :=
  .ok (shift A BitVec.sshiftRight BitVec.sshiftRight a b)

/-! ### Text instructions -/

/-- The text `OP_CONCAT` pushes, before the taint: the size of the buffer, one more than the
length, is a `uint32_t`, and the copies go past a buffer whose size wrapped. -/
def concatResult (a b : OperandValue D O) : Except Fault Bytes :=
  match stringify A describe a, stringify A describe b with
  | some left, some right =>
    if left.length + right.length + 1 < 2 ^ 32 then .ok (left ++ right) else .error .undefined
  | _, _ => .error (.runtimeError "Out of memory.")

/-- `OP_CONCAT`. -/
def concat (a b : OperandValue D O) : Except Fault (OperandValue D O) :=
  (concatResult A describe a b).map fun chars => propagateTaintBinary (string chars) a b

/-- `OP_ALIGN`: the width is below the value. -/
def align (below value : OperandValue D O) : Except Fault (OperandValue D O) :=
  let width := (below.numericIntValue A).toInt
  match stringify A describe value with
  | none => .error (.runtimeError "Out of memory.")
  | some text =>
    let padding := List.replicate (width.natAbs - text.length) (32 : UInt8)
    .ok (string (if width < 0 then padding ++ text else text ++ padding))

/-- `OP_REPEAT`; the size of the result is a `size_t`. -/
def «repeat» (a b : OperandValue D O) : Except Fault (OperandValue D O) :=
  let count := (A.toInt64 (b.asNumber A)).toInt
  match stringify A describe a with
  | none => .error (.runtimeError "Out of memory.")
  | some str =>
    if count ≤ 0 ∨ str.length = 0 then .ok (string [])
    else
      let total := str.length * count.toNat % 2 ^ 64
      if 2 ^ 32 - 1 < total ∨ total / count.toNat ≠ str.length then
        .error (.runtimeError "Repeated string is too large.")
      else .ok (string (List.replicate count.toNat str).flatten)

end OperandValue

/-! ### Instructions -/

/-- The operator opcodes that push a value. -/
inductive Operator where
  | add | subtract | multiply | divide | modulo | power | negate | concat | align | «repeat»
  | spaceship | bitAnd | bitOr | bitXor | bitNot | lshift | rshift | increment | decrement
  deriving DecidableEq, Repr

namespace Operator

variable {D O : Type}

/-- An instruction on the two topmost values: the right operand is popped first. -/
def binary (f : OperandValue D O → OperandValue D O → Except Fault (OperandValue D O)) :
    List (OperandValue D O) → Except Fault (List (OperandValue D O))
  | b :: a :: rest => (f a b).map (· :: rest)
  | _ => .error .undefined

/-- An instruction on the topmost value. -/
def unary (f : OperandValue D O → Except Fault (OperandValue D O)) :
    List (OperandValue D O) → Except Fault (List (OperandValue D O))
  | v :: rest => (f v).map (· :: rest)
  | [] => .error .undefined

variable (A : DoubleArith D) (describe : O → ℕ → Option Bytes)

/-- What an operator instruction makes of the stack, topmost value first. -/
def exec : Operator → List (OperandValue D O) → Except Fault (List (OperandValue D O))
  | add => binary (OperandValue.add A)
  | subtract => binary (OperandValue.subtract A)
  | multiply => binary (OperandValue.multiply A)
  | divide => binary (OperandValue.divide A)
  | modulo => binary (OperandValue.modulo A)
  | power => binary (OperandValue.power A)
  | negate => unary (OperandValue.negate A)
  | concat => binary (OperandValue.concat A describe)
  | align => binary (OperandValue.align A describe)
  | «repeat» => binary (OperandValue.repeat A describe)
  | spaceship => binary (OperandValue.spaceship A)
  | bitAnd => binary (OperandValue.bitAnd A)
  | bitOr => binary (OperandValue.bitOr A)
  | bitXor => binary (OperandValue.bitXor A)
  | bitNot => unary (OperandValue.bitNot A)
  | lshift => binary (OperandValue.lshift A)
  | rshift => binary (OperandValue.rshift A)
  | increment => unary (OperandValue.increment A)
  | decrement => unary (OperandValue.decrement A)

/-- How many values an instruction takes. -/
def arity : Operator → ℕ
  | negate | bitNot | increment | decrement => 1
  | _ => 2

end Operator

end Slp
