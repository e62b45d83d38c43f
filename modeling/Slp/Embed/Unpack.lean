import Slp.Parse.Lexer
import Slp.Text.CString
import Slp.Vm.Conversions

/-!
# Unpacking the arguments of a native function

`slp_args_unpack` reads the arguments by a format and stores what it reads through the pointers of
its variable arguments.

* `embeddingValue` and the getters : what is read of a value;
* `tokens` : how the cursor goes over a format;
* `unpackUnit`, `unpack` : what a unit does with its argument, and what the whole format does.

A pointer is an address, null if there is none.  Where the type of a variable argument is not the one
that is asked for nothing is defined.
-/

namespace Slp

namespace Embed

open Parse (chr)

variable {D O : Type}

/-! ### Values -/

/-- `embedding_value`. -/
def embeddingValue : OperandValue D O → OperandValue D O
  | .scalarCell v => embeddingValue v
  | .tainted v => embeddingValue v
  | v => v

section Getters

variable (A : DoubleArith D) (type : O → ObjType)

/-- `slp_value_is_falsy`. -/
def isFalsy (v : OperandValue D O) : Bool :=
  match embeddingValue v with
  | .null => true
  | .bool b => !b
  | .num d => A.eq d (A.ofInt 0)
  | .long n => n = 0
  | .double d => A.eq d (A.ofInt 0)
  | _ => false

/-- `slp_value_get_number`. -/
def getNumber (v : OperandValue D O) : Option D :=
  match embeddingValue v with
  | .num d => some d
  | .long n => some (A.ofInt n.toInt)
  | .double d => some d
  | _ => none

/-- The number is finite and not outside the range of `int`. -/
def fitsInt (d : D) : Bool :=
  A.isfinite d && !A.lt d (A.ofInt (-2147483648)) && !A.lt (A.ofInt 2147483647) d

/-- The number is finite and in the range of `int64_t`. -/
def fitsLong (d : D) : Bool :=
  A.isfinite d && !A.lt d (A.ofInt (-2 ^ 63)) && A.lt d (A.ofInt (2 ^ 63))

/-- `slp_value_get_long`. -/
def getLong (v : OperandValue D O) : Option (BitVec 64) :=
  match embeddingValue v with
  | .long n => some n
  | _ => (getNumber A v).bind fun d => if fitsLong A d then some (A.toInt64 d) else none

/-- The `int` that is read by the unit `i`. -/
def intOf (v : OperandValue D O) : Option (BitVec 32) :=
  let number := v.asNumber A
  if fitsInt A number then some (A.toInt32 number) else none

/-- `slp_value_get_array` and `slp_value_get_hash`: an object of the type. -/
def getObject (expected : ObjType) (v : OperandValue D O) : Option O :=
  match embeddingValue v with
  | .other o => if type o = expected then some o else none
  | _ => none

end Getters

/-! ### Formats -/

/-- A unit of a format. -/
inductive Letter where
  | s | sHash | i | l | d | b | O | OBang
  /-- Any other character. -/
  | unknown
  deriving DecidableEq, Repr

/-- What the code comes to in a format. -/
inductive Token where
  | bar
  | unit (u : Letter)
  deriving DecidableEq, Repr

/-- The letters of one character. -/
def letter (c : UInt8) : Letter :=
  if c = chr 's' then .s
  else if c = chr 'i' then .i
  else if c = chr 'l' then .l
  else if c = chr 'd' then .d
  else if c = chr 'b' then .b
  else if c = chr 'O' then .O
  else .unknown

/-- How the cursor goes over a format. -/
def tokens : Bytes → List Token
  | [] => []
  | c :: cs =>
    if c = 32 then tokens cs
    else if c = chr '|' then .bar :: tokens cs
    else if c = chr 's' ∧ cs.head? = some (chr '#') then .unit .sHash :: tokens (cs.drop 1)
    else if c = chr 'O' ∧ cs.head? = some (chr '!') then .unit .OBang :: tokens (cs.drop 1)
    else .unit (letter c) :: tokens cs
termination_by cs => cs.length
decreasing_by all_goals simp only [List.length_cons, List.length_drop]; omega

/-! ### Variable arguments -/

/-- What a pointer points to. -/
inductive Kind where
  | chars | int | long | double | bool | value | array | hash
  deriving DecidableEq, Repr

/-- A variable argument: a pointer, or the type of an object. -/
inductive Output where
  | pointer (kind : Kind) (address : Option ℕ)
  | type (expected : ObjType)
  deriving DecidableEq, Repr

/-- What is stored through a pointer. -/
inductive Stored (D O : Type) where
  | chars (text : Option Bytes)
  | int (n : ℤ)
  | long (n : ℤ)
  | double (d : D)
  | bool (b : Bool)
  | value (v : OperandValue D O)
  | object (o : O)
  deriving DecidableEq, Repr

/-- A store: the address, and what is stored. -/
abbrev Store (D O : Type) := ℕ × Stored D O

/-- `va_arg` of a pointer. -/
def nextPointer (kind : Kind) : List Output → Option (Option ℕ × List Output)
  | .pointer k p :: outputs => if k = kind then some (p, outputs) else none
  | _ => none

/-- Whether a unit was read, what was stored, and the variable arguments that are left. -/
abbrev UnitResult (D O : Type) := Bool × List (Store D O) × List Output

section Unpack

variable (A : DoubleArith D) (type : O → ObjType)

/-- `SLP_ARGS_TYPED_NEXT`: a value is stored if there is one. -/
def typedNext (kind : Kind) (v : Option (Stored D O)) (outputs : List Output) :
    Option (UnitResult D O) := do
  let (p, outputs) ← nextPointer kind outputs
  return match p, v with
    | some p, some v => (true, [(p, v)], outputs)
    | _, _ => (false, [], outputs)

/-- `unpack_nullable_string`; `length` is a pointer if the length is asked for. -/
def unpackNullableString (v : OperandValue D O) (chars : Option ℕ) (length : Option ℕ) :
    Bool × List (Store D O) :=
  match chars with
  | none => (false, [])
  | some p =>
    match embeddingValue v with
    | .null => (true, (p, .chars none) :: (length.map fun q => (q, .int 0)).toList)
    | .string text =>
      match length with
      | none => (true, [(p, .chars (some text))])
      | some q =>
        -- the text has been stored by then
        if 2147483647 < text.length then (false, [(p, .chars (some text))])
        else (true, [(p, .chars (some text)), (q, .int text.length)])
    | _ => (false, [])

/-- A unit with its argument. -/
def unpackUnit (u : Letter) (v : OperandValue D O) (outputs : List Output) : Option (UnitResult D O) :=
  match u with
  | .s => do
    let (chars, outputs) ← nextPointer .chars outputs
    let (ok, stores) := unpackNullableString v chars none
    return (ok, stores, outputs)
  | .sHash => do
    let (chars, outputs) ← nextPointer .chars outputs
    let (length, outputs) ← nextPointer .int outputs
    return match length with
      | none => (false, [], outputs)
      | some q =>
        let (ok, stores) := unpackNullableString v chars (some q)
        (ok, stores, outputs)
  | .i => typedNext .int ((intOf A v).map fun n => .int n.toInt) outputs
  | .l => typedNext .long ((getLong A v).map fun n => .long n.toInt) outputs
  | .d => typedNext .double ((getNumber A v).map .double) outputs
  | .b => typedNext .bool (some (.bool !isFalsy A v)) outputs
  | .O => typedNext .value (some (.value (embeddingValue v))) outputs
  | .OBang =>
    match outputs with
    | .type expected :: outputs =>
      if expected = .array then typedNext .array ((getObject type .array v).map .object) outputs
      else if expected = .hash then typedNext .hash ((getObject type .hash v).map .object) outputs
      else some (false, [], outputs)
    | _ => none
  | .unknown => some (false, [], outputs)

/-- The loop over the format. -/
def unpackTokens : List Token → (optional : Bool) → List (OperandValue D O) → List Output →
    List (Store D O) → Option (Bool × List (Store D O))
  | [], _, _, _, stores => some (true, stores)
  | .bar :: ts, _, args, outputs, stores => unpackTokens ts true args outputs stores
  | .unit _ :: _, optional, [], _, stores => some (optional, stores)
  | .unit u :: ts, optional, v :: args, outputs, stores => do
    let (ok, stored, outputs) ← unpackUnit A type u v outputs
    if ok then unpackTokens ts optional args outputs (stores ++ stored)
    else return (false, stores ++ stored)

/-- `slp_args_unpack`: what it returns, and what it has stored.  A null format reads nothing. -/
def unpack (format : Option Bytes) (args : List (OperandValue D O)) (outputs : List Output) :
    Option (Bool × List (Store D O)) :=
  match format with
  | none => some (true, [])
  | some format => unpackTokens A type (tokens (cstring format)) false args outputs []

end Unpack

end Embed

end Slp
