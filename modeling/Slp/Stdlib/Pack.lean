import Slp.Binary.Word
import Slp.Number.CInt
import Slp.Parse.Lexer
import Slp.Stdlib.Clone
import Slp.Text.CString
import Slp.Vm.Conversions

/-!
# Packing values into bytes

`pack` turns values into bytes by a format, and `unpack` reads them again.  A format is a list of
fields: a letter, a count or `*`, and marks for the order of the bytes, before the letter or behind
the count.  Both functions are loops over the text of the format.

The arguments are operands.  An operand that is neither a scalar nor a text is an object of the heap,
and `vm->packed_objects` keeps a copy of everything that was packed with `o`; the bytes only say which
one.  A result is undefined where an `int` of the code does not fit; allocations succeed.
-/

namespace Slp

/-- What the code takes from the compiler and the processor. -/
structure Host (D : Type) extends DoubleArith D where
  /-- `is_host_big_endian`. -/
  isBigEndian : Bool
  /-- Whether `char` is signed. -/
  charSigned : Bool
  toUInt8 : D → BitVec 8
  toUInt16 : D → BitVec 16
  /-- The bits of the `float` a double is converted to. -/
  toFloatBits : D → BitVec 32
  ofFloatBits : BitVec 32 → D
  toBits : D → BitVec 64
  ofBits : BitVec 64 → D
  /-- The number that the payload of a number in the heap stands for. -/
  ofPayload : ℤ → D

namespace Pack

open Parse (chr)

/-- Why there is no packed string. -/
inductive Stop where
  | undefined
  /-- The result is null, after a warning. -/
  | warning (message : Bytes)
  deriving DecidableEq, Repr

/-- The machine, with the elements of `vm->packed_objects`. -/
structure Machine (D : Type) where
  vm : VM
  packedObjects : List (OperandValue D Ref) := []

/-- A letter of a format. -/
inductive Code where
  | z | Z | h | H | x | C | c | b | B | s | S | i | I | f | d | l | o | other
  deriving DecidableEq, Repr

def Code.ofChar (c : UInt8) : Code :=
  match Char.ofNat c.toNat with
  | 'z' => .z | 'Z' => .Z | 'h' => .h | 'H' => .H | 'x' => .x | 'C' => .C | 'c' => .c | 'b' => .b
  | 'B' => .B | 's' => .s | 'S' => .S | 'i' => .i | 'I' => .I | 'f' => .f | 'd' => .d | 'l' => .l
  | 'o' => .o | _ => .other

/-- A field of a format; the count is `-1` for `*`. -/
structure Field where
  code : Code
  count : ℤ
  bigEndian : Bool
  deriving DecidableEq, Repr

section Pack

variable {D : Type} (H : Host D) (sizeof : ObjType → ℕ) (fmt : Printf)

/-! ### Operands -/

/-- A value of the heap as an operand. -/
def operandOf (h : Heap) : (depth : ℕ) → Value → OperandValue D Ref
  | _, .null => .null
  | _, .bool b => .bool b
  | _, .num n => .num (H.ofPayload n)
  | 0, .obj r => .other r
  | depth + 1, .obj r =>
    match h.get? r with
    | some (.string s) => .string s.chars
    | some (.long n) => .long (BitVec.ofInt 64 n)
    | some (.double bits) => .double (H.ofBits bits.toBitVec)
    | some (.scalarCell v _) => .scalarCell (operandOf h depth v)
    | some (.tainted v) => .tainted (operandOf h depth v)
    | _ => .other r

/-- `clone_serializable` of an operand. -/
def cloneOperand (vm : VM) : OperandValue D Ref → Option (VM × OperandValue D Ref)
  | .scalarCell v => cloneOperand vm v
  | .other r => (Stdlib.cloneSerializable sizeof fmt vm (.obj r)).map fun p =>
    (p.1, operandOf H p.1.objects (p.1.objects.length + 1) p.2)
  | v => some (vm, v)

/-- The bytes of a text, none of anything else. -/
def textOf : OperandValue D Ref → Bytes
  | .string chars => chars
  | _ => []

/-- The first byte of a C string. -/
def firstChar (v : OperandValue D Ref) : UInt8 := (textOf v).headD 0

/-- `stdlib_as_int64`. -/
def asInt64 (v : OperandValue D Ref) : BitVec 64 :=
  match v.dereference with
  | .long n => n
  | w => H.toInt64 (w.asNumber H.toDoubleArith)

/-- The conversion of a `char` to `uint16_t`. -/
def charToShort (c : UInt8) : BitVec 16 :=
  if H.charSigned then c.toBitVec.signExtend 16 else c.toBitVec.setWidth 16

/-! ### The text of a format -/

/-- `isalpha` in the C locale. -/
def isLetter (c : UInt8) : Bool :=
  (chr 'a' ≤ c && c ≤ chr 'z') || (chr 'A' ≤ c && c ≤ chr 'Z')

/-- The byte order a mark stands for. -/
def orderMark (c : UInt8) : Option Bool :=
  if c = chr '+' then some true
  else if c = chr '-' then some false
  else if c = chr '!' then some H.isBigEndian
  else none

/-- The digits of a count. -/
def scanDigits (count : ℤ) : Bytes → Option (ℤ × Bytes)
  | [] => some (count, [])
  | c :: rest =>
    if Parse.isDigit c then do
      let count ← CInt.checked (count * 10 + (c.toNat - 48 : ℕ))
      scanDigits count rest
    else some (count, c :: rest)

/-- The count behind a letter. -/
def scanCount : Bytes → Option (ℤ × Bytes)
  | [] => some (1, [])
  | c :: rest =>
    if c = chr '*' then some (-1, rest)
    else if Parse.isDigit c then scanDigits 0 (c :: rest)
    else some (1, c :: rest)

/-- The marks behind a count. -/
def scanOrder (big : Bool) : Bytes → Bool × Bytes
  | [] => (big, [])
  | c :: rest =>
    match orderMark H c with
    | some big => scanOrder big rest
    | none => (big, c :: rest)

/-- The field that starts with the letter `c`. -/
def scanField (big : Bool) (c : UInt8) (rest : Bytes) : Option (Field × Bytes) := do
  let (count, rest) ← scanCount rest
  let (big, rest) := scanOrder H big rest
  return (⟨.ofChar c, count, big⟩, rest)

/-- What the code sees of a format: the text of a C string, nothing of any other value. -/
def formatText (format : OperandValue D Ref) : Bytes := cstring (textOf format)

/-! ### Hexadecimal texts -/

/-- `isspace` in the C locale. -/
def isSpace (c : UInt8) : Bool := c = 32 || 9 ≤ c && c ≤ 13

/-- The value of a digit, of a letter of either case. -/
def hexValue (c : UInt8) : ℕ :=
  if c ≤ chr '9' then c.toNat - 48 else if c ≤ chr 'F' then c.toNat - 55 else c.toNat - 87

/-- `strtol` to the base 16 of a short text. -/
def strtolHex (text : Bytes) : ℤ :=
  let text := text.dropWhile isSpace
  let sign := text.headD 0
  let text := if sign = chr '-' ∨ sign = chr '+' then text.tail else text
  let text := match text with
    | a :: b :: c :: rest =>
      if a = chr '0' ∧ (b = chr 'x' ∨ b = chr 'X') ∧ Parse.isHexDigit c then c :: rest
      else a :: b :: c :: rest
    | _ => text
  let value : ℕ := (text.takeWhile Parse.isHexDigit).foldl (fun n c => n * 16 + hexValue c) 0
  if sign = chr '-' then -value else value

/-- The byte of two digits, for `h` the later digit first. -/
def byteOfHex (code : Code) (a b : UInt8) : UInt8 :=
  .ofBitVec (BitVec.ofInt 8 (strtolHex (cstring (if code = .h then [b, a] else [a, b]))))

/-- The bytes of pairs of digits. -/
def hexBytes (code : Code) : Bytes → Bytes
  | a :: b :: rest => byteOfHex code a b :: hexBytes code rest
  | _ => []

/-- The two digits of a byte, for `h` the later digit first. -/
def hexPair (code : Code) (c : UInt8) : Bytes :=
  if code = .h then (hexByte c).reverse else hexByte c

def hexWarning (hex : Bytes) : Bytes :=
  ascii "can not pack '" ++ cstring hex ++
    ascii "' as hex string, number of characters must be even"

/-! ### Packing -/

/-- `PackArgsState` and `PackBuffer`: the arguments that are left, and the bytes. -/
structure PackState (D : Type) where
  machine : Machine D
  values : List (OperandValue D Ref)
  buf : Bytes := []

/-- `get_next_arg`. -/
def PackState.nextArg (s : PackState D) : OperandValue D Ref × PackState D :=
  (s.values.headD .null, { s with values := s.values.tail })

def PackState.push (s : PackState D) (bytes : Bytes) : PackState D :=
  { s with buf := s.buf ++ bytes }

/-- The bytes of one value, for all letters but `o`. -/
def scalarBytes (code : Code) (big : Bool) (v : OperandValue D Ref) : Bytes :=
  let number := v.asNumber H.toDoubleArith
  match code with
  | .x => [0]
  | .C => [firstChar v]
  | .c => writeWord 2 (charToShort H (firstChar v)).toNat big
  | .b | .B => [.ofBitVec (H.toUInt8 number)]
  | .s | .S => writeWord 2 (H.toUInt16 number).toNat big
  | .i => writeWord 4 (H.toInt32 number).toNat big
  | .I => writeWord 4 ((asInt64 H v).setWidth 32).toNat big
  | .f => writeWord 4 (H.toFloatBits number).toNat big
  | .d => writeWord 8 (H.toBits number).toNat big
  | .l => writeWord 8 (asInt64 H v).toNat big
  | _ => []

/-- The mark before the number of a packed object. -/
def magic : Bytes := ascii "SLPO"

/-- `pack_object_token`. -/
def packObjectToken (v : OperandValue D Ref) (s : PackState D) : Option (PackState D) := do
  let index := s.machine.packedObjects.length
  let _ ← CInt.checked (index + 1)
  let (vm, snapshot) ← cloneOperand H sizeof fmt s.machine.vm v
  return { s with machine := ⟨vm, s.machine.packedObjects ++ [snapshot]⟩ }.push
    (magic ++ writeWord 4 index true)

/-- The body of the loop over the values of a field. -/
def packOne (f : Field) (s : PackState D) : Option (PackState D) :=
  let (v, s) := if f.code = .x then (.null, s) else s.nextArg
  if f.code = .o then packObjectToken H sizeof fmt v s
  else some (s.push (scalarBytes H f.code f.bigEndian v))

/-- The loop over the values of a field. -/
def packRepeat (f : Field) : (repeats : ℕ) → PackState D → Option (PackState D)
  | 0, s => some s
  | n + 1, s => do packRepeat f n (← packOne H sizeof fmt f s)

/-- `z` and `Z`. -/
def packText (f : Field) (s : PackState D) : Option (PackState D) := do
  let (v, s) := s.nextArg
  let length ← CInt.checked (textOf v).length
  let limit := if f.count = -1 then length else f.count
  let s := s.push ((List.range limit.toNat).map fun i => (textOf v).getD i 0)
  return if f.code = .z ∨ f.count = -1 then s.push [0] else s

/-- `h` and `H`. -/
def packHex (f : Field) (s : PackState D) : Except Stop (PackState D) :=
  let (v, s) := s.nextArg
  match CInt.checked (textOf v).length with
  | none => .error .undefined
  | some length =>
    if length % 2 ≠ 0 then .error (.warning (hexWarning (textOf v)))
    else .ok (s.push (hexBytes f.code (textOf v)))

/-- Where there is no result nothing is defined. -/
def orUndefined {α : Type} : Option α → Except Stop α
  | some a => .ok a
  | none => .error .undefined

def packField (f : Field) (s : PackState D) : Except Stop (PackState D) :=
  match f.code with
  | .z | .Z => orUndefined (packText f s)
  | .h | .H => packHex f s
  | _ =>
    let repeats := if f.count = -1 then s.values.length else f.count.toNat
    orUndefined (packRepeat H sizeof fmt f repeats s)

/-- The loop of `builtin_pack`, at most `fuel` times. -/
def packLoop : (fuel : ℕ) → Bool → Bytes → PackState D → Except Stop (PackState D)
  | 0, _, _, s => .ok s
  | _ + 1, _, [], s => .ok s
  | fuel + 1, pending, c :: rest, s =>
    match orderMark H c with
    | some big => packLoop fuel big rest s
    | none =>
      if isLetter c then do
        let (f, rest) ← orUndefined (scanField H pending c rest)
        packLoop fuel true rest (← packField H sizeof fmt f s)
      else packLoop fuel pending rest s

/-- The values to pack: a single array stands for its elements. -/
def passed (m : Machine D) : List (OperandValue D Ref) → List (OperandValue D Ref)
  | [.other r] =>
    match m.vm.objects.get? r with
    | some (.array a) => a.live.map (operandOf H m.vm.objects (m.vm.objects.length + 1))
    | _ => [.other r]
  | args => args

/-- `builtin_pack`.  The string has as many bytes as a `uint32_t` says. -/
def pack (m : Machine D) :
    List (OperandValue D Ref) → Except Stop (Machine D × OperandValue D Ref)
  | [] => .ok (m, .null)
  | format :: args => do
    let text := formatText format
    let _ ← orUndefined (CInt.checked text.length)
    let s ← packLoop H sizeof fmt text.length true text ⟨m, passed H m args, []⟩
    return (s.machine, .string (s.buf.take (s.buf.length % 2 ^ 32)))

/-! ### Unpacking -/

/-- The state of `builtin_unpack`: the elements of the array are the values. -/
structure UnpackState (D : Type) where
  machine : Machine D
  offset : ℕ := 0
  values : List (OperandValue D Ref) := []

section Unpack

variable (data : Bytes)

/-- The value of the next `n` bytes.  If there are fewer the rest is skipped. -/
def unpackWord (n : ℕ) (value : Bytes → OperandValue D Ref) (s : UnpackState D) :
    Option (UnpackState D) := do
  let stop ← CInt.checked (s.offset + n)
  if stop ≤ data.length then
    return { s with
      offset := s.offset + n
      values := s.values ++ [value ((data.drop s.offset).take n)] }
  else return { s with offset := data.length }

/-- `unpack_object_token`, and what becomes of the offset where it fails. -/
def unpackObjectToken (s : UnpackState D) : Option (UnpackState D) := do
  let stop ← CInt.checked (s.offset + 8)
  let token := data.drop s.offset
  let index := readWord ((token.drop 4).take 4) true
  if stop ≤ data.length ∧ token.take 4 = magic then
    match s.machine.packedObjects[index]? with
    | none => return { s with offset := data.length }
    | some snapshot => do
      let (vm, v) ← cloneOperand H sizeof fmt s.machine.vm snapshot
      return ⟨⟨vm, s.machine.packedObjects⟩, s.offset + 8, s.values ++ [v]⟩
  else return { s with offset := data.length }

/-- The body of the loop over the values of a field.  There is a byte at the offset. -/
def unpackOne (f : Field) (s : UnpackState D) : Option (UnpackState D) :=
  let word (n : ℕ) (xs : Bytes) : BitVec n := BitVec.ofNat n (readWord xs f.bigEndian)
  let int {n : ℕ} (x : BitVec n) : OperandValue D Ref := .num (H.ofInt x.toInt)
  let nat {n : ℕ} (x : BitVec n) : OperandValue D Ref := .num (H.ofInt x.toNat)
  match f.code with
  | .x => some { s with offset := s.offset + 1 }
  | .C => unpackWord data 1 (fun xs => .string xs) s
  | .c => unpackWord data 2 (fun xs => .string [.ofBitVec ((word 16 xs).setWidth 8)]) s
  | .b => unpackWord data 1 (fun xs => int (word 8 xs)) s
  | .B => unpackWord data 1 (fun xs => nat (word 8 xs)) s
  | .s => unpackWord data 2 (fun xs => int (word 16 xs)) s
  | .S => unpackWord data 2 (fun xs => nat (word 16 xs)) s
  | .i => unpackWord data 4 (fun xs => int (word 32 xs)) s
  | .I => unpackWord data 4 (fun xs => .long ((word 32 xs).setWidth 64)) s
  | .f => unpackWord data 4 (fun xs => .num (H.ofFloatBits (word 32 xs))) s
  | .d => unpackWord data 8 (fun xs => .num (H.ofBits (word 64 xs))) s
  | .l => unpackWord data 8 (fun xs => .long (word 64 xs)) s
  | .o => unpackObjectToken H sizeof fmt data s
  | _ => some s

/-- The loop over the values of a field. -/
def unpackRepeat (f : Field) : (repeats : ℕ) → UnpackState D → Option (UnpackState D)
  | 0, s => some s
  | n + 1, s =>
    if s.offset < data.length then do
      unpackRepeat f n (← unpackOne H sizeof fmt data f s)
    else some s

/-- `unit_size`. -/
def Code.unit : Code → ℕ
  | .c | .s | .S => 2
  | .i | .I | .f => 4
  | .d | .l | .o => 8
  | _ => 1

/-- `z` and `Z`. -/
def unpackText (f : Field) (s : UnpackState D) : Option (UnpackState D) :=
  if f.count = -1 then
    let text := cstring (data.drop s.offset)
    let stop := s.offset + text.length
    some { s with
      offset := if stop < data.length then stop + 1 else stop
      values := s.values ++ [.string text] }
  else do
    let stop ← CInt.checked (s.offset + f.count)
    return { s with
      offset := stop.toNat
      values := s.values ++ [.string (cstring ((data.drop s.offset).take f.count.toNat))] }

/-- `h` and `H`. -/
def unpackHex (f : Field) (s : UnpackState D) : Option (UnpackState D) := do
  let limit := if f.count = -1 then data.length - s.offset else f.count.toNat
  let bytes := (data.drop s.offset).take limit
  let _ ← CInt.checked (2 * bytes.length)
  return { s with
    offset := s.offset + bytes.length
    values := s.values ++ [.string (bytes.flatMap (hexPair f.code))] }

def unpackField (f : Field) (s : UnpackState D) : Option (UnpackState D) :=
  match f.code with
  | .z | .Z => unpackText data f s
  | .h | .H => unpackHex data f s
  | _ =>
    let repeats := if f.count = -1 then (data.length - s.offset) / f.code.unit else f.count.toNat
    unpackRepeat H sizeof fmt data f repeats s

/-- The loop of `builtin_unpack`, at most `fuel` times. -/
def unpackLoop : (fuel : ℕ) → Bool → Bytes → UnpackState D → Option (UnpackState D)
  | 0, _, _, s => some s
  | _ + 1, _, [], s => some s
  | fuel + 1, pending, c :: rest, s =>
    if s.offset < data.length then
      match orderMark H c with
      | some big => unpackLoop fuel big rest s
      | none =>
        if isLetter c then do
          let (f, rest) ← scanField H pending c rest
          unpackLoop fuel true rest (← unpackField H sizeof fmt data f s)
        else unpackLoop fuel pending rest s
    else some s

end Unpack

/-- The body of `builtin_unpack`. -/
def unpackAll (m : Machine D) (format : OperandValue D Ref) (data : Bytes) :
    Option (UnpackState D) := do
  let text := formatText format
  let _ ← CInt.checked data.length
  let _ ← CInt.checked text.length
  unpackLoop H sizeof fmt data text.length true text ⟨m, 0, []⟩

/-- `builtin_unpack`: the elements of the array, or null. -/
def unpack (m : Machine D) :
    List (OperandValue D Ref) → Option (Machine D × Option (List (OperandValue D Ref)))
  | format :: .string data :: _ =>
    (unpackAll H sizeof fmt m format data).map fun s => (s.machine, some s.values)
  | _ => some (m, none)

end Pack

end Pack

end Slp
