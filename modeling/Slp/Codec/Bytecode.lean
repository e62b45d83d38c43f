import Slp.Binary.Cursor
import Slp.Object.Basic

/-!
# The bytecode format

A compiled function is written as a magic number and a version, its name, its arity and number of
upvalues, its code, and its constants, each with a tag for its kind.  The reader puts the constants
back through `slp_chunk_add_constant`, which looks for an equal one first.

A number is its 64 bits here.  Allocation succeeds, except that one of size zero gives nothing: that
is what the buffer of a text of `2 ^ 32 - 1` bytes comes to, as the size is a sum of 32 bits.
-/

namespace Slp

/-- `SlpObjString`: the length has 32 bits. -/
structure PoolString where
  chars : Bytes
  length_lt : chars.length < 2 ^ 32
  deriving DecidableEq

/-- An entry of a constant table.  The address tells objects apart. -/
inductive PoolValue where
  | null
  | bool (b : Bool)
  | num (bits : UInt64)
  | string (address : Ref) (s : PoolString)
  | long (v : Int64)
  | double (bits : UInt64)
  /-- An object that is none of these. -/
  | other (address : Ref)
  deriving DecidableEq

/-- A double that is not equal to itself. -/
def isNaN (bits : UInt64) : Bool := bits &&& 0x7FFFFFFFFFFFFFFF > 0x7FF0000000000000

/-- One of the two zeros. -/
def isZero (bits : UInt64) : Bool := bits &&& 0x7FFFFFFFFFFFFFFF = 0

/-- The comparison of doubles. -/
def doubleEquals (a b : UInt64) : Bool :=
  !isNaN a && !isNaN b && (a == b || isZero a && isZero b)

/-- `constants_equal`. -/
def constantsEqual : PoolValue → PoolValue → Bool
  | .num a, .num b => doubleEquals a b
  | .long a, .long b => a == b
  | .double a, .double b => doubleEquals a b
  | .string r _, .string s _ => r == s
  | .other r, .other s => r == s
  | .bool a, .bool b => a == b
  | .null, .null => true
  | _, _ => false

/-- `slp_chunk_add_constant`: the index of the constant and the table. -/
def chunkAddConstant (constants : List PoolValue) (value : PoolValue) : ℕ × List PoolValue :=
  match constants.findIdx? (constantsEqual · value) with
  | some i => (i, constants)
  | none => (constants.length, constants ++ [value])

/-- A chunk as the codec sees it. -/
structure PoolChunk where
  code : List UInt8
  constants : List PoolValue

/-- A function as the codec sees it. -/
structure PoolFunction where
  name : Option PoolString
  arity : ℕ
  upvalueCount : ℕ
  chunk : PoolChunk

/-- A function as the compiler leaves it: its counts are ints, and its constants were added one
after the other. -/
structure PoolFunction.Compiled (f : PoolFunction) : Prop where
  code_lt : f.chunk.code.length < 2 ^ 31
  constants_lt : f.chunk.constants.length < 2 ^ 31
  added : ∃ vs : List PoolValue, f.chunk.constants =
    vs.foldl (fun constants v => (chunkAddConstant constants v).2) []

namespace Codec

/-- `SLP_BYTECODE_MAGIC`. -/
def magic : UInt32 := 0x534C5950

/-- `SLP_BYTECODE_VERSION`. -/
def version : UInt32 := 1

/-! ### Writing -/

/-- `write_u32`. -/
def writeU32 (v : UInt32) : Bytes :=
  [(v >>> 24).toUInt8, (v >>> 16).toUInt8, (v >>> 8).toUInt8, v.toUInt8]

/-- `write_u64`. -/
def writeU64 (v : UInt64) : Bytes :=
  (List.range 8).map fun i => (v >>> UInt64.ofNat (56 - i * 8)).toUInt8

/-- `serialize_value`; `none` where it returns false. -/
def serializeValue : PoolValue → Option Bytes
  | .null => some [0]
  | .bool b => some [1, if b then 1 else 0]
  | .num bits => some (2 :: writeU64 bits)
  | .string _ s => some (3 :: writeU32 (UInt32.ofNat s.chars.length) ++ s.chars)
  | .long v => some (4 :: writeU64 v.toUInt64)
  | .double bits => some (5 :: writeU64 bits)
  | .other _ => none

/-- The loop of `slp_bytecode_serialize_chunk` over the constants. -/
def serializeConstants : List PoolValue → Option Bytes
  | [] => some []
  | v :: rest => do return (← serializeValue v) ++ (← serializeConstants rest)

/-- `slp_bytecode_serialize_chunk`. -/
def serializeChunk (c : PoolChunk) : Option Bytes := do
  let constants ← serializeConstants c.constants
  return writeU32 (UInt32.ofNat c.code.length) ++ c.code ++
    writeU32 (UInt32.ofNat c.constants.length) ++ constants

/-- The bytes of a name; an absent one has none. -/
def nameChars (name : Option PoolString) : Bytes := (name.map (·.chars)).getD []

/-- `slp_bytecode_serialize_function`. -/
def serializeFunction (f : PoolFunction) : Option Bytes := do
  let chunk ← serializeChunk f.chunk
  return writeU32 magic ++ writeU32 version ++
    writeU32 (UInt32.ofNat (nameChars f.name).length) ++ nameChars f.name ++
    [UInt8.ofNat f.arity] ++ [UInt8.ofNat f.upvalueCount] ++ chunk

/-! ### Reading -/

open Decoder (take)

/-- `read_u8`. -/
def readU8 : OptionT Decoder UInt8 := do return (← take 1).headD 0

/-- The number that `read_u32` makes of its buffer. -/
def joinU32 (buf : Bytes) : UInt32 :=
  ((buf.getD 0 0).toUInt32 <<< 24) ||| ((buf.getD 1 0).toUInt32 <<< 16) |||
    ((buf.getD 2 0).toUInt32 <<< 8) ||| (buf.getD 3 0).toUInt32

/-- `read_u32`. -/
def readU32 : OptionT Decoder UInt32 := do return joinU32 (← take 4)

/-- The number that `read_u64` makes of its buffer. -/
def joinU64 (buf : Bytes) : UInt64 := buf.foldl (fun out b => (out <<< 8) ||| b.toUInt64) 0

/-- `read_u64`. -/
def readU64 : OptionT Decoder UInt64 := do return joinU64 (← take 8)

/-- The text of a string constant or a name: the check of the length, the buffer, which
`reallocate` does not give for the size zero, and the bytes. -/
def readText (len : UInt32) : OptionT Decoder Bytes := do
  let c ← get
  if len.toNat > c.data.length - c.offset then failure
  else if len + 1 = 0 then failure
  else take len.toNat

/-- The string made of a text that was read. -/
def poolString (chars : Bytes) : Option PoolString :=
  if h : chars.length < 2 ^ 32 then some ⟨chars, h⟩ else none

/-- The cases of `deserialize_value`; they fail where a part can not be read or made.  `address` is
the address of the object that is made, if one is. -/
def readTagged (address : Ref) (tag : UInt8) : OptionT Decoder PoolValue :=
  if tag = 1 then do return .bool ((← readU8) ≠ 0)
  else if tag = 2 then do return .num (← readU64)
  else if tag = 3 then do
    match poolString (← readText (← readU32)) with
    | some s => return .string address s
    | none => failure
  else if tag = 4 then do return .long (← readU64).toInt64
  else if tag = 5 then do return .double (← readU64)
  else return .null

/-- The body of `deserialize_value`. -/
def readValue (address : Ref) : OptionT Decoder PoolValue := do readTagged address (← readU8)

/-- `deserialize_value`: a failure is the null value. -/
def deserializeValue (address : Ref) : Decoder PoolValue := do
  return (← (readValue address).run).getD .null

/-- The loop of `slp_bytecode_deserialize_chunk` over the code. -/
def readCode : (count : ℕ) → OptionT Decoder (List UInt8)
  | 0 => return []
  | count + 1 => do return (← readU8) :: (← readCode count)

/-- The loop of `slp_bytecode_deserialize_chunk` over the constants; each call makes an object with
an address of its own. -/
def readConstants : (count : ℕ) → (address : Ref) → List PoolValue → Decoder (List PoolValue)
  | 0, _, constants => return constants
  | count + 1, address, constants => do
    let value ← deserializeValue address
    readConstants count (address + 1) (chunkAddConstant constants value).2

/-- `slp_bytecode_deserialize_chunk`. -/
def deserializeChunk : OptionT Decoder PoolChunk := do
  let code ← readCode (← readU32).toNat
  let constCount ← readU32
  let constants ← readConstants constCount.toNat 0 []
  return ⟨code, constants⟩

/-- The name in `slp_bytecode_deserialize_function`: none is made when there are no bytes. -/
def readName (nameLen : UInt32) : OptionT Decoder (Option PoolString) := do
  if nameLen > 0 then return poolString (← readText nameLen) else return none

/-- `slp_bytecode_deserialize_function`. -/
def deserializeFunction : OptionT Decoder PoolFunction := do
  if (← readU32) ≠ magic then failure
  else if (← readU32) ≠ version then failure
  else
    let name ← readName (← readU32)
    let arity ← readU8
    let upvalueCount ← readU8
    let chunk ← deserializeChunk
    return ⟨name, arity.toNat, upvalueCount.toNat, chunk⟩

end Codec

end Slp
