import Slp.Stdlib.PackLaw

/-!
# Binary streams

`bwrite` packs values and writes the bytes, and `bread` reads as many bytes as it takes from the
format, and unpacks them.  For the number of bytes there is a third reading of the format,
`estimate_pack_size`.

The handle is that of a memory buffer, a temporary file which is written first, and read once it has
been closed for writing.  The file gives the bytes that were written to it.
-/

namespace Slp

/-! ### Files -/

/-- A file, and the place in it. -/
structure File where
  bytes : Bytes := []
  position : ℕ := 0
  deriving DecidableEq, Repr

namespace File

def fwrite (file : File) (xs : Bytes) : File :=
  ⟨file.bytes.take file.position ++ xs ++ file.bytes.drop (file.position + xs.length),
    file.position + xs.length⟩

/-- At most `n` bytes, fewer at the end. -/
def fread (file : File) (n : ℕ) : Bytes × File :=
  let xs := (file.bytes.drop file.position).take n
  (xs, ⟨file.bytes, file.position + xs.length⟩)

def rewind (file : File) : File := ⟨file.bytes, 0⟩

/-- What is written at the end is appended. -/
theorem fwrite_end (bytes xs : Bytes) :
    fwrite ⟨bytes, bytes.length⟩ xs = ⟨bytes ++ xs, (bytes ++ xs).length⟩ := by
  unfold fwrite
  dsimp only
  rw [List.take_length, List.drop_eq_nil_of_le (Nat.le_add_right _ _), List.append_nil,
    List.length_append]

/-- As many bytes as there are up to some place. -/
theorem fread_append (u xs tail : Bytes) :
    fread ⟨u ++ (xs ++ tail), u.length⟩ xs.length = (xs, ⟨u ++ (xs ++ tail), (u ++ xs).length⟩) := by
  unfold fread
  dsimp only
  rw [List.drop_left, List.take_left, List.length_append]

end File

namespace Pack

open Parse (chr)

/-! ### The size of a format -/

section Estimate

/-- The marks for the order of the bytes. -/
def isOrderMark (c : UInt8) : Bool := c = chr '+' || c = chr '-' || c = chr '!'

/-- `unit` of `estimate_pack_size`. -/
def Code.estimatedUnit : Code → ℕ
  | .c | .s | .S => 2
  | .i | .I | .f => 4
  | .d | .l => 8
  | _ => 1

/-- The count of a letter, 1024 for `*`. -/
def estimateCount (count : ℤ) : ℤ := if count = -1 then 1024 else count

/-- The loop of `estimate_pack_size`, at most `fuel` times. -/
def estimateLoop : (fuel : ℕ) → Bytes → ℤ → Option ℤ
  | 0, _, total => some total
  | _ + 1, [], total => some total
  | fuel + 1, c :: rest, total =>
    if isOrderMark c then estimateLoop fuel rest total
    else if isLetter c then do
      let (count, rest) ← scanCount rest
      let size ← CInt.checked (estimateCount count * (Code.ofChar c).estimatedUnit)
      let total ← CInt.checked (total + size)
      estimateLoop fuel rest total
    else estimateLoop fuel rest total

/-- `estimate_pack_size` of a C string. -/
def estimatePackSize (format : Bytes) : Option ℤ := do
  let _ ← CInt.checked format.length
  estimateLoop format.length format 0

end Estimate

/-! ### Memory buffers -/

/-- An `SlpObjIOHandle` of a memory buffer: it is neither the console nor a pipeline nor a socket. -/
structure MemoryHandle where
  file : Option File
  isEof : Bool := false
  memoryReadable : Bool := false
  deriving DecidableEq, Repr

namespace MemoryHandle

/-- The handle of `builtin_allocate`. -/
def allocate : MemoryHandle := { file := some {} }

/-- `builtin_writeb`. -/
def writeb (handle : MemoryHandle) (xs : Bytes) : MemoryHandle :=
  match handle.file with
  | some file => { handle with file := some (file.fwrite xs) }
  | none => handle

/-- `builtin_readb`: the bytes, or null. -/
def readb (handle : MemoryHandle) (toRead : ℤ) : MemoryHandle × Option Bytes :=
  if handle.isEof then (handle, none)
  else match handle.file with
    | none => (handle, if toRead ≤ 0 then none else some [])
    | some file =>
      if toRead ≤ 0 then
        let (xs, file) := file.fread file.bytes.length
        ({ handle with file := some file, isEof := true },
          if xs = [] then none else some (xs.take (xs.length % 2 ^ 32)))
      else
        let (xs, file) := file.fread toRead.toNat
        ({ handle with file := some file, isEof := decide (xs = []) }, some xs)

/-- `builtin_closef`: at first the buffer is only closed for writing. -/
def closef (handle : MemoryHandle) : MemoryHandle :=
  match handle.file with
  | none => handle
  | some file =>
    if handle.memoryReadable then { handle with file := none, isEof := true }
    else { file := some file.rewind, isEof := false, memoryReadable := true }

/-- The place in the file. -/
def position (handle : MemoryHandle) : ℕ := (handle.file.map File.position).getD 0

end MemoryHandle

open MemoryHandle

section Streams

variable {D : Type} (H : Host D) (sizeof : ObjType → ℕ) (fmt : Printf)

/-- `builtin_bwrite`. -/
def bwrite (m : Machine D) (handle : MemoryHandle) (args : List (OperandValue D Ref)) :
    Except Stop (Machine D × MemoryHandle) := do
  let (m, packed) ← pack H sizeof fmt m args
  match packed with
  | .string xs => return (m, handle.writeb xs)
  | _ => return (m, handle)

/-- `builtin_bread`: the elements of the array, or null. -/
def bread (m : Machine D) (handle : MemoryHandle) :
    OperandValue D Ref → Option (Machine D × MemoryHandle × Option (List (OperandValue D Ref)))
  | .string format => do
    let size ← estimatePackSize (cstring format)
    match handle.readb (if size ≤ 0 then 1024 else size) with
    | (handle, none) => return (m, handle, none)
    | (handle, some xs) => do
      let (m, values) ← unpack H sizeof fmt m [.string format, .string xs]
      return (m, handle, values)
  | _ => return (m, handle, none)

/-- The arguments of a call of `bwrite`, behind the handle. -/
structure Call (D : Type) where
  format : Bytes
  args : List (OperandValue D Ref)

def Call.operands (c : Call D) : List (OperandValue D Ref) := .string c.format :: c.args

/-- One call of `bwrite` after the other, and the places in the file after each of them. -/
def bwriteAll : List (Call D) → Machine D → MemoryHandle →
    Except Stop (Machine D × MemoryHandle × List ℕ)
  | [], m, handle => .ok (m, handle, [])
  | c :: calls, m, handle => do
    let (m, handle) ← bwrite H sizeof fmt m handle c.operands
    let (m', handle', ends) ← bwriteAll calls m handle
    return (m', handle', handle.position :: ends)

/-- One call of `bread` after the other: the results, and the places in the file after each of them. -/
def breadAll : List (Call D) → Machine D → MemoryHandle →
    Option (Machine D × List (Option (List (OperandValue D Ref)) × ℕ))
  | [], m, _ => some (m, [])
  | c :: calls, m, handle => do
    let (m, handle, values) ← bread H sizeof fmt m handle (.string c.format)
    let (m', results) ← breadAll calls m handle
    return (m', (values, handle.position) :: results)

/-- The estimate is the number of bytes that are packed, and the number of those that are unpacked,
in every call. -/
def SizesAgree : List (Call D) → Machine D → Prop
  | [], _ => True
  | c :: calls, m => ∃ m' xs s, pack H sizeof fmt m c.operands = .ok (m', .string xs) ∧
    estimatePackSize (cstring c.format) = some (xs.length : ℤ) ∧
    unpackAll H sizeof fmt m' (.string c.format) xs = some s ∧ s.offset = xs.length ∧
    SizesAgree calls m'

/-- What is written to a memory buffer is read back: the same values, and every call of `bread` stops
where its call of `bwrite` did. -/
def StaysAligned (IsWhole : D → ℤ → Prop) (m : Machine D) (calls : List (Call D))
    (values : List (List (OperandValue D Ref))) : Prop :=
  SizesAgree H sizeof fmt calls m ∧ ∃ m₁ handle ends m₂ results,
    bwriteAll H sizeof fmt calls m allocate = .ok (m₁, handle, ends) ∧
    breadAll H sizeof fmt calls m₁ handle.closef = some (m₂, results) ∧
    results.map Prod.snd = ends ∧
    List.Forall₂ (fun vs result => ∃ ws, result = some ws ∧
      List.Forall₂ (SameValue H fmt IsWhole m₂.vm.objects) vs ws) values (results.map Prod.fst)

end Streams

end Pack

end Slp
