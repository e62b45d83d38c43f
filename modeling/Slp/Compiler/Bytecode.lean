import Mathlib.Data.Int.Notation
import Mathlib.Tactic.Set
import Mathlib.Tactic.ByContra
import Slp.Object.Basic

/-!
# Bytecode

The opcodes, the length of each instruction, and what the run loop reads from the code of a chunk:
the opcode at an offset, a two-byte operand, the target of a forward jump.

* `Boundary code p`: an instruction of `code` begins at `p`, or `p` is the end of the last one;
* `IsJump code j`: `j` is the operand of a forward jump, the place `emit_jump` returns;
* `patchShort`: the write of `patch_jump`, which leaves every boundary and every other operand
  alone (`Boundary.patchShort`, `readShort_patchShort_ne`).
-/

namespace Slp

/-- The opcodes, in the order of their numbers. -/
inductive Opcode where
  | pushNull | pushTrue | pushFalse | pushConst
  | loadLocal0 | loadLocal1 | loadLocal2 | loadLocal3
  | loadLocal4 | loadLocal5 | loadLocal6 | loadLocal7
  | storeLocal0 | storeLocal1 | storeLocal2 | storeLocal3
  | storeLocal4 | storeLocal5 | storeLocal6 | storeLocal7
  | loadLocal | storeLocal | loadGlobal | storeGlobal | storeCatch
  | loadUpvalue | storeUpvalue | referenceLocal | referenceGlobal | referenceUpvalue
  | add | subtract | multiply | divide | modulo | power | negate
  | concat | align | repeat
  | equal | notEqual | less | greater | lessEqual | greaterEqual | spaceship
  | match | notMatch
  | not | and | or
  | bitAnd | bitOr | bitXor | bitNot | lshift | rshift
  | increment | decrement
  | unaryPredicate | binaryPredicate | negatedBinaryPredicate
  | pop | dup | dup2 | swap | reverse
  | jump | jumpIfFalse | jumpIfTrue | jumpIfNull | loop
  | call | callNamed | return | inlineReturn
  | closure | closeUpvalue
  | foreachNext | foreachNextValue
  | buildArray | buildHash | buildKeyValue
  | indexGet | indexEnsure | indexSet | tupleGet | tupleCompound
  | objExpr
  | pushHandler | popHandler | throw
  | assert | halt | done | yield | callcc
  | resume | bridgeRegister | importOp | backtick | classLiteral | address
  | local | this | unpackTuple
  | break | continue | nop | endOp
  deriving DecidableEq, Repr

namespace Opcode

/-- The byte of an opcode. -/
def byte (o : Opcode) : UInt8 := UInt8.ofNat o.ctorIdx

/-- The opcode of a byte. -/
def ofByte (b : UInt8) : Opcode := ofNat b.toNat

@[simp] theorem ofByte_byte (o : Opcode) : ofByte o.byte = o := by
  cases o <;> rfl

/-- The bytes of an instruction, its opcode included.  `OP_CLOSURE` has two more for each upvalue
of its function; the compiler makes functions without upvalues. -/
def length : Opcode → ℕ
  | .loadLocal | .storeLocal | .loadUpvalue | .storeUpvalue | .referenceLocal
  | .referenceUpvalue | .reverse | .call | .indexEnsure | .tupleCompound | .objExpr
  | .unpackTuple | .callcc => 2
  | .pushConst | .loadGlobal | .storeGlobal | .storeCatch | .referenceGlobal
  | .unaryPredicate | .binaryPredicate | .negatedBinaryPredicate | .and | .or
  | .jump | .jumpIfFalse | .jumpIfTrue | .jumpIfNull | .loop | .closure
  | .foreachNext | .foreachNextValue | .buildArray | .buildHash | .pushHandler
  | .backtick | .classLiteral | .address => 3
  | .callNamed => 4
  | .bridgeRegister | .importOp => 5
  | _ => 1

theorem length_pos (o : Opcode) : 0 < o.length := by
  cases o <;> decide

/-- The opcodes with a forward distance as operand. -/
def isJump : Opcode → Bool
  | .and | .or | .jump | .jumpIfFalse | .jumpIfTrue | .jumpIfNull | .foreachNext
  | .foreachNextValue | .pushHandler => true
  | _ => false

theorem length_of_isJump {o : Opcode} (h : o.isJump) : o.length = 3 := by
  cases o <;> first | rfl | cases h

end Opcode

/-! ### Reading and patching -/

/-- The opcode at an offset. -/
def opcodeAt (code : List UInt8) (p : ℕ) : Option Opcode := code[p]?.map Opcode.ofByte

/-- `read_short`: the two-byte operand at an offset. -/
def readShort (code : List UInt8) (p : ℕ) : ℕ :=
  (code.getD p 0).toNat * 256 + (code.getD (p + 1) 0).toNat

/-- The high and the low byte of the low sixteen bits of a number. -/
def shortBytes (v : ℤ) : UInt8 × UInt8 :=
  (UInt8.ofNat (v / 256 % 256).toNat, UInt8.ofNat (v % 256).toNat)

/-- Overwrites the operand at `j`. -/
def patchShort (code : List UInt8) (j : ℕ) (v : ℤ) : List UInt8 :=
  (code.set j (shortBytes v).1).set (j + 1) (shortBytes v).2

/-- Where a forward jump goes whose operand is at `j`. -/
def jumpTarget (code : List UInt8) (j : ℕ) : ℕ := j + 2 + readShort code j

/-- The instruction at `p` is an `OP_LOOP` back to `q`. -/
def LoopsBack (code : List UInt8) (p q : ℕ) : Prop :=
  opcodeAt code p = some .loop ∧ q + readShort code (p + 1) = p + 3

theorem opcodeAt_append {code more : List UInt8} {p : ℕ} (h : p < code.length) :
    opcodeAt (code ++ more) p = opcodeAt code p := by
  simp [opcodeAt, List.getElem?_append_left h]

theorem opcodeAt_lt {code : List UInt8} {p : ℕ} {o : Opcode} (h : opcodeAt code p = some o) :
    p < code.length := by
  by_contra hp
  rw [opcodeAt, List.getElem?_eq_none (by omega)] at h
  cases h

theorem opcodeAt_emit (code : List UInt8) (o : Opcode) (operands : List UInt8) :
    opcodeAt (code ++ o.byte :: operands) code.length = some o := by
  simp [opcodeAt]

theorem readShort_append {code more : List UInt8} {p : ℕ} (h : p + 1 < code.length) :
    readShort (code ++ more) p = readShort code p := by
  simp only [readShort, List.getD_eq_getElem?_getD]
  rw [List.getElem?_append_left (by omega), List.getElem?_append_left h]

@[simp] theorem length_patchShort (code : List UInt8) (j : ℕ) (v : ℤ) :
    (patchShort code j v).length = code.length := by
  simp [patchShort]

theorem getElem?_patchShort_ne {code : List UInt8} {j p : ℕ} {v : ℤ} (h : p ≠ j)
    (h' : p ≠ j + 1) : (patchShort code j v)[p]? = code[p]? := by
  rw [patchShort, List.getElem?_set_ne (by omega), List.getElem?_set_ne (by omega)]

theorem opcodeAt_patchShort {code : List UInt8} {j p : ℕ} {v : ℤ} (h : p ≠ j)
    (h' : p ≠ j + 1) : opcodeAt (patchShort code j v) p = opcodeAt code p := by
  rw [opcodeAt, opcodeAt, getElem?_patchShort_ne h h']

theorem readShort_patchShort_ne {code : List UInt8} {j p : ℕ} {v : ℤ}
    (h : p + 2 ≤ j ∨ j + 2 ≤ p) : readShort (patchShort code j v) p = readShort code p := by
  simp only [readShort, List.getD_eq_getElem?_getD]
  rw [getElem?_patchShort_ne (by omega) (by omega),
    getElem?_patchShort_ne (by omega) (by omega)]

/-- A patched operand reads as the low sixteen bits of what was written. -/
theorem readShort_patchShort {code : List UInt8} {j : ℕ} {v : ℤ} (h : j + 1 < code.length) :
    (readShort (patchShort code j v) j : ℤ) = v % 65536 := by
  have h0 : (patchShort code j v)[j]? = some (shortBytes v).1 := by
    rw [patchShort, List.getElem?_set_ne (by omega), List.getElem?_set_self (by omega)]
  have h1 : (patchShort code j v)[j + 1]? = some (shortBytes v).2 := by
    rw [patchShort, List.getElem?_set_self (by simpa using h)]
  rw [readShort, List.getD_eq_getElem?_getD, List.getD_eq_getElem?_getD, h0, h1]
  simp only [Option.getD_some, shortBytes, UInt8.toNat_ofNat']
  omega

theorem readShort_shortBytes (code more : List UInt8) {v : ℤ} (h : 0 ≤ v) (h' : v < 65536) :
    (readShort (code ++ (shortBytes v).1 :: (shortBytes v).2 :: more) code.length : ℤ) = v := by
  have h0 : (code ++ (shortBytes v).1 :: (shortBytes v).2 :: more)[code.length]? =
      some (shortBytes v).1 := by
    simp
  have h1 : (code ++ (shortBytes v).1 :: (shortBytes v).2 :: more)[code.length + 1]? =
      some (shortBytes v).2 := by
    simp
  rw [readShort, List.getD_eq_getElem?_getD, List.getD_eq_getElem?_getD, h0, h1]
  simp only [Option.getD_some, shortBytes, UInt8.toNat_ofNat']
  omega

/-! ### Instruction boundaries -/

/-- Decoding from the start of the code, an instruction begins at this offset or the last one ends
there. -/
inductive Boundary (code : List UInt8) : ℕ → Prop where
  | zero : Boundary code 0
  | next {p : ℕ} {o : Opcode} : Boundary code p → opcodeAt code p = some o →
      Boundary code (p + o.length)

/-- `j` is the operand of a forward jump that lies in the code. -/
def IsJump (code : List UInt8) (j : ℕ) : Prop :=
  ∃ p o, j = p + 1 ∧ Boundary code p ∧ opcodeAt code p = some o ∧ o.isJump ∧
    j + 2 ≤ code.length

namespace Boundary

variable {code : List UInt8} {p q : ℕ}

/-- Code that agrees with the given code on the opcodes has its boundaries. -/
theorem congr {code' : List UInt8} (h : Boundary code p)
    (agree : ∀ q o, Boundary code q → opcodeAt code q = some o → opcodeAt code' q = some o) :
    Boundary code' p := by
  induction h with
  | zero => exact .zero
  | next hp ho ih => exact ih.next (agree _ _ hp ho)

theorem append (h : Boundary code p) (more : List UInt8) : Boundary (code ++ more) p :=
  h.congr fun _ _ _ ho => by rwa [opcodeAt_append (opcodeAt_lt ho)]

/-- No boundary lies inside an instruction. -/
theorem gap {o : Opcode} (hp : Boundary code p) (ho : opcodeAt code p = some o)
    (hq : Boundary code q) : q ≤ p ∨ p + o.length ≤ q := by
  -- of two boundaries the smaller is the one whose last instruction is looked at
  induction hn : p + q using Nat.strongRecOn generalizing p q o with
  | _ n ih =>
    cases hq with
    | zero => exact .inl (Nat.zero_le _)
    | @next r o' hr ho' =>
      have hlen := o'.length_pos
      rcases ih (p + r) (by omega) hp ho hr rfl with hle | hge
      · rcases Nat.lt_or_eq_of_le hle with hlt | rfl
        · rcases ih (r + p) (by omega) hr ho' hp rfl with h | h <;> omega
        · rw [ho] at ho'
          cases ho'
          exact .inr (Nat.le_refl _)
      · exact .inr (by omega)

/-- A boundary lies within code that ends with an instruction. -/
theorem le_length (h : Boundary code code.length) (hq : Boundary code q) : q ≤ code.length := by
  cases hq with
  | zero => exact Nat.zero_le _
  | next hr ho =>
    have hlt := opcodeAt_lt ho
    rcases hr.gap ho h with h' | h' <;> omega

/-- A boundary is not inside the operand of a jump. -/
theorem ne_of_isJump {j : ℕ} (hp : Boundary code p) (hj : IsJump code j) :
    p ≠ j ∧ p ≠ j + 1 := by
  obtain ⟨q, o, rfl, hq, ho, hjump, -⟩ := hj
  have hlen := Opcode.length_of_isJump hjump
  rcases hq.gap ho hp with h | h <;> constructor <;> omega

theorem patchShort {j : ℕ} (hp : Boundary code p) (hj : IsJump code j) (v : ℤ) :
    Boundary (patchShort code j v) p :=
  hp.congr fun q o hq ho => by
    obtain ⟨h, h'⟩ := hq.ne_of_isJump hj
    rwa [opcodeAt_patchShort h h']

/-- An instruction written at the end. -/
theorem emit (h : Boundary code code.length) (o : Opcode) (operands : List UInt8)
    (hlen : operands.length + 1 = o.length) :
    Boundary (code ++ o.byte :: operands) (code ++ o.byte :: operands).length := by
  have hnext := (h.append (o.byte :: operands)).next (opcodeAt_emit code o operands)
  simpa [← hlen, Nat.add_comm, Nat.add_left_comm] using hnext

end Boundary

namespace IsJump

variable {code : List UInt8} {i j : ℕ}

theorem append (h : IsJump code j) (more : List UInt8) : IsJump (code ++ more) j := by
  obtain ⟨p, o, rfl, hp, ho, hlen, hle⟩ := h
  refine ⟨p, o, rfl, hp.append more, ?_, hlen, by simp; omega⟩
  rwa [opcodeAt_append (opcodeAt_lt ho)]

theorem patchShort (h : IsJump code j) (hi : IsJump code i) (v : ℤ) :
    IsJump (patchShort code i v) j := by
  obtain ⟨p, o, rfl, hp, ho, hlen, hle⟩ := h
  obtain ⟨h, h'⟩ := hp.ne_of_isJump hi
  exact ⟨p, o, rfl, hp.patchShort hi v, by rwa [opcodeAt_patchShort h h'], hlen, by simpa using hle⟩

/-- The operands of two jumps are the same or three bytes apart. -/
theorem apart (hi : IsJump code i) (hj : IsJump code j) : i = j ∨ i + 3 ≤ j ∨ j + 3 ≤ i := by
  obtain ⟨p, o, rfl, hp, ho, hjump, -⟩ := hi
  obtain ⟨q, o', rfl, hq, ho', hjump', -⟩ := hj
  have hlen := Opcode.length_of_isJump hjump
  have hlen' := Opcode.length_of_isJump hjump'
  rcases hp.gap ho hq with h | h
  · rcases hq.gap ho' hp with h' | h' <;> omega
  · omega

theorem emit (h : Boundary code code.length) (o : Opcode) (hjump : o.isJump) (a b : UInt8) :
    IsJump (code ++ [o.byte, a, b]) (code.length + 1) :=
  ⟨code.length, o, rfl, h.append _, opcodeAt_emit code o [a, b], hjump, by simp⟩

/-- An instruction that is not a jump does not overlap one. -/
theorem apart_of_boundary {p : ℕ} {o : Opcode} (hj : IsJump code j) (hp : Boundary code p)
    (ho : opcodeAt code p = some o) (hjump : o.isJump = false) :
    p + o.length + 1 ≤ j ∨ j + 2 ≤ p := by
  obtain ⟨q, o', rfl, hq, ho', hjump', -⟩ := hj
  have hlen' := Opcode.length_of_isJump hjump'
  rcases Nat.lt_trichotomy p q with h | rfl | h
  · rcases hp.gap ho hq with h' | h' <;> omega
  · rw [ho] at ho'
    cases ho'
    simp [hjump] at hjump'
  · rcases hq.gap ho' hp with h' | h' <;> omega

end IsJump

end Slp
