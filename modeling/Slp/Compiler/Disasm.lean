import Mathlib.Algebra.GroupWithZero.Nat
import Slp.Compiler.Chunks

/-!
# The disassembler

`slp_disasm_instruction` has a table of its own of how long the instructions are.  It counts eight
opcodes shorter than the run loop reads them (`disasmLength_of_misread`).  For a chunk of the compiler it stays
in the chunk and visits the instructions, and nothing else, exactly when none of the eight is in
there (`disasmAgrees_iff`): from such an instruction on it decodes operand bytes.
-/

namespace Slp

namespace Opcode

/-- The operands that the run loop reads, with `read_byte` or `read_short`, as their sizes.
`OP_CLOSURE` reads two bytes for each upvalue of its function, and there are none. -/
def reads : Opcode → List ℕ
  | .loadLocal | .storeLocal | .loadUpvalue | .storeUpvalue | .referenceLocal
  | .referenceUpvalue | .reverse | .call | .indexEnsure | .tupleCompound | .objExpr
  | .unpackTuple | .callcc => [1]
  | .pushConst | .loadGlobal | .storeGlobal | .storeCatch | .referenceGlobal
  | .unaryPredicate | .binaryPredicate | .negatedBinaryPredicate | .and | .or
  | .jump | .jumpIfFalse | .jumpIfTrue | .jumpIfNull | .loop | .closure
  | .foreachNext | .foreachNextValue | .buildArray | .buildHash | .pushHandler
  | .backtick | .classLiteral | .address => [2]
  | .callNamed => [1, 2]
  | .bridgeRegister | .importOp => [2, 2]
  | _ => []

/-- The emitter, which writes `length` bytes, and the run loop count the operands the same. -/
theorem length_eq_reads (o : Opcode) : o.length = o.reads.sum + 1 := by
  cases o <;> rfl

/-- `is_short_instruction`. -/
def isShortInstruction : Opcode → Bool
  | .pushConst | .loadLocal | .storeLocal | .loadGlobal | .storeGlobal | .storeCatch
  | .loadUpvalue | .storeUpvalue | .referenceGlobal | .jump | .jumpIfFalse | .jumpIfTrue
  | .jumpIfNull | .loop | .and | .or | .pushHandler | .foreachNext | .foreachNextValue
  | .buildArray | .buildHash | .bridgeRegister | .importOp | .backtick | .classLiteral => true
  | _ => false

/-- The opcodes that the disassembler counts shorter than they are. -/
def misread : Opcode → Bool
  | .unaryPredicate | .binaryPredicate | .negatedBinaryPredicate | .bridgeRegister | .importOp
  | .address | .unpackTuple | .callcc => true
  | _ => false

end Opcode

/-! ### One instruction -/

/-- Reads a byte of the chunk, or fails at or past its end. -/
def chunkByte (code : List UInt8) (p : ℕ) : Option UInt8 := code[p]?

/-- `slp_chunk_read_short`, which fails when it reads at or past the end of the chunk. -/
def chunkReadShort (code : List UInt8) (p : ℕ) : Option ℕ := do
  let high ← chunkByte code p
  let low ← chunkByte code (p + 1)
  return high.toNat * 256 + low.toNat

/-- `slp_disasm_instruction`: the offset of the next instruction, or `none` if it reads at or past
the end of the chunk.  What it prints is left out. -/
def disasmInstruction (code : List UInt8) (offset : ℕ) : Option ℕ := do
  let instruction ← opcodeAt code offset
  if instruction ∈ [.pushConst, .loadGlobal, .storeGlobal, .storeCatch, .referenceGlobal] then
    let _ ← chunkReadShort code (offset + 1)
    return offset + 3
  else if instruction ∈ [.loadLocal, .storeLocal, .loadUpvalue, .storeUpvalue, .referenceLocal,
      .referenceUpvalue, .indexEnsure, .reverse, .tupleCompound, .objExpr] then
    let _ ← chunkByte code (offset + 1)
    return offset + 2
  else if instruction.isShortInstruction then
    let _ ← chunkReadShort code (offset + 1)
    return offset + 3
  else if instruction = .call then
    let _ ← chunkByte code (offset + 1)
    return offset + 2
  else if instruction = .callNamed then
    let _ ← chunkByte code (offset + 1)
    let _ ← chunkReadShort code (offset + 2)
    return offset + 4
  else if instruction = .closure then
    let _ ← chunkReadShort code (offset + 1)
    return offset + 3
  else return offset + 1

/-- The length of an instruction in the table of the disassembler. -/
def Opcode.disasmLength : Opcode → ℕ
  | .loadLocal | .storeLocal | .loadUpvalue | .storeUpvalue | .referenceLocal
  | .referenceUpvalue | .indexEnsure | .reverse | .tupleCompound | .objExpr | .call => 2
  | .callNamed => 4
  | .closure => 3
  | o => if o.isShortInstruction then 3 else 1

theorem chunkByte_bind {α : Type} (code : List UInt8) (p : ℕ) (x : Option α) :
    (chunkByte code p).bind (fun _ => x) = if p + 1 ≤ code.length then x else none := by
  rw [chunkByte]
  by_cases h : p + 1 ≤ code.length
  · rw [if_pos h, List.getElem?_eq_getElem h]
    rfl
  · rw [if_neg h, List.getElem?_eq_none (Nat.le_of_not_lt h)]
    rfl

theorem chunkReadShort_bind {α : Type} (code : List UInt8) (p : ℕ) (x : Option α) :
    (chunkReadShort code p).bind (fun _ => x) = if p + 2 ≤ code.length then x else none := by
  rw [chunkReadShort, chunkByte, chunkByte]
  by_cases h : p + 2 ≤ code.length
  · rw [if_pos h, List.getElem?_eq_getElem h, List.getElem?_eq_getElem (Nat.lt_of_succ_lt h)]
    rfl
  · rw [if_neg h, List.getElem?_eq_none (Nat.le_of_not_lt h)]
    cases code[p]? <;> rfl

/-- The disassembler advances by its table, if its reads lie in the chunk. -/
theorem disasmInstruction_eq {code : List UInt8} {p : ℕ} {o : Opcode}
    (ho : opcodeAt code p = some o) :
    disasmInstruction code p =
      if p + o.disasmLength ≤ code.length then some (p + o.disasmLength) else none := by
  have hp := opcodeAt_lt ho
  simp only [disasmInstruction, ho, Option.bind_eq_bind, Option.bind_some]
  -- the reads of each opcode end where its instruction ends
  cases o <;> simp [Opcode.disasmLength, Opcode.isShortInstruction, chunkByte_bind,
    chunkReadShort_bind, Nat.add_assoc] <;> grind

/-- The eight opcodes are those whose table entry is not what the run loop reads. -/
theorem disasmLength_eq (o : Opcode) (h : o.misread = false) : o.disasmLength = o.length := by
  cases o <;> first | rfl | cases h

theorem disasmLength_of_misread (o : Opcode) (h : o.misread = true) :
    0 < o.disasmLength ∧ o.disasmLength < o.length := by
  cases o <;> first | exact ⟨by decide, by decide⟩ | cases h

theorem lt_of_disasmInstruction {code : List UInt8} {p q : ℕ}
    (h : disasmInstruction code p = some q) : p < q ∧ q ≤ code.length := by
  cases ho : opcodeAt code p with
  | none => simp [disasmInstruction, ho] at h
  | some o =>
    have hpos : 0 < o.disasmLength := by cases o <;> decide
    rw [disasmInstruction_eq ho] at h
    split at h
    · cases h
      omega
    · cases h

/-! ### A chunk -/

/-- The loop of `slp_disasm_chunk` from an offset on: the offsets it visits, or `none` if it reads
at or past the end of the chunk. -/
def disasmFrom (code : List UInt8) (offset : ℕ) : Option (List ℕ) :=
  if offset < code.length then
    match _hq : disasmInstruction code offset with
    | none => none
    | some next => (disasmFrom code next).map (offset :: ·)
  else some []
termination_by code.length - offset
decreasing_by
  have := lt_of_disasmInstruction _hq
  omega

/-- `slp_disasm_chunk`. -/
def disasmChunk (code : List UInt8) : Option (List ℕ) := disasmFrom code 0

/-- The disassembler stays in the chunk and visits the instructions as the run loop reads them. -/
def DisasmAgrees (code : List UInt8) : Prop :=
  ∃ visited, disasmChunk code = some visited ∧
    ∀ p, p ∈ visited ↔ Boundary code p ∧ p < code.length

/-- No instruction of the chunk is one of the eight. -/
def NoMisread (code : List UInt8) : Prop :=
  ∀ p o, Boundary code p → opcodeAt code p = some o → o.misread = false

section

variable {code : List UInt8} {offset p q : ℕ} {visited : List ℕ}

theorem disasmFrom_of_lt (h : offset < code.length) (hq : disasmInstruction code offset = some q) :
    disasmFrom code offset = (disasmFrom code q).map (offset :: ·) := by
  rw [disasmFrom, if_pos h]
  split
  · rename_i hnone
    rw [hnone] at hq
    cases hq
  · rename_i next hnext
    rw [hnext] at hq
    cases hq
    rfl

theorem disasmFrom_of_le (h : code.length ≤ offset) : disasmFrom code offset = some [] := by
  rw [disasmFrom, if_neg (Nat.not_lt.2 h)]

/-- From an instruction on, without one of the eight, all further instructions are visited. -/
theorem disasmFrom_of_noMisread (hend : Boundary code code.length) (hno : NoMisread code)
    (hoff : Boundary code offset) :
    ∃ visited, disasmFrom code offset = some visited ∧
      ∀ p, p ∈ visited ↔ Boundary code p ∧ offset ≤ p ∧ p < code.length := by
  induction hn : code.length - offset using Nat.strongRecOn generalizing offset with
  | _ n ih =>
    by_cases hlt : offset < code.length
    · obtain ⟨o, ho⟩ : ∃ o, opcodeAt code offset = some o := by
        simp [opcodeAt, List.getElem?_eq_getElem hlt]
      have hlen := disasmLength_eq o (hno offset o hoff ho)
      have hpos := o.length_pos
      have hnext := hoff.next ho
      have hle := hend.le_length hnext
      have hinstr : disasmInstruction code offset = some (offset + o.length) := by
        rw [disasmInstruction_eq ho, hlen, if_pos hle]
      obtain ⟨visited, hvisited, hmem⟩ := ih _ (by omega) hnext rfl
      refine ⟨offset :: visited, ?_, fun p => ?_⟩
      · rw [disasmFrom_of_lt hlt hinstr, hvisited]
        rfl
      · rw [List.mem_cons, hmem]
        constructor
        · rintro (rfl | ⟨hp, hge, hp'⟩)
          · exact ⟨hoff, Nat.le_refl _, hlt⟩
          · exact ⟨hp, by omega, hp'⟩
        · rintro ⟨hp, hge, hp'⟩
          -- no instruction begins inside the one at the offset
          rcases hoff.gap ho hp with h | h
          · exact .inl (by omega)
          · exact .inr ⟨hp, h, hp'⟩
    · refine ⟨[], disasmFrom_of_le (Nat.le_of_not_lt hlt), fun p => ?_⟩
      simp only [List.not_mem_nil, false_iff]
      omega

/-- What is decoded after a visited offset is visited, up to the end of the chunk. -/
theorem next_of_mem_disasmFrom (h : disasmFrom code offset = some visited) (hp : p ∈ visited) :
    ∃ q, disasmInstruction code p = some q ∧ (q < code.length → q ∈ visited) := by
  induction hn : code.length - offset using Nat.strongRecOn generalizing offset visited with
  | _ n ih =>
    by_cases hlt : offset < code.length
    · cases hq : disasmInstruction code offset with
      | none =>
        rw [disasmFrom, if_pos hlt] at h
        split at h
        · cases h
        · rename_i hsome
          rw [hq] at hsome
          cases hsome
      | some q =>
        have hadv := lt_of_disasmInstruction hq
        rw [disasmFrom_of_lt hlt hq, Option.map_eq_some_iff] at h
        obtain ⟨rest, hrest, rfl⟩ := h
        rcases List.mem_cons.1 hp with rfl | hp
        · refine ⟨q, hq, fun hqlt => List.mem_cons_of_mem _ ?_⟩
          -- the loop goes on at `q`
          rw [disasmFrom, if_pos hqlt] at hrest
          split at hrest
          · cases hrest
          · obtain ⟨-, -, rfl⟩ := Option.map_eq_some_iff.1 hrest
            exact List.mem_cons_self
        · obtain ⟨q', hq', hmem⟩ := ih _ (by omega) hrest hp rfl
          exact ⟨q', hq', fun hlt' => List.mem_cons_of_mem _ (hmem hlt')⟩
    · rw [disasmFrom_of_le (Nat.le_of_not_lt hlt)] at h
      cases h
      cases hp

theorem disasmAgrees_of_noMisread (hend : Boundary code code.length) (hno : NoMisread code) :
    DisasmAgrees code := by
  obtain ⟨visited, hvisited, hmem⟩ := disasmFrom_of_noMisread hend hno .zero
  exact ⟨visited, hvisited, fun p => by rw [hmem]; simp⟩

/-- After one of the eight the disassembler is inside its operands. -/
theorem noMisread_of_disasmAgrees (hend : Boundary code code.length) (h : DisasmAgrees code) :
    NoMisread code := by
  intro p o hp ho
  by_contra hmis
  obtain ⟨visited, hvisited, hmem⟩ := h
  obtain ⟨hpos, hshort⟩ := disasmLength_of_misread o (by simpa using hmis)
  have hle := hend.le_length (hp.next ho)
  obtain ⟨q, hq, hnext⟩ := next_of_mem_disasmFrom hvisited ((hmem p).2 ⟨hp, opcodeAt_lt ho⟩)
  rw [disasmInstruction_eq ho, if_pos (by omega)] at hq
  cases hq
  have hin := ((hmem _).1 (hnext (by omega))).1
  rcases hp.gap ho hin with h | h <;> omega

end

/-- For every chunk of the compiler, the disassembler visits the instructions that the run loop
reads, and stays in the chunk, exactly if none of the eight opcodes that it counts too short is in
the chunk. -/
theorem disasmAgrees_iff {replMode : Bool} {ast : Node} {f : Constant} {code : List UInt8}
    (h : compileEx replMode ast = .ok f) (hcode : ChunkOf f code) :
    DisasmAgrees code ↔ NoMisread code :=
  have hend := boundary_of_chunkOf h hcode
  ⟨noMisread_of_disasmAgrees hend, disasmAgrees_of_noMisread hend⟩

theorem disasmAgrees_iff_string :
    DisasmAgrees [3, 0, 0, 63, 0, 75] ↔ NoMisread [3, 0, 0, 63, 0, 75] := by
  have h : compileEx false (.script [.string (ascii "a")]) =
      .ok (.function [3, 0, 0, 63, 0, 75] [.string (ascii "a")] none) := by rfl
  exact disasmAgrees_iff h (.own _ _ _)

/-- The code of `-istrue $x;`: after `OP_UNARY_PREDICATE` the disassembler takes the two bytes of
its operand for instructions. -/
theorem not_disasmAgrees_istrue :
    ¬∀ (replMode : Bool) (ast : Node) (f : Constant) (code : List UInt8),
      compileEx replMode ast = .ok f → ChunkOf f code → DisasmAgrees code := by
  intro hall
  have h : compileEx false (.script [.unaryop ⟨.unaryPredicateBridge, ascii "-istrue"⟩
      (.scalar (ascii "x")) none]) =
      .ok (.function [22, 0, 0, 60, 0, 1, 63, 0, 75]
        [.string (ascii "$x"), .string (ascii "-istrue")] none) := by rfl
  have hchunk := ChunkOf.own [22, 0, 0, 60, 0, 1, 63, 0, 75]
    [.string (ascii "$x"), .string (ascii "-istrue")] none
  have hno := noMisread_of_disasmAgrees (boundary_of_chunkOf h hchunk) (hall _ _ _ _ h hchunk)
  have hstart : Boundary [22, 0, 0, 60, 0, 1, 63, 0, 75] 3 :=
    Boundary.zero.next (o := .loadGlobal) (by decide)
  have hfalse := hno 3 .unaryPredicate hstart (by decide)
  cases hfalse

end Slp
