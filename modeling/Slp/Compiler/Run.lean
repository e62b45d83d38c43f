import Slp.Compiler.Emission

/-!
# Running straight code

What the run loop does with code without jumps.  `Machine` is what an instruction needs of the
virtual machine around the operand stack; the code that is left is the instruction pointer.

* `decode` reads one instruction off the code, `Machine.step` executes it, `run` is the loop;
* `Assembled code is`: `code` is the instructions `is` one after the other, and `run_assembled`
  says that running it is executing these;
* `Writes c c' is`: between `c` and `c'` the compiler wrote `is`.
-/

namespace Slp

/-! ### The machine -/

/-- What straight code needs of the machine.  `S` is all the state beside the operand stack: the
slots of the frame, the scopes, the heap. -/
structure Machine (V S : Type) where
  /-- The number of values the operand stack has room for. -/
  stackMax : ℕ
  null : V
  constant : Constant → V
  loadLocal : ℕ → S → V
  storeLocal : ℕ → V → S → S
  /-- A variable that is not declared is declared on the way. -/
  loadGlobal : Constant → S → V × S
  storeGlobal : Constant → V → S → S
  /-- The elements of an array, read through their cells. -/
  elements? : V → S → Option (List V)
  /-- The value as an array index. -/
  index : V → ℤ
  index_constant : ∀ i : ℕ, i < 65536 → index (constant (.num i)) = i
  /-- An operator: what it makes of the operand stack, topmost value first. -/
  operate : Opcode → List V → Option (List V)

/-- Why a piece of code is not run to its end. -/
inductive Stop (S : Type) where
  /-- "Stack overflow.", which leaves the frame. -/
  | overflow (s : S)
  /-- An operator failed, or the code is not straight. -/
  | stuck
  deriving DecidableEq, Repr

/-- An instruction of straight code. -/
inductive Instr where
  | pushConst (k : ℕ)
  | loadLocal (i : ℕ)
  | storeLocal (i : ℕ)
  | loadGlobal (k : ℕ)
  | storeGlobal (k : ℕ)
  | dup | swap | pop
  | tupleGet
  | operate (o : Opcode)
  deriving DecidableEq, Repr

/-- The instruction of an opcode without operands. -/
def Instr.ofOpcode (o : Opcode) : Instr :=
  if o ∈ loadLocalOps then .loadLocal (loadLocalOps.idxOf o)
  else if o ∈ storeLocalOps then .storeLocal (storeLocalOps.idxOf o)
  else match o with
    | .dup => .dup
    | .swap => .swap
    | .pop => .pop
    | .tupleGet => .tupleGet
    | o => .operate o

/-- An instruction with a two-byte operand. -/
def decodeShort (f : ℕ → Instr) : List UInt8 → Option (Instr × List UInt8)
  | hi :: lo :: rest => some (f (hi.toNat * 256 + lo.toNat), rest)
  | _ => none

/-- An instruction with a one-byte operand. -/
def decodeByte (f : ℕ → Instr) : List UInt8 → Option (Instr × List UInt8)
  | i :: rest => some (f i.toNat, rest)
  | [] => none

/-- The next instruction and the code after it. -/
def decode : List UInt8 → Option (Instr × List UInt8)
  | [] => none
  | b :: rest =>
    match Opcode.ofByte b with
    | .pushConst => decodeShort .pushConst rest
    | .loadGlobal => decodeShort .loadGlobal rest
    | .storeGlobal => decodeShort .storeGlobal rest
    | .loadLocal => decodeByte .loadLocal rest
    | .storeLocal => decodeByte .storeLocal rest
    | o => if o.length = 1 then some (.ofOpcode o, rest) else none

theorem decodeShort_eq_some {f : ℕ → Instr} {code rest : List UInt8} {i : Instr}
    (h : decodeShort f code = some (i, rest)) : rest.length + 2 = code.length := by
  unfold decodeShort at h
  split at h
  · cases h
    rfl
  · cases h

theorem decodeByte_eq_some {f : ℕ → Instr} {code rest : List UInt8} {i : Instr}
    (h : decodeByte f code = some (i, rest)) : rest.length + 1 = code.length := by
  unfold decodeByte at h
  split at h
  · cases h
    rfl
  · cases h

theorem length_lt_of_decode {code rest : List UInt8} {i : Instr}
    (h : decode code = some (i, rest)) : rest.length < code.length := by
  cases code with
  | nil => cases h
  | cons b bs =>
    rw [List.length_cons]
    simp only [decode] at h
    split at h
    iterate 3 · have := decodeShort_eq_some h; omega
    iterate 2 · have := decodeByte_eq_some h; omega
    · split at h
      · cases h
        omega
      · cases h

/-- An opcode without operands is an instruction by itself. -/
theorem decode_byte {o : Opcode} (h : o.length = 1) (rest : List UInt8) :
    decode (o.byte :: rest) = some (.ofOpcode o, rest) := by
  simp only [decode, Opcode.ofByte_byte]
  split <;> first | cases h | rw [if_pos h]

namespace Machine

variable {V S : Type} (M : Machine V S) (constants : List Constant)

/-- `slp_vm_push`. -/
def push (v : V) (stack : List V) (s : S) : Except (Stop S) (List V × S) :=
  if stack.length < M.stackMax then .ok (v :: stack, s) else .error (.overflow s)

/-- What `OP_TUPLE_GET` takes out of a value. -/
def tupleGet (source : V) (i : ℤ) (s : S) : V :=
  match M.elements? source s with
  | some elements => if 0 ≤ i then elements.getD i.toNat M.null else M.null
  | none => source

/-- One instruction. -/
def step : Instr → List V → S → Except (Stop S) (List V × S)
  | .pushConst k, stack, s =>
    match constants[k]? with
    | some v => M.push (M.constant v) stack s
    | none => .error .stuck
  | .loadLocal i, stack, s => M.push (M.loadLocal i s) stack s
  | .storeLocal i, v :: stack, s => .ok (v :: stack, M.storeLocal i v s)
  | .loadGlobal k, stack, s =>
    match constants[k]? with
    | some name => M.push (M.loadGlobal name s).1 stack (M.loadGlobal name s).2
    | none => .error .stuck
  | .storeGlobal k, v :: stack, s =>
    match constants[k]? with
    | some name => .ok (v :: stack, M.storeGlobal name v s)
    | none => .error .stuck
  | .dup, v :: stack, s => M.push v (v :: stack) s
  | .swap, b :: a :: stack, s => .ok (a :: b :: stack, s)
  | .pop, _ :: stack, s => .ok (stack, s)
  | .tupleGet, i :: source :: stack, s => M.push (M.tupleGet source (M.index i) s) stack s
  | .operate o, stack, s =>
    match M.operate o stack with
    | some stack => .ok (stack, s)
    | none => .error .stuck
  | _, _, _ => .error .stuck

/-- Instructions one after the other. -/
def steps : List Instr → List V → S → Except (Stop S) (List V × S)
  | [], stack, s => .ok (stack, s)
  | i :: rest, stack, s => (M.step constants i stack s).bind fun c => steps rest c.1 c.2

/-- The loop, with a bound on its rounds. -/
def loop : ℕ → List UInt8 → List V → S → Except (Stop S) (List V × S)
  | _, [], stack, s => .ok (stack, s)
  | 0, _ :: _, _, _ => .error .stuck
  | n + 1, code@(_ :: _), stack, s =>
    match decode code with
    | some (i, rest) => (M.step constants i stack s).bind fun c => loop n rest c.1 c.2
    | none => .error .stuck

/-- Runs code to its end: an instruction has at least one byte. -/
def run (code : List UInt8) (stack : List V) (s : S) : Except (Stop S) (List V × S) :=
  M.loop constants code.length code stack s

/-- The bound does not matter once it is the length of the code. -/
theorem loop_congr {n m : ℕ} {code : List UInt8} (hn : code.length ≤ n) (hm : code.length ≤ m)
    (stack : List V) (s : S) :
    M.loop constants n code stack s = M.loop constants m code stack s := by
  induction n generalizing m code stack s with
  | zero =>
    obtain rfl := List.length_eq_zero_iff.1 (Nat.le_zero.1 hn)
    cases m <;> rfl
  | succ n ih =>
    cases code with
    | nil => cases m <;> rfl
    | cons b bs =>
      rw [List.length_cons] at hn hm
      obtain ⟨m, rfl⟩ : ∃ k, m = k + 1 := ⟨m - 1, by omega⟩
      simp only [loop]
      cases hd : decode (b :: bs) with
      | none => rfl
      | some p =>
        obtain ⟨i, rest⟩ := p
        have hlt := length_lt_of_decode hd
        rw [List.length_cons] at hlt
        dsimp only
        congr 1
        funext c
        exact ih (by omega) (by omega) c.1 c.2

@[simp] theorem run_nil (stack : List V) (s : S) : M.run constants [] stack s = .ok (stack, s) := rfl

theorem run_of_decode {code rest : List UInt8} {i : Instr} (h : decode code = some (i, rest))
    (stack : List V) (s : S) : M.run constants code stack s =
      (M.step constants i stack s).bind fun c => M.run constants rest c.1 c.2 := by
  have hlt := length_lt_of_decode h
  cases code with
  | nil => cases h
  | cons b bs =>
    rw [List.length_cons] at hlt
    simp only [run, List.length_cons, loop, h]
    congr 1
    funext c
    exact M.loop_congr constants (by omega) (Nat.le_refl _) c.1 c.2

end Machine

/-! ### Assembled code -/

/-- The code is these instructions one after the other. -/
inductive Assembled : List UInt8 → List Instr → Prop where
  | nil : Assembled [] []
  | cons {bytes code : List UInt8} {i : Instr} {is : List Instr}
      (h : ∀ rest, decode (bytes ++ rest) = some (i, rest)) (hr : Assembled code is) :
      Assembled (bytes ++ code) (i :: is)

namespace Assembled

variable {a b bytes : List UInt8} {is js : List Instr} {i : Instr}

theorem single (h : ∀ rest, decode (bytes ++ rest) = some (i, rest)) : Assembled bytes [i] := by
  simpa using Assembled.cons h .nil

theorem append (ha : Assembled a is) (hb : Assembled b js) : Assembled (a ++ b) (is ++ js) := by
  induction ha with
  | nil => exact hb
  | cons h hr ih =>
    rw [List.append_assoc, List.cons_append]
    exact .cons h ih

end Assembled

namespace Machine

variable {V S : Type} (M : Machine V S) (constants : List Constant)

/-- Running assembled code is executing its instructions. -/
theorem run_assembled {code : List UInt8} {is : List Instr} (h : Assembled code is)
    (stack : List V) (s : S) :
    M.run constants code stack s = M.steps constants is stack s := by
  induction h generalizing stack s with
  | nil => rfl
  | cons hd hr ih =>
    rw [run_of_decode M constants (hd _)]
    simp only [steps, ih]

theorem steps_append (is js : List Instr) (stack : List V) (s : S) :
    M.steps constants (is ++ js) stack s =
      (M.steps constants is stack s).bind fun c => M.steps constants js c.1 c.2 := by
  induction is generalizing stack s with
  | nil => rfl
  | cons i is ih =>
    simp only [List.cons_append, steps, ih]
    cases M.step constants i stack s <;> rfl

end Machine

/-! ### The constants -/

/-- The index `slp_chunk_add_constant` returns. -/
def constantIndex (cs : List Constant) (v : Constant) : ℕ := cs.findIdx (·.equal v)

/-- The constants after `slp_chunk_add_constant`. -/
def insertConstant (cs : List Constant) (v : Constant) : List Constant :=
  if constantIndex cs v < cs.length then cs else cs ++ [v]

namespace Constant

theorem eq_of_equal {a b : Constant} (h : a.equal b = true) : a = b := by
  unfold equal at h
  split at h <;> simp_all

theorem equal_num (v : ℚ) : (num v).equal (num v) = true := by simp [equal]

theorem equal_string (s : Bytes) : (string s).equal (string s) = true := by simp [equal]

end Constant

section

variable {cs cs' : List Constant} {v : Constant}

theorem prefix_insertConstant (cs : List Constant) (v : Constant) :
    cs <+: insertConstant cs v := by
  unfold insertConstant
  split
  · exact List.prefix_refl cs
  · exact List.prefix_append cs [v]

/-- A constant that is in the table is found at its index in every later table. -/
theorem constantIndex_extend (h : constantIndex cs v < cs.length) (hp : cs <+: cs') :
    constantIndex cs' v = constantIndex cs v := by
  obtain ⟨more, rfl⟩ := hp
  unfold constantIndex at h ⊢
  rw [List.findIdx_append, if_pos h]

/-- At the index of a constant stands the constant. -/
theorem getElem?_constantIndex (h : constantIndex cs v < cs.length) :
    cs[constantIndex cs v]? = some v := by
  rw [List.getElem?_eq_getElem h]
  exact congrArg some (Constant.eq_of_equal (List.findIdx_getElem (w := h)))

/-- Before the index of a constant stands no equal one. -/
theorem ne_of_lt_constantIndex {k : ℕ} (hk : k < constantIndex cs v) (hv : v.equal v = true) :
    cs[k]? ≠ some v := by
  intro h
  have hlt : k < cs.length := (List.getElem?_eq_some_iff.1 h).1
  have hne := List.not_of_lt_findIdx hk
  rw [(List.getElem?_eq_some_iff.1 h).2] at hne
  simp [hv] at hne

theorem constantIndex_insertConstant (cs : List Constant) (hv : v.equal v = true) :
    constantIndex (insertConstant cs v) v = constantIndex cs v ∧
      constantIndex cs v < (insertConstant cs v).length := by
  have hle : constantIndex cs v ≤ cs.length := List.findIdx_le_length
  unfold insertConstant
  split
  · rename_i h
    exact ⟨rfl, h⟩
  · rename_i h
    have heq : constantIndex cs v = cs.length := by omega
    refine ⟨?_, by simp [heq]⟩
    unfold constantIndex at heq ⊢
    rw [List.findIdx_append, if_neg (by omega), heq]
    simp [List.findIdx_cons, hv]

/-- The constant stands in the table it was added to. -/
theorem getElem?_insertConstant (hv : v.equal v = true) (hp : insertConstant cs v <+: cs') :
    cs'[constantIndex cs v]? = some v := by
  obtain ⟨heq, hlt⟩ := constantIndex_insertConstant cs hv
  have h := getElem?_constantIndex (heq.symm ▸ hlt)
  rw [heq] at h
  obtain ⟨more, rfl⟩ := hp
  rw [List.getElem?_append_left hlt, h]

end

/-- `slp_chunk_add_constant` as the index and the table it leaves. -/
theorem run_addConstant (v : Constant) (c : Compiler) :
    result (addConstant v) c = constantIndex c.constants v ∧
      exec (addConstant v) c = { c with constants := insertConstant c.constants v } := by
  cases h : c.constants.findIdx? (·.equal v) with
  | some i =>
    obtain ⟨hlt, heq⟩ := List.findIdx?_eq_some_iff_findIdx_eq.1 h
    have hi : constantIndex c.constants v = i := heq
    rw [insertConstant, hi, if_pos hlt]
    constructor <;> (simp only [addConstant, exec, result, StateT.run_bind, StateT.run_get, pure_bind, h]; rfl)
  | none =>
    have hlen : constantIndex c.constants v = c.constants.length :=
      List.findIdx?_eq_none_iff_findIdx_eq.1 h
    rw [insertConstant, hlen, if_neg (Nat.lt_irrefl _)]
    constructor <;> (simp only [addConstant, exec, result, StateT.run_bind, StateT.run_get, pure_bind, h]; rfl)

/-- The bytes of the low sixteen bits of a number, read again. -/
theorem toNat_shortBytes (k : ℕ) :
    (shortBytes k).1.toNat * 256 + (shortBytes k).2.toNat = k % 65536 := by
  simp only [shortBytes, UInt8.toNat_ofNat']
  omega

theorem assembled_short {o : Opcode} {f : ℕ → Instr}
    (h : ∀ rest, decode (o.byte :: rest) = decodeShort f rest) (k : ℕ) :
    Assembled [o.byte, (shortBytes k).1, (shortBytes k).2] [f (k % 65536)] :=
  .single fun rest => by
    rw [List.cons_append, h]
    simp only [List.cons_append, List.nil_append, decodeShort, toNat_shortBytes]

theorem assembled_op {o : Opcode} (h : o.length = 1) : Assembled [o.byte] [.ofOpcode o] :=
  .single (decode_byte h)

/-! ### What the compiler writes -/

/-- From `c` to `c'` these instructions were written; constants were added at the end only. -/
structure Writes (c c' : Compiler) (is : List Instr) : Prop where
  code : ∃ bytes, c'.code = c.code ++ bytes ∧ Assembled bytes is
  constants : c.constants <+: c'.constants
  locals : c'.locals = c.locals

namespace Writes

variable {c c' c'' : Compiler} {is js : List Instr}

theorem refl (c : Compiler) : Writes c c [] :=
  ⟨⟨[], by simp, .nil⟩, List.prefix_refl _, rfl⟩

theorem trans (h : Writes c c' is) (h' : Writes c' c'' js) : Writes c c'' (is ++ js) := by
  obtain ⟨bs, hbs, ha⟩ := h.code
  obtain ⟨bs', hbs', ha'⟩ := h'.code
  exact ⟨⟨bs ++ bs', by rw [hbs', hbs, List.append_assoc], ha.append ha'⟩,
    h.constants.trans h'.constants, h'.locals.trans h.locals⟩

end Writes

theorem writes_emitOp (o : Opcode) (h : o.length = 1) (c : Compiler) :
    Writes c (exec (emitOp o) c) [.ofOpcode o] :=
  ⟨⟨_, rfl, assembled_op h⟩, List.prefix_refl _, rfl⟩

theorem exec_makeConstant {v : Constant} {c : Compiler}
    (h : (exec (makeConstant v) c).error = none) :
    constantIndex c.constants v < 65536 ∧
      result (makeConstant v) c = constantIndex c.constants v ∧
      exec (makeConstant v) c = { c with constants := insertConstant c.constants v } := by
  obtain ⟨hr, he⟩ := run_addConstant v c
  simp only [makeConstant, exec_bind, hr, he] at h ⊢
  split at h
  · exact absurd h (exec_compilerError_error _ _)
  · rename_i hle
    rw [if_neg hle]
    refine ⟨by omega, ?_, rfl⟩
    change result (if result (addConstant v) c > 65535 then _ else _) (exec (addConstant v) c) = _
    rw [hr, if_neg hle]
    exact hr

/-- A constant that is pushed without an error has an index that fits. -/
theorem emitConstant_ok {v : Constant} {c : Compiler}
    (h : (exec (emitConstant v) c).error = none) :
    constantIndex c.constants v < 65536 ∧
      Writes c (exec (emitConstant v) c) [.pushConst (constantIndex c.constants v)] ∧
      (exec (emitConstant v) c).constants = insertConstant c.constants v := by
  have heq : exec (emitConstant v) c =
      exec (emitShort (result (makeConstant v) (exec (emitOp .pushConst) c) : ℕ))
        (exec (makeConstant v) (exec (emitOp .pushConst) c)) := rfl
  rw [heq, exec_emitShort] at h
  obtain ⟨hlt, hr, he⟩ := exec_makeConstant h
  replace hlt : constantIndex c.constants v < 65536 := hlt
  rw [heq, exec_emitShort, hr, he]
  have ha := assembled_short (o := .pushConst) (f := .pushConst) (fun _ => rfl)
    (constantIndex c.constants v)
  rw [Nat.mod_eq_of_lt hlt] at ha
  exact ⟨hlt, ⟨⟨_, by simp, ha⟩, prefix_insertConstant _ _, rfl⟩, rfl⟩

/-- The instruction of `named_variable`.  The index of a global name is cut to sixteen bits. -/
def variableInstr (c : Compiler) (name : Bytes) (assign : Bool) : Instr :=
  match resolveLocal c.locals name with
  | some i => if assign then .storeLocal (i % 256) else .loadLocal (i % 256)
  | none =>
    let k := constantIndex c.constants (.string name) % 65536
    if assign then .storeGlobal k else .loadGlobal k

theorem ofOpcode_localOps (assign : Bool) {i : ℕ} {o : Opcode}
    (h : (if assign then storeLocalOps else loadLocalOps)[i]? = some o) :
    i < 8 ∧ o.length = 1 ∧
      Instr.ofOpcode o = if assign then .storeLocal i else .loadLocal i := by
  have hlt : i < 8 := by
    have := (List.getElem?_eq_some_iff.1 h).1
    cases assign <;> exact this
  have hall : ∀ j < 8, ∀ o ∈ (if assign then storeLocalOps else loadLocalOps)[j]?,
      o.length = 1 ∧ Instr.ofOpcode o = if assign then .storeLocal j else .loadLocal j := by
    cases assign <;> decide
  exact ⟨hlt, hall i hlt o h⟩

theorem writes_namedVariable (name : Bytes) (assign : Bool) (c : Compiler) :
    Writes c (exec (namedVariable name assign) c) [variableInstr c name assign] := by
  simp only [namedVariable, variableInstr, exec_bind, result_get, exec_get]
  cases resolveLocal c.locals name with
  | some i =>
    dsimp only
    cases ho : (if assign then storeLocalOps else loadLocalOps)[i]? with
    | some o =>
      obtain ⟨hlt, hlen, heq⟩ := ofOpcode_localOps assign ho
      rw [Nat.mod_eq_of_lt (by omega), ← heq]
      exact writes_emitOp o hlen c
    | none =>
      refine ⟨⟨_, by simp; rfl, .single fun rest => ?_⟩, List.prefix_refl _, rfl⟩
      cases assign <;> simp [decode, decodeByte]
  | none =>
    obtain ⟨hr, he⟩ := run_addConstant (.string name) c
    simp only [exec_bind, hr, he, exec_emitOp, exec_emitShort]
    refine ⟨⟨_, by simp; rfl, ?_⟩, prefix_insertConstant _ _, rfl⟩
    cases assign <;> exact assembled_short (fun _ => rfl) _

/-- The constants after a variable was written: a global name is among them. -/
def variableConstants (c : Compiler) (name : Bytes) : List Constant :=
  match resolveLocal c.locals name with
  | some _ => c.constants
  | none => insertConstant c.constants (.string name)

theorem constants_namedVariable (name : Bytes) (assign : Bool) (c : Compiler) :
    (exec (namedVariable name assign) c).constants = variableConstants c name := by
  simp only [namedVariable, variableConstants, exec_bind, result_get, exec_get]
  cases resolveLocal c.locals name with
  | some i =>
    dsimp only
    cases (if assign then storeLocalOps else loadLocalOps)[i]? <;> rfl
  | none =>
    obtain ⟨hr, he⟩ := run_addConstant (.string name) c
    simp only [exec_bind, hr, he, exec_emitOp, exec_emitShort]

theorem prefix_variableConstants (c : Compiler) (name : Bytes) :
    c.constants <+: variableConstants c name := by
  unfold variableConstants
  split
  · exact List.prefix_refl _
  · exact prefix_insertConstant _ _

/-- The same name is written as the same variable afterwards. -/
theorem variableInstr_congr {name : Bytes} {c c' : Compiler} (hl : c'.locals = c.locals)
    (hp : variableConstants c name <+: c'.constants) (assign : Bool) :
    variableInstr c' name assign = variableInstr c name assign := by
  unfold variableInstr
  unfold variableConstants at hp
  rw [hl]
  cases h : resolveLocal c.locals name with
  | some i => rfl
  | none =>
    rw [h] at hp
    obtain ⟨heq, hlt⟩ := constantIndex_insertConstant c.constants (Constant.equal_string name)
    rw [← heq] at hlt
    rw [constantIndex_extend hlt hp, heq]

/-- The constant that a global variable of this name is addressed by: its name, as long as the
index fits. -/
def variableConstant (c : Compiler) (name : Bytes) : Constant :=
  (insertConstant c.constants (.string name)).getD
    (constantIndex c.constants (.string name) % 65536) .null

theorem getElem?_variableConstant (c : Compiler) (name : Bytes) {cs : List Constant}
    (hp : insertConstant c.constants (.string name) <+: cs) :
    cs[constantIndex c.constants (.string name) % 65536]? = some (variableConstant c name) := by
  have hlt := (constantIndex_insertConstant c.constants (Constant.equal_string name)).2
  have hmod := Nat.mod_le (constantIndex c.constants (.string name)) 65536
  obtain ⟨more, rfl⟩ := hp
  rw [List.getElem?_append_left (by omega), variableConstant, List.getD_eq_getElem?_getD,
    List.getElem?_eq_getElem (by omega), Option.getD_some]

theorem variableConstant_of_lt {c : Compiler} {name : Bytes}
    (h : constantIndex c.constants (.string name) < 65536) :
    variableConstant c name = .string name := by
  have hget := getElem?_variableConstant c name (List.prefix_refl _)
  rw [Nat.mod_eq_of_lt h, getElem?_insertConstant (Constant.equal_string name)
    (List.prefix_refl _)] at hget
  exact (Option.some.inj hget).symm

/-- The variable is addressed by the same constant afterwards. -/
theorem variableConstant_congr {c c' : Compiler} {name : Bytes}
    (hp : insertConstant c.constants (.string name) <+: c'.constants) :
    variableConstant c' name = variableConstant c name := by
  obtain ⟨heq, hlt⟩ := constantIndex_insertConstant c.constants (Constant.equal_string name)
  rw [← heq] at hlt
  have hget := getElem?_variableConstant c' name (List.prefix_refl _)
  rw [constantIndex_extend hlt hp, heq,
    getElem?_variableConstant c name (hp.trans (prefix_insertConstant _ _))] at hget
  exact (Option.some.inj hget).symm

/-- An index that does not fit is that of another constant. -/
theorem variableConstant_ne {c : Compiler} {name : Bytes}
    (h : 65536 ≤ constantIndex c.constants (.string name)) :
    variableConstant c name ≠ .string name := by
  have hlt : constantIndex c.constants (.string name) % 65536 <
      constantIndex c.constants (.string name) := by omega
  have hle : constantIndex c.constants (.string name) ≤ c.constants.length :=
    List.findIdx_le_length
  have hget := getElem?_variableConstant c name (List.prefix_refl _)
  obtain ⟨more, hmore⟩ := prefix_insertConstant c.constants (.string name)
  rw [← hmore, List.getElem?_append_left (by omega)] at hget
  intro heq
  rw [heq] at hget
  exact ne_of_lt_constantIndex hlt (Constant.equal_string name) hget

namespace Machine

variable {V S : Type} (M : Machine V S) (c : Compiler) (name : Bytes)

/-- What the load of a variable pushes, and the state it leaves. -/
def loadVariable (s : S) : V × S :=
  match resolveLocal c.locals name with
  | some i => (M.loadLocal (i % 256) s, s)
  | none => M.loadGlobal (variableConstant c name) s

/-- The state after the store of a variable. -/
def storeVariable (v : V) (s : S) : S :=
  match resolveLocal c.locals name with
  | some i => M.storeLocal (i % 256) v s
  | none => M.storeGlobal (variableConstant c name) v s

variable {c name} {cs : List Constant}

/-- A variable stays the same variable. -/
theorem storeVariable_congr {c' : Compiler} (hl : c'.locals = c.locals)
    (hp : variableConstants c name <+: c'.constants) (v : V) (s : S) :
    M.storeVariable c' name v s = M.storeVariable c name v s := by
  unfold storeVariable
  unfold variableConstants at hp
  rw [hl]
  cases h : resolveLocal c.locals name with
  | some i => rfl
  | none =>
    rw [h] at hp
    dsimp only
    rw [variableConstant_congr hp]

theorem step_load (hp : variableConstants c name <+: cs) (stack : List V)
    (s : S) : M.step cs (variableInstr c name false) stack s =
      M.push (M.loadVariable c name s).1 stack (M.loadVariable c name s).2 := by
  unfold variableInstr loadVariable
  unfold variableConstants at hp
  cases h : resolveLocal c.locals name with
  | some i => rfl
  | none =>
    rw [h] at hp
    simp only [Bool.false_eq_true, if_false, step, getElem?_variableConstant c name hp]

theorem step_store (hp : variableConstants c name <+: cs) (v : V)
    (stack : List V) (s : S) : M.step cs (variableInstr c name true) (v :: stack) s =
      .ok (v :: stack, M.storeVariable c name v s) := by
  unfold variableInstr storeVariable
  unfold variableConstants at hp
  cases h : resolveLocal c.locals name with
  | some i => rfl
  | none =>
    rw [h] at hp
    simp only [if_true, step, getElem?_variableConstant c name hp]

/-- Running what was written is executing its instructions. -/
theorem run_writes {c' : Compiler} {is : List Instr} (h : Writes c c' is) (stack : List V) (s : S) :
    M.run cs (c'.code.drop c.code.length) stack s = M.steps cs is stack s := by
  obtain ⟨bytes, hb, ha⟩ := h.code
  rw [hb, List.drop_left]
  exact M.run_assembled cs ha stack s

theorem push_of_lt {v : V} {stack : List V} {s : S} (h : stack.length < M.stackMax) :
    M.push v stack s = .ok (v :: stack, s) := if_pos h

theorem push_of_le {v : V} {stack : List V} {s : S} (h : M.stackMax ≤ stack.length) :
    M.push v stack s = .error (.overflow s) := if_neg (Nat.not_lt.2 h)

theorem step_pushConst {k : ℕ} {v : Constant} (h : cs[k]? = some v) (stack : List V) (s : S) :
    M.step cs (.pushConst k) stack s = M.push (M.constant v) stack s := by
  simp only [step, h]

theorem step_operate {o : Opcode} {stack stack' : List V} (h : M.operate o stack = some stack')
    (s : S) : M.step cs (.operate o) stack s = .ok (stack', s) := by
  simp only [step, h]

/-- After an instruction that is executed the others are. -/
theorem steps_of_ok {i : Instr} {stack stack' : List V} {s s' : S}
    (h : M.step cs i stack s = .ok (stack', s')) (is : List Instr) :
    M.steps cs (i :: is) stack s = M.steps cs is stack' s' := by
  rw [steps, h]
  rfl

/-- After an instruction that stops the machine no other is executed. -/
theorem steps_of_error {i : Instr} {stack : List V} {s : S} {e : Stop S}
    (h : M.step cs i stack s = .error e) (is : List Instr) :
    M.steps cs (i :: is) stack s = .error e := by
  rw [steps, h]
  rfl

end Machine

end Slp
