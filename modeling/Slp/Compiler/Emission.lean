import Slp.Compiler.Shape

/-!
# What emission does to a compiler

`exec` runs a piece of compilation.  A `Straight` piece appends whole instructions and leaves the
jumps, the loop and the pending arrays alone; every instruction of a shape is one
(`straight_op`, `straight_variable`, …).  Errors are kept: what ends without an error had none on
the way (`error_of_emit`).
-/

namespace Slp

/-- The compiler after a piece of compilation. -/
def exec {α : Type} (e : Emit α) (c : Compiler) : Compiler := (e.run c).2

/-- The result of a piece of compilation. -/
def result {α : Type} (e : Emit α) (c : Compiler) : α := (e.run c).1

@[simp] theorem exec_bind {α β : Type} (e : Emit α) (f : α → Emit β) (c : Compiler) :
    exec (e >>= f) c = exec (f (result e c)) (exec e c) := rfl

@[simp] theorem exec_map {α β : Type} (f : α → β) (e : Emit α) (c : Compiler) :
    exec (f <$> e) c = exec e c := rfl

@[simp] theorem exec_pure {α : Type} (a : α) (c : Compiler) : exec (pure a) c = c := rfl

@[simp] theorem exec_get (c : Compiler) : exec get c = c := rfl

@[simp] theorem result_get (c : Compiler) : result get c = c := rfl

@[simp] theorem exec_set (c c' : Compiler) : exec (set c') c = c' := rfl

@[simp] theorem exec_modify (f : Compiler → Compiler) (c : Compiler) :
    exec (modify f) c = f c := rfl

@[simp] theorem exec_emitByte (b : UInt8) (c : Compiler) :
    exec (emitByte b) c = { c with code := c.code ++ [b] } := rfl

@[simp] theorem exec_emitOp (o : Opcode) (c : Compiler) :
    exec (emitOp o) c = { c with code := c.code ++ [o.byte] } := rfl

@[simp] theorem exec_here (c : Compiler) : exec here c = c := rfl

@[simp] theorem result_here (c : Compiler) : result here c = c.code.length := rfl

theorem exec_emitShort (v : ℤ) (c : Compiler) :
    exec (emitShort v) c = { c with code := c.code ++ [(shortBytes v).1, (shortBytes v).2] } := by
  simp [emitShort]

theorem exec_compilerError (m : String) (c : Compiler) :
    exec (compilerError m) c = { c with error := c.error.or (some m) } := rfl

theorem exec_compilerError_error (m : String) (c : Compiler) :
    (exec (compilerError m) c).error ≠ none := by
  rw [exec_compilerError]
  cases c.error <;> simp

/-! ### Jumps -/

namespace Compiler

/-- The compiler after `emit_jump`. -/
def jumped (c : Compiler) (o : Opcode) : Compiler :=
  { c with
    code := c.code ++ [o.byte, 0xFF, 0xFF]
    audit.jumps := c.audit.jumps ++ [c.code.length + 1] }

/-- The compiler after the write of the distance from the operand `j` to `t`. -/
def patched (c : Compiler) (t j : ℕ) : Compiler :=
  { c with
    code := patchShort c.code j (t - j - 2)
    audit.patched := c.audit.patched ++ [j] }

@[simp] theorem length_jumped (c : Compiler) (o : Opcode) :
    (c.jumped o).code.length = c.code.length + 3 := by
  simp [jumped]

@[simp] theorem length_patched (c : Compiler) (t j : ℕ) :
    (c.patched t j).code.length = c.code.length := by
  simp [patched]

end Compiler

@[simp] theorem exec_emitJump (o : Opcode) (c : Compiler) :
    exec (emitJump o) c = c.jumped o := by
  simp [emitJump, Compiler.jumped]

@[simp] theorem result_emitJump (o : Opcode) (c : Compiler) :
    result (emitJump o) c = c.code.length + 1 := by
  change (c.code ++ [o.byte] ++ [0xFF] ++ [0xFF]).length - 2 = _
  simp

theorem exec_patchJump (j : ℕ) (c : Compiler) :
    exec (patchJump j) c =
      if (c.code.length : ℤ) - j - 2 > 65535 then
        exec (compilerError "Too much code to jump over.") c
      else c.patched c.code.length j := by
  change exec (if (c.code.length : ℤ) - j - 2 > 65535 then _ else _) c = _
  split <;> rfl

/-- A jump that is patched without an error gets its distance to the end of the code. -/
theorem patchJump_ok {j : ℕ} {c : Compiler} (h : (exec (patchJump j) c).error = none) :
    exec (patchJump j) c = c.patched c.code.length j ∧
      (c.code.length : ℤ) - j - 2 ≤ 65535 := by
  rw [exec_patchJump] at h ⊢
  split at h
  · exact absurd h (exec_compilerError_error _ _)
  · rename_i hle
    rw [if_neg hle]
    exact ⟨rfl, by omega⟩

theorem error_of_patchJump {j : ℕ} {c : Compiler} (h : (exec (patchJump j) c).error = none) :
    c.error = none := by
  rw [(patchJump_ok h).1] at h
  exact h

theorem exec_emitLoop (loopStart : ℤ) (c : Compiler) :
    exec (emitLoop loopStart) c =
      if (c.code.length : ℤ) + 1 - loopStart + 2 > 32767 then
        exec (compilerError "Loop body too large.") { c with code := c.code ++ [Opcode.loop.byte] }
      else
        { c with
          code := c.code ++ [Opcode.loop.byte,
            (shortBytes (c.code.length + 1 - loopStart + 2)).1,
            (shortBytes (c.code.length + 1 - loopStart + 2)).2] } := by
  have hlen : ((c.code ++ [Opcode.loop.byte]).length : ℤ) = c.code.length + 1 := by simp
  simp only [emitLoop, exec_bind, exec_emitOp, result_get, exec_get, hlen]
  split
  · rfl
  · rw [exec_emitShort]
    simp

/-- A loop that is closed without an error jumps back to its start. -/
theorem emitLoop_ok {l : ℕ} {c : Compiler} (h : (exec (emitLoop l) c).error = none) :
    ∃ a b, exec (emitLoop l) c = { c with code := c.code ++ [Opcode.loop.byte, a, b] } ∧
      c.code.length + 3 ≤ l + 32767 ∧
      (l ≤ c.code.length → LoopsBack (exec (emitLoop l) c).code c.code.length l) := by
  rw [exec_emitLoop] at h ⊢
  split at h
  · exact absurd h (exec_compilerError_error _ _)
  · rename_i hle
    rw [if_neg hle]
    refine ⟨_, _, rfl, by omega, fun hl => ⟨?_, ?_⟩⟩
    · exact opcodeAt_emit _ _ _
    · have key := readShort_shortBytes (c.code ++ [Opcode.loop.byte]) []
        (v := c.code.length + 1 - l + 2) (by omega) (by omega)
      simp only [List.append_assoc, List.singleton_append, List.length_append,
        List.length_singleton] at key
      dsimp only
      omega

/-- The two ways to leave an iteration. -/
inductive Exit where
  | brk | cont
  deriving DecidableEq, Repr

/-! ### Straight pieces -/

/-- `n` bytes are appended; the jumps, the loop and the pending arrays are unchanged. -/
structure Appends (n : ℕ) (c c' : Compiler) : Prop where
  code : ∃ bytes, c'.code = c.code ++ bytes ∧ bytes.length = n
  loopStart : c'.loopStart = c.loopStart
  breakJumps : c'.breakJumps = c.breakJumps
  continueJumps : c'.continueJumps = c.continueJumps
  audit : c'.audit = c.audit
  error : c'.error = none → c.error = none

namespace Appends

variable {n m : ℕ} {c c' c'' : Compiler}

theorem refl (c : Compiler) : Appends 0 c c :=
  ⟨⟨[], by simp⟩, rfl, rfl, rfl, rfl, id⟩

theorem trans (h : Appends n c c') (h' : Appends m c' c'') : Appends (n + m) c c'' := by
  obtain ⟨bs, hbs, hn⟩ := h.code
  obtain ⟨bs', hbs', hm⟩ := h'.code
  exact ⟨⟨bs ++ bs', by rw [hbs', hbs, List.append_assoc], by rw [List.length_append, hn, hm]⟩,
    h'.loopStart.trans h.loopStart, h'.breakJumps.trans h.breakJumps,
    h'.continueJumps.trans h.continueJumps, h'.audit.trans h.audit,
    fun he => h.error (h'.error he)⟩

end Appends

theorem appends_emitByte (b : UInt8) (c : Compiler) : Appends 1 c (exec (emitByte b) c) :=
  ⟨⟨[b], rfl, rfl⟩, rfl, rfl, rfl, rfl, id⟩

theorem appends_emitShort (v : ℤ) (c : Compiler) : Appends 2 c (exec (emitShort v) c) := by
  rw [exec_emitShort]
  exact ⟨⟨_, rfl, rfl⟩, rfl, rfl, rfl, rfl, id⟩

theorem appends_compilerError (m : String) (c : Compiler) :
    Appends 0 c (exec (compilerError m) c) :=
  ⟨⟨[], by simp [exec_compilerError]⟩, rfl, rfl, rfl, rfl,
    fun h => absurd h (exec_compilerError_error _ _)⟩

theorem appends_addConstant (v : Constant) (c : Compiler) :
    Appends 0 c (exec (addConstant v) c) := by
  simp only [addConstant, exec_bind, result_get, exec_get]
  split <;> exact ⟨⟨[], by simp⟩, rfl, rfl, rfl, rfl, id⟩

theorem appends_makeConstant (v : Constant) (c : Compiler) :
    Appends 0 c (exec (makeConstant v) c) := by
  simp only [makeConstant, exec_bind]
  split
  · exact (appends_addConstant v c).trans (appends_compilerError _ _)
  · exact appends_addConstant v c

theorem appends_constant (v : Constant) (c : Compiler) :
    Appends 2 c (exec (do emitShort (← makeConstant v)) c) :=
  show Appends (0 + 2) c (exec (emitShort (result (makeConstant v) c)) (exec (makeConstant v) c))
    from (appends_makeConstant v c).trans (appends_emitShort _ _)

theorem appends_operand (x : Operand) (c : Compiler) : Appends x.size c (exec x.emit c) := by
  cases x with
  | byte b => exact appends_emitByte b c
  | short v => exact appends_emitShort v c
  | const v => exact appends_constant v c

theorem appends_emitOperands (xs : List Operand) (c : Compiler) :
    Appends (xs.map Operand.size).sum c (exec (Shape.emitOperands xs) c) := by
  induction xs generalizing c with
  | nil => exact Appends.refl c
  | cons x rest ih =>
    rw [List.map_cons, List.sum_cons]
    exact (appends_operand x c).trans (ih _)

/-- Whole instructions are appended; the jumps, the loop and the pending arrays are unchanged. -/
structure Straight (c c' : Compiler) : Prop where
  code : ∃ bytes, c'.code = c.code ++ bytes
  boundary : Boundary c.code c.code.length → Boundary c'.code c'.code.length
  loopStart : c'.loopStart = c.loopStart
  breakJumps : c'.breakJumps = c.breakJumps
  continueJumps : c'.continueJumps = c.continueJumps
  audit : c'.audit = c.audit
  error : c'.error = none → c.error = none

namespace Straight

variable {c c' c'' : Compiler}

theorem trans (h : Straight c c') (h' : Straight c' c'') : Straight c c'' := by
  obtain ⟨bs, hbs⟩ := h.code
  obtain ⟨bs', hbs'⟩ := h'.code
  exact ⟨⟨bs ++ bs', by rw [hbs', hbs, List.append_assoc]⟩, fun hb => h'.boundary (h.boundary hb),
    h'.loopStart.trans h.loopStart, h'.breakJumps.trans h.breakJumps,
    h'.continueJumps.trans h.continueJumps, h'.audit.trans h.audit,
    fun he => h.error (h'.error he)⟩

/-- Nothing is appended: only the constants or the error change. -/
theorem of_appends (h : Appends 0 c c') : Straight c c' := by
  obtain ⟨bs, hbs, hlen⟩ := h.code
  have hcode : c'.code = c.code := by
    rw [hbs, List.length_eq_zero_iff.1 hlen, List.append_nil]
  exact ⟨⟨bs, hbs⟩, fun hb => hcode ▸ hb, h.loopStart, h.breakJumps, h.continueJumps, h.audit,
    h.error⟩

theorem refl (c : Compiler) : Straight c c := of_appends (Appends.refl c)

/-- An instruction with its operands. -/
theorem of_op {n : ℕ} (o : Opcode) (h : Appends n (exec (emitOp o) c) c')
    (hlen : n + 1 = o.length) : Straight c c' := by
  obtain ⟨bs, hbs, hn⟩ := h.code
  have hcode : c'.code = c.code ++ o.byte :: bs := by simpa using hbs
  exact ⟨⟨_, hcode⟩, fun hb => hcode ▸ hb.emit o bs (by omega), h.loopStart, h.breakJumps,
    h.continueJumps, h.audit, h.error⟩

end Straight

theorem straight_emitOp (o : Opcode) (h : o.length = 1) (c : Compiler) :
    Straight c (exec (emitOp o) c) :=
  Straight.of_op o (Appends.refl _) (by omega)

theorem straight_emitWith (o : Opcode) (h : o.length = 3) (v : Constant) (c : Compiler) :
    Straight c (exec (emitWith o v) c) :=
  Straight.of_op o (appends_constant v _) (by omega)

theorem straight_op (o : Opcode) (xs : List Operand) (h) (c : Compiler) :
    Straight c (exec (Shape.op o xs h).emit c) :=
  Straight.of_op o (appends_emitOperands xs _) h

theorem length_of_mem_localOps :
    ∀ o ∈ loadLocalOps ++ storeLocalOps, o.length = 1 := by
  decide

theorem straight_variable (name : Bytes) (assign : Bool) (c : Compiler) :
    Straight c (exec (namedVariable name assign) c) := by
  simp only [namedVariable, exec_bind, result_get, exec_get]
  split
  · split
    · rename_i o ho
      refine straight_emitOp o (length_of_mem_localOps o (List.mem_append.2 ?_)) c
      cases assign
      · exact .inl (List.mem_of_getElem? ho)
      · exact .inr (List.mem_of_getElem? ho)
    · cases assign <;> exact Straight.of_op _ (appends_emitByte _ _) rfl
  · rw [exec_bind]
    refine (Straight.of_appends (appends_addConstant (.string name) c)).trans ?_
    cases assign <;> exact Straight.of_op _ (appends_emitShort _ _) rfl

theorem straight_reference (name : Bytes) (c : Compiler) :
    Straight c (exec (referenceVariable name) c) := by
  simp only [referenceVariable, exec_bind, result_get, exec_get]
  split
  · exact Straight.of_op _ (appends_emitByte _ _) rfl
  · rw [exec_bind]
    exact (Straight.of_appends (appends_makeConstant _ _)).trans
      (Straight.of_op _ (appends_emitShort _ _) rfl)

theorem straight_closure (keyword : Option Bytes) (body : Emit Unit) (c : Compiler) :
    Straight c (exec (emitClosure keyword body) c) := by
  simp only [emitClosure, exec_bind, result_get, exec_get]
  split
  · exact (Straight.of_appends (appends_compilerError _ _)).trans (straight_emitWith _ rfl _ _)
  · exact straight_emitWith _ rfl _ _

theorem straight_popHandlers (c : Compiler) : Straight c (exec popHandlers c) := by
  simp only [popHandlers, exec_bind, result_get, exec_get]
  generalize c.tryDepth - c.loopTryDepth = n
  induction n generalizing c with
  | zero => exact Straight.refl c
  | succ n ih => exact (straight_emitOp .popHandler rfl c).trans (ih _)

/-- What a shape without jumps writes is straight. -/
theorem straight_of_leaf {s : Shape} (c : Compiler) (h : match s with
    | .skip | .fail _ | .op .. | .var .. | .reference _ | .ret | .endStatement ..
    | .closure .. => True
    | _ => False) : Straight c (exec s.emit c) := by
  cases s with
  | skip => exact Straight.refl c
  | fail m => exact Straight.of_appends (appends_compilerError m c)
  | op o xs ho => exact straight_op o xs ho c
  | var name assign => exact straight_variable name assign c
  | reference name => exact straight_reference name c
  | ret =>
    refine straight_emitOp _ ?_ c
    split <;> rfl
  | endStatement script last =>
    refine straight_emitOp _ ?_ c
    split <;> rfl
  | closure keyword body => exact straight_closure keyword body c
  | _ => exact h.elim

/-! ### Running a shape -/

/-- A statement that leaves an iteration: `emitBreak` or `emitContinue`. -/
def emitExit : Exit → Emit Unit
  | .brk => emitBreak
  | .cont => emitContinue

theorem result_enterLoop (c : Compiler) : result enterLoop c = c := rfl

theorem error_emitOp (o : Opcode) (c : Compiler) : (exec (emitOp o) c).error = c.error := rfl

theorem error_jumped (o : Opcode) (c : Compiler) : (c.jumped o).error = c.error := rfl

theorem error_enterLoop (c : Compiler) : (exec enterLoop c).error = c.error := rfl

/-- The end of a `while` after its body. -/
def endWhile (exitJump : ℕ) : Emit Unit := do
  emitLoop (← get).loopStart
  patchJump exitJump
  emitOp .pop
  patchBreaks
  patchContinues

/-- The end of a `for` with a condition after its step. -/
def endFor (exitJump incStart : ℕ) : Emit Unit := do
  emitLoop (← get).loopStart
  patchJump exitJump
  emitOp .pop
  writeContinues incStart
  patchBreaks

/-- The end of a `for` without a condition after its step. -/
def endForever (incStart : ℕ) : Emit Unit := do
  emitLoop (← get).loopStart
  writeContinues incStart
  patchBreaks

/-- The end of a `foreach` after its body, up to its cleanup. -/
def endForeach (exitJump : ℕ) : Emit Unit := do
  patchContinues
  emitLoop (← get).loopStart
  patchJump exitJump
  patchBreaks

/-- The compiler `last` at the end of a loop, back in the code around it, which had left off at
`outer`. -/
def Compiler.leave (outer : Compiler) (next : ℕ) (last : Compiler) : Compiler :=
  exec (leaveLoop outer) (exec (closeLoop next last.code.length) last)

theorem error_leave (outer last : Compiler) (next : ℕ) :
    (outer.leave next last).error = last.error := rfl

theorem exec_leaveLoop_emitOp (outer c : Compiler) (o : Opcode) :
    exec (leaveLoop outer) (exec (emitOp o) c) = exec (emitOp o) (exec (leaveLoop outer) c) := rfl

section

variable (c : Compiler) (o : Opcode) (h : o.isJump) (a b step : Shape)

theorem exec_seq : exec (Shape.seq a b).emit c = exec b.emit (exec a.emit c) := rfl

theorem exec_guard :
    exec (Shape.guard o h a).emit c =
      exec (patchJump (c.code.length + 1)) (exec a.emit (c.jumped o)) := by
  simp [Shape.emit]

theorem exec_branch :
    exec (Shape.branch o h a b).emit c =
      exec (patchJump ((exec a.emit (c.jumped o)).code.length + 1))
        (exec b.emit (exec (patchJump (c.code.length + 1))
          ((exec a.emit (c.jumped o)).jumped .jump))) := by
  simp [Shape.emit]

theorem exec_inTry :
    exec (Shape.inTry a).emit c =
      { exec a.emit { c with tryDepth := c.tryDepth + 1 } with
        tryDepth := (exec a.emit { c with tryDepth := c.tryDepth + 1 }).tryDepth - 1 } := rfl

theorem exec_brk :
    exec Shape.brk.emit c = if 0 ≤ c.loopStart then exec (emitExit .brk) c else c := by
  by_cases hl : 0 ≤ c.loopStart <;> simp [Shape.emit, emitExit, hl]

theorem exec_cont :
    exec Shape.cont.emit c = if 0 ≤ c.loopStart then exec (emitExit .cont) c else c := by
  by_cases hl : 0 ≤ c.loopStart <;> simp [Shape.emit, emitExit, hl]

theorem exec_whileLoop :
    exec (Shape.whileLoop o h a b).emit c = c.leave c.code.length
      (exec (endWhile ((exec a.emit (exec enterLoop c)).code.length + 1))
        (exec b.emit (exec (emitOp .pop) ((exec a.emit (exec enterLoop c)).jumped o)))) := by
  simp only [Shape.emit, endWhile, Compiler.leave, exec_bind, exec_emitJump, result_emitJump,
    exec_get, result_get, exec_here, result_here, result_enterLoop]

theorem exec_forLoop :
    exec (Shape.forLoop a b step).emit c =
      let body := exec b.emit (exec (emitOp .pop)
        ((exec a.emit (exec enterLoop c)).jumped .jumpIfFalse))
      c.leave body.code.length
        (exec (endFor ((exec a.emit (exec enterLoop c)).code.length + 1) body.code.length)
          (exec step.emit body)) := by
  simp only [Shape.emit, endFor, Compiler.leave, exec_bind, exec_emitJump, result_emitJump,
    exec_get, result_get, exec_here, result_here, result_enterLoop]

theorem exec_foreverLoop :
    exec (Shape.foreverLoop b step).emit c =
      let body := exec b.emit (exec enterLoop c)
      c.leave body.code.length
        (exec (endForever body.code.length) (exec step.emit body)) := by
  simp only [Shape.emit, endForever, Compiler.leave, exec_bind, exec_get, result_get, exec_here,
    result_here, result_enterLoop]

/-- The cleanup of a `foreach` is emitted before its loop is left, which makes no difference. -/
theorem exec_foreachLoop :
    exec (Shape.foreachLoop o h b).emit c = exec (emitOp .pop) (exec (emitOp .pop)
      (c.leave c.code.length (exec (endForeach ((exec enterLoop c).code.length + 1))
        (exec b.emit ((exec enterLoop c).jumped o))))) := by
  simp only [Shape.emit, endForeach, Compiler.leave, exec_bind, exec_emitJump, result_emitJump,
    exec_get, result_get, exec_here, result_here, result_enterLoop, exec_leaveLoop_emitOp]

theorem exec_endWhile (j : ℕ) :
    exec (endWhile j) c = exec patchContinues (exec patchBreaks
      (exec (emitOp .pop) (exec (patchJump j) (exec (emitLoop c.loopStart) c)))) := by
  simp only [endWhile, exec_bind, exec_get, result_get]

theorem exec_endFor (j next : ℕ) :
    exec (endFor j next) c = exec patchBreaks (exec (writeContinues next)
      (exec (emitOp .pop) (exec (patchJump j) (exec (emitLoop c.loopStart) c)))) := by
  simp only [endFor, exec_bind, exec_get, result_get]

theorem exec_endForever (next : ℕ) :
    exec (endForever next) c =
      exec patchBreaks (exec (writeContinues next) (exec (emitLoop c.loopStart) c)) := by
  simp only [endForever, exec_bind, exec_get, result_get]

theorem exec_endForeach (j : ℕ) :
    exec (endForeach j) c = exec patchBreaks (exec (patchJump j)
      (exec (emitLoop (exec patchContinues c).loopStart) (exec patchContinues c))) := by
  simp only [endForeach, exec_bind, exec_get, result_get]

end

/-! ### Errors -/

theorem error_of_emitLoop {l : ℤ} {c : Compiler} (h : (exec (emitLoop l) c).error = none) :
    c.error = none := by
  rw [exec_emitLoop] at h
  split at h
  · exact absurd h (exec_compilerError_error _ _)
  · exact h

theorem error_of_forM_patchJump {js : List ℕ} {c : Compiler}
    (h : (exec (js.forM patchJump) c).error = none) : c.error = none := by
  induction js generalizing c with
  | nil => exact h
  | cons j js ih => exact error_of_patchJump (ih h)

theorem error_writeContinues (t : ℕ) (c : Compiler) :
    (exec (writeContinues t) c).error = c.error := by
  change (exec (c.continueJumps.live.forM _) c).error = _
  generalize c.continueJumps.live = js
  induction js generalizing c with
  | nil => rfl
  | cons j js ih => exact ih (exec (writeJump j (t - j - 2)) c)

theorem error_of_patchBreaks {c : Compiler} (h : (exec patchBreaks c).error = none) :
    c.error = none :=
  error_of_forM_patchJump h

theorem error_of_patchContinues {c : Compiler} (h : (exec patchContinues c).error = none) :
    c.error = none :=
  error_of_forM_patchJump h

theorem error_of_endWhile {j : ℕ} {c : Compiler}
    (h : (exec (endWhile j) c).error = none) : c.error = none := by
  rw [exec_endWhile] at h
  have h := error_of_patchBreaks (error_of_patchContinues h)
  rw [error_emitOp] at h
  exact error_of_emitLoop (error_of_patchJump h)

theorem error_of_endFor {j next : ℕ} {c : Compiler}
    (h : (exec (endFor j next) c).error = none) : c.error = none := by
  rw [exec_endFor] at h
  have h := error_of_patchBreaks h
  rw [error_writeContinues, error_emitOp] at h
  exact error_of_emitLoop (error_of_patchJump h)

theorem error_of_endForever {next : ℕ} {c : Compiler}
    (h : (exec (endForever next) c).error = none) : c.error = none := by
  rw [exec_endForever] at h
  have h := error_of_patchBreaks h
  rw [error_writeContinues] at h
  exact error_of_emitLoop h

theorem error_of_endForeach {j : ℕ} {c : Compiler}
    (h : (exec (endForeach j) c).error = none) : c.error = none := by
  rw [exec_endForeach] at h
  exact error_of_patchContinues (error_of_emitLoop (error_of_patchJump (error_of_patchBreaks h)))

theorem error_of_emitExit {e : Exit} {c : Compiler} (h : (exec (emitExit e) c).error = none) :
    c.error = none := by
  refine (straight_popHandlers c).error ?_
  cases e with
  | brk => simpa [emitExit, emitBreak, error_jumped] using h
  | cont => simpa [emitExit, emitContinue, error_jumped] using h

/-- The compiler's error does not go away, whatever is emitted. -/
theorem error_of_emit (s : Shape) {c : Compiler} (h : (exec s.emit c).error = none) :
    c.error = none := by
  induction s generalizing c with
  | seq a b iha ihb =>
    rw [exec_seq] at h
    exact iha (ihb h)
  | guard o ho a ih =>
    rw [exec_guard] at h
    exact (error_jumped o c).symm.trans (ih (error_of_patchJump h))
  | branch o ho a b iha ihb =>
    rw [exec_branch] at h
    have h := error_of_patchJump (ihb (error_of_patchJump h))
    rw [error_jumped] at h
    exact (error_jumped o c).symm.trans (iha h)
  | inTry a ih =>
    rw [exec_inTry] at h
    have h := ih h
    exact h
  | brk =>
    rw [exec_brk] at h
    split at h
    · exact error_of_emitExit h
    · exact h
  | cont =>
    rw [exec_cont] at h
    split at h
    · exact error_of_emitExit h
    · exact h
  | whileLoop o ho head body ihh ihb =>
    rw [exec_whileLoop, error_leave] at h
    have h := ihb (error_of_endWhile h)
    rw [error_emitOp, error_jumped] at h
    exact (error_enterLoop c).symm.trans (ihh h)
  | forLoop head body step ihh ihb ihs =>
    rw [exec_forLoop, error_leave] at h
    have h := ihb (ihs (error_of_endFor h))
    rw [error_emitOp, error_jumped] at h
    exact (error_enterLoop c).symm.trans (ihh h)
  | foreverLoop body step ihb ihs =>
    rw [exec_foreverLoop, error_leave] at h
    exact (error_enterLoop c).symm.trans (ihb (ihs (error_of_endForever h)))
  | foreachLoop o ho body ih =>
    rw [exec_foreachLoop, error_emitOp, error_emitOp, error_leave] at h
    have h := ih (error_of_endForeach h)
    rw [error_jumped] at h
    exact (error_enterLoop c).symm.trans h
  | _ => exact (straight_of_leaf c trivial).error h

end Slp
