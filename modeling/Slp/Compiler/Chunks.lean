import Slp.Compiler.LoopLaw

/-!
# The chunks of compiled functions

`ChunkOf f code` says that `code` is the chunk of the function `f` or of a function among its
constants.  Every chunk that the compiler makes without an error is made of whole instructions
(`boundary_of_chunkOf`): what is emitted ends at the end of an instruction, and what is patched is
the operand of a jump (`Whole`, `whole_emit`).
-/

namespace Slp

/-- The chunk of a function, or of a function among its constants. -/
inductive ChunkOf : Constant → List UInt8 → Prop where
  | own (code : List UInt8) (constants : List Constant) (name : Option Bytes) :
      ChunkOf (.function code constants name) code
  | inner {code code' : List UInt8} {constants : List Constant} {name : Option Bytes}
      {f : Constant} (hf : f ∈ constants) (h : ChunkOf f code') :
      ChunkOf (.function code constants name) code'

/-- The code is made of whole instructions, and the placeholders are operands of jumps. -/
structure Whole (c : Compiler) : Prop where
  boundary : Boundary c.code c.code.length
  isJump : ∀ j ∈ c.audit.jumps, IsJump c.code j

namespace Whole

variable {c c' : Compiler} {j t next : ℕ}

theorem congr (h : Whole c) (hcode : c'.code = c.code) (hjumps : c'.audit.jumps = c.audit.jumps) :
    Whole c' := by
  refine ⟨?_, ?_⟩
  · rw [hcode]
    exact h.boundary
  · rw [hcode, hjumps]
    exact h.isJump

theorem straight (h : Whole c) (hs : Straight c c') : Whole c' := by
  obtain ⟨bytes, hcode⟩ := hs.code
  refine ⟨hs.boundary h.boundary, ?_⟩
  rw [hs.audit, hcode]
  exact fun j hj => (h.isJump j hj).append bytes

theorem jumped (h : Whole c) {o : Opcode} (ho : o.isJump) : Whole (c.jumped o) := by
  refine ⟨h.boundary.emit o [0xFF, 0xFF] (Opcode.length_of_isJump ho).symm, fun j hj => ?_⟩
  rcases List.mem_append.1 hj with hj | hj
  · exact (h.isJump j hj).append _
  · rw [List.mem_singleton.1 hj]
    exact IsJump.emit h.boundary o ho 0xFF 0xFF

/-- A patch writes the operand of a jump, which no instruction overlaps. -/
theorem patched (h : Whole c) (hj : j ∈ c.audit.jumps) : Whole (c.patched t j) := by
  have hjump := h.isJump j hj
  refine ⟨?_, fun i hi => (h.isJump i hi).patchShort hjump _⟩
  rw [Compiler.length_patched]
  exact h.boundary.patchShort hjump _

theorem patchedAll {js : List ℕ} (h : Whole c) (hjs : ∀ j ∈ js, j ∈ c.audit.jumps) :
    Whole (c.patchedAll t js) := by
  induction js generalizing c with
  | nil => exact h
  | cons j js ih =>
    exact ih (h.patched (hjs j List.mem_cons_self)) fun i hi => hjs i (List.mem_cons_of_mem j hi)

theorem patchJump (h : Whole c) (hj : j ∈ c.audit.jumps)
    (herr : (exec (patchJump j) c).error = none) : Whole (exec (Slp.patchJump j) c) := by
  rw [(patchJump_ok herr).1]
  exact h.patched hj

theorem patchBreaks (h : Whole c) (hw : Weak c) (herr : (exec patchBreaks c).error = none) :
    Whole (exec Slp.patchBreaks c) := by
  have heq : exec Slp.patchBreaks c = _ := (exec_forM_patchJump herr).1
  rw [heq]
  exact h.patchedAll (hw.live .brk)

theorem patchContinues (h : Whole c) (hw : Weak c)
    (herr : (exec patchContinues c).error = none) : Whole (exec Slp.patchContinues c) := by
  have heq : exec Slp.patchContinues c = _ := (exec_forM_patchJump herr).1
  rw [heq]
  exact h.patchedAll (hw.live .cont)

theorem writeContinues (h : Whole c) (hw : Weak c) (t : ℕ) :
    Whole (exec (Slp.writeContinues t) c) := by
  rw [exec_writeContinues]
  exact h.patchedAll (hw.live .cont)

theorem enterLoop (h : Whole c) : Whole (exec enterLoop c) := h.congr rfl rfl

theorem leave (h : Whole c') (c : Compiler) (next : ℕ) : Whole (c.leave next c') := h.congr rfl rfl

/-! ### Statements and the ends of loops -/

theorem emitExit (h : Whole c) (e : Exit) : Whole (exec (emitExit e) c) := by
  rw [exec_emitExit]
  exact ((h.straight (straight_popHandlers c)).jumped (o := .jump) rfl).congr (by simp) (by simp)

theorem exit (h : Whole c) (hj : j ∈ c.audit.jumps)
    (herr : (exec (Slp.patchJump j) (exec (emitLoop c.loopStart) c)).error = none) :
    Whole (exec (emitOp .pop) (exec (Slp.patchJump j) (exec (emitLoop c.loopStart) c))) := by
  have hloop := straight_emitLoop (error_of_patchJump herr)
  exact ((h.straight hloop).patchJump (by rwa [hloop.audit]) herr).straight
    (straight_emitOp .pop rfl _)

theorem endWhile (h : Whole c) (hw : Weak c) (hj : j ∈ c.audit.jumps)
    (herr : (exec (endWhile j) c).error = none) : Whole (exec (Slp.endWhile j) c) := by
  rw [exec_endWhile] at herr ⊢
  have herrp := error_of_patchContinues herr
  have herre := error_of_patchBreaks herrp
  rw [error_emitOp] at herre
  -- the arrays still hold placeholders only
  have hk := (Keeps.refl hw [j]).exit hw hj (.inl (List.mem_singleton_self j)) herre
  have hb := hk.patchBreaks hw herrp
  exact ((h.exit hj herre).patchBreaks hk.weak herrp).patchContinues hb.weak herr

theorem endFor (h : Whole c) (hw : Weak c) (hj : j ∈ c.audit.jumps)
    (herr : (exec (endFor j next) c).error = none) : Whole (exec (Slp.endFor j next) c) := by
  rw [exec_endFor] at herr ⊢
  have herrp := error_of_patchBreaks herr
  rw [error_writeContinues, error_emitOp] at herrp
  have hk := (Keeps.refl hw [j]).exit hw hj (.inl (List.mem_singleton_self j)) herrp
  have hc := hk.writeContinues hw next
  exact ((h.exit hj herrp).writeContinues hk.weak next).patchBreaks hc.weak herr

theorem endForever (h : Whole c) (hw : Weak c) (herr : (exec (endForever next) c).error = none) :
    Whole (exec (Slp.endForever next) c) := by
  rw [exec_endForever] at herr ⊢
  have herrp := error_of_patchBreaks herr
  rw [error_writeContinues] at herrp
  have hloop := straight_emitLoop herrp
  have hk := (Keeps.refl hw []).straight hloop
  have hc := hk.writeContinues hw next
  exact ((h.straight hloop).writeContinues hk.weak next).patchBreaks hc.weak herr

theorem endForeach (h : Whole c) (hw : Weak c) (hj : j ∈ c.audit.jumps)
    (herr : (exec (endForeach j) c).error = none) : Whole (exec (Slp.endForeach j) c) := by
  rw [exec_endForeach] at herr ⊢
  have herrj := error_of_patchBreaks herr
  have herrl := error_of_patchJump herrj
  have herrc := error_of_emitLoop herrl
  have hloop := straight_emitLoop herrl
  have hk := (Keeps.refl hw [j]).patchContinues hw herrc
  have hmem : j ∈ (exec (emitLoop (exec Slp.patchContinues c).loopStart)
      (exec Slp.patchContinues c)).audit.jumps := by
    rw [hloop.audit]
    exact hk.jumps j hj
  have hl := (hk.straight hloop).patchJump hw hmem (.inl (List.mem_singleton_self j)) herrj
  exact (((h.patchContinues hw herrc).straight hloop).patchJump hmem herrj).patchBreaks hl.weak
    herr

end Whole

/-- A shape writes whole instructions. -/
theorem whole_emit (s : Shape) {c : Compiler} (h : Whole c) (hw : Weak c)
    (herr : (exec s.emit c).error = none) : Whole (exec s.emit c) := by
  induction s generalizing c with
  | seq a b iha ihb =>
    rw [exec_seq] at herr ⊢
    have herra := error_of_emit b herr
    exact ihb (iha h hw herra) (keeps_emit a hw herra).weak herr
  | guard o ho a ih =>
    rw [exec_guard] at herr ⊢
    have herra := error_of_patchJump herr
    have hk := keeps_emit a (hw.jumped o) herra
    exact (ih (h.jumped ho) (hw.jumped o) herra).patchJump
      (hk.jumps _ (mem_jumps_jumped c o)) herr
  | branch o ho a b iha ihb =>
    rw [exec_branch] at herr ⊢
    have herrb := error_of_patchJump herr
    have herrj := error_of_emit b herrb
    have herra := error_of_patchJump herrj
    rw [error_jumped] at herra
    have hk := keeps_emit a (hw.jumped o) herra
    have hmem : c.code.length + 1 ∈ ((exec a.emit (c.jumped o)).jumped .jump).audit.jumps :=
      List.mem_append_left _ (hk.jumps _ (mem_jumps_jumped c o))
    have hj := ((iha (h.jumped ho) (hw.jumped o) herra).jumped (o := .jump) rfl).patchJump hmem
      herrj
    have hwj : Weak (exec (patchJump (c.code.length + 1))
        ((exec a.emit (c.jumped o)).jumped .jump)) := by
      rw [(patchJump_ok herrj).1]
      exact (hk.weak.jumped .jump).patched _ _
    -- the jump over `b` is still there after `b`
    have hmem' : (exec a.emit (c.jumped o)).code.length + 1 ∈
        (exec (patchJump (c.code.length + 1))
          ((exec a.emit (c.jumped o)).jumped .jump)).audit.jumps := by
      rw [(patchJump_ok herrj).1]
      exact mem_jumps_jumped _ .jump
    exact (ihb hj hwj herrb).patchJump ((keeps_emit b hwj herrb).jumps _ hmem') herr
  | inTry a ih =>
    rw [exec_inTry] at herr ⊢
    have hs := straight_tryDepth c (c.tryDepth + 1)
    exact (ih (h.straight hs) (hw.of_straight hs) herr).straight (straight_tryDepth _ _)
  | brk =>
    rw [exec_brk]
    split
    · exact h.emitExit .brk
    · exact h
  | cont =>
    rw [exec_cont]
    split
    · exact h.emitExit .cont
    · exact h
  | whileLoop o ho head body ihh ihb =>
    rw [exec_whileLoop, error_leave] at herr
    rw [exec_whileLoop]
    have herrb := error_of_endWhile herr
    have herrh := error_of_emit body herrb
    rw [error_emitOp, error_jumped] at herrh
    have hpop := straight_emitOp .pop rfl ((exec head.emit (exec enterLoop c)).jumped o)
    have hwb := ((keeps_emit head hw.enterLoop herrh).weak.jumped o).of_straight hpop
    have hb := ihb (((ihh h.enterLoop hw.enterLoop herrh).jumped ho).straight hpop) hwb herrb
    have hk := keeps_emit body hwb herrb
    exact (hb.endWhile hk.weak (hk.jumps _ (mem_jumps_jumped _ o)) herr).leave c _
  | forLoop head body step ihh ihb ihs =>
    rw [exec_forLoop, error_leave] at herr
    rw [exec_forLoop]
    have herrs := error_of_endFor herr
    have herrb := error_of_emit step herrs
    have herrh := error_of_emit body herrb
    rw [error_emitOp, error_jumped] at herrh
    have hpop := straight_emitOp .pop rfl ((exec head.emit (exec enterLoop c)).jumped .jumpIfFalse)
    have hwb := ((keeps_emit head hw.enterLoop herrh).weak.jumped .jumpIfFalse).of_straight hpop
    have hb := ihb (((ihh h.enterLoop hw.enterLoop herrh).jumped rfl).straight hpop) hwb herrb
    have hk := keeps_emit body hwb herrb
    have hks := keeps_emit step hk.weak herrs
    exact ((ihs hb hk.weak herrs).endFor hks.weak
      (hks.jumps _ (hk.jumps _ (mem_jumps_jumped _ .jumpIfFalse))) herr).leave c _
  | foreverLoop body step ihb ihs =>
    rw [exec_foreverLoop, error_leave] at herr
    rw [exec_foreverLoop]
    have herrs := error_of_endForever herr
    have herrb := error_of_emit step herrs
    have hk := keeps_emit body hw.enterLoop herrb
    exact ((ihs (ihb h.enterLoop hw.enterLoop herrb) hk.weak herrs).endForever
      (keeps_emit step hk.weak herrs).weak herr).leave c _
  | foreachLoop o ho body ih =>
    rw [exec_foreachLoop, error_emitOp, error_emitOp, error_leave] at herr
    rw [exec_foreachLoop]
    have herrb := error_of_endForeach herr
    have hb := ih (h.enterLoop.jumped ho) (hw.enterLoop.jumped o) herrb
    have hk := keeps_emit body (hw.enterLoop.jumped o) herrb
    have hend := hb.endForeach hk.weak (hk.jumps _ (mem_jumps_jumped _ o)) herr
    exact ((hend.leave c _).straight (straight_emitOp .pop rfl _)).straight
      (straight_emitOp .pop rfl _)
  | _ => exact h.straight (straight_of_leaf c trivial)

/-- The code of a function is made of whole instructions. -/
theorem whole_compileBody {enclosing : List (List (Option Bytes))} {replMode inlineBody : Bool}
    {body : Node} (herr : (compileBody enclosing replMode inlineBody body).error = none) :
    Whole (compileBody enclosing replMode inlineBody body) := by
  rw [compileBody_eq] at herr ⊢
  have hinit : Whole (Compiler.init enclosing replMode inlineBody) :=
    ⟨.zero, fun j hj => absurd hj List.not_mem_nil⟩
  have hbody := whole_emit (shape body) hinit (weak_init enclosing replMode inlineBody) herr
  exact (hbody.straight (straight_emitOp .pushNull rfl _)).straight
    (straight_emitOp .return rfl _)

/-! ### The constants -/

/-- Every chunk of the constant is made of whole instructions. -/
def Constant.Sound (v : Constant) : Prop := ∀ code, ChunkOf v code → Boundary code code.length

/-- The constants of the compiler are sound. -/
def SoundPool (c : Compiler) : Prop := ∀ v ∈ c.constants, v.Sound

theorem Constant.sound_string (s : Bytes) : (Constant.string s).Sound := fun _ h => by cases h

theorem Constant.sound_num (v : ℚ) : (Constant.num v).Sound := fun _ h => by cases h

theorem Constant.sound_double (v : ℚ) : (Constant.double v).Sound := fun _ h => by cases h

theorem Constant.sound_long (v : ℤ) : (Constant.long v).Sound := fun _ h => by cases h

attribute [simp] Constant.sound_string Constant.sound_num Constant.sound_double
  Constant.sound_long

theorem Constant.sound_function {c : Compiler} (h : Boundary c.code c.code.length)
    (hpool : SoundPool c) (name : Option Bytes) :
    (Constant.function c.code c.constants name).Sound := by
  intro code hcode
  cases hcode with
  | own => exact h
  | inner hf hin => exact hpool _ hf _ hin

namespace SoundPool

variable {c c' : Compiler}

theorem congr (h : SoundPool c) (heq : c'.constants = c.constants) : SoundPool c' := by
  rw [SoundPool, heq]
  exact h

theorem addConstant (h : SoundPool c) {v : Constant} (hv : v.Sound) :
    SoundPool (exec (addConstant v) c) := by
  simp only [Slp.addConstant, exec_bind, result_get, exec_get]
  split
  · exact h
  · intro w hw
    rcases List.mem_append.1 hw with hw | hw
    · exact h w hw
    · rw [List.mem_singleton.1 hw]
      exact hv

theorem makeConstant (h : SoundPool c) {v : Constant} (hv : v.Sound) :
    SoundPool (exec (makeConstant v) c) := by
  simp only [Slp.makeConstant, exec_bind]
  split
  · exact (h.addConstant hv).congr rfl
  · exact h.addConstant hv

theorem constant (h : SoundPool c) {v : Constant} (hv : v.Sound) :
    SoundPool (exec (do emitShort (← Slp.makeConstant v)) c) :=
  (h.makeConstant hv).congr rfl

theorem operands (h : SoundPool c) {xs : List Operand} (hxs : ∀ v, .const v ∈ xs → v.Sound) :
    SoundPool (exec (Shape.emitOperands xs) c) := by
  induction xs generalizing c with
  | nil => exact h
  | cons x rest ih =>
    have hrest : ∀ v, .const v ∈ rest → v.Sound := fun v hv => hxs v (List.mem_cons_of_mem x hv)
    cases x with
    | byte b => exact ih (h.congr rfl) hrest
    | short v => exact ih (h.congr rfl) hrest
    | const v => exact ih (h.constant (hxs v List.mem_cons_self)) hrest

theorem namedVariable (h : SoundPool c) (name : Bytes) (assign : Bool) :
    SoundPool (exec (namedVariable name assign) c) := by
  simp only [Slp.namedVariable, exec_bind, result_get, exec_get]
  split
  · split <;> exact h.congr rfl
  · exact (h.addConstant (Constant.sound_string name)).congr rfl

theorem referenceVariable (h : SoundPool c) (name : Bytes) :
    SoundPool (exec (referenceVariable name) c) := by
  simp only [Slp.referenceVariable, exec_bind, result_get, exec_get]
  split
  · exact h.congr rfl
  · exact (h.makeConstant (Constant.sound_string name)).congr rfl

end SoundPool

/-! ### What leaves the constants alone -/

@[simp] theorem constants_jumped (c : Compiler) (o : Opcode) :
    (c.jumped o).constants = c.constants := rfl

theorem constants_emitOp (o : Opcode) (c : Compiler) :
    (exec (emitOp o) c).constants = c.constants := rfl

@[simp] theorem constants_leave (outer c : Compiler) (next : ℕ) :
    (outer.leave next c).constants = c.constants := rfl

@[simp] theorem constants_enterLoop (c : Compiler) :
    (exec enterLoop c).constants = c.constants := rfl

@[simp] theorem constants_patchJump (j : ℕ) (c : Compiler) :
    (exec (patchJump j) c).constants = c.constants := by
  rw [exec_patchJump]
  split <;> rfl

@[simp] theorem constants_emitLoop (l : ℤ) (c : Compiler) :
    (exec (emitLoop l) c).constants = c.constants := by
  rw [exec_emitLoop]
  split <;> rfl

theorem constants_forM_patchJump (js : List ℕ) (c : Compiler) :
    (exec (js.forM patchJump) c).constants = c.constants := by
  induction js generalizing c with
  | nil => rfl
  | cons j js ih => exact (ih _).trans (constants_patchJump j c)

@[simp] theorem constants_patchBreaks (c : Compiler) :
    (exec patchBreaks c).constants = c.constants :=
  constants_forM_patchJump c.breakJumps.live c

@[simp] theorem constants_patchContinues (c : Compiler) :
    (exec patchContinues c).constants = c.constants :=
  constants_forM_patchJump c.continueJumps.live c

@[simp] theorem constants_writeContinues (t : ℕ) (c : Compiler) :
    (exec (writeContinues t) c).constants = c.constants := by
  rw [exec_writeContinues, Compiler.patchedAll_eq]

theorem constants_popHandlers (c : Compiler) :
    (exec popHandlers c).constants = c.constants := by
  simp only [popHandlers, exec_bind, result_get, exec_get]
  generalize c.tryDepth - c.loopTryDepth = n
  induction n generalizing c with
  | zero => rfl
  | succ n ih => exact ih (exec (emitOp .popHandler) c)

theorem constants_emitExit (e : Exit) (c : Compiler) :
    (exec (emitExit e) c).constants = c.constants := by
  rw [exec_emitExit]
  cases e <;> exact constants_popHandlers c

namespace Shape

/-- The constants of the instructions are sound, and so are the functions of the closures. -/
def Pooled : Shape → Prop
  | .op _ operands _ => ∀ v, .const v ∈ operands → v.Sound
  | .closure keyword body => ∀ (enclosing : List (List (Option Bytes))) (replMode inlineBody : Bool),
    (runBody enclosing replMode inlineBody body).error = none →
      (Constant.function (runBody enclosing replMode inlineBody body).code
        (runBody enclosing replMode inlineBody body).constants keyword).Sound
  | .seq a b | .branch _ _ a b | .whileLoop _ _ a b | .foreverLoop a b => a.Pooled ∧ b.Pooled
  | .guard _ _ a | .inTry a | .foreachLoop _ _ a => a.Pooled
  | .forLoop a b s => a.Pooled ∧ b.Pooled ∧ s.Pooled
  | _ => True

end Shape

theorem SoundPool.emitClosure {c : Compiler} {keyword : Option Bytes} {body : Emit Unit}
    (h : SoundPool c) (hs : (Shape.closure keyword body).Pooled)
    (herr : (exec (emitClosure keyword body) c).error = none) :
    SoundPool (exec (emitClosure keyword body) c) := by
  have hsub := hs (c.locals :: c.enclosing) c.replMode (keyword = some (ascii "inline"))
  simp only [Slp.emitClosure, exec_bind, result_get, exec_get] at herr ⊢
  cases hnone : (runBody (c.locals :: c.enclosing) c.replMode
      (keyword = some (ascii "inline")) body).error with
  | none =>
    have hop : SoundPool (exec (emitOp .closure) c) := h.congr rfl
    exact hop.constant (hsub hnone)
  | some message =>
    -- the error of the body is an error of this function
    rw [hnone] at herr
    exact absurd ((straight_emitWith .closure rfl _ _).error herr) (exec_compilerError_error _ _)

/-- A shape keeps the constants sound. -/
theorem soundPool_emit (s : Shape) {c : Compiler} (hs : s.Pooled) (h : SoundPool c)
    (herr : (exec s.emit c).error = none) : SoundPool (exec s.emit c) := by
  induction s generalizing c with
  | seq a b iha ihb =>
    rw [exec_seq] at herr ⊢
    exact ihb hs.2 (iha hs.1 h (error_of_emit b herr)) herr
  | guard o ho a ih =>
    rw [exec_guard] at herr ⊢
    exact (ih hs (h.congr (constants_jumped c o)) (error_of_patchJump herr)).congr (by simp)
  | branch o ho a b iha ihb =>
    rw [exec_branch] at herr ⊢
    have herrb := error_of_patchJump herr
    have herra := error_of_patchJump (error_of_emit b herrb)
    have ha := iha hs.1 (h.congr (constants_jumped c o)) herra
    exact (ihb hs.2 (ha.congr (by simp)) herrb).congr (by simp)
  | inTry a ih =>
    rw [exec_inTry] at herr ⊢
    have ha := ih (c := { c with tryDepth := c.tryDepth + 1 }) hs (h.congr rfl) herr
    exact ha.congr rfl
  | brk =>
    rw [exec_brk]
    split
    · exact h.congr (constants_emitExit .brk c)
    · exact h
  | cont =>
    rw [exec_cont]
    split
    · exact h.congr (constants_emitExit .cont c)
    · exact h
  | whileLoop o ho head body ihh ihb =>
    rw [exec_whileLoop, error_leave] at herr
    rw [exec_whileLoop]
    have herrb := error_of_endWhile herr
    have herrh := error_of_emit body herrb
    rw [error_emitOp, error_jumped] at herrh
    have hh := ihh hs.1 (h.congr (constants_enterLoop c)) herrh
    exact (ihb hs.2 (hh.congr (by simp)) herrb).congr (by simp [exec_endWhile])
  | forLoop head body step ihh ihb ihs =>
    rw [exec_forLoop, error_leave] at herr
    rw [exec_forLoop]
    have herrs := error_of_endFor herr
    have herrb := error_of_emit step herrs
    have herrh := error_of_emit body herrb
    rw [error_emitOp, error_jumped] at herrh
    have hh := ihh hs.1 (h.congr (constants_enterLoop c)) herrh
    have hb := ihb hs.2.1 (hh.congr (by simp)) herrb
    exact (ihs hs.2.2 hb herrs).congr (by simp [exec_endFor])
  | foreverLoop body step ihb ihs =>
    rw [exec_foreverLoop, error_leave] at herr
    rw [exec_foreverLoop]
    have herrs := error_of_endForever herr
    have hb := ihb hs.1 (h.congr (constants_enterLoop c)) (error_of_emit step herrs)
    exact (ihs hs.2 hb herrs).congr (by simp [exec_endForever])
  | foreachLoop o ho body ih =>
    rw [exec_foreachLoop, error_emitOp, error_emitOp, error_leave] at herr
    rw [exec_foreachLoop]
    have hin : SoundPool ((exec enterLoop c).jumped o) := h.congr (constants_enterLoop c)
    refine (ih hs hin (error_of_endForeach herr)).congr ?_
    rw [constants_emitOp, constants_emitOp, constants_leave, exec_endForeach, constants_patchBreaks, constants_patchJump, constants_emitLoop,
      constants_patchContinues]
  | skip => exact h
  | fail message => exact h.congr rfl
  | op o operands ho =>
    have hop : SoundPool (exec (emitOp o) c) := h.congr rfl
    exact hop.operands hs
  | var name assign => exact h.namedVariable name assign
  | reference name => exact h.referenceVariable name
  | ret => exact h.congr rfl
  | endStatement script last => exact h.congr rfl
  | closure keyword body => exact h.emitClosure hs herr

/-! ### Syntax nodes -/

theorem sound_compileBody {enclosing : List (List (Option Bytes))} {replMode inlineBody : Bool}
    {body : Node} (hbody : (shape body).Pooled)
    (herr : (compileBody enclosing replMode inlineBody body).error = none) (name : Option Bytes) :
    (Constant.function (compileBody enclosing replMode inlineBody body).code
      (compileBody enclosing replMode inlineBody body).constants name).Sound := by
  refine Constant.sound_function (whole_compileBody herr).boundary ?_ name
  rw [compileBody_eq] at herr ⊢
  have hinit : SoundPool (Compiler.init enclosing replMode inlineBody) :=
    fun v hv => absurd hv List.not_mem_nil
  exact (soundPool_emit (shape body) hbody hinit herr).congr rfl

namespace Shape

theorem pooled_op1 (o : Opcode) (h : o.length = 1) : (op1 o h).Pooled :=
  fun _ hv => absurd hv List.not_mem_nil

theorem pooled_opByte (o : Opcode) (b : UInt8) (h : o.length = 2) : (opByte o b h).Pooled := by
  intro v hv
  cases List.mem_singleton.1 hv

theorem pooled_opConst (o : Opcode) (v : Constant) (h : o.length = 3) :
    (opConst o v h).Pooled ↔ v.Sound := by
  simp [opConst, Pooled]

attribute [local simp] pooled_op1 pooled_opByte pooled_opConst Pooled all

theorem pooled_assignmentOperation (op : TokenType) : (assignmentOperation op).Pooled := by
  unfold assignmentOperation
  split <;> simp

theorem pooled_unaryOperation (op : Token) : (unaryOperation op).Pooled := by
  unfold unaryOperation
  split <;> simp

theorem pooled_step (op : TokenType) : (step op).Pooled := by
  unfold step
  split <;> simp

theorem pooled_tupleElement (op : TokenType) (single : Bool) (i : ℕ) (element : Node) :
    (tupleElement op single i element).Pooled := by
  unfold tupleElement
  cases element.assignedName? with
  | none => trivial
  | some name =>
    dsimp only
    split
    · simp
    · split <;> simp

theorem pooled_tupleElements (op : TokenType) (single : Bool) :
    ∀ es, (tupleElements op single es).Pooled
  | [] => trivial
  | (element, i) :: rest =>
    ⟨pooled_tupleElement op single i element, pooled_tupleElements op single rest⟩

theorem pooled_reverse (count : ℕ) : (reverse count).Pooled := by
  unfold reverse
  split <;> simp

theorem pooled_register (keyword identifier : Option Bytes) :
    (register keyword identifier).Pooled := by
  cases keyword <;> cases identifier <;> simp [register]

theorem pooled_importOp (target path : Option Bytes) : (importOp target path).Pooled := by
  cases target <;> cases path <;> simp [importOp]

theorem pooled_storeForeach (name : Bytes) : (storeForeach name).Pooled := by
  simp [storeForeach]

theorem pooled_failAbove (count : ℕ) (message : String) : (failAbove count message).Pooled := by
  unfold failAbove
  split <;> simp

end Shape

section

open Shape

attribute [local simp] Shape.Pooled Shape.all pooled_op1 pooled_opByte pooled_opConst
  pooled_assignmentOperation pooled_unaryOperation pooled_step pooled_tupleElements
  pooled_reverse pooled_register pooled_importOp pooled_storeForeach pooled_failAbove

theorem pooled_binop {token : Token} {negate : Bool} {left right : Node}
    (hl : (shape left).Pooled) (hr : (shape right).Pooled) :
    (shape (.binop token negate left right)).Pooled := by
  obtain ⟨type, text⟩ := token
  cases type <;> cases negate <;> simp [shape, hl, hr]

theorem pooled_call {target : Node} {args : List Node} (ht : (shape target).Pooled)
    (ha : (shapeReversed args).Pooled)
    (hat : ∀ absent : Shape, absent.Pooled → ∀ k, (shapeArgumentAt absent args k).Pooled) :
    (shape (.call target args)).Pooled := by
  have h0 := hat skip trivial 0
  have h1 := hat (opConst .pushConst (.num 1)) (by simp) 1
  have h2 := hat (op1 .pushNull) (by simp) 2
  by_cases hiff : isIffCall target
  · by_cases hargs : args.isEmpty
    · simp [shape, hiff, hargs]
    · by_cases hp : Node.assertConditionIsPredicate (args.head?.map Node.argumentValue) <;>
        simp [shape, hiff, hargs, hp, h0, h1, h2]
  · cases hid : target.identifier? <;> simp [shape, hiff, hid, ht, ha]

theorem pooled_arg {name : Option Node} {value : Node} (hn : (shapeOr skip name).Pooled)
    (hv : (shape value).Pooled) : (shape (.arg name value)).Pooled := by
  cases hp : passedByName? name value with
  | some s => simp [shape, hp]
  | none =>
    cases hna : name.bind Node.assignedName? <;> cases hva : value.variableName? <;>
      by_cases hs : name.isSome <;> simp [shape, hp, hna, hva, hs, hn, hv]

theorem pooled_objExpr {target : Node} {message : Option Node} {args : List Node}
    (ht : (shape target).Pooled) (hm : (shapeOr skip message).Pooled)
    (ha : (shapeReversed args).Pooled) : (shape (.objExpr target message args)).Pooled := by
  cases hid : target.identifier? <;> cases hmid : message.bind Node.identifier? <;>
    by_cases hs : message.isSome <;> simp [shape, hid, hmid, hs, ht, hm, ha]

mutual

/-- The only functions among the constants are those of closures. -/
theorem pooled_shape : ∀ n, (shape n).Pooled
  | .script statements => by
    simp only [shape, pooled_shapeStatements]
  | .block statements => by
    simp only [shape, pooled_shapeStatements]
  | .boolean b => by
    cases b <;> simp [shape]
  | .null => by
    simp [shape]
  | .number isDouble v => by
    cases isDouble <;> simp [shape]
  | .long v => by
    simp [shape]
  | .string s => by
    simp [shape]
  | .align width value => by
    simp [shape, pooled_shape width, pooled_shape value]
  | .scalar s => by
    simp [shape]
  | .array s => by
    simp [shape]
  | .hashtable s => by
    simp [shape]
  | .identifier s => by
    simp [shape]
  | .binop _ _ left right => pooled_binop (pooled_shape left) (pooled_shape right)
  | .unaryop token operand punned => by
    have ho := pooled_shape operand
    simp only [shape]
    split
    · cases operand.stepName? punned <;> simp [ho]
    · simp [ho]
  | .assignment type left right => by
    have hr := pooled_shape right
    cases left with
    | index container element =>
      have hc := pooled_shapeContainer (Node.autovivifyKind container) container
        (shape container) (pooled_shape container)
      have he := pooled_shape element
      by_cases hop : type = .equal <;> simp [shape, hc, he, hr, hop]
    | lvalueTuple elements => simp [shape, hr]
    | _ =>
      by_cases hop : type = .equal <;> simp [shape, Node.assignedName?, Node.variableName?, hr, hop]
  | .ifStmt condition thenBranch elseBranch => by
    simp [shape, pooled_shape condition, pooled_shape thenBranch,
      pooled_shapeOr skip trivial elseBranch]
  | .whileStmt condition body => by
    simp [shape, pooled_shape condition, pooled_shape body]
  | .forStmt initializer condition increment body => by
    have hi := pooled_shapePopped initializer
    have hs := pooled_shapePopped increment
    have hb := pooled_shape body
    cases condition with
    | none => simp [shape, hi, hs, hb]
    | some condition => simp [shape, hi, hs, hb, pooled_shape condition]
  | .foreachStmt index value generator body => by
    cases index <;> simp [shape, pooled_shape generator, pooled_shape body]
  | .assignLoop value generator body => by
    simp [shape, pooled_shape generator, pooled_shape body]
  | .call target args =>
    pooled_call (pooled_shape target) (pooled_shapeReversed args) fun absent h =>
      pooled_shapeArgumentAt absent h args
  | .arg name value => pooled_arg (pooled_shapeOr skip trivial name) (pooled_shape value)
  | .index container element => by
    simp [shape, pooled_shape container, pooled_shape element]
  | .objExpr target message args =>
    pooled_objExpr (pooled_shape target) (pooled_shapeOr skip trivial message)
      (pooled_shapeReversed args)
  | .envBridge keyword identifier body => by
    -- the body is compiled by a compiler of its own
    have hbody := pooled_shape body
    simp only [shape, Pooled, pooled_register, and_true]
    exact fun enclosing replMode inlineBody herr => sound_compileBody hbody herr keyword
  | .tryCatch body value handler => by
    have hb := pooled_shape body
    have hh := pooled_shapeOr (op1 .pushNull) (by simp) handler
    cases value <;> simp [shape, hb, hh]
  | .returnStmt value => by
    simp [shape, pooled_shapeOr (op1 .pushNull) (by simp) value]
  | .throwStmt value => by
    simp [shape, pooled_shapeOr (op1 .pushNull) (by simp) value]
  | .assertStmt value message => by
    have hv := pooled_shapeOr (op1 .pushNull) (by simp) value
    have hm := pooled_shapeOr (opConst .pushConst (.string (ascii "assertion failed"))) (by simp)
      message
    by_cases h : Node.assertConditionIsPredicate value
    · by_cases h' : Node.conditionIsExplicitPredicate value <;> simp [shape, hv, hm, h, h']
    · simp [shape, hm, h]
  | .yieldStmt value => by
    simp [shape, pooled_shapeOr (op1 .pushNull) (by simp) value]
  | .breakStmt => by
    simp [shape]
  | .continueStmt => by
    simp [shape]
  | .halt => by
    simp [shape]
  | .done => by
    simp [shape]
  | .callcc value => by
    simp [shape, pooled_shapeOr skip trivial value]
  | .localStmt value => by
    have hv := pooled_shapeOr (op1 .pushNull) (by simp) value
    by_cases h : value.isSome <;> simp [shape, hv, h]
  | .thisStmt value => by
    have hv := pooled_shapeOr (op1 .pushNull) (by simp) value
    by_cases h : value.isSome <;> simp [shape, hv, h]
  | .importStmt target path => by
    simp [shape]
  | .backtick s => by
    simp [shape]
  | .classLiteral s => by
    simp [shape]
  | .address s => by
    simp [shape]
  | .lvalueTuple elements => by
    simp [shape, pooled_shapeAll elements]
  | .nop => by
    simp [shape]

theorem pooled_shapeOr (absent : Shape) (h : absent.Pooled) : ∀ n, (shapeOr absent n).Pooled
  | none => by simpa only [shapeOr] using h
  | some n => by simpa only [shapeOr] using pooled_shape n

theorem pooled_shapeStatements (script : Bool) : ∀ ns, (shapeStatements script ns).Pooled
  | [] => by simp [shapeStatements]
  | n :: rest => by
    have hn := pooled_shape n
    have hr := pooled_shapeStatements script rest
    by_cases h : n.leavesNothing <;> simp [shapeStatements, hn, hr, h]

theorem pooled_shapeAll : ∀ ns, (shapeAll ns).Pooled
  | [] => by simp [shapeAll]
  | n :: rest => by simp [shapeAll, pooled_shape n, pooled_shapeAll rest]

theorem pooled_shapePopped : ∀ ns, (shapePopped ns).Pooled
  | [] => by simp [shapePopped]
  | n :: rest => by simp [shapePopped, pooled_shape n, pooled_shapePopped rest]

theorem pooled_shapeReversed : ∀ ns, (shapeReversed ns).Pooled
  | [] => by simp [shapeReversed]
  | n :: rest => by simp [shapeReversed, pooled_shape n, pooled_shapeReversed rest]

theorem pooled_shapeArgumentValue : ∀ (self : Shape) (n : Node), self.Pooled →
    (shapeArgumentValue self n).Pooled
  | self, n, h => by
    cases n with
    | arg name value => simpa only [shapeArgumentValue] using pooled_shape value
    | _ => simpa only [shapeArgumentValue] using h

theorem pooled_shapeArgumentAt (absent : Shape) (h : absent.Pooled) :
    ∀ ns k, (shapeArgumentAt absent ns k).Pooled
  | [], _ => by simpa only [shapeArgumentAt] using h
  | n :: _, 0 => by
    simp only [shapeArgumentAt]
    exact pooled_shapeArgumentValue _ n (pooled_shape n)
  | _ :: rest, k + 1 => by
    simp only [shapeArgumentAt]
    exact pooled_shapeArgumentAt absent h rest k

theorem pooled_shapeContainer (kind : UInt8) : ∀ (n : Node) (self : Shape), self.Pooled →
    (shapeContainer kind n self).Pooled
  | n, self, h => by
    cases n with
    | index container element =>
      simp [shapeContainer, pooled_shape element,
        pooled_shapeContainer kind container _ (pooled_shape container)]
    | _ => simpa only [shapeContainer] using h

end

end

/-- Every chunk that the compiler makes without an error is made of whole instructions. -/
theorem boundary_of_chunkOf {replMode : Bool} {ast : Node} {f : Constant} {code : List UInt8}
    (h : compileEx replMode ast = .ok f) (hcode : ChunkOf f code) : Boundary code code.length := by
  simp only [compileEx] at h
  cases herr : (compileBody [] replMode false ast).error with
  | none =>
    rw [herr] at h
    cases h
    exact sound_compileBody (pooled_shape ast) herr none code hcode
  | some message =>
    rw [herr] at h
    cases h

end Slp
