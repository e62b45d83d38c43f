import Slp.Compiler.Patching

/-!
# The compiler lays out the code of a shape

What a shape writes is the code of the shape once the open jumps are sent to where their loop wants
them (`lays_emit`).
-/

namespace Slp

open Activation (Argument Instruction argument fetch)

/-! ### What stays as it is -/

namespace Compiler

/-- What a piece leaves as it is: the setting, and the number of handlers. -/
def fixed (c : Compiler) : Setting × ℕ × ℕ := (c.setting, c.tryDepth, c.loopTryDepth)

end Compiler

section

variable (c : Compiler)

theorem fixed_emitOp (o : Opcode) : (exec (emitOp o) c).fixed = c.fixed := rfl

theorem fixed_jumped (o : Opcode) : (c.jumped o).fixed = c.fixed := rfl

theorem fixed_emitShort (v : ℤ) : (exec (emitShort v) c).fixed = c.fixed := by
  rw [exec_emitShort]
  rfl

theorem fixed_addConstant (v : Constant) : (exec (addConstant v) c).fixed = c.fixed := by
  rw [(run_addConstant v c).2]
  rfl

theorem fixed_makeConstant (v : Constant) : (exec (makeConstant v) c).fixed = c.fixed := by
  simp only [makeConstant, exec_bind]
  split
  · exact fixed_addConstant c v
  · exact fixed_addConstant c v

theorem fixed_operands (xs : List Operand) : (exec (Shape.emitOperands xs) c).fixed = c.fixed := by
  induction xs generalizing c with
  | nil => rfl
  | cons x xs ih =>
    refine (ih (exec x.emit c)).trans ?_
    cases x with
    | byte b => rfl
    | short v => exact fixed_emitShort c v
    | const v => exact (fixed_emitShort _ _).trans (fixed_makeConstant c v)

theorem fixed_emitWith (o : Opcode) (v : Constant) : (exec (emitWith o v) c).fixed = c.fixed :=
  (fixed_emitShort _ _).trans (fixed_makeConstant (exec (emitOp o) c) v)

theorem fixed_namedVariable (name : Bytes) (assign : Bool) :
    (exec (namedVariable name assign) c).fixed = c.fixed := by
  simp only [namedVariable, exec_bind, result_get, exec_get]
  split
  · split <;> rfl
  · simp only [exec_bind]
    exact (fixed_emitShort _ _).trans (fixed_addConstant c _)

theorem fixed_referenceVariable (name : Bytes) :
    (exec (referenceVariable name) c).fixed = c.fixed := by
  simp only [referenceVariable, exec_bind, result_get, exec_get]
  split
  · rfl
  · simp only [exec_bind]
    exact (fixed_emitShort _ _).trans (fixed_makeConstant c _)

theorem fixed_emitClosure (keyword : Option Bytes) (body : Emit Unit) :
    (exec (emitClosure keyword body) c).fixed = c.fixed := by
  simp only [emitClosure, exec_bind, result_get, exec_get]
  split
  · exact fixed_emitWith _ _ _
  · exact fixed_emitWith _ _ _

theorem fixed_patchJump (j : ℕ) : (exec (patchJump j) c).fixed = c.fixed := by
  rw [exec_patchJump]
  split <;> rfl

theorem fixed_forM_patchJump (js : List ℕ) : (exec (js.forM patchJump) c).fixed = c.fixed := by
  induction js generalizing c with
  | nil => rfl
  | cons j js ih => exact (ih (exec (patchJump j) c)).trans (fixed_patchJump c j)

theorem fixed_patchBreaks : (exec patchBreaks c).fixed = c.fixed := fixed_forM_patchJump c _

theorem fixed_patchContinues : (exec patchContinues c).fixed = c.fixed := fixed_forM_patchJump c _

theorem fixed_writeContinues (t : ℕ) : (exec (writeContinues t) c).fixed = c.fixed := by
  rw [exec_writeContinues, Compiler.patchedAll_eq]
  rfl

theorem fixed_emitLoop (l : ℤ) : (exec (emitLoop l) c).fixed = c.fixed := by
  rw [exec_emitLoop]
  split <;> rfl

theorem fixed_popHandlers : (exec popHandlers c).fixed = c.fixed := by
  simp only [popHandlers, exec_bind, result_get, exec_get]
  generalize c.tryDepth - c.loopTryDepth = n
  induction n generalizing c with
  | zero => rfl
  | succ n ih => exact ih (exec (emitOp .popHandler) c)

theorem fixed_emitExit (e : Exit) : (exec (emitExit e) c).fixed = c.fixed := by
  rw [exec_emitExit]
  cases e <;> exact fixed_popHandlers c

theorem fixed_exit (j : ℕ) :
    (exec (emitOp .pop) (exec (patchJump j) (exec (emitLoop c.loopStart) c))).fixed = c.fixed :=
  (fixed_emitOp _ _).trans ((fixed_patchJump _ j).trans (fixed_emitLoop c _))

theorem fixed_endWhile (j : ℕ) : (exec (endWhile j) c).fixed = c.fixed := by
  rw [exec_endWhile]
  exact (fixed_patchContinues _).trans ((fixed_patchBreaks _).trans (fixed_exit c j))

theorem fixed_endFor (j next : ℕ) : (exec (endFor j next) c).fixed = c.fixed := by
  rw [exec_endFor]
  exact (fixed_patchBreaks _).trans ((fixed_writeContinues _ _).trans (fixed_exit c j))

theorem fixed_endForever (next : ℕ) : (exec (endForever next) c).fixed = c.fixed := by
  rw [exec_endForever]
  exact (fixed_patchBreaks _).trans ((fixed_writeContinues _ _).trans (fixed_emitLoop c _))

theorem fixed_endForeach (j : ℕ) : (exec (endForeach j) c).fixed = c.fixed := by
  rw [exec_endForeach]
  exact (fixed_patchBreaks _).trans ((fixed_patchJump _ j).trans
    ((fixed_emitLoop _ _).trans (fixed_patchContinues c)))

/-- The end of a loop, back in the code around it. -/
theorem fixed_leave {c last : Compiler} (next : ℕ) (h : last.fixed = (exec enterLoop c).fixed) :
    (c.leave next last).fixed = c.fixed := by
  obtain ⟨hs, h⟩ := Prod.mk.inj h
  obtain ⟨ht, -⟩ := Prod.mk.inj h
  exact congrArg₂ Prod.mk hs (congrArg₂ Prod.mk ht rfl)

end

/-- Whatever is emitted. -/
theorem fixed_emit (s : Shape) (c : Compiler) : (exec s.emit c).fixed = c.fixed := by
  induction s generalizing c with
  | skip => rfl
  | fail m => rfl
  | op o xs h => exact fixed_operands (exec (emitOp o) c) xs
  | var name assign => exact fixed_namedVariable c name assign
  | reference name => exact fixed_referenceVariable c name
  | ret => rfl
  | endStatement script last => rfl
  | closure keyword body => exact fixed_emitClosure c keyword body
  | seq a b iha ihb => exact (ihb _).trans (iha c)
  | guard o h a ih =>
    rw [exec_guard]
    exact (fixed_patchJump _ _).trans ((ih _).trans (fixed_jumped c o))
  | branch o h a b iha ihb =>
    rw [exec_branch]
    exact (fixed_patchJump _ _).trans ((ihb _).trans ((fixed_patchJump _ _).trans
      ((fixed_jumped _ _).trans ((iha _).trans (fixed_jumped c o)))))
  | inTry a ih =>
    obtain ⟨hs, h⟩ := Prod.mk.inj (ih { c with tryDepth := c.tryDepth + 1 })
    obtain ⟨ht, hl⟩ := Prod.mk.inj h
    rw [exec_inTry]
    refine congrArg₂ Prod.mk hs (congrArg₂ Prod.mk ?_ hl)
    exact congrArg (· - 1) ht
  | brk =>
    rw [exec_brk]
    split
    · exact fixed_emitExit c .brk
    · rfl
  | cont =>
    rw [exec_cont]
    split
    · exact fixed_emitExit c .cont
    · rfl
  | whileLoop o h head body ihh ihb =>
    rw [exec_whileLoop]
    exact fixed_leave _ ((fixed_endWhile _ _).trans ((ihb _).trans ((fixed_emitOp _ _).trans
      ((fixed_jumped _ _).trans (ihh _)))))
  | forLoop head body step ihh ihb ihs =>
    rw [exec_forLoop]
    exact fixed_leave _ ((fixed_endFor _ _ _).trans ((ihs _).trans ((ihb _).trans
      ((fixed_emitOp _ _).trans ((fixed_jumped _ _).trans (ihh _))))))
  | foreverLoop body step ihb ihs =>
    rw [exec_foreverLoop]
    exact fixed_leave _ ((fixed_endForever _ _).trans ((ihs _).trans (ihb _)))
  | foreachLoop o h body ih =>
    rw [exec_foreachLoop]
    exact (fixed_emitOp _ _).trans ((fixed_emitOp _ _).trans (fixed_leave _
      ((fixed_endForeach _ _).trans ((ih _).trans (fixed_jumped _ o)))))

/-! ### One instruction -/

/-- What the operands of an instruction stand for in the table of the function. -/
theorem map_argument_accesses {cs table : List Constant} {ms : List Mention}
    (hpre : constantTable cs ms <+: table) (hlen : table.length ≤ 65536)
    (hraw : ∀ m ∈ ms, ∀ o k, m ≠ .raw o k) :
    (accesses cs ms).map (argument table) = ms.map Mention.argument := by
  induction ms generalizing cs with
  | nil => rfl
  | cons m ms ih =>
    have henter : m.enter cs <+: table := (prefix_constantTable _ ms).trans hpre
    have hat : ∀ v, insertConstant cs v <+: table →
        table[constantIndex cs v % 65536]? = some v := by
      intro v hv
      have hget := getElem?_of_insertConstant hv
      have hlt := (List.getElem?_eq_some_iff.1 hget).1
      rwa [Nat.mod_eq_of_lt (by omega)]
    rw [accesses, List.map_cons, List.map_cons, ih hpre fun n hn => hraw n (List.mem_cons_of_mem m hn)]
    refine congrArg (· :: _) ?_
    cases m with
    | slot i => rfl
    | constant o v checked => exact congrArg Argument.constant (hat v henter)
    | closure keyword sub => exact congrArg Argument.constant (hat _ henter)
    | raw o k => exact absurd rfl (hraw _ List.mem_cons_self o k)

theorem Boundary.listing {code : List UInt8} {p : ℕ} (h : Boundary code p)
    (hend : Boundary code code.length) : ∃ as, Listing code p as := by
  induction h with
  | zero => exact ⟨[], .zero⟩
  | next hp ho ih =>
    obtain ⟨as, has⟩ := ih
    exact ⟨_, has.next ho (hend.le_length (hp.next ho))⟩

namespace Shape

variable {x : Setting} {s : Shape} {o : Opcode} {c : Compiler}

/-- Only an import has an index that stands for nothing. -/
theorem ne_raw_of_mem_mentions (hs : s.Made) (hop : s.leafOp x = some o) (ho : o ≠ .importOp) :
    ∀ m ∈ s.mentions x.toSurroundings, ∀ o k, m ≠ .raw o k := by
  rintro m hm o' k rfl
  have himport : o' = .importOp := made_mentions x.toSurroundings hs _ hm
  cases s with
  | op o₁ xs h =>
    obtain rfl := Option.some.inj hop
    obtain ⟨operand, -, heq⟩ := List.mem_filterMap.1 hm
    cases operand with
    | byte b => cases heq
    | short v =>
      cases heq
      exact ho himport
    | const v => cases heq
  | var name assign =>
    simp only [mentions] at hm
    split at hm <;> cases List.mem_singleton.1 hm
  | reference name =>
    simp only [mentions] at hm
    split at hm <;> cases List.mem_singleton.1 hm
  | closure keyword body => cases List.mem_singleton.1 hm
  | ret => cases hm
  | endStatement script last => cases hm
  | _ => cases hop

/-- The one-byte operand is the first one. -/
theorem exists_byte_of_hasCount {xs : List Operand} (hs : o.Takes xs)
    (h : (xs.map Operand.size).sum + 1 = o.length) (hcount : o.hasCount) :
    ∃ b rest, xs = .byte b :: rest := by
  have hshort : ∀ y rest, xs = y :: rest → y.size = 2 → False := by
    rintro y rest rfl hy
    rw [List.map_cons, List.sum_cons, hy] at h
    have hone : 1 ∈ o.constantOperands := by
      rw [← hs.offsets]
      cases y with
      | byte b => cases hy
      | short v => exact List.mem_cons_self
      | const v => exact List.mem_cons_self
    cases o <;> first | exact absurd hcount (by decide) | exact absurd hone (by decide)
  cases xs with
  | nil =>
    have := Opcode.length_of_hasCount hcount
    simp at h
    omega
  | cons y rest =>
    cases y with
    | byte b => exact ⟨b, rest, rfl⟩
    | short v => exact (hshort _ _ rfl rfl).elim
    | const v => exact (hshort _ _ rfl rfl).elim

/-- A piece that is one instruction writes its opcode and the operands. -/
theorem exists_code (hs : s.Made) (hop : s.leafOp c.setting = some o) :
    ∃ bytes, (exec s.emit c).code = c.code ++ o.byte :: bytes ∧ bytes.length + 1 = o.length ∧
      (o.hasCount → bytes.head? = s.count?) := by
  have hone : ∀ o : Opcode, o.length = 1 → ∃ bytes, (exec (emitOp o) c).code = c.code ++ o.byte :: bytes ∧
      bytes.length + 1 = o.length ∧ (o.hasCount → bytes.head? = s.count?) := fun o ho =>
    ⟨[], rfl, ho.symm, fun hcount => by rw [Opcode.hasCount_of_length ho] at hcount; cases hcount⟩
  cases s with
  | op o₁ xs h =>
    obtain rfl := Option.some.inj hop
    obtain ⟨bytes, hcode, hlen⟩ := (appends_emitOperands xs (exec (emitOp o₁) c)).code
    refine ⟨bytes, ?_, by omega, fun hcount => ?_⟩
    · refine hcode.trans ?_
      rw [exec_emitOp, List.append_assoc, List.singleton_append]
    · obtain ⟨b, rest, rfl⟩ := exists_byte_of_hasCount hs h hcount
      obtain ⟨more, hmore, -⟩ :=
        (appends_emitOperands rest (exec (emitByte b) (exec (emitOp o₁) c))).code
      have heq : (exec (emitOp o₁) c).code ++ bytes = (exec (emitOp o₁) c).code ++ b :: more := by
        refine hcode.symm.trans (hmore.trans ?_)
        rw [exec_emitByte, List.append_assoc, List.singleton_append]
      rw [List.append_cancel_left heq]
      rfl
  | var name assign =>
    have hsetting : c.setting.locals = c.locals := rfl
    simp only [leafOp, variableOp, hsetting] at hop
    simp only [emit, namedVariable, exec_bind, result_get, exec_get]
    cases hl : resolveLocal c.locals name with
    | some i =>
      rw [hl] at hop
      dsimp only at hop ⊢
      cases hget : (if assign then storeLocalOps else loadLocalOps)[i]? with
      | some o₁ =>
        rw [hget] at hop
        obtain rfl := Option.some.inj hop
        exact hone o₁ (ofOpcode_localOps assign hget).2.1
      | none =>
        rw [hget] at hop
        obtain rfl := Option.some.inj hop
        cases assign <;> exact ⟨[UInt8.ofNat i], by simp, rfl, fun hcount => absurd hcount (by decide)⟩
    | none =>
      rw [hl] at hop
      obtain rfl := Option.some.inj hop
      obtain ⟨-, he⟩ := run_addConstant (.string name) c
      simp only [exec_bind, he, exec_emitOp, exec_emitShort]
      cases assign <;> exact ⟨_, by simp; rfl, rfl, fun hcount => absurd hcount (by decide)⟩
  | reference name =>
    have hsetting : c.setting.locals = c.locals := rfl
    simp only [leafOp, hsetting] at hop
    simp only [emit, referenceVariable, exec_bind, result_get, exec_get]
    cases hl : resolveLocal c.locals name with
    | some i =>
      rw [hl] at hop
      obtain rfl := Option.some.inj hop
      exact ⟨[UInt8.ofNat i], by simp, rfl, fun hcount => absurd hcount Bool.false_ne_true⟩
    | none =>
      rw [hl] at hop
      obtain rfl := Option.some.inj hop
      obtain ⟨bytes, hcode, hlen⟩ := (appends_makeConstant (.string name) c).code
      obtain rfl := List.length_eq_zero_iff.1 hlen
      rw [List.append_nil] at hcode
      simp only [exec_bind, exec_emitOp, exec_emitShort, hcode]
      exact ⟨_, by simp; rfl, rfl, fun hcount => absurd hcount Bool.false_ne_true⟩
  | ret =>
    obtain rfl := Option.some.inj hop
    refine hone _ ?_
    split <;> rfl
  | endStatement script last =>
    obtain rfl := Option.some.inj hop
    refine hone _ ?_
    split <;> rfl
  | closure keyword body =>
    obtain rfl := Option.some.inj hop
    have hwith : ∀ (v : Constant) (c' : Compiler), c'.code = c.code →
        ∃ bytes, (exec (emitWith .closure v) c').code = c.code ++ Opcode.closure.byte :: bytes ∧
          bytes.length + 1 = Opcode.closure.length ∧ (Opcode.closure.hasCount →
            bytes.head? = (Shape.closure keyword body).count?) := by
      intro v c' hcode
      obtain ⟨bytes, hbytes, hlen⟩ := (appends_constant v (exec (emitOp .closure) c')).code
      refine ⟨bytes, ?_, by rw [hlen]; rfl, fun hcount => absurd hcount (by decide)⟩
      refine hbytes.trans ?_
      rw [exec_emitOp, List.append_assoc, List.singleton_append, hcode]
    simp only [emit, emitClosure, exec_bind, result_get, exec_get]
    split
    · exact hwith _ _ rfl
    · exact hwith _ _ rfl
  | _ => cases hop

end Shape

/-! ### The final code -/

/-- The bytes from `p` to `q` are the same. -/
def AgreeOn (code code' : List UInt8) (p q : ℕ) : Prop := ∀ i, p ≤ i → i < q → code'[i]? = code[i]?

namespace AgreeOn

variable {code code' : List UInt8} {p q i k : ℕ} {o : Opcode}

theorem opcodeAt (h : AgreeOn code code' p q) (hi : p ≤ i) (hi' : i < q) :
    opcodeAt code' i = opcodeAt code i :=
  opcodeAt_congr (h i hi hi')

theorem readShort (h : AgreeOn code code' p q) (hi : p ≤ i) (hi' : i + 1 < q) :
    readShort code' i = readShort code i :=
  readShort_congr (h i hi (by omega)) (h (i + 1) (by omega) hi')

theorem jumpTarget (h : AgreeOn code code' p q) (hi : p ≤ i) (hi' : i + 1 < q) :
    jumpTarget code' i = jumpTarget code i :=
  jumpTarget_congr (h i hi (by omega)) (h (i + 1) (by omega) hi')

theorem takesBack (h : AgreeOn code code' p q) (hi : p ≤ i) (hi' : i + 2 < q)
    (hb : TakesBack code i k) : TakesBack code' i k := by
  refine ⟨⟨?_, ?_⟩, hb.2⟩
  · rw [h.opcodeAt hi (by omega)]
    exact hb.1.1
  · rw [h.readShort (by omega) (by omega)]
    exact hb.1.2

/-- The instruction that was written at the end of `c`. -/
theorem fetch {c c' : Compiler} {bytes : List UInt8} {ms : List Mention} {table : List Constant}
    (h : AgreeOn c'.code code' c.code.length c'.code.length)
    (hcode : c'.code = c.code ++ o.byte :: bytes) (hlen : bytes.length + 1 = o.length)
    (hc : Boundary c.code c.code.length) (hm : Mentions c c' ms) (htable : c'.constants <+: table)
    (hsmall : table.length ≤ 65536) (hraw : o ≠ .importOp → ∀ m ∈ ms, ∀ o k, m ≠ .raw o k) :
    Activation.fetch code' table c.code.length =
      some ⟨o, if o.hasCount then bytes.head? else none,
        if o = .importOp then [] else ms.map Mention.argument⟩ := by
  have hlong : c'.code.length = c.code.length + o.length := by
    rw [hcode, List.length_append, List.length_cons]
    omega
  have hop : Slp.opcodeAt code' c.code.length = some o := by
    rw [h.opcodeAt (Nat.le_refl _) (by have := o.length_pos; omega), hcode]
    exact opcodeAt_emit c.code o bytes
  have haccesses : accessesAt code' c.code.length o = accesses c.constants ms := by
    obtain ⟨as, has⟩ := hc.listing hc
    have hemit := has.emit o bytes hlen
    rw [← hcode] at hemit
    have heq := List.append_cancel_left (hemit.unique (hm.listing as has))
    rw [← heq]
    refine accessesAt_congr (fun hone => ?_) fun k hk => ?_
    · rw [List.getD_eq_getElem?_getD, List.getD_eq_getElem?_getD, h _ (by omega) (by omega)]
    · have := Opcode.constantOperands_le hk
      exact h.readShort (by omega) (by omega)
  have hcount : o.hasCount → code'[c.code.length + 1]? = bytes.head? := fun hcount => by
    have := Opcode.length_of_hasCount hcount
    rw [h _ (by omega) (by omega), hcode, List.getElem?_append_right (by omega), Nat.add_sub_cancel_left]
    cases bytes <;> rfl
  rw [Activation.fetch, hop, Option.map_some, haccesses]
  refine congrArg some ?_
  congr 1
  · split
    · next hc => exact hcount hc
    · rfl
  · split
    · rfl
    · next ho => exact map_argument_accesses (hm.constants ▸ htable) hsmall (hraw ho)

end AgreeOn

/-- Where a jump of an open statement is to go. -/
def Place.target (r : Place) : Exit → ℕ
  | .brk => r.brk
  | .cont => r.cont

/-- The code of the function, `code`, is what was written from `c` to `c'`, with the jumps of the
open statements sent to their places, and `table` has the constants. -/
structure Final (code : List UInt8) (table : List Constant) (r : Place) (c c' : Compiler) : Prop where
  agrees : ∀ i, c.code.length ≤ i → i < c'.code.length →
    (∀ e, ∀ j ∈ c'.openJumps e, i ≠ j ∧ i ≠ j + 1) → code[i]? = c'.code[i]?
  sent : ∀ e, ∀ j ∈ c'.openJumps e, c.code.length < j → jumpTarget code j = r.target e
  table : c'.constants <+: table

/-- A compiler that stands in a place, in the middle of a function. -/
structure Stands (r : Place) (c : Compiler) : Prop where
  inLoop : r.inLoop = c.inLoop
  depth : r.depth = c.tryDepth - c.loopTryDepth
  tries : c.loopTryDepth ≤ c.tryDepth

/-- The invariants of a compiler that are needed to go on. -/
structure Compiler.InOrder (c : Compiler) : Prop where
  core : Core c
  openOk : OpenOk c
  weak : Weak c

section

variable {code : List UInt8} {table : List Constant} {r : Place} {c c' c'' p last : Compiler}
  {js : List ℕ} {j : ℕ} {o : Opcode} {s : Shape}

theorem Final.restrict (h : Final code table r c c'') (ha : Alters js c' c'')
    (hp : c.code.length ≤ p.code.length)
    (hjs : ∀ j ∈ js, j + 2 ≤ p.code.length ∨ c'.code.length ≤ j) : Final code table r p c' where
  agrees i hi hi' hne := by
    have hlen := ha.length
    rw [h.agrees i (by omega) (by omega) fun e j hj => ?_]
    · refine ha.bytes i hi' fun j hj => ?_
      have := hjs j hj
      omega
    · rcases ha.new e j hj with hj | hj
      · exact hne e j hj
      · omega
  sent e j hj hlt := h.sent e j (ha.old e j hj) (by omega)
  table := ha.table.trans h.table

/-- Without new open statements the code is as it was written. -/
theorem Final.agree (h : Final code table r c c') (hc : Core c) (ho : OpenOk c)
    (hopen : ∀ e, c'.openJumps e = c.openJumps e) :
    AgreeOn c'.code code c.code.length c'.code.length := fun i hi hi' => by
  refine h.agrees i hi hi' fun e j hj => ?_
  rw [hopen] at hj
  have := (hc.le_length (ho.mem_jumps e j hj)).2
  omega

theorem Stands.congr (h : Stands r c) (hf : c'.fixed = c.fixed) (hl : c'.loopStart = c.loopStart) :
    Stands r c' := by
  obtain ⟨-, hf⟩ := Prod.mk.inj hf
  obtain ⟨ht, hlt⟩ := Prod.mk.inj hf
  exact ⟨by rw [h.inLoop, Compiler.inLoop, Compiler.inLoop, hl], by rw [h.depth, ht, hlt],
    by rw [ht, hlt]; exact h.tries⟩

theorem setting_eq (h : c'.fixed = c.fixed) : c'.setting = c.setting := (Prod.mk.inj h).1

theorem Fits.congr (h : Fits s c) (hl : c'.loopStart = c.loopStart)
    (hopen : ∀ e, c'.openJumps e = c.openJumps e) : Fits s c' := by
  have hin : c'.inLoop = c.inLoop := by rw [Compiler.inLoop, Compiler.inLoop, hl]
  have hwaits : c'.waits = c.waits := funext fun e => by rw [Compiler.waits, Compiler.waits, hopen]
  exact ⟨by rw [hin, hwaits]; exact h.loops, fun hl' e => by rw [hopen]; exact h.room (hin ▸ hl') e⟩

end

end Slp
