import Slp.Compiler.Chunks
import Slp.Compiler.Pieces
import Slp.Compiler.Run

/-!
# What the operands of compiled code refer to

`Shape.mentions` lists the constants and the local variables that a shape means, in the order in
which they are written; `Listing code p as` reads them off the code again, as slots of the frame
and as indexes of the table of constants.  `mentions_emit` says that the one list is written as
the other, whatever jumps are patched on the way: a constant as the low sixteen bits of its place
in the table (`Mention.access`).
-/

namespace Slp

/-- What an operand addresses when it is read. -/
inductive Access where
  | slot (i : ℕ)
  | constant (o : Opcode) (k : ℕ)
  deriving DecidableEq, Repr

/-- What the compiler means by an operand. -/
inductive Mention where
  | slot (i : ℕ)
  /-- `checked` is whether the index goes through a check of its range. -/
  | constant (o : Opcode) (v : Constant) (checked : Bool)
  /-- A closure, with the compiler of its body. -/
  | closure (keyword : Option Bytes) (sub : Compiler)
  /-- An index that stands for no constant, the path of an import without one. -/
  | raw (o : Opcode) (k : ℕ)

/-! ### Reading -/

/-- The slot of an instruction that addresses a local variable, with its one-byte operand. -/
def Opcode.slot : Opcode → ℕ → ℕ
  | .loadLocal0, _ | .storeLocal0, _ => 0
  | .loadLocal1, _ | .storeLocal1, _ => 1
  | .loadLocal2, _ | .storeLocal2, _ => 2
  | .loadLocal3, _ | .storeLocal3, _ => 3
  | .loadLocal4, _ | .storeLocal4, _ => 4
  | .loadLocal5, _ | .storeLocal5, _ => 5
  | .loadLocal6, _ | .storeLocal6, _ => 6
  | .loadLocal7, _ | .storeLocal7, _ => 7
  | _, i => i

/-- What the instruction at `p` addresses. -/
def accessesAt (code : List UInt8) (p : ℕ) (o : Opcode) : List Access :=
  (if o.isLocal then [.slot (o.slot (code.getD (p + 1) 0).toNat)] else []) ++
    o.constantOperands.map fun k => .constant o (readShort code (p + k))

/-- What the instructions before `p` address, decoding from the start of the code. -/
inductive Listing (code : List UInt8) : ℕ → List Access → Prop where
  | zero : Listing code 0 []
  | next {p : ℕ} {as : List Access} {o : Opcode} (h : Listing code p as)
      (ho : opcodeAt code p = some o) (hin : p + o.length ≤ code.length) :
      Listing code (p + o.length) (as ++ accessesAt code p o)

theorem Opcode.constantOperands_le {o : Opcode} {k : ℕ} (h : k ∈ o.constantOperands) :
    k + 2 ≤ o.length := by
  have hall : ∀ k ∈ o.constantOperands, k + 2 ≤ o.length := by cases o <;> decide
  exact hall k h

theorem Opcode.slot_of_length_one {o : Opcode} (h : o.length = 1) (hlocal : o.isLocal) (i j : ℕ) :
    o.slot i = o.slot j := by
  cases o <;> first | rfl | exact Bool.noConfusion hlocal | exact absurd h (by decide)

theorem accessesAt_congr {code code' : List UInt8} {p : ℕ} {o : Opcode}
    (hbyte : 1 < o.length → code'.getD (p + 1) 0 = code.getD (p + 1) 0)
    (hshort : ∀ k ∈ o.constantOperands, readShort code' (p + k) = readShort code (p + k)) :
    accessesAt code' p o = accessesAt code p o := by
  have hslots : (if o.isLocal then [Access.slot (o.slot (code'.getD (p + 1) 0).toNat)] else []) =
      if o.isLocal then [Access.slot (o.slot (code.getD (p + 1) 0).toNat)] else [] := by
    by_cases hlocal : o.isLocal
    · rw [if_pos hlocal, if_pos hlocal]
      have hpos := o.length_pos
      by_cases hlen : o.length = 1
      · rw [Opcode.slot_of_length_one hlen hlocal]
      · rw [hbyte (by omega)]
    · rw [if_neg hlocal, if_neg hlocal]
  have hconstants : (o.constantOperands.map fun k => Access.constant o (readShort code' (p + k))) =
      o.constantOperands.map fun k => Access.constant o (readShort code (p + k)) :=
    List.map_congr_left fun k hk => by rw [hshort k hk]
  rw [accessesAt, accessesAt, hslots, hconstants]

/-- A jump addresses no operand of this kind. -/
theorem accessesAt_of_isJump {o : Opcode} (h : o.isJump) (code : List UInt8) (p : ℕ) :
    accessesAt code p o = [] := by
  simp [accessesAt, Opcode.isLocal_of_isJump h, Opcode.constantOperands_of_isJump h]

namespace Listing

variable {code : List UInt8} {p : ℕ} {as as' : List Access}

theorem boundary (h : Listing code p as) : Boundary code p := by
  induction h with
  | zero => exact .zero
  | next h ho hin ih => exact ih.next ho

/-- The code determines what is read. -/
theorem unique (h : Listing code p as) (h' : Listing code p as') : as = as' := by
  induction h generalizing as' with
  | zero =>
    generalize hq : (0 : ℕ) = q at h'
    cases h' with
    | zero => rfl
    | @next r bs o h ho hin =>
      have := o.length_pos
      omega
  | @next p as o h ho hin ih =>
    generalize hq : p + o.length = q at h'
    cases h' with
    | zero =>
      have := o.length_pos
      omega
    | @next r bs o' h' ho' hin' =>
      have hlen := o.length_pos
      have hlen' := o'.length_pos
      obtain rfl : p = r := by
        rcases h.boundary.gap ho h'.boundary with hle | hge
        · rcases h'.boundary.gap ho' h.boundary with hle' | hge' <;> omega
        · omega
      rw [ho] at ho'
      cases ho'
      rw [ih h']

theorem append (h : Listing code p as) (more : List UInt8) : Listing (code ++ more) p as := by
  induction h with
  | zero => exact .zero
  | @next p as o h ho hin ih =>
    have hlt := opcodeAt_lt ho
    have hsame : accessesAt (code ++ more) p o = accessesAt code p o := by
      refine accessesAt_congr (fun hone => ?_) fun k hk => ?_
      · rw [List.getD_eq_getElem?_getD, List.getD_eq_getElem?_getD,
          List.getElem?_append_left (by omega)]
      · have := Opcode.constantOperands_le hk
        exact readShort_append (by omega)
    rw [← hsame]
    exact ih.next (by rwa [opcodeAt_append hlt]) (by rw [List.length_append]; omega)

/-- A patch of a jump is not read. -/
theorem patchShort {j : ℕ} (h : Listing code p as) (hj : IsJump code j) (v : ℤ) :
    Listing (patchShort code j v) p as := by
  induction h with
  | zero => exact .zero
  | @next p as o h ho hin ih =>
    obtain ⟨hne, hne'⟩ := h.boundary.ne_of_isJump hj
    have hsame : accessesAt (Slp.patchShort code j v) p o = accessesAt code p o := by
      by_cases hjump : o.isJump
      · rw [accessesAt_of_isJump hjump, accessesAt_of_isJump hjump]
      · have hapart := hj.apart_of_boundary h.boundary ho (by simpa using hjump)
        refine accessesAt_congr (fun hone => ?_) fun k hk => ?_
        · rw [List.getD_eq_getElem?_getD, List.getD_eq_getElem?_getD,
            getElem?_patchShort_ne (by omega) (by omega)]
        · have := Opcode.constantOperands_le hk
          exact readShort_patchShort_ne (by omega)
    rw [← hsame]
    exact ih.next (by rwa [opcodeAt_patchShort hne hne']) (by rwa [length_patchShort])

/-- An instruction written at the end. -/
theorem emit (h : Listing code code.length as) (o : Opcode) (operands : List UInt8)
    (hlen : operands.length + 1 = o.length) :
    Listing (code ++ o.byte :: operands) (code ++ o.byte :: operands).length
      (as ++ accessesAt (code ++ o.byte :: operands) code.length o) := by
  have hend : (code ++ o.byte :: operands).length = code.length + o.length := by
    rw [List.length_append, List.length_cons]
    omega
  rw [hend]
  exact (h.append _).next (opcodeAt_emit code o operands) (by omega)

end Listing

/-! ### Writing -/

/-- The function of a compiler that has written its body. -/
def Compiler.function (c : Compiler) (name : Option Bytes) : Constant :=
  .function c.code c.constants name

namespace Mention

/-- How a mention is written when these are the constants before it. -/
def access (cs : List Constant) : Mention → Access
  | .slot i => .slot (i % 256)
  | .constant o v _ => .constant o (constantIndex cs v % 65536)
  | .closure keyword sub => .constant .closure (constantIndex cs (sub.function keyword) % 65536)
  | .raw o k => .constant o k

/-- The constants after a mention. -/
def enter (cs : List Constant) : Mention → List Constant
  | .constant _ v _ => insertConstant cs v
  | .closure keyword sub => insertConstant cs (sub.function keyword)
  | _ => cs

/-- What is checked before a mention is written. -/
def Checked (cs : List Constant) : Mention → Prop
  | .constant _ v true => constantIndex cs v < 65536
  | .closure keyword sub => constantIndex cs (sub.function keyword) < 65536 ∧ sub.error = none
  | _ => True

end Mention

/-- How mentions are written one after the other. -/
def accesses : List Constant → List Mention → List Access
  | _, [] => []
  | cs, m :: ms => m.access cs :: accesses (m.enter cs) ms

/-- The constants after these mentions. -/
def constantTable (cs : List Constant) (ms : List Mention) : List Constant :=
  ms.foldl Mention.enter cs

/-- The checks let all mentions pass. -/
def AllChecked : List Constant → List Mention → Prop
  | _, [] => True
  | cs, m :: ms => m.Checked cs ∧ AllChecked (m.enter cs) ms

section

variable (cs : List Constant) (ms ms' : List Mention)

theorem accesses_append :
    accesses cs (ms ++ ms') = accesses cs ms ++ accesses (constantTable cs ms) ms' := by
  induction ms generalizing cs with
  | nil => rfl
  | cons m ms ih =>
    rw [List.cons_append, accesses, ih]
    rfl

theorem allChecked_append :
    AllChecked cs (ms ++ ms') ↔ AllChecked cs ms ∧ AllChecked (constantTable cs ms) ms' := by
  induction ms generalizing cs with
  | nil => exact (true_and _).symm.to_iff
  | cons m ms ih =>
    rw [List.cons_append, AllChecked, ih, AllChecked, and_assoc]
    rfl

theorem constantTable_append :
    constantTable cs (ms ++ ms') = constantTable (constantTable cs ms) ms' :=
  List.foldl_append

end

/-- What a compiler hands to the compilers of closures. -/
structure Surroundings where
  locals : List (Option Bytes)
  enclosing : List (List (Option Bytes))
  replMode : Bool

/-- The surroundings of the closures of a function. -/
def Compiler.surroundings (c : Compiler) : Surroundings := ⟨c.locals, c.enclosing, c.replMode⟩

/-- The compiler of a closure after its body and the final return. -/
def Surroundings.closure (x : Surroundings) (keyword : Option Bytes) (body : Emit Unit) :
    Compiler :=
  runBody (x.locals :: x.enclosing) x.replMode (keyword = some (ascii "inline")) body

/-- What an operand mentions. -/
def Operand.mention? (o : Opcode) : Operand → Option Mention
  | .byte _ => none
  | .short v => some (.raw o (v % 65536).toNat)
  | .const v => some (.constant o v true)

/-- What a shape mentions. -/
def Shape.mentions (x : Surroundings) : Shape → List Mention
  | .op o operands _ => operands.filterMap (Operand.mention? o)
  | .var name assign =>
    match resolveLocal x.locals name with
    | some i => [.slot i]
    | none => [.constant (if assign then .storeGlobal else .loadGlobal) (.string name) false]
  | .reference name =>
    match resolveLocal x.locals name with
    | some i => [.slot i]
    | none => [.constant .referenceGlobal (.string name) true]
  | .closure keyword body => [.closure keyword (x.closure keyword body)]
  | .seq a b | .branch _ _ a b | .whileLoop _ _ a b | .foreverLoop a b =>
    a.mentions x ++ b.mentions x
  | .guard _ _ a | .inTry a | .foreachLoop _ _ a => a.mentions x
  | .forLoop head body step => head.mentions x ++ (body.mentions x ++ step.mentions x)
  | _ => []

/-- From `c` to `c'` the compiler wrote these mentions, and nothing else that addresses a constant
or a local variable. -/
structure Mentions (c c' : Compiler) (ms : List Mention) : Prop where
  surroundings : c'.surroundings = c.surroundings
  constants : c'.constants = constantTable c.constants ms
  checked : AllChecked c.constants ms
  listing : ∀ as, Listing c.code c.code.length as →
    Listing c'.code c'.code.length (as ++ accesses c.constants ms)

namespace Mentions

variable {c c' c'' : Compiler} {ms ms' : List Mention} {j t : ℕ}

theorem refl (c : Compiler) : Mentions c c [] :=
  ⟨rfl, rfl, trivial, fun as h => by rwa [accesses, List.append_nil]⟩

theorem trans (h : Mentions c c' ms) (h' : Mentions c' c'' ms') :
    Mentions c c'' (ms ++ ms') where
  surroundings := h'.surroundings.trans h.surroundings
  constants := by rw [h'.constants, h.constants, constantTable_append]
  checked := (allChecked_append _ _ _).2 ⟨h.checked, h.constants ▸ h'.checked⟩
  listing as hl := by
    have hlist := h'.listing _ (h.listing as hl)
    rwa [List.append_assoc, h.constants, ← accesses_append] at hlist

/-- What is written next mentions nothing. -/
theorem quiet (h : Mentions c c' ms) (h' : Mentions c' c'' []) : Mentions c c'' ms := by
  have hall := h.trans h'
  rwa [List.append_nil] at hall

theorem after (h : Mentions c c' []) (h' : Mentions c' c'' ms) : Mentions c c'' ms :=
  h.trans h'

/-- A change of what is neither code nor constants nor surroundings. -/
theorem of_code (hcode : c'.code = c.code) (hconstants : c'.constants = c.constants)
    (hsurroundings : c'.surroundings = c.surroundings) : Mentions c c' [] :=
  ⟨hsurroundings, hconstants, trivial, fun as h => by rwa [hcode, accesses, List.append_nil]⟩

theorem enterLoop (c : Compiler) : Mentions c (exec enterLoop c) [] := .of_code rfl rfl rfl

theorem leave (outer : Compiler) (next : ℕ) (c : Compiler) : Mentions c (outer.leave next c) [] :=
  .of_code rfl rfl rfl

/-- An instruction written at the end. -/
theorem of_emit (o : Opcode) (operands : List UInt8) (hlen : operands.length + 1 = o.length)
    (hcode : c'.code = c.code ++ o.byte :: operands)
    (hconstants : c'.constants = constantTable c.constants ms)
    (hsurroundings : c'.surroundings = c.surroundings) (hchecked : AllChecked c.constants ms)
    (haccesses : accessesAt (c.code ++ o.byte :: operands) c.code.length o =
      accesses c.constants ms) : Mentions c c' ms :=
  ⟨hsurroundings, hconstants, hchecked, fun as h => by
    rw [hcode, ← haccesses]
    exact h.emit o operands hlen⟩

theorem emitOp {o : Opcode} (h : o.length = 1) (hlocal : o.isLocal = false) (c : Compiler) :
    Mentions c (exec (emitOp o) c) [] :=
  of_emit o [] h.symm rfl rfl rfl trivial (by
    simp [accessesAt, hlocal, Opcode.constantOperands_of_length (.inl h), accesses])

theorem jumped {o : Opcode} (ho : o.isJump) (c : Compiler) : Mentions c (c.jumped o) [] :=
  of_emit o [0xFF, 0xFF] (Opcode.length_of_isJump ho).symm rfl rfl rfl trivial
    (accessesAt_of_isJump ho _ _)

theorem patched (hc : Whole c) (hj : j ∈ c.audit.jumps) : Mentions c (c.patched t j) [] :=
  ⟨rfl, rfl, trivial, fun as h => by
    rw [Compiler.length_patched, accesses, List.append_nil]
    exact h.patchShort (hc.isJump j hj) _⟩

theorem patchedAll {js : List ℕ} (hc : Whole c) (hjs : ∀ j ∈ js, j ∈ c.audit.jumps) :
    Mentions c (c.patchedAll t js) [] := by
  induction js generalizing c with
  | nil => exact refl c
  | cons j js ih =>
    exact (patched hc (hjs j List.mem_cons_self)).after
      (ih (hc.patched (hjs j List.mem_cons_self)) fun i hi => hjs i (List.mem_cons_of_mem j hi))

theorem patchJump (hc : Whole c) (hj : j ∈ c.audit.jumps)
    (herr : (exec (patchJump j) c).error = none) : Mentions c (exec (Slp.patchJump j) c) [] := by
  rw [(patchJump_ok herr).1]
  exact patched hc hj

theorem patchBreaks (hc : Whole c) (hw : Weak c) (herr : (exec patchBreaks c).error = none) :
    Mentions c (exec Slp.patchBreaks c) [] := by
  have heq : exec Slp.patchBreaks c = _ := (exec_forM_patchJump herr).1
  rw [heq]
  exact patchedAll hc (hw.live .brk)

theorem patchContinues (hc : Whole c) (hw : Weak c)
    (herr : (exec patchContinues c).error = none) :
    Mentions c (exec Slp.patchContinues c) [] := by
  have heq : exec Slp.patchContinues c = _ := (exec_forM_patchJump herr).1
  rw [heq]
  exact patchedAll hc (hw.live .cont)

theorem writeContinues (hc : Whole c) (hw : Weak c) (t : ℕ) :
    Mentions c (exec (Slp.writeContinues t) c) [] := by
  rw [exec_writeContinues]
  exact patchedAll hc (hw.live .cont)

theorem popHandlers (c : Compiler) : Mentions c (exec popHandlers c) [] := by
  simp only [Slp.popHandlers, exec_bind, result_get, exec_get]
  generalize c.tryDepth - c.loopTryDepth = n
  induction n generalizing c with
  | zero => exact refl c
  | succ n ih => exact (emitOp (o := .popHandler) rfl rfl c).after (ih _)

theorem emitExit (e : Exit) (c : Compiler) : Mentions c (exec (emitExit e) c) [] := by
  rw [exec_emitExit]
  have hjump := (popHandlers c).after (jumped (o := .jump) rfl _)
  cases e <;> exact hjump.quiet (of_code rfl rfl rfl)

theorem emitLoop {l : ℤ} (herr : (exec (emitLoop l) c).error = none) :
    Mentions c (exec (Slp.emitLoop l) c) [] := by
  rw [exec_emitLoop] at herr ⊢
  split at herr
  · exact absurd herr (exec_compilerError_error _ _)
  · rename_i hle
    rw [if_neg hle]
    exact of_emit .loop _ rfl rfl rfl rfl trivial rfl

/-! ### The ends of loops -/

variable {next : ℕ}

theorem exit (hc : Whole c) (hj : j ∈ c.audit.jumps)
    (herr : (exec (Slp.patchJump j) (exec (Slp.emitLoop c.loopStart) c)).error = none) :
    Mentions c (exec (Slp.emitOp .pop)
      (exec (Slp.patchJump j) (exec (Slp.emitLoop c.loopStart) c))) [] := by
  have herrl := error_of_patchJump herr
  have hloop := straight_emitLoop herrl
  exact ((emitLoop herrl).after (patchJump (hc.straight hloop) (by rwa [hloop.audit]) herr)).after
    (emitOp rfl rfl _)

theorem endWhile (hc : Whole c) (hw : Weak c) (hj : j ∈ c.audit.jumps)
    (herr : (exec (endWhile j) c).error = none) : Mentions c (exec (Slp.endWhile j) c) [] := by
  rw [exec_endWhile] at herr ⊢
  have herrp := error_of_patchContinues herr
  have herre := error_of_patchBreaks herrp
  rw [error_emitOp] at herre
  have hk := (Keeps.refl hw [j]).exit hw hj (.inl (List.mem_singleton_self j)) herre
  have hb := hk.patchBreaks hw herrp
  have hwhole := hc.exit hj herre
  exact ((exit hc hj herre).after (patchBreaks hwhole hk.weak herrp)).after
    (patchContinues (hwhole.patchBreaks hk.weak herrp) hb.weak herr)

theorem endFor (hc : Whole c) (hw : Weak c) (hj : j ∈ c.audit.jumps)
    (herr : (exec (endFor j next) c).error = none) :
    Mentions c (exec (Slp.endFor j next) c) [] := by
  rw [exec_endFor] at herr ⊢
  have herrp := error_of_patchBreaks herr
  rw [error_writeContinues, error_emitOp] at herrp
  have hk := (Keeps.refl hw [j]).exit hw hj (.inl (List.mem_singleton_self j)) herrp
  have hb := hk.writeContinues hw next
  have hwhole := hc.exit hj herrp
  exact ((exit hc hj herrp).after (writeContinues hwhole hk.weak next)).after
    (patchBreaks (hwhole.writeContinues hk.weak next) hb.weak herr)

theorem endForever (hc : Whole c) (hw : Weak c) (herr : (exec (endForever next) c).error = none) :
    Mentions c (exec (Slp.endForever next) c) [] := by
  rw [exec_endForever] at herr ⊢
  have herrp := error_of_patchBreaks herr
  rw [error_writeContinues] at herrp
  have hloop := straight_emitLoop herrp
  have hk := (Keeps.refl hw []).straight hloop
  have hb := hk.writeContinues hw next
  have hwhole := hc.straight hloop
  exact ((emitLoop herrp).after (writeContinues hwhole hk.weak next)).after
    (patchBreaks (hwhole.writeContinues hk.weak next) hb.weak herr)

theorem endForeach (hc : Whole c) (hw : Weak c) (hj : j ∈ c.audit.jumps)
    (herr : (exec (endForeach j) c).error = none) :
    Mentions c (exec (Slp.endForeach j) c) [] := by
  rw [exec_endForeach] at herr ⊢
  have herrj := error_of_patchBreaks herr
  have herrl := error_of_patchJump herrj
  have herrc := error_of_emitLoop herrl
  have hloop := straight_emitLoop herrl
  have hk := (Keeps.refl hw [j]).patchContinues hw herrc
  have hmem : j ∈ (exec (Slp.emitLoop (exec Slp.patchContinues c).loopStart)
      (exec Slp.patchContinues c)).audit.jumps := by
    rw [hloop.audit]
    exact hk.jumps j hj
  have hl := (hk.straight hloop).patchJump hw hmem (.inl (List.mem_singleton_self j)) herrj
  have hwhole := (hc.patchContinues hw herrc).straight hloop
  exact (((patchContinues hc hw herrc).after (emitLoop herrl)).after
    (patchJump hwhole hmem herrj)).after
    (patchBreaks (hwhole.patchJump hmem herrj) hl.weak herr)

end Mentions

/-! ### Leaves -/

/-- The operands from `p + q` on are at the offsets from `q` on. -/
theorem Operand.shortOffsets_add (xs : List Operand) (p q : ℕ) :
    shortOffsets (p + q) xs = (shortOffsets q xs).map (p + ·) := by
  induction xs generalizing q with
  | nil => rfl
  | cons x xs ih => cases x <;> simp [shortOffsets, ← ih, Nat.add_assoc]

/-- What operands write. -/
structure WritesOperands (o : Opcode) (xs : List Operand) (c c' : Compiler) : Prop where
  surroundings : c'.surroundings = c.surroundings
  code : ∃ bytes, c'.code = c.code ++ bytes ∧ bytes.length = (xs.map Operand.size).sum
  constants : c'.constants = constantTable c.constants (xs.filterMap (Operand.mention? o))
  checked : AllChecked c.constants (xs.filterMap (Operand.mention? o))
  reads : ((Operand.shortOffsets c.code.length xs).map fun k =>
    Access.constant o (readShort c'.code k)) =
      accesses c.constants (xs.filterMap (Operand.mention? o))

theorem readShort_emitShort (code more : List UInt8) (v : ℤ) :
    readShort (code ++ [(shortBytes v).1, (shortBytes v).2] ++ more) code.length =
      (v % 65536).toNat := by
  have h0 : (code ++ [(shortBytes v).1, (shortBytes v).2] ++ more)[code.length]? =
      some (shortBytes v).1 := by
    simp
  have h1 : (code ++ [(shortBytes v).1, (shortBytes v).2] ++ more)[code.length + 1]? =
      some (shortBytes v).2 := by
    simp
  rw [readShort, List.getD_eq_getElem?_getD, List.getD_eq_getElem?_getD, h0, h1]
  simp only [Option.getD_some, shortBytes, UInt8.toNat_ofNat']
  omega

theorem writes_emitOperands (o : Opcode) (xs : List Operand) {c : Compiler}
    (herr : (exec (Shape.emitOperands xs) c).error = none) :
    WritesOperands o xs c (exec (Shape.emitOperands xs) c) := by
  induction xs generalizing c with
  | nil => exact ⟨rfl, ⟨[], (List.append_nil _).symm, rfl⟩, rfl, trivial, rfl⟩
  | cons x xs ih =>
    have heq : exec (Shape.emitOperands (x :: xs)) c =
        exec (Shape.emitOperands xs) (exec x.emit c) := rfl
    rw [heq] at herr ⊢
    have hrest := ih herr
    obtain ⟨bytes, hcode, hlen⟩ := hrest.code
    have herrx := (appends_emitOperands xs _).error herr
    cases x with
    | byte b =>
      have hx : exec (Operand.byte b).emit c = exec (emitByte b) c := rfl
      rw [hx] at hrest hcode ⊢
      refine ⟨hrest.surroundings, ⟨b :: bytes, ?_, ?_⟩, hrest.constants, hrest.checked, ?_⟩
      · rw [hcode, exec_emitByte, List.append_assoc, List.singleton_append]
      · simp [hlen, Operand.size, Nat.add_comm]
      · have hreads := hrest.reads
        rw [exec_emitByte] at hreads
        simpa [Operand.shortOffsets, Operand.mention?, List.filterMap_cons] using hreads
    | short v =>
      have hx : exec (Operand.short v).emit c = exec (emitShort v) c := rfl
      rw [hx, exec_emitShort] at hrest hcode ⊢
      refine ⟨hrest.surroundings, ⟨_, by rw [hcode, List.append_assoc], ?_⟩, hrest.constants,
        ⟨trivial, hrest.checked⟩, ?_⟩
      · simp only [List.length_append, List.length_cons, List.length_nil, hlen, List.map_cons,
          List.sum_cons, Operand.size]
      · have hreads := hrest.reads
        have hread := readShort_emitShort c.code bytes v
        rw [← hcode] at hread
        simp only [List.length_append, List.length_cons, List.length_nil] at hreads
        simpa [Operand.shortOffsets, Operand.mention?, accesses, Mention.access, Mention.enter,
          hread] using hreads
    | const v =>
      have hx : exec (Operand.const v).emit c =
          exec (emitShort (result (makeConstant v) c : ℕ)) (exec (makeConstant v) c) := rfl
      rw [hx, exec_emitShort] at herrx
      obtain ⟨hlt, hr, he⟩ := exec_makeConstant herrx
      rw [hx, exec_emitShort, hr, he] at hrest hcode ⊢
      refine ⟨hrest.surroundings, ⟨_, by rw [hcode, List.append_assoc], ?_⟩, hrest.constants,
        ⟨hlt, hrest.checked⟩, ?_⟩
      · simp only [List.length_append, List.length_cons, List.length_nil, hlen, List.map_cons,
          List.sum_cons, Operand.size]
      · have hreads := hrest.reads
        have hread := readShort_emitShort c.code bytes (constantIndex c.constants v)
        rw [← hcode] at hread
        simp only [List.length_append, List.length_cons, List.length_nil] at hreads
        have hmod : ((constantIndex c.constants v : ℤ) % 65536).toNat =
          constantIndex c.constants v % 65536 := by omega
        rw [hmod] at hread
        simpa [Operand.shortOffsets, Operand.mention?, accesses, Mention.access, Mention.enter,
          hread] using hreads

/-- An instruction with its operands. -/
theorem mentions_op {o : Opcode} {xs : List Operand} (hlocal : o.isLocal = false)
    (hoffsets : Operand.shortOffsets 1 xs = o.constantOperands)
    (h : (xs.map Operand.size).sum + 1 = o.length) {c : Compiler}
    (herr : (exec (Shape.op o xs h).emit c).error = none) :
    Mentions c (exec (Shape.op o xs h).emit c) (xs.filterMap (Operand.mention? o)) := by
  have heq : exec (Shape.op o xs h).emit c =
      exec (Shape.emitOperands xs) (exec (emitOp o) c) := rfl
  rw [heq] at herr ⊢
  have hw := writes_emitOperands o xs herr
  obtain ⟨bytes, hcode, hlen⟩ := hw.code
  replace hcode : (exec (Shape.emitOperands xs) (exec (emitOp o) c)).code =
      c.code ++ o.byte :: bytes := by
    rw [hcode, exec_emitOp, List.append_assoc, List.singleton_append]
  refine .of_emit o _ (by omega) hcode hw.constants hw.surroundings hw.checked ?_
  have hreads := hw.reads
  rw [exec_emitOp, List.length_append, List.length_singleton, Operand.shortOffsets_add,
    hoffsets, List.map_map] at hreads
  rw [accessesAt, hlocal, ← hcode]
  exact hreads

theorem Opcode.slot_localOps (assign : Bool) {i : ℕ} {o : Opcode}
    (h : (if assign then storeLocalOps else loadLocalOps)[i]? = some o) (b : ℕ) :
    o.isLocal = true ∧ o.slot b = i := by
  have hlt : i < 8 := by
    have := (List.getElem?_eq_some_iff.1 h).1
    cases assign <;> exact this
  have hall : ∀ j < 8, ∀ o ∈ (if assign then storeLocalOps else loadLocalOps)[j]?,
      o.isLocal = true ∧ o.length = 1 ∧ o.slot 0 = j := by
    cases assign <;> decide
  obtain ⟨hlocal, hlen, hslot⟩ := hall i hlt o h
  exact ⟨hlocal, (Opcode.slot_of_length_one hlen hlocal b 0).trans hslot⟩

/-- An instruction with a one-byte operand that addresses a local variable. -/
theorem accessesAt_byte {o : Opcode} (hlen : o.length = 2) (hlocal : o.isLocal)
    (hslot : ∀ b, o.slot b = b) (code : List UInt8) (i : ℕ) :
    accessesAt (code ++ o.byte :: [UInt8.ofNat i]) code.length o = [.slot (i % 256)] := by
  have hbyte : (code ++ o.byte :: [UInt8.ofNat i]).getD (code.length + 1) 0 = UInt8.ofNat i := by
    simp [List.getD_eq_getElem?_getD]
  rw [accessesAt, if_pos hlocal, Opcode.constantOperands_of_length (.inr hlen), hbyte, hslot,
    UInt8.toNat_ofNat']
  rfl

/-- An instruction with the index of a constant. -/
theorem accessesAt_short {o : Opcode} (hconst : o.constantOperands = [1]) (code : List UInt8)
    (k : ℕ) :
    accessesAt (code ++ o.byte :: [(shortBytes k).1, (shortBytes k).2]) code.length o =
      [.constant o (k % 65536)] := by
  have hread := readShort_emitShort (code ++ [o.byte]) [] k
  rw [List.append_nil, List.append_assoc, List.singleton_append, List.length_append,
    List.length_singleton] at hread
  rw [accessesAt, Opcode.isLocal_of_constantOperands (by simp [hconst]), hconst, List.map_singleton,
    hread]
  simp only [Bool.false_eq_true, if_false, List.nil_append]
  congr 2

theorem mentions_namedVariable (name : Bytes) (assign : Bool) (c : Compiler) :
    Mentions c (exec (namedVariable name assign) c)
      ((Shape.var name assign).mentions c.surroundings) := by
  simp only [namedVariable, Shape.mentions, exec_bind, result_get, exec_get,
    Compiler.surroundings]
  cases resolveLocal c.locals name with
  | some i =>
    dsimp only
    cases ho : (if assign then storeLocalOps else loadLocalOps)[i]? with
    | some o =>
      obtain ⟨hlt, hlen, -⟩ := ofOpcode_localOps assign ho
      refine .of_emit o [] hlen.symm rfl rfl rfl ⟨trivial, trivial⟩ ?_
      obtain ⟨hlocal, hslot⟩ := Opcode.slot_localOps assign ho
        ((c.code ++ [o.byte]).getD (c.code.length + 1) 0).toNat
      rw [accessesAt, if_pos hlocal, Opcode.constantOperands_of_length (.inl hlen), hslot]
      simp only [accesses, Mention.access, Nat.mod_eq_of_lt (show i < 256 by omega), List.map_nil,
        List.append_nil]
    | none =>
      cases assign
      · exact .of_emit .loadLocal [UInt8.ofNat i] rfl (by simp) rfl rfl
          ⟨trivial, trivial⟩ (accessesAt_byte rfl rfl (fun _ => rfl) _ _)
      · exact .of_emit .storeLocal [UInt8.ofNat i] rfl (by simp) rfl rfl
          ⟨trivial, trivial⟩ (accessesAt_byte rfl rfl (fun _ => rfl) _ _)
  | none =>
    obtain ⟨hr, he⟩ := run_addConstant (.string name) c
    simp only [exec_bind, hr, he, exec_emitOp, exec_emitShort]
    cases assign
    · exact .of_emit .loadGlobal _ rfl (by simp) rfl rfl ⟨trivial, trivial⟩
        (accessesAt_short rfl _ _)
    · exact .of_emit .storeGlobal _ rfl (by simp) rfl rfl ⟨trivial, trivial⟩
        (accessesAt_short rfl _ _)

theorem mentions_referenceVariable (name : Bytes) {c : Compiler}
    (herr : (exec (referenceVariable name) c).error = none) :
    Mentions c (exec (referenceVariable name) c)
      ((Shape.reference name).mentions c.surroundings) := by
  simp only [referenceVariable, Shape.mentions, exec_bind, result_get, exec_get,
    Compiler.surroundings] at herr ⊢
  cases hl : resolveLocal c.locals name with
  | some i =>
    exact .of_emit .referenceLocal [UInt8.ofNat i] rfl (by simp) rfl rfl
      ⟨trivial, trivial⟩ (accessesAt_byte rfl rfl (fun _ => rfl) _ _)
  | none =>
    rw [hl] at herr
    simp only [exec_bind, exec_emitOp, exec_emitShort] at herr ⊢
    obtain ⟨hlt, hr, he⟩ := exec_makeConstant herr
    rw [hr, he]
    exact .of_emit .referenceGlobal _ rfl (by simp) rfl rfl ⟨hlt, trivial⟩
      (accessesAt_short rfl _ _)

theorem mentions_emitClosure (keyword : Option Bytes) (body : Emit Unit) {c : Compiler}
    (herr : (exec (emitClosure keyword body) c).error = none) :
    Mentions c (exec (emitClosure keyword body) c)
      ((Shape.closure keyword body).mentions c.surroundings) := by
  have hdef : c.surroundings.closure keyword body = runBody (c.locals :: c.enclosing) c.replMode
    (keyword = some (ascii "inline")) body := rfl
  simp only [emitClosure, exec_bind, result_get, exec_get, ← hdef] at herr ⊢
  cases hsub : (c.surroundings.closure keyword body).error with
  | some message =>
    rw [hsub] at herr
    exact absurd ((straight_emitWith .closure rfl _ _).error herr) (exec_compilerError_error _ _)
  | none =>
    rw [hsub] at herr
    have hemit := Shape.emit_opConst .closure (.function (c.surroundings.closure keyword body).code
      (c.surroundings.closure keyword body).constants keyword) rfl
    simp only [← hemit] at herr ⊢
    have hop := mentions_op rfl rfl _ herr
    exact ⟨hop.surroundings, hop.constants, ⟨⟨hop.checked.1, hsub⟩, trivial⟩, hop.listing⟩

/-! ### Shapes -/

/-- A shape writes its mentions. -/
theorem mentions_emit (s : Shape) (hs : s.Made) {c : Compiler} (hc : Whole c) (hw : Weak c)
    (herr : (exec s.emit c).error = none) :
    Mentions c (exec s.emit c) (s.mentions c.surroundings) := by
  induction s generalizing c with
  | seq a b iha ihb =>
    rw [exec_seq] at herr ⊢
    have herra := error_of_emit b herr
    have ha := iha hs.1 hc hw herra
    have hb := ihb hs.2 (whole_emit a hc hw herra) (keeps_emit a hw herra).weak herr
    rw [ha.surroundings] at hb
    exact ha.trans hb
  | guard o ho a ih =>
    rw [exec_guard] at herr ⊢
    have herra := error_of_patchJump herr
    have ha := ih hs (hc.jumped ho) (hw.jumped o) herra
    have hk := keeps_emit a (hw.jumped o) herra
    exact ((Mentions.jumped ho c).after ha).quiet
      (.patchJump (whole_emit a (hc.jumped ho) (hw.jumped o) herra)
        (hk.jumps _ (mem_jumps_jumped c o)) herr)
  | branch o ho a b iha ihb =>
    rw [exec_branch] at herr ⊢
    have herrb := error_of_patchJump herr
    have herrj := error_of_emit b herrb
    have herra := error_of_patchJump herrj
    rw [error_jumped] at herra
    have ha := iha hs.1 (hc.jumped ho) (hw.jumped o) herra
    have hk := keeps_emit a (hw.jumped o) herra
    have hmem : c.code.length + 1 ∈ ((exec a.emit (c.jumped o)).jumped .jump).audit.jumps :=
      List.mem_append_left _ (hk.jumps _ (mem_jumps_jumped c o))
    have hwhole := (whole_emit a (hc.jumped ho) (hw.jumped o) herra).jumped (o := .jump) rfl
    have hj := hwhole.patchJump hmem herrj
    have hwj : Weak (exec (patchJump (c.code.length + 1))
        ((exec a.emit (c.jumped o)).jumped .jump)) := by
      rw [(patchJump_ok herrj).1]
      exact (hk.weak.jumped .jump).patched _ _
    have hmem' : (exec a.emit (c.jumped o)).code.length + 1 ∈
        (exec (patchJump (c.code.length + 1))
          ((exec a.emit (c.jumped o)).jumped .jump)).audit.jumps := by
      rw [(patchJump_ok herrj).1]
      exact mem_jumps_jumped _ .jump
    have hmid := (((Mentions.jumped ho c).after ha).quiet (.jumped (o := .jump) rfl _)).quiet
      (.patchJump hwhole hmem herrj)
    have hb := ihb hs.2 hj hwj herrb
    rw [hmid.surroundings] at hb
    exact (hmid.trans hb).quiet (.patchJump (whole_emit b hj hwj herrb)
      ((keeps_emit b hwj herrb).jumps _ hmem') herr)
  | inTry a ih =>
    rw [exec_inTry] at herr ⊢
    have hs' := straight_tryDepth c (c.tryDepth + 1)
    have hin : Mentions c { c with tryDepth := c.tryDepth + 1 } [] := .of_code rfl rfl rfl
    exact (hin.after (ih hs (hc.straight hs') (hw.of_straight hs') herr)).quiet
      (.of_code rfl rfl rfl)
  | brk =>
    rw [exec_brk]
    split
    · exact .emitExit .brk c
    · exact .refl c
  | cont =>
    rw [exec_cont]
    split
    · exact .emitExit .cont c
    · exact .refl c
  | whileLoop o ho head body ihh ihb =>
    rw [exec_whileLoop, error_leave] at herr
    rw [exec_whileLoop]
    have herrb := error_of_endWhile herr
    have herrh := error_of_emit body herrb
    rw [error_emitOp, error_jumped] at herrh
    have hh := ihh hs.1 hc.enterLoop hw.enterLoop herrh
    have hpop := straight_emitOp .pop rfl ((exec head.emit (exec enterLoop c)).jumped o)
    have hwhole := ((whole_emit head hc.enterLoop hw.enterLoop herrh).jumped ho).straight hpop
    have hwb := ((keeps_emit head hw.enterLoop herrh).weak.jumped o).of_straight hpop
    have hk := keeps_emit body hwb herrb
    have hin := Mentions.enterLoop c
    have hmid := ((hin.after hh).quiet (.jumped ho _)).quiet (.emitOp (o := .pop) rfl rfl _)
    have hb := ihb hs.2 hwhole hwb herrb
    rw [hmid.surroundings] at hb
    exact ((hmid.trans hb).quiet (.endWhile (whole_emit body hwhole hwb herrb) hk.weak
      (hk.jumps _ (mem_jumps_jumped _ o)) herr)).quiet (.leave c _ _)
  | forLoop head body step ihh ihb ihs =>
    rw [exec_forLoop, error_leave] at herr
    rw [exec_forLoop]
    have herrs := error_of_endFor herr
    have herrb := error_of_emit step herrs
    have herrh := error_of_emit body herrb
    rw [error_emitOp, error_jumped] at herrh
    have hh := ihh hs.1 hc.enterLoop hw.enterLoop herrh
    have hpop := straight_emitOp .pop rfl ((exec head.emit (exec enterLoop c)).jumped .jumpIfFalse)
    have hwhole := ((whole_emit head hc.enterLoop hw.enterLoop herrh).jumped
      (o := .jumpIfFalse) rfl).straight hpop
    have hwb := ((keeps_emit head hw.enterLoop herrh).weak.jumped .jumpIfFalse).of_straight hpop
    have hk := keeps_emit body hwb herrb
    have hks := keeps_emit step hk.weak herrs
    have hwholeb := whole_emit body hwhole hwb herrb
    have hin := Mentions.enterLoop c
    have hmid := ((hin.after hh).quiet (.jumped (o := .jumpIfFalse) rfl _)).quiet
      (.emitOp (o := .pop) rfl rfl _)
    have hb := ihb hs.2.1 hwhole hwb herrb
    have hstep := ihs hs.2.2 hwholeb hk.weak herrs
    rw [hb.surroundings] at hstep
    have hboth := hb.trans hstep
    rw [hmid.surroundings] at hboth
    exact ((hmid.trans hboth).quiet (.endFor (whole_emit step hwholeb hk.weak herrs) hks.weak
      (hks.jumps _ (hk.jumps _ (mem_jumps_jumped _ .jumpIfFalse))) herr)).quiet (.leave c _ _)
  | foreverLoop body step ihb ihs =>
    rw [exec_foreverLoop, error_leave] at herr
    rw [exec_foreverLoop]
    have herrs := error_of_endForever herr
    have herrb := error_of_emit step herrs
    have hk := keeps_emit body hw.enterLoop herrb
    have hwhole := whole_emit body hc.enterLoop hw.enterLoop herrb
    have hin := Mentions.enterLoop c
    have hmid := hin.after (ihb hs.1 hc.enterLoop hw.enterLoop herrb)
    have hstep := ihs hs.2 hwhole hk.weak herrs
    rw [hmid.surroundings] at hstep
    exact ((hmid.trans hstep).quiet (.endForever (whole_emit step hwhole hk.weak herrs)
      (keeps_emit step hk.weak herrs).weak herr)).quiet (.leave c _ _)
  | foreachLoop o ho body ih =>
    rw [exec_foreachLoop, error_emitOp, error_emitOp, error_leave] at herr
    rw [exec_foreachLoop]
    have herrb := error_of_endForeach herr
    have hwhole := whole_emit body (hc.enterLoop.jumped ho) (hw.enterLoop.jumped o) herrb
    have hk := keeps_emit body (hw.enterLoop.jumped o) herrb
    have hin := Mentions.enterLoop c
    have hb := (hin.after (.jumped ho _)).after
      (ih hs (hc.enterLoop.jumped ho) (hw.enterLoop.jumped o) herrb)
    have hend := (hb.quiet (.endForeach hwhole hk.weak (hk.jumps _ (mem_jumps_jumped _ o)) herr)).quiet
      (.leave c c.code.length _)
    exact (hend.quiet (.emitOp (o := .pop) rfl rfl _)).quiet (.emitOp (o := .pop) rfl rfl _)
  | skip => exact .refl c
  | fail message => exact .of_code rfl rfl rfl
  | op o operands ho => exact mentions_op hs.global hs.offsets ho herr
  | var name assign => exact mentions_namedVariable name assign c
  | reference name => exact mentions_referenceVariable name herr
  | ret =>
    refine .emitOp ?_ ?_ c <;> split <;> rfl
  | endStatement script last =>
    refine .emitOp ?_ ?_ c <;> split <;> rfl
  | closure keyword body => exact mentions_emitClosure keyword body herr

end Slp
