import Slp.Compiler.Placement

/-!
# What a shape writes is its code

`lays_emit` : from a compiler in order, the code that a shape writes is the code of the shape, once
the jumps of its open statements are sent to where their loop ends and goes on.
-/

namespace Slp

namespace Compiler.InOrder

variable {c c' : Compiler} {o : Opcode} {j : ℕ}

theorem whole (h : c.InOrder) : Whole c := ⟨h.core.boundary, h.core.isJump⟩

theorem straight (h : c.InOrder) (hs : Straight c c') : c'.InOrder :=
  ⟨h.core.straight hs, h.openOk.straight h.core hs, h.weak.of_straight hs⟩

theorem jumped (h : c.InOrder) (ho : o.isJump) : (c.jumped o).InOrder :=
  ⟨h.core.jumped ho, h.openOk.jumped o, h.weak.jumped o⟩

theorem patchJump (h : c.InOrder) (hl : Loose c j) (herr : (exec (patchJump j) c).error = none) :
    (exec (Slp.patchJump j) c).InOrder ∧ EndStep [j] c (exec (Slp.patchJump j) c) := by
  obtain ⟨hcore, hs⟩ := endStep_patchJump h.core hl.mem_jumps hl.fresh herr
  refine ⟨⟨hcore, h.openOk.endStep h.core hs fun e i hi hij => ?_, ?_⟩, hs⟩
  · exact hl.apart e (List.mem_singleton.1 hij ▸ hi)
  · rw [(patchJump_ok herr).1]
    exact h.weak.patched _ _

theorem enterLoop (h : c.InOrder) : (exec enterLoop c).InOrder :=
  ⟨h.core.enterLoop, h.openOk.enterLoop, h.weak.enterLoop⟩

/-- The open statements are before the end of the code. -/
theorem le_length (h : c.InOrder) (e : Exit) : ∀ j ∈ c.openJumps e, j + 2 ≤ c.code.length :=
  fun j hj => (h.core.le_length (h.openOk.mem_jumps e j hj)).2

/-- A shape that fits. -/
theorem emit {s : Shape} (h : c.InOrder) (hs : s.Made) (hf : Fits s c)
    (herr : (exec s.emit c).error = none) :
    (exec s.emit c).InOrder ∧ Alters [] c (exec s.emit c) ∧
      Frame [] (counted c.inLoop fun e => s.own e) (fun e => s.uses e) c (exec s.emit c) := by
  have he := (emit_lawful s h.core h.openOk h.weak herr).emitted hf
  have hm := mentions_emit s hs h.whole h.weak herr
  refine ⟨⟨he.core, he.openOk, (keeps_emit s h.weak herr).weak⟩,
    ⟨he.frame.length_le, fun i hi _ => ?_, fun e j hj => ?_, fun e j hj => ?_, ?_⟩, he.frame⟩
  · have htake := congrArg (·[i]?) he.frame.take
    rwa [List.getElem?_take_of_lt hi] at htake
  · obtain ⟨js, hjs, -⟩ := he.frame.openJumps e
    exact hjs ▸ List.mem_append_left _ hj
  · obtain ⟨js, hjs, -, hnew⟩ := he.frame.openJumps e
    rw [hjs] at hj
    exact (List.mem_append.1 hj).imp_right (hnew j)
  · rw [hm.constants]
    exact prefix_constantTable _ _

end Compiler.InOrder

section

variable {code : List UInt8} {table : List Constant} {r : Place} {c c' c'' p b last : Compiler}
  {js : List ℕ} {i j : ℕ} {o : Opcode} {a s t : Shape}

theorem Fits.left (h : Fits (.seq s t) c) : Fits s c := by
  refine ⟨?_, fun hl e => ?_⟩
  · have hloops := h.loops
    rw [Shape.loopsOk, Bool.and_eq_true] at hloops
    exact hloops.1
  · have hroom := h.room hl e
    simp only [Shape.own] at hroom
    omega

theorem openJumps_jumped (c : Compiler) (o : Opcode) (e : Exit) :
    (c.jumped o).openJumps e = c.openJumps e := by cases e <;> rfl

theorem openJumps_emitOp (o : Opcode) (c : Compiler) (e : Exit) :
    (exec (emitOp o) c).openJumps e = c.openJumps e := by cases e <;> rfl

theorem openJumps_leave (c last : Compiler) (next : ℕ) (e : Exit) :
    (c.leave next last).openJumps e = c.openJumps e := by cases e <;> rfl

theorem Final.getElem? (h : Final code table r c c'') (ha : Alters js c' c'')
    (hi : c.code.length ≤ i) (hi' : i < c'.code.length) (hjs : ∀ j ∈ js, j + 2 ≤ i ∨ i < j)
    (hopen : ∀ e, ∀ j ∈ c'.openJumps e, j + 2 ≤ i ∨ i < j) : code[i]? = c'.code[i]? := by
  have hlen := ha.length
  rw [h.agrees i hi (by omega) fun e j hj => ?_]
  · exact ha.getElem? hi' hjs
  · rcases ha.new e j hj with hj | hj
    · have := hopen e j hj
      omega
    · omega

/-- An opcode that was written at the end of `c'`. -/
theorem Final.written (h : Final code table r c c'') (bytes : List UInt8)
    (hcode : p.code = c'.code ++ o.byte :: bytes) (hp : ∀ e, p.openJumps e = c'.openJumps e)
    (hopen : ∀ e, ∀ j ∈ c'.openJumps e, j + 2 ≤ c'.code.length)
    (hle : c.code.length ≤ c'.code.length) (ha : Alters js p c'')
    (hjs : ∀ j ∈ js, j + 2 ≤ c'.code.length ∨ c'.code.length < j) :
    opcodeAt code c'.code.length = some o := by
  have hlt : c'.code.length < p.code.length := by
    rw [hcode, List.length_append, List.length_cons]
    omega
  rw [opcodeAt_congr (h.getElem? ha hle hlt hjs fun e j hj => .inl (hopen e j (hp e ▸ hj))),
    hcode]
  exact opcodeAt_emit _ o bytes

/-- The jumps of the open statements are apart from a placeholder. -/
theorem apart_jumped (hc : p.InOrder) (ha : Alters js (p.jumped o) c'') (e : Exit) :
    ∀ i ∈ c''.openJumps e, i + 2 ≤ p.code.length ∨ p.code.length + 2 < i := by
  intro i hi
  rcases ha.new e i hi with hi | hi
  · have hold : (p.jumped o).openJumps e = p.openJumps e := by cases e <;> rfl
    have := hc.le_length e i (hold ▸ hi)
    omega
  · rw [Compiler.length_jumped] at hi
    omega

/-- A jump whose placeholder is patched before the end. -/
theorem Final.jumped (h : Final code table r c c'') (hc : p.InOrder)
    (hle : c.code.length ≤ p.code.length) (ha : Alters js (p.jumped o) c'')
    (hjs : ∀ j ∈ js, j + 2 ≤ p.code.length ∨ p.code.length < j) :
    opcodeAt code p.code.length = some o ∧
      jumpTarget code (p.code.length + 1) = jumpTarget c''.code (p.code.length + 1) := by
  have hlen := ha.length
  rw [Compiler.length_jumped] at hlen
  have hsame : ∀ i, p.code.length < i → i ≤ p.code.length + 2 → code[i]? = c''.code[i]? :=
    fun i hi hi' => h.agrees i (by omega) (by omega) fun e j hj => by
      have := apart_jumped hc ha e j hj
      omega
  refine ⟨h.written (p := p.jumped o) _ rfl (openJumps_jumped p o) hc.le_length hle ha hjs,
    jumpTarget_congr (hsame _ (by omega) (by omega)) (hsame _ (by omega) (by omega))⟩

/-! ### Pieces without a loop -/

/-- The shape lays out its code, whatever stands around it. -/
def Placed (s : Shape) : Prop :=
  ∀ ⦃c : Compiler⦄ ⦃r : Place⦄ ⦃code : List UInt8⦄ ⦃table : List Constant⦄, c.InOrder → Fits s c →
    Stands r c → (exec s.emit c).error = none → table.length ≤ 65536 →
    Final code table r c (exec s.emit c) →
    s.Lays code table c.setting r c.code.length (exec s.emit c).code.length

theorem placed_leaf (hs : s.Made) (hleaf : ∀ x, ∃ o, s.leafOp x = some o)
    (hstraight : ∀ c, Straight c (exec s.emit c)) {c : Compiler} {r : Place} {code : List UInt8}
    {table : List Constant} (hc : c.InOrder) (herr : (exec s.emit c).error = none)
    (hsmall : table.length ≤ 65536) (h : Final code table r c (exec s.emit c)) :
    ∃ i, s.instruction c.setting = some i ∧ Activation.fetch code table c.code.length = some i ∧
      (exec s.emit c).code.length = c.code.length + i.op.length := by
  obtain ⟨o, hop⟩ := hleaf c.setting
  obtain ⟨bytes, hcode, hlen, hcount⟩ := Shape.exists_code hs hop
  have hopen : ∀ e, (exec s.emit c).openJumps e = c.openJumps e := by
    rintro (_ | _) <;> simp only [Compiler.openJumps, (hstraight c).audit]
  have hfetch := (h.agree hc.core hc.openOk hopen).fetch hcode hlen hc.core.boundary
    (mentions_emit s hs hc.whole hc.weak herr) h.table hsmall (Shape.ne_raw_of_mem_mentions hs hop)
  refine ⟨_, ?_, hfetch, ?_⟩
  · rw [Shape.instruction, hop, Option.map_some]
    refine congrArg some ?_
    congr 1
    split
    · next hcount' => exact (hcount hcount').symm
    · rfl
  · rw [hcode, List.length_append, List.length_cons]
    dsimp only
    omega

theorem placed_seq (ha : a.Made) (hs : s.Made) (iha : Placed a) (ihs : Placed s) :
    Placed (.seq a s) := by
  intro c r code table hc hf hr herr hsmall h
  rw [exec_seq] at herr h ⊢
  have herra := error_of_emit s herr
  obtain ⟨hca, haa, hfa⟩ := hc.emit ha hf.left herra
  have hfs := ((fits_seq hfa).1 hf).2
  obtain ⟨-, has, -⟩ := hca.emit hs hfs herr
  have hfixed := fixed_emit a c
  have hlays := ihs hca hfs (hr.congr hfixed hfa.loopStart) herr hsmall
    (h.restrict (.refl _) haa.length fun _ hj => absurd hj List.not_mem_nil)
  rw [setting_eq hfixed] at hlays
  exact ⟨_, iha hc hf.left hr herra hsmall (h.restrict has (Nat.le_refl _) fun _ hj =>
    absurd hj List.not_mem_nil), hlays⟩

theorem placed_guard (ho : o.isJump) (ha : a.Made) (iha : Placed a) : Placed (.guard o ho a) := by
  intro c r code table hc hf hr herr hsmall h
  rw [exec_guard] at herr h ⊢
  have herra := error_of_patchJump herr
  have hfa : Fits a (c.jumped o) :=
    Fits.congr (c := c) ⟨hf.loops, hf.room⟩ rfl (openJumps_jumped c o)
  obtain ⟨hca, haa, hframe⟩ := (hc.jumped ho).emit ha hfa herra
  have hlen := haa.length
  rw [Compiler.length_jumped] at hlen
  have hpatch := Closes.patchJump (by omega) herr
  have hsame : (exec (patchJump (c.code.length + 1)) (exec a.emit (c.jumped o))).code.length =
      (exec a.emit (c.jumped o)).code.length := by
    rw [(patchJump_ok herr).1, Compiler.length_patched]
  have hall := haa.trans hpatch.alters
  obtain ⟨hop, htarget⟩ := h.jumped hc (Nat.le_refl _) hall fun j hj =>
    .inr (by rw [List.mem_singleton.1 hj]; omega)
  refine ⟨hop, ?_, ?_⟩
  · rw [htarget, hsame]
    exact hpatch.sent _ (List.mem_singleton_self _)
  · have hlays := iha (hc.jumped ho) hfa (hr.congr rfl rfl) herra hsmall
      (h.restrict hpatch.alters (by simp) fun j hj => .inl (by rw [List.mem_singleton.1 hj]; simp))
    rw [Compiler.length_jumped] at hlays
    rw [hsame]
    exact hlays

/-- The end of the first part of a branch. -/
structure Over (c : Compiler) (j : ℕ) (c' : Compiler) : Prop where
  inOrder : c'.InOrder
  closes : Closes [(j, c.code.length + 3)] (c.jumped .jump) c'
  length : c'.code.length = c.code.length + 3
  loose : Loose c' (c.code.length + 1)
  fixed : c'.fixed = c.fixed
  loopStart : c'.loopStart = c.loopStart
  openJumps : ∀ e, c'.openJumps e = c.openJumps e

theorem over_patchJump (hc : c.InOrder) (hl : Loose c j)
    (herr : (exec (patchJump j) (c.jumped .jump)).error = none) :
    Over c j (exec (patchJump j) (c.jumped .jump)) := by
  have hle := hl.lt hc.core
  obtain ⟨hc', hs⟩ := (hc.jumped (o := .jump) rfl).patchJump
    (hl.frame hc.core (Frame.jumped c .jump)) herr
  have hpatch := Closes.patchJump (by rw [Compiler.length_jumped]; omega) herr
  rw [Compiler.length_jumped] at hpatch
  refine ⟨hc', hpatch, ?_, (Loose.jumped hc.core hc.openOk .jump).endStep hs ?_,
    fixed_patchJump _ _, ?_, fun e => ?_⟩
  · rw [(patchJump_ok herr).1, Compiler.length_patched, Compiler.length_jumped]
  · rw [List.mem_singleton]
    omega
  · rw [(patchJump_ok herr).1]
    rfl
  · rw [(patchJump_ok herr).1]
    cases e <;> rfl

theorem placed_branch (ho : o.isJump) (ha : a.Made) (hb : s.Made) (iha : Placed a)
    (ihb : Placed s) : Placed (.branch o ho a s) := by
  intro c r code table hc hf hr herr hsmall h
  rw [exec_branch] at herr h ⊢
  have herrb := error_of_patchJump herr
  have herrj := error_of_emit s herrb
  have herra := error_of_patchJump herrj
  rw [error_jumped] at herra
  have hf₁ : Fits (.seq a s) (c.jumped o) :=
    Fits.congr (c := c) ⟨hf.loops, hf.room⟩ rfl (openJumps_jumped c o)
  have hc₁ := hc.jumped ho
  obtain ⟨hc₂, haa, hfa⟩ := hc₁.emit ha hf₁.left herra
  have hover := over_patchJump hc₂ ((Loose.jumped hc.core hc.openOk o).frame hc₁.core hfa) herrj
  have hf₄ := (((fits_seq hfa).1 hf₁).2).congr hover.loopStart hover.openJumps
  obtain ⟨-, hab, -⟩ := hover.inOrder.emit hb hf₄ herrb
  have hfixed := hover.fixed.trans ((fixed_emit a (c.jumped o)).trans (fixed_jumped c o))
  have hr₄ := hr.congr hfixed (hover.loopStart.trans hfa.loopStart)
  have hlen₂ := haa.length
  rw [Compiler.length_jumped] at hlen₂
  have hpatch := Closes.patchJump (by have := hover.length; have := hab.length; omega) herr
  have hsame := congrArg (fun c : Compiler => c.code.length) (patchJump_ok herr).1
  rw [Compiler.length_patched] at hsame
  have hfirst := @iha _ r code table hc₁ hf₁.left (hr.congr rfl rfl) herra hsmall
  have hsecond := @ihb _ r code table hover.inOrder hf₄ hr₄ herrb hsmall
  rw [setting_eq hfixed, hover.length] at hsecond
  rw [Compiler.length_jumped] at hfirst
  generalize exec a.emit (c.jumped o) = c₂ at *
  generalize exec (patchJump (c.code.length + 1)) (c₂.jumped .jump) = c₄ at *
  generalize exec s.emit c₄ = c₅ at *
  generalize exec (patchJump (c₂.code.length + 1)) c₅ = c₆ at *
  have hrest := hab.trans hpatch.alters
  have hrest₃ := hover.closes.alters.trans hrest
  have hrest₂ := (Alters.jumped .jump c₂).trans hrest₃
  have hall := haa.trans hrest₂
  simp only [List.map_cons, List.map_nil, List.nil_append, List.cons_append] at hrest hrest₃ hrest₂ hall
  have hlen₄ := hover.length
  obtain ⟨hop, htarget⟩ := h.jumped hc (Nat.le_refl _) hall (by simp; omega)
  obtain ⟨hjump, hend⟩ := h.jumped hc₂ (by omega) hrest₃ (by simp; omega)
  refine ⟨c₂.code.length, hop, ?_, ?_, hjump, ?_, ?_⟩
  · rw [htarget, hrest.jumpTarget (by omega) (by simp [Apart]; omega)]
    exact hover.closes.sent _ (List.mem_singleton_self _)
  · exact hfirst (h.restrict hrest₂ (by simp) (by simp))
  · rw [hend, hsame]
    exact hpatch.sent _ (List.mem_singleton_self _)
  · rw [hsame]
    exact hsecond (h.restrict hpatch.alters (by omega) (by simp; omega))

theorem placed_inTry (iha : Placed a) : Placed (.inTry a) := by
  intro c r code table hc hf hr herr hsmall h
  rw [exec_inTry] at herr h ⊢
  have hc' : ({ c with tryDepth := c.tryDepth + 1 } : Compiler).InOrder :=
    hc.straight (straight_tryDepth c (c.tryDepth + 1))
  have hf' : Fits a { c with tryDepth := c.tryDepth + 1 } :=
    Fits.congr (c := c) ⟨hf.loops, hf.room⟩ rfl (by rintro (_ | _) <;> rfl)
  have hr' : Stands { r with depth := r.depth + 1 } { c with tryDepth := c.tryDepth + 1 } := by
    have := hr.tries
    refine ⟨hr.inLoop, ?_, ?_⟩
    · dsimp only
      rw [hr.depth]
      omega
    · dsimp only
      omega
  have hall := @iha _ _ code table hc' hf' hr' herr hsmall
  generalize exec a.emit { c with tryDepth := c.tryDepth + 1 } = last at *
  refine hall ⟨h.agrees, fun e j hj hlt => ?_, h.table⟩
  cases e
  · exact h.sent .brk j hj hlt
  · exact h.sent .cont j hj hlt

/-! ### Statements that leave a loop -/

theorem code_popHandlers (c : Compiler) : (exec popHandlers c).code =
    c.code ++ List.replicate (c.tryDepth - c.loopTryDepth) Opcode.popHandler.byte := by
  simp only [popHandlers, exec_bind, result_get, exec_get]
  generalize c.tryDepth - c.loopTryDepth = n
  induction n generalizing c with
  | zero => exact (List.append_nil _).symm
  | succ n ih =>
    refine (ih (exec (emitOp .popHandler) c)).trans ?_
    rw [exec_emitOp, List.append_assoc]
    rfl

theorem leavesTo_emitExit {e : Exit} (hc : c.InOrder) (hr : Stands r c)
    (h : Final code table r c (exec (emitExit e) c)) :
    LeavesTo code r.depth (r.target e) c.code.length (exec (emitExit e) c).code.length := by
  have hcode : (exec (emitExit e) c).code =
      c.code ++ List.replicate r.depth Opcode.popHandler.byte ++ [Opcode.jump.byte, 0xFF, 0xFF] := by
    rw [exec_emitExit, Compiler.opened_code, hr.depth, ← code_popHandlers]
    rfl
  have hlen : (exec popHandlers c).code.length = c.code.length + r.depth := by
    rw [code_popHandlers, hr.depth, List.length_append, List.length_replicate]
  have hopen : ∀ i, ∀ j ∈ (exec (emitExit e) c).openJumps i,
      j + 2 ≤ c.code.length ∨ (i = e ∧ j = c.code.length + r.depth + 1) := by
    intro i j hj
    rw [exec_emitExit, Compiler.opened_openJumps, List.mem_append] at hj
    have hsame : ((exec popHandlers c).jumped .jump).openJumps i = c.openJumps i := by
      cases i <;> simp only [Compiler.openJumps, Compiler.jumped, (straight_popHandlers c).audit]
    rcases hj with hj | hj
    · exact .inl (hc.le_length i j (hsame ▸ hj))
    · split at hj
      · next hi => exact .inr ⟨hi.symm, by rw [List.mem_singleton.1 hj, hlen]⟩
      · exact absurd hj List.not_mem_nil
  have hall : (exec (emitExit e) c).code.length = c.code.length + r.depth + 3 := by
    simp only [hcode, List.length_append, List.length_replicate, List.length_cons, List.length_nil]
  have hagree : ∀ i, c.code.length ≤ i → i ≤ c.code.length + r.depth →
      opcodeAt code i = opcodeAt (exec (emitExit e) c).code i := fun i hi hi' =>
    opcodeAt_congr (h.agrees i hi (by omega) fun e' j hj => by
      have := hopen e' j hj
      omega)
  refine ⟨fun k hk => ?_, ?_, ?_, hall⟩
  · rw [hagree _ (by omega) (by omega), hcode, opcodeAt, List.append_assoc,
      List.getElem?_append_right (by omega), Nat.add_sub_cancel_left,
      List.getElem?_append_left (by simpa using hk), List.getElem?_replicate_of_lt hk]
    rfl
  · rw [hagree _ (by omega) (by omega), hcode]
    have hat := opcodeAt_emit (c.code ++ List.replicate r.depth Opcode.popHandler.byte) .jump
      [0xFF, 0xFF]
    rwa [List.length_append, List.length_replicate] at hat
  · refine h.sent e _ ?_ (by omega)
    rw [exec_emitExit, Compiler.opened_openJumps, if_pos rfl, hlen]
    exact List.mem_append_right _ (List.mem_singleton_self _)

theorem placed_brk : Placed .brk := by
  intro c r code table hc _ hr _ _ h
  rw [exec_brk] at h ⊢
  rw [Shape.Lays, hr.inLoop, Compiler.inLoop]
  by_cases hl : 0 ≤ c.loopStart
  · rw [if_pos hl] at h ⊢
    rw [decide_eq_true hl, if_pos rfl]
    exact leavesTo_emitExit hc hr h
  · rw [if_neg hl, decide_eq_false hl, if_neg Bool.false_ne_true]

theorem placed_cont : Placed .cont := by
  intro c r code table hc _ hr _ _ h
  rw [exec_cont] at h ⊢
  rw [Shape.Lays, hr.inLoop, Compiler.inLoop]
  by_cases hl : 0 ≤ c.loopStart
  · rw [if_pos hl] at h ⊢
    rw [decide_eq_true hl, if_pos rfl]
    exact leavesTo_emitExit hc hr h
  · rw [if_neg hl, decide_eq_false hl, if_neg Bool.false_ne_true]

/-! ### Loops -/

variable {loose : List (ℕ × ℕ)} {brk cont k t next : ℕ} {t' : Shape}

/-- The code of a loop whose contents end at `b`, with all its jumps patched. -/
structure Enclosed (code : List UInt8) (table : List Constant) (c b last : Compiler)
    (loose : List (ℕ × ℕ)) (brk cont : ℕ) : Prop where
  agree : AgreeOn last.code code c.code.length last.code.length
  table : last.constants <+: table
  closes : Closes (endJumps b loose brk cont) b last
  le : ∀ e, ∀ j ∈ b.openJumps e, j + 2 ≤ b.code.length

theorem enclosed (loose : List (ℕ × ℕ)) (hc : c.InOrder) (hs : Spread b (loose.map Prod.fst))
    (hcl : Closes (endJumps b loose brk cont) b last) (h : Final code table r c (c.leave next last)) :
    Enclosed code table (exec enterLoop c) b last loose brk cont where
  agree i hi hi' := h.agrees i hi hi' fun e j hj => by
    have := hc.le_length e j (openJumps_leave c last next e ▸ hj)
    have hi : c.code.length ≤ i := hi
    omega
  table := h.table
  closes := hcl
  le := hs.le

namespace Enclosed

theorem getElem? (h : Enclosed code table c b last loose brk cont) (hi : c.code.length ≤ i)
    (hi' : i < b.code.length) (hloose : ∀ x ∈ loose, x.1 + 2 ≤ i ∨ i < x.1)
    (hopen : ∀ e, ∀ j ∈ b.openJumps e, j + 2 ≤ i ∨ i < j) : code[i]? = b.code[i]? := by
  have hlen := h.closes.alters.length
  rw [h.agree i hi (by omega)]
  refine h.closes.alters.getElem? hi' fun j hj => ?_
  obtain ⟨x, hx, rfl⟩ := List.mem_map.1 hj
  rcases List.mem_append.1 hx with hx | hx
  · exact hloose x hx
  · rcases List.mem_append.1 hx with hx | hx
    · obtain ⟨i, hi, rfl⟩ := List.mem_map.1 hx
      exact hopen .brk i hi
    · obtain ⟨i, hi, rfl⟩ := List.mem_map.1 hx
      exact hopen .cont i hi

/-- The code of a part of the contents. -/
theorem final (h : Enclosed code table c b last loose brk cont) (ha : Alters [] c' b)
    (hp : c.code.length ≤ p.code.length)
    (hloose : ∀ x ∈ loose, x.1 + 2 ≤ p.code.length ∨ c'.code.length ≤ x.1)
    (hcont : ∀ j ∈ c'.openJumps .cont, p.code.length < j → k = cont) :
    Final code table ⟨true, brk, k, 0⟩ p c' where
  agrees i hi hi' hne := by
    have hlen := ha.length
    rw [h.getElem? (by omega) (by omega) (fun x hx => ?_) fun e j hj => ?_]
    · exact ha.getElem? hi' fun _ hj => absurd hj List.not_mem_nil
    · have := hloose x hx
      omega
    · rcases ha.new e j hj with hj | hj
      · have := hne e j hj
        omega
      · omega
  sent e j hj hlt := by
    have hmem := ha.old e j hj
    have hle := h.le e j hmem
    have hlen := h.closes.alters.length
    rw [h.agree.jumpTarget (by omega) (by omega)]
    cases e with
    | brk =>
      exact h.closes.sent (j, brk) (List.mem_append_right _ (List.mem_append_left _
        (List.mem_map_of_mem hmem)))
    | cont =>
      rw [Place.target, hcont j hj hlt]
      exact h.closes.sent (j, cont) (List.mem_append_right _ (List.mem_append_right _
        (List.mem_map_of_mem hmem)))
  table := (ha.table.trans h.closes.alters.table).trans h.table

/-- The jump out of a loop. -/
theorem jumped (hp : p.InOrder)
    (h : Enclosed code table c b last [(p.code.length + 1, t)] brk cont)
    (hle : c.code.length ≤ p.code.length) (ha : Alters [] (p.jumped o) b) :
    opcodeAt code p.code.length = some o ∧ jumpTarget code (p.code.length + 1) = t := by
  have hlen := ha.length
  rw [Compiler.length_jumped] at hlen
  have hlast := h.closes.alters.length
  refine ⟨?_, ?_⟩
  · rw [opcodeAt_congr (h.getElem? hle (by omega) (by simp) fun e j hj => ?_),
      ha.opcodeAt (by simp) (by simp)]
    · exact opcodeAt_emit p.code o [0xFF, 0xFF]
    · have := apart_jumped hp ha e j hj
      omega
  · rw [h.agree.jumpTarget (by omega) (by omega)]
    exact h.closes.sent (p.code.length + 1, t) (List.mem_append_left _ (List.mem_singleton_self _))

end Enclosed

theorem Contents.inOrder {spare : List ℕ} (h : Contents s c c' spare) (hf : Fits s c) : c'.InOrder :=
  have he := (h.emitted hf).1
  ⟨he.core, he.openOk, h.keeps.weak⟩

/-- The contents of a loop with a test. -/
theorem Compiler.InOrder.tested (hc : c.InOrder) (ho : o.isJump)
    (herr : (exec s.emit (exec (emitOp .pop) ((exec a.emit c).jumped o))).error = none) :
    Contents (.seq a s) c (exec s.emit (exec (emitOp .pop) ((exec a.emit c).jumped o)))
      [(exec a.emit c).code.length + 1] := by
  have herra := error_of_emit s herr
  rw [error_emitOp, error_jumped] at herra
  have hhead := Contents.of_lawful (keeps_emit a hc.weak herra)
    (emit_lawful a hc.core hc.openOk hc.weak herra)
  exact ((hhead.jumped ho).straight (straight_emitOp .pop rfl _)).seq
    (fun hc ho hw => emit_lawful s hc ho hw herr) herr

/-- The head and the body of a loop with a test. -/
theorem lays_tested (ho : o.isJump) (ha : a.Made) (hs : s.Made) (iha : Placed a) (ihs : Placed s)
    (hc : c.InOrder) (hf : Fits (.seq a s) c) (hr : Stands ⟨true, brk, k, 0⟩ c)
    (herr : (exec s.emit (exec (emitOp .pop) ((exec a.emit c).jumped o))).error = none)
    (hsmall : table.length ≤ 65536)
    (h : Enclosed code table c b last [((exec a.emit c).code.length + 1, t)] brk cont)
    (hb : Alters [] (exec s.emit (exec (emitOp .pop) ((exec a.emit c).jumped o))) b)
    (hcont : ∀ j ∈ (exec s.emit (exec (emitOp .pop) ((exec a.emit c).jumped o))).openJumps .cont,
      k = cont) :
    ∃ m, a.Lays code table c.setting ⟨true, brk, k, 0⟩ c.code.length m ∧
      opcodeAt code m = some o ∧ jumpTarget code (m + 1) = t ∧
      opcodeAt code (m + 3) = some .pop ∧
      s.Lays code table c.setting ⟨true, brk, k, 0⟩ (m + 4)
        (exec s.emit (exec (emitOp .pop) ((exec a.emit c).jumped o))).code.length := by
  have herra := error_of_emit s herr
  rw [error_emitOp, error_jumped] at herra
  obtain ⟨hc₁, haa, hfa⟩ := hc.emit ha hf.left herra
  have hlen₁ := haa.length
  have hfixed := fixed_emit a c
  have hfirst := @iha _ _ code table hc hf.left hr herra hsmall
  have hf₁ := ((fits_seq hfa).1 hf).2
  have hr₁ := hr.congr hfixed hfa.loopStart
  generalize exec a.emit c = c₁ at *
  have hc₃ := (hc₁.jumped ho).straight (straight_emitOp .pop rfl (c₁.jumped o))
  have hf₃ : Fits s (exec (emitOp .pop) (c₁.jumped o)) :=
    hf₁.congr rfl (by rintro (_ | _) <;> rfl)
  have hlen₃ : (exec (emitOp .pop) (c₁.jumped o)).code.length = c₁.code.length + 4 := by simp
  obtain ⟨-, hab, -⟩ := hc₃.emit hs hf₃ herr
  have hsecond := @ihs _ _ code table hc₃ hf₃ (hr₁.congr rfl rfl) herr hsmall
  have hpop := Alters.emitOp .pop (c₁.jumped o)
  have hrest : Alters [] (c₁.jumped o) b := (hpop.trans hab).trans hb
  have hfirst := hfirst (h.final ((Alters.jumped o c₁).trans hrest) (Nat.le_refl _) (by simp)
    fun j hj _ => hcont j ((hpop.trans hab).old .cont j ((Alters.jumped o c₁).old .cont j hj)))
  have hsecond := hsecond (h.final hb (by omega) (by simp) fun j hj _ => hcont j hj)
  obtain ⟨hop, htarget⟩ := h.jumped hc₁ hlen₁ hrest
  rw [hlen₃] at hsecond
  have hset : (exec (emitOp .pop) (c₁.jumped o)).setting = c.setting := setting_eq hfixed
  rw [hset] at hsecond
  refine ⟨c₁.code.length, hfirst, hop, htarget, ?_, hsecond⟩
  have hwritten := (h.final (p := c₁.jumped o) (k := cont) (hab.trans hb) (by simp; omega)
    (by simp) fun _ _ _ => rfl).written (p := exec (emitOp .pop) (c₁.jumped o)) (o := .pop)
    [] rfl (openJumps_emitOp .pop _) (hc₁.jumped ho).le_length (Nat.le_refl _)
    (.refl _) fun _ hj => absurd hj List.not_mem_nil
  rwa [Compiler.length_jumped] at hwritten

/-- The step of a loop. -/
theorem lays_step (hs : s.Made) (ihs : Placed s) (hb : b.InOrder) (hf : Fits s b)
    (hr : Stands ⟨true, brk, k, 0⟩ b) (herr : (exec s.emit b).error = none)
    (hsmall : table.length ≤ 65536) (hown : s.own .cont = 0)
    (hle : c.code.length ≤ b.code.length) (hloose : ∀ x ∈ loose, x.1 + 2 ≤ b.code.length)
    (h : Enclosed code table c (exec s.emit b) last loose brk cont) :
    s.Lays code table b.setting ⟨true, brk, k, 0⟩ b.code.length (exec s.emit b).code.length := by
  obtain ⟨-, -, hframe⟩ := hb.emit hs hf herr
  refine ihs hb hf hr herr hsmall
    (h.final (.refl _) hle (fun x hx => .inl (hloose x hx)) fun j hj hlt => absurd hj fun hj => ?_)
  obtain ⟨js, hjs, hlen, -⟩ := hframe.openJumps .cont
  have hnone : js = [] := List.length_eq_zero_iff.1 (by simpa [counted, hown] using hlen)
  rw [hjs, hnone, List.append_nil] at hj
  have := hb.le_length .cont j hj
  omega

theorem stands_enterLoop (c : Compiler) (brk cont : ℕ) :
    Stands ⟨true, brk, cont, 0⟩ (exec enterLoop c) := by
  refine ⟨?_, ?_, Nat.le_refl _⟩
  · simp [Compiler.inLoop, enterLoop]
  · simp [enterLoop]

theorem length_leave (c last : Compiler) (next : ℕ) :
    (c.leave next last).code.length = last.code.length := rfl

theorem placed_whileLoop (ho : o.isJump) (ha : a.Made) (hs : s.Made) (iha : Placed a)
    (ihs : Placed s) : Placed (.whileLoop o ho a s) := by
  intro c r code table hc hf _ herr hsmall h
  rw [exec_whileLoop] at herr h ⊢
  rw [error_leave] at herr
  have herrb := error_of_endWhile herr
  obtain ⟨-, hown, hf'⟩ := (fits_loop (s := .seq a s) (g := (Shape.seq a s).own .cont = 0)
    hc.openOk (fun _ => rfl) (by
      simp only [Shape.loopsOk, Shape.own, Shape.uses, Bool.and_eq_true, decide_eq_true_eq,
        and_assoc])).1 hf
  have hcon := hc.enterLoop.tested ho herrb
  obtain ⟨he, hl⟩ := hcon.emitted hf'
  have hspread := spread he.core he.openOk hl
  obtain ⟨hcl, hlen, hback, hexit⟩ :=
    closes_endWhile hspread he.frame.loopStart hcon.keeps.length herr
  have henc := enclosed [(_, _)] hc hspread hcl h
  have hnone := List.length_eq_zero_iff.1 ((openJumps_contents he .cont).1.trans hown)
  have hle := hcon.keeps.length
  obtain ⟨m, hhead, hop, htarget, hpop, hbody⟩ := lays_tested ho ha hs iha ihs hc.enterLoop hf'
    (stands_enterLoop c _ (exec s.emit (exec (emitOp .pop)
      ((exec a.emit (exec enterLoop c)).jumped o))).code.length) herrb hsmall henc (.refl _)
    fun j hj => by rw [hnone] at hj; cases hj
  generalize exec s.emit (exec (emitOp .pop) ((exec a.emit (exec enterLoop c)).jumped o)) = b at *
  rw [length_leave, hlen]
  refine ⟨m, b.code.length, rfl, hhead, hop, htarget, hpop, hbody, ?_, ?_⟩
  · exact henc.agree.takesBack hle (by omega) hback
  · rw [henc.agree.opcodeAt (by omega) (by omega)]
    exact hexit

theorem placed_forLoop (ha : a.Made) (hs : s.Made) (ht : t'.Made) (iha : Placed a)
    (ihs : Placed s) (iht : Placed t') : Placed (.forLoop a s t') := by
  intro c r code table hc hf _ herr hsmall h
  rw [exec_forLoop] at herr h ⊢
  rw [error_leave] at herr
  have herrt := error_of_endFor herr
  have herrb := error_of_emit t' herrt
  obtain ⟨-, hown, hf'⟩ := (fits_loop (s := .seq (.seq a s) t') (g := t'.own .cont = 0)
    hc.openOk (fun _ => rfl) (by
      simp only [Shape.loopsOk, Shape.own, Shape.uses, Bool.and_eq_true, decide_eq_true_eq,
        and_assoc])).1 hf
  have hbody := hc.enterLoop.tested (o := .jumpIfFalse) rfl herrb
  obtain ⟨heb, hlb⟩ := hbody.emitted hf'.left
  have hb := hbody.inOrder hf'.left
  have hft := ((fits_seq heb.frame).1 hf').2
  have hcon := hbody.seq (fun hc ho hw => emit_lawful t' hc ho hw herrt) herrt
  obtain ⟨he, hl⟩ := hcon.emitted hf'
  have hstepped := stepped hbody (fun hc ho => emit_lawful t' hc ho hb.weak herrt) hf'
  have hloop := herr
  rw [exec_endFor] at hloop
  have hloop := error_of_patchBreaks hloop
  rw [error_writeContinues, error_emitOp] at hloop
  have hreach := hstepped.reach hown (error_of_patchJump hloop)
  have hspread := spread he.core he.openOk hl
  obtain ⟨hcl, hlen, hback, hexit⟩ :=
    closes_endFor hspread he.frame.loopStart hcon.keeps.length hreach herr
  have henc := enclosed [(_, _)] hc hspread hcl h
  have hle := hcon.keeps.length
  have hleb := hbody.keeps.length
  have hlt := hlb _ (List.mem_singleton_self _)
  obtain ⟨-, hat, -⟩ := hb.emit ht hft herrt
  obtain ⟨m, hhead, hop, htarget, hpop, hlays⟩ := lays_tested (o := .jumpIfFalse) rfl ha hs iha ihs
    hc.enterLoop hf'.left (stands_enterLoop c _ _) herrb hsmall henc hat fun _ _ => rfl
  have hset : (exec s.emit (exec (emitOp .pop)
      ((exec a.emit (exec enterLoop c)).jumped .jumpIfFalse))).fixed = (exec enterLoop c).fixed :=
    (fixed_emit s _).trans ((fixed_emitOp _ _).trans ((fixed_jumped _ _).trans (fixed_emit a _)))
  have hrt := fun brk cont => (stands_enterLoop c brk cont).congr hset heb.frame.loopStart
  have hstep := lays_step (k := (exec t'.emit (exec s.emit (exec (emitOp .pop)
    ((exec a.emit (exec enterLoop c)).jumped .jumpIfFalse)))).code.length) ht iht hb hft (hrt _ _)
    herrt hsmall hown hleb (by simpa using hlt.lt hb.core) henc
  rw [setting_eq hset] at hstep
  rw [length_leave, hlen]
  generalize exec s.emit (exec (emitOp .pop)
    ((exec a.emit (exec enterLoop c)).jumped .jumpIfFalse)) = b at *
  generalize exec t'.emit b = d at *
  refine ⟨m, b.code.length, d.code.length, rfl, hhead, hop, htarget, hpop, hlays, hstep, ?_, ?_⟩
  · exact henc.agree.takesBack hle (by omega) hback
  · rw [henc.agree.opcodeAt (by omega) (by omega)]
    exact hexit

theorem placed_foreverLoop (hs : s.Made) (ht : t'.Made) (ihs : Placed s) (iht : Placed t') :
    Placed (.foreverLoop s t') := by
  intro c r code table hc hf _ herr hsmall h
  rw [exec_foreverLoop] at herr h ⊢
  rw [error_leave] at herr
  have herrt := error_of_endForever herr
  have herrb := error_of_emit t' herrt
  obtain ⟨-, hown, hf'⟩ := (fits_loop (s := .seq s t') (g := t'.own .cont = 0)
    hc.openOk (fun _ => rfl) (by
      simp only [Shape.loopsOk, Shape.own, Shape.uses, Bool.and_eq_true, decide_eq_true_eq,
        and_assoc])).1 hf
  have hc' := hc.enterLoop
  have hbody := Contents.of_lawful (keeps_emit s hc'.weak herrb)
    (emit_lawful s hc'.core hc'.openOk hc'.weak herrb)
  obtain ⟨heb, -⟩ := hbody.emitted hf'.left
  have hb := hbody.inOrder hf'.left
  have hft := ((fits_seq heb.frame).1 hf').2
  have hcon := hbody.seq (fun hc ho hw => emit_lawful t' hc ho hw herrt) herrt
  obtain ⟨he, hl⟩ := hcon.emitted hf'
  have hstepped := stepped hbody (fun hc ho => emit_lawful t' hc ho hb.weak herrt) hf'
  have hloop := herr
  rw [exec_endForever] at hloop
  have hloop := error_of_patchBreaks hloop
  rw [error_writeContinues] at hloop
  have hreach := hstepped.reach hown hloop
  have hspread := spread he.core he.openOk hl
  obtain ⟨hcl, hlen, hback⟩ :=
    closes_endForever hspread he.frame.loopStart hcon.keeps.length hreach herr
  have henc := enclosed [] hc hspread hcl h
  have hle := hcon.keeps.length
  obtain ⟨-, hat, -⟩ := hb.emit ht hft herrt
  have hlays := ihs hc' hf'.left (stands_enterLoop c _ _) herrb hsmall
    (henc.final hat (Nat.le_refl _) (by simp) fun _ _ _ => rfl)
  have hset := fixed_emit s (exec enterLoop c)
  have hrt := fun brk cont => (stands_enterLoop c brk cont).congr hset heb.frame.loopStart
  have hstep := lays_step (k := (exec t'.emit (exec s.emit (exec enterLoop c))).code.length)
    ht iht hb hft (hrt _ _) herrt hsmall hown hbody.keeps.length (by simp) henc
  rw [setting_eq hset] at hstep
  rw [length_leave, hlen]
  generalize exec s.emit (exec enterLoop c) = b at *
  generalize exec t'.emit b = d at *
  exact ⟨b.code.length, d.code.length, rfl, hlays, hstep,
    henc.agree.takesBack hle (by omega) hback⟩

/-- The cleanup of a `foreach`. -/
theorem Final.pops (h : Final code table r c (exec (emitOp .pop) (exec (emitOp .pop) c')))
    (hopen : ∀ e, ∀ j ∈ c'.openJumps e, j + 2 ≤ c'.code.length)
    (hle : c.code.length ≤ c'.code.length) :
    opcodeAt code c'.code.length = some .pop ∧ opcodeAt code (c'.code.length + 1) = some .pop := by
  have hlen : (exec (emitOp .pop) c').code.length = c'.code.length + 1 := by simp
  refine ⟨h.written (p := exec (emitOp .pop) c') [] rfl (openJumps_emitOp .pop c') hopen
    hle (Alters.emitOp .pop _) (by simp), ?_⟩
  rw [← hlen]
  refine h.written (p := exec (emitOp .pop) (exec (emitOp .pop) c')) [] rfl
    (openJumps_emitOp .pop _) (fun e j hj => ?_) (by omega) (.refl _) (by simp)
  have := hopen e j (openJumps_emitOp .pop c' e ▸ hj)
  omega

theorem placed_foreachLoop (ho : o.isJump) (hs : s.Made) (ihs : Placed s) :
    Placed (.foreachLoop o ho s) := by
  intro c r code table hc hf _ herr hsmall h
  rw [exec_foreachLoop] at herr h ⊢
  rw [error_emitOp, error_emitOp, error_leave] at herr
  have herrb := error_of_endForeach herr
  obtain ⟨-, -, hf'⟩ := (fits_loop (s := s) (g := True) hc.openOk (fun _ => rfl) (by
    simp only [Shape.loopsOk, Bool.and_eq_true, true_and])).1 hf
  have hc' := hc.enterLoop
  have hcon := (((Contents.skip hc'.core hc'.openOk hc'.weak).jumped ho).seq
    (fun hc ho hw => emit_lawful s hc ho hw herrb) herrb).of_skip
  obtain ⟨he, hl⟩ := hcon.emitted hf'
  have hspread := spread he.core he.openOk hl
  obtain ⟨hcl, hlen, hback⟩ :=
    closes_endForeach hspread he.frame.loopStart hcon.keeps.length herr
  -- the cleanup comes after the loop
  have hloop := h.restrict ((Alters.emitOp .pop _).trans (Alters.emitOp .pop _)) (Nat.le_refl _)
    fun _ hj => absurd hj List.not_mem_nil
  have henc := enclosed [(_, _)] hc hspread hcl hloop
  have hle := hcon.keeps.length
  have hf₂ : Fits s ((exec enterLoop c).jumped o) := hf'.congr rfl (openJumps_jumped _ o)
  obtain ⟨-, hab, -⟩ := (hc'.jumped ho).emit hs hf₂ herrb
  obtain ⟨hop, htarget⟩ := henc.jumped hc' (Nat.le_refl _) hab
  have hlays := ihs (hc'.jumped ho) hf₂ ((stands_enterLoop c _ _).congr rfl rfl) herrb hsmall
    (henc.final (.refl _) (by simp) (by simp) fun _ _ _ => rfl)
  rw [Compiler.length_jumped] at hlays
  have hpops := h.pops (fun e j hj => ?_) ?_
  · rw [length_leave, hlen] at hpops
    refine ⟨_, ?_, hop, htarget, hlays, henc.agree.takesBack hle (by omega) hback, hpops.1, hpops.2⟩
    rw [exec_emitOp, exec_emitOp, List.length_append, List.length_append, length_leave, hlen]
    rfl
  · rw [openJumps_leave] at hj
    have := hc.le_length e j hj
    rw [length_leave, hlen]
    exact Nat.le_trans this (Nat.le_add_right_of_le hle)
  · rw [length_leave, hlen]
    exact Nat.le_add_right_of_le hle

/-! ### Shapes -/

/-- A piece that is one instruction. -/
theorem placed_instruction (hs : s.Made) (hleaf : ∀ x, ∃ o, s.leafOp x = some o)
    (hstraight : ∀ c, Straight c (exec s.emit c))
    (hlays : ∀ code table x r p q, s.Lays code table x r p q ↔ ∃ i, s.instruction x = some i ∧
      Activation.fetch code table p = some i ∧ q = p + i.op.length) : Placed s :=
  fun _ _ _ _ hc _ _ herr hsmall h =>
    (hlays _ _ _ _ _ _).2 (placed_leaf hs hleaf hstraight hc herr hsmall h)

/-- A shape writes its own code. -/
theorem placed_emit (hp : s.Proper) (hs : s.Made) : Placed s := by
  induction hp with
  | skip => exact fun _ _ _ _ _ _ _ _ _ _ => rfl
  | fail message => exact fun _ _ _ _ _ _ _ herr _ _ => absurd herr (exec_compilerError_error message _)
  | seq _ _ iha ihb => exact placed_seq hs.1 hs.2 (iha hs.1) (ihb hs.2)
  | @guard o a h _ _ ih => exact placed_guard (a := a) h hs (ih hs)
  | branch h _ _ _ iha ihb => exact placed_branch h hs.1 hs.2 (iha hs.1) (ihb hs.2)
  | @attempt a b h h' _ _ iha ihb =>
    have hpop : Placed (.op .popHandler [] h') := placed_instruction hs.1.2
      (fun _ => ⟨_, rfl⟩) (fun c => straight_of_leaf c trivial) fun _ _ _ _ _ _ => Iff.rfl
    exact placed_branch h hs.1 hs.2
      (placed_seq hs.1.1 hs.1.2 (placed_inTry (iha hs.1.1)) hpop) (ihb hs.2)
  | brk => exact placed_brk
  | cont => exact placed_cont
  | whileLoop h _ _ _ iha ihb => exact placed_whileLoop h hs.1 hs.2 (iha hs.1) (ihb hs.2)
  | forLoop _ _ _ iha ihb ihs =>
    exact placed_forLoop hs.1 hs.2.1 hs.2.2 (iha hs.1) (ihb hs.2.1) (ihs hs.2.2)
  | foreverLoop _ _ ihb ihs => exact placed_foreverLoop hs.1 hs.2 (ihb hs.1) (ihs hs.2)
  | @foreachLoop o a h _ _ ih => exact placed_foreachLoop (s := a) h hs (ih hs)
  | _ =>
    exact placed_instruction hs (fun _ => ⟨_, rfl⟩) (fun c => straight_of_leaf c trivial)
      fun _ _ _ _ _ _ => Iff.rfl

end

end Slp
