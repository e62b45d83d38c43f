import Slp.Parse.Bounds

/-!
# Every parse function keeps to its bounds

`Good k n r`: the functions and loops of `r` keep to the contract when they have `n` levels.  Every
function over such an `r` keeps to it as well, and so does the next level: `good` says that all
levels do.  The levels a call takes are eight for each byte of the source that is left, and up to
four more, in the order in which the functions call one another without passing over a token.
-/

namespace Slp.Parse

open Program

/-- The nodes an expression can have over the expressions in it, before its operators: a string of
512 parts. -/
def operandHeight : ℕ := 520

/-- At most `m` parts of a string, all of them low. -/
structure Filled (k m : ℕ) (as : List Tree) (t : Parser) : Prop where
  length : as.length ≤ m
  low : Lows k 2 as t
  found : ∀ a ∈ as, a.isMissing = false

structure Good (k n : ℕ) (r : Calls) : Prop where
  parsePrecedence : ∀ p s, 1 ≤ p → (contract n 1 k 1).Meets (r.parsePrecedence p) s fun a t =>
    Result k 0 a t ∧ Progress s t
  statement : ∀ s, (contract n 2 k 1).Meets r.statement s fun a t => Result k 0 a t ∧ Progress s t
  declaration : ∀ s, (contract n 3 k 4).Meets r.declaration s fun a t =>
    Result k 1 a t ∧ Progress s t
  precedenceLoop : ∀ p j a s, 1 ≤ p → j ≤ s.trail.rounds → Result k (operandHeight + j) a s →
    (contract n 1 k 10).Meets (r.precedenceLoop p j a) s fun a t =>
      Result k (operandHeight + k) a t
  juxtaposeLoop : ∀ b s, (contract n 1 k 1).Meets (r.juxtaposeLoop b) s fun _ _ => True
  tupleLoop : ∀ as s, Lows k 0 as s →
    (contract n 1 k 4).Meets (r.tupleLoop as) s fun as t => Lows k 0 as t
  /-- After an error the loop of a block ends at once. -/
  blockLoop : ∀ m c as s, 1 ≤ n → (s.hadError = false → 8 * s.measure + 4 ≤ n) → Lows k 1 as s →
    (contract m c k 4).Meets (r.blockLoop as) s fun as t => Lows k 1 as t
  scriptLoop : ∀ m c as s, 1 ≤ n → (s.hadError = false → 8 * s.measure + 4 ≤ n) → Lows k 1 as s →
    (contract m c k 4).Meets (r.scriptLoop as) s fun as t => Lows k 1 as t
  forLoop : ∀ type as s, Lows k 0 as s →
    (contract n 2 k 4).Meets (r.forLoop type as) s fun as t => Lows k 0 as t
  argsLoop : ∀ type as s, Lows k 2 as s →
    (contract n 2 k 4).Meets (r.argsLoop type as) s fun as t => Lows k 2 as t
  qualifiedLoop : ∀ b s, (contract n 1 k 1).Meets (r.qualifiedLoop b) s fun _ _ => True
  importLoop : ∀ b s, (contract n 1 k 1).Meets (r.importLoop b) s fun _ _ => True
  /-- A string takes its levels for its own bytes. -/
  partsLoop : ∀ m c p s, 8 * p.cursor.length + 1 ≤ n → Filled k 511 p.parts s →
    (contract m c k 4).Meets (r.partsLoop p) s fun p' t =>
      match p' with
      | none => t.hadError = true
      | some p' => Filled k 511 p'.parts t

/-! ### Reading the state -/

section Reads

variable {C : Contract Fault Parser} {β : Type} {s : Parser} {R : β → Parser → Prop}

theorem nodeLine_bind {f : ℤ → ParserM β} (h : C.Meets (f s.previous.line) s R) :
    C.Meets (nodeLine >>= f) s R := h

theorem previousText_bind {f : Bytes → ParserM β} (h : C.Meets (f s.previous.text) s R) :
    C.Meets (previousText >>= f) s R := h

theorem scalarName_bind {f : Bytes → ParserM β} (h : C.Meets (f s.previous.text.tail) s R) :
    C.Meets (scalarName >>= f) s R := h

theorem check_bind {type : TokenType} {f : Bool → ParserM β}
    (h : C.Meets (f (s.current.type == type)) s R) : C.Meets (check type >>= f) s R := h

end Reads

variable {k n c w i : ℕ} {r : Calls} {s t : Parser} {a b : Tree} {as : List Tree}

/-- The call of a function that returns a tree. -/
theorem enter_result {p : ParserM Tree}
    (hp : (contract n c k w).Meets p s.openCall fun a t => Result k i a t) :
    (contract n c k (w + 1)).Meets (enter p) s fun a t => Result k i a t :=
  enter_meets hp fun _ _ h => ⟨fun ha => h.missing ha, fun ht => h.low ht⟩

/-- A node that is not missing. -/
theorem Result.node (hm : a.isMissing = false) (h : Low k i a t) : Result k i a t :=
  ⟨fun ha => absurd ha (by rw [hm]; decide), h⟩

/-- A node without children. -/
theorem Result.leaf (hm : a.isMissing = false) (h : a.height = 1) : Result k (i + 1) a t :=
  .node hm fun _ => by rw [h]; omega

theorem Low.openCall (h : Low k i a s) : Low k i a s.openCall := h

theorem Low.missing : Low k i .missing t := fun _ => Nat.zero_le _

/-- The tree of a node over one tree. -/
theorem Low.succ {f : Tree} (ha : Low k i a t) (hf : f.height = a.height + 1) :
    Low k (i + 1) f t := by
  intro ht
  have := ha ht
  omega

/-- The tree of a node over two trees. -/
theorem Low.pair {f : Tree} (ha : Low k i a t) (hb : Low k i b t)
    (hf : f.height = max a.height b.height + 1) : Low k (i + 1) f t := by
  intro ht
  have h₁ := ha ht
  have h₂ := hb ht
  omega

/-- The tree of a node over some trees. -/
theorem Lows.succ {f : Tree} (h : Lows k i as t) (hf : f.height = Tree.heights as + 1) :
    Low k (i + 1) f t := by
  intro ht
  have := h.heights ht
  omega

/-- The tree of a node over a tree and some more. -/
theorem Lows.pair {f : Tree} (ha : Low k i a t) (h : Lows k i as t)
    (hf : f.height = max a.height (Tree.heights as) + 1) : Low k (i + 1) f t := by
  intro ht
  have h₁ := ha ht
  have h₂ := h.heights ht
  omega

theorem Lows.nil : Lows k i [] t := fun _ ha => absurd ha List.not_mem_nil

/-! ### Expressions -/

namespace Good

theorem operand (h : Good k n r) {p : ℕ} (hp : 1 ≤ p) (hc : 1 ≤ c) (hw : 1 ≤ w) :
    (contract n c k w).Meets (r.parsePrecedence p) s fun a t => Result k 0 a t ∧ Progress s t :=
  relax (h.parsePrecedence _ _ hp) hw (by omega)

theorem body (h : Good k n r) (hc : 2 ≤ c) (hw : 1 ≤ w) :
    (contract n c k w).Meets r.statement s fun a t => Result k 0 a t ∧ Progress s t :=
  relax (h.statement _) hw (by omega)

theorem expression (h : Good k n r) (hc : 1 ≤ c) (hw : 2 ≤ w) :
    (contract n c k w).Meets (expression r) s fun a t => Result k 0 a t ∧ Progress s t :=
  relax (enter_meets (h.parsePrecedence _ _ le_rfl)
    fun _ _ h => ⟨⟨fun ha => h.1.missing ha, fun ht => h.1.low ht⟩, h.2⟩) hw (by omega)

theorem binary (h : Good k n r) (hl : Low k (operandHeight + i) a s) :
    (contract n 4 k 10).Meets (binary r a) s fun b t => Result k (operandHeight + i + 1) b t := by
  refine enter_result (w := 9) (Contract.Meets.get_bind ?_)
  refine (h.operand (Nat.le_add_left _ _) (by decide) (by decide)).bind fun b t _ ht ⟨hb, _⟩ => .pure ?_
  exact .node rfl (.pair (hl.openCall.moves ht) (hb.low.mono (by omega)) rfl)

theorem negatedBinary (h : Good k n r) (hl : Low k (operandHeight + i) a s) :
    (contract n 4 k 10).Meets (negatedBinary r a) s fun b t =>
      Result k (operandHeight + i + 1) b t := by
  refine enter_result (w := 9) (advance_meets.bind fun _ t _ ht _ => Contract.Meets.get_bind ?_)
  refine (noteSkipped_meets _).bind fun _ u _ hu _ => ?_
  refine (h.operand (Nat.le_add_left _ _) (by decide) (by decide)).bind fun b v _ hv ⟨hb, _⟩ => .pure ?_
  exact .node rfl (.pair (((hl.openCall.moves ht).moves hu).moves hv) (hb.low.mono (by omega)) rfl)

theorem logical (h : Good k n r) (hl : Low k (operandHeight + i) a s) :
    (contract n 4 k 10).Meets (logical r a) s fun b t => Result k (operandHeight + i + 1) b t := by
  refine enter_result (w := 9) (Contract.Meets.get_bind ?_)
  refine (h.operand (Nat.le_add_left _ _) (by decide) (by decide)).bind fun b t _ ht ⟨hb, _⟩ => ?_
  refine nodeLine_bind (.pure ?_)
  exact .node rfl (.pair (hl.openCall.moves ht) (hb.low.mono (by omega)) rfl)

theorem assignment (h : Good k n r) (hl : Low k (operandHeight + i) a s) :
    (contract n 4 k 10).Meets (assignment r a) s fun b t =>
      Result k (operandHeight + i + 1) b t := by
  refine enter_result (w := 9) (Contract.Meets.get_bind ?_)
  refine (h.operand (Nat.le_add_left _ _) (by decide) (by decide)).bind fun b t _ ht ⟨hb, _⟩ => .pure ?_
  exact .node rfl (.pair (hl.openCall.moves ht) (hb.low.mono (by omega)) rfl)

theorem postfixOp (hl : Low k (operandHeight + i) a s) :
    (contract n 4 k 10).Meets (postfixOp a) s fun b t =>
      Result k (operandHeight + i + 1) b t := by
  refine enter_result (w := 9) (nodeLine_bind (Contract.Meets.get_bind (.pure ?_)))
  exact .node rfl (.succ hl.openCall rfl)

theorem indexAcc (h : Good k n r) (hl : Low k (operandHeight + i) a s) :
    (contract n 4 k 10).Meets (indexAcc r a) s fun b t => Result k (operandHeight + i + 1) b t := by
  refine enter_result (w := 9) ?_
  refine (h.expression (by decide) (by decide)).bind fun b t _ ht ⟨hb, _⟩ => ?_
  refine (consume_meets (by decide) _).bind fun _ u _ hu _ => nodeLine_bind (.pure ?_)
  exact .node rfl (.pair ((hl.openCall.moves ht).moves hu) ((hb.low.moves hu).mono (by omega)) rfl)

theorem unary (h : Good k n r) :
    (contract n 4 k 10).Meets (unary r) s fun b t => Result k operandHeight b t := by
  refine enter_result (w := 9) (Contract.Meets.get_bind ?_)
  refine (h.operand (Nat.le_add_left _ _) (by decide) (by decide)).bind fun b t _ ht ⟨hb, _⟩ => .pure ?_
  exact .node rfl ((hb.low.succ rfl).mono (by decide))

end Good

theorem identifier_meets :
    (contract n 4 k 10).Meets identifier s fun b t => Result k operandHeight b t :=
  enter_result (w := 9) (nodeLine_bind (previousText_bind (.pure (.leaf rfl rfl))))

theorem number_meets :
    (contract n 4 k 10).Meets number s fun b t => Result k operandHeight b t := by
  refine enter_result (w := 9) (Contract.Meets.get_bind (.ite (fun _ => ?_) fun _ => ?_))
  · exact nodeLine_bind (.pure (.leaf rfl rfl))
  · exact nodeLine_bind (.pure (.leaf rfl rfl))

theorem literal_meets (h : (rules s.previous.type).opening = some .literal) :
    (contract n 4 k 10).Meets literal s fun b t => Result k operandHeight b t := by
  refine enter_result (w := 9) (Contract.Meets.get_bind ?_)
  split
  · exact nodeLine_bind (.pure (.leaf rfl rfl))
  · exact nodeLine_bind (.pure (.leaf rfl rfl))
  · exact nodeLine_bind (.pure (.leaf rfl rfl))
  · next htrue hfalse hnull =>
    have hprev : s.openCall.previous.type = s.previous.type := rfl
    rw [hprev] at htrue hfalse hnull
    revert h htrue hfalse hnull
    generalize s.previous.type = type
    cases type <;> simp [rules]

theorem scalar_meets :
    (contract n 4 k 10).Meets scalar s fun b t => Result k operandHeight b t :=
  enter_result (w := 9) (nodeLine_bind (scalarName_bind (.pure (.leaf rfl rfl))))

/-! ### Arguments -/

theorem isLoneX_ne_eof {token : Token} (h : isLoneX token = true) : token.type ≠ .eof := by
  intro he
  rw [isLoneX, he] at h
  simp at h

theorem matchToken_result {type : TokenType} (ht : type ≠ .eof) :
    (contract n c k w).Meets (matchToken type) s fun b t => b = true → Consumed s t :=
  (matchToken_meets ht).mono fun b t _ h hb => by
    subst hb
    exact h.2.2

namespace Good

theorem argumentHead (h : Good k n r) :
    (contract n 1 k 4).Meets (argumentHead r) s fun a t => Result k 1 a t ∧ Progress s t := by
  have hexpr : ∀ t, (contract n 1 k 4).Meets (Parse.expression r) t fun a u =>
      Result k 1 a u ∧ Progress t u := fun t =>
    (h.expression (by decide) (by decide)).mono fun _ _ _ ⟨ha, hp⟩ => ⟨ha.mono (by decide), hp⟩
  refine Contract.Meets.get_bind (.ite (fun hx => ?_) fun _ => hexpr s)
  refine (lookahead_meets (by intros; rfl)).bind fun next t hpre ht ⟨hcur, _⟩ =>
    .ite (fun _ => ?_) fun _ => (hexpr t).mono fun _ _ _ ⟨ha, hp⟩ => ⟨ha, hp.of_moves ht⟩
  refine advance_meets.bind fun _ u _ hu hpass => nodeLine_bind (previousText_bind (.pure ?_))
  exact ⟨.leaf rfl rfl, .of_moves ht (.inr (hpass.consumed hpre.1 (hcur ▸ isLoneX_ne_eof hx)))⟩

theorem argumentParts (h : Good k n r) (ha : Low k 1 a s) :
    (contract n 1 k 4).Meets (argumentParts r a) s fun p t => Low k 1 p.1 t ∧ Low k 1 p.2 t := by
  refine (matchToken_result (by decide)).bind fun b t _ ht _ => .ite (fun _ => ?_) fun _ => ?_
  · refine (h.expression (by decide) (by decide)).bind fun b u _ hu ⟨hb, _⟩ => .pure ?_
    exact ⟨(ha.moves ht).moves hu, hb.low.mono (by decide)⟩
  · exact .pure ⟨.missing, ha.moves ht⟩

theorem argument (h : Good k n r) (type : TokenType) :
    (contract n 1 k 4).Meets (argument r type) s fun p t =>
      (Low k 2 p.1 t ∧ (p.2 = true → Consumed s t)) ∧ Progress s t := by
  refine h.argumentHead.bind fun a t _ ht ⟨ha, hp⟩ => nodeLine_bind ?_
  refine (h.argumentParts ha.low).bind fun p u _ hu ⟨hname, hvalue⟩ => ?_
  have hnode : Low k 2 (.arg t.previous.line p.1 p.2) u := hname.pair hvalue rfl
  have hmove := (contract n 1 k 4).trans ht hu
  refine check_bind (.ite (fun _ => .pure ⟨⟨hnode, nofun⟩, hp.moves hu⟩) fun _ => ?_)
  refine (matchToken_result (by decide)).bind fun b v _ hv hb => .ite (fun h => .pure ?_) fun _ => ?_
  · exact ⟨⟨hnode.moves hv, fun _ => (hb h).of_moves hmove⟩, (hp.moves hu).moves hv⟩
  · have herr : ∀ message, (contract n 1 k 4).Meets (do
        error message
        pure ((.arg t.previous.line p.1 p.2 : Tree), false)) v fun p t =>
          (Low k 2 p.1 t ∧ (p.2 = true → Consumed s t)) ∧ Progress s t := fun message =>
      (error_meets message).bind fun _ x _ hx he =>
        .pure ⟨⟨(hnode.moves hv).moves hx, nofun⟩, .inl he⟩
    split
    · exact herr _
    · exact herr _

theorem parseArgs (h : Good k n r) (type : TokenType) :
    (contract n 4 k 5).Meets (parseArgs r type) s fun as t => Lows k 2 as t := by
  refine enter_meets (w := 4) (check_bind (.ite (fun _ => .pure .nil) fun _ => ?_)) fun _ _ h => h
  exact relax (h.argsLoop _ _ _ .nil) (by decide) (by omega)

theorem container (h : Good k n r) {sigil before after : String} {make : ℤ → Bytes → Tree}
    (hmake : ∀ line name, (make line name).isMissing = false ∧ (make line name).height = 1) :
    (contract n 4 k 10).Meets (container r sigil make before after) s fun b t =>
      Result k operandHeight b t := by
  refine enter_result (w := 9) (Contract.Meets.get_bind (.ite (fun _ => ?_) fun _ => ?_))
  · refine (consume_meets (by decide) _).bind fun _ t _ _ _ => nodeLine_bind ?_
    refine (relax (h.parseArgs _) (by decide) id).bind fun as u _ hu has => ?_
    refine (consume_meets (by decide) _).bind fun _ v _ hv _ => .pure ?_
    have hname : Low k 2 (make t.previous.line (ascii sigil)) v := fun _ => by
      rw [(hmake _ _).2]
      omega
    exact .node rfl (.mono (Lows.pair hname (has.moves hv) rfl) (by decide))
  · exact nodeLine_bind (.pure (.leaf (hmake _ _).1 (hmake _ _).2))

theorem call (h : Good k n r) (hl : Low k (operandHeight + i) a s) :
    (contract n 4 k 10).Meets (call r a) s fun b t => Result k (operandHeight + i + 1) b t := by
  refine enter_result (w := 9) (nodeLine_bind ?_)
  refine (relax (h.parseArgs _) (by decide) id).bind fun as t _ ht has => ?_
  refine (consume_meets (by decide) _).bind fun _ u _ hu _ => .pure ?_
  have hargs : Lows k (operandHeight + i) as u := (has.moves hu).mono (by unfold operandHeight; omega)
  exact .node rfl (Lows.pair ((hl.openCall.moves ht).moves hu) hargs rfl)

/-! ### Groups and object expressions -/

theorem grouping (h : Good k n r) :
    (contract n 4 k 10).Meets (grouping r) s fun b t => Result k operandHeight b t := by
  refine enter_result (w := 9) ?_
  refine (h.expression (by decide) (by decide)).bind fun a t _ ht ⟨ha, _⟩ => ?_
  refine check_bind (.ite (fun _ => nodeLine_bind ?_) fun _ => ?_)
  · refine (relax (h.tupleLoop [a] t ?_) (by decide) (by omega)).bind fun as u _ hu has => ?_
    · intro b hb
      rw [List.mem_singleton.1 hb]
      exact ha.low
    · refine (consume_meets (by decide) _).bind fun _ v _ hv _ => .pure ?_
      exact .node rfl (((has.moves hv).succ rfl).mono (by decide))
  · refine (consume_meets (by decide) _).bind fun _ u _ hu _ => Contract.Meets.get_bind ?_
    have hres := (ha.moves hu).mono (Nat.zero_le operandHeight)
    refine .ite (fun _ => .ite (fun _ => ?_) fun _ => .ite (fun _ => ?_) fun _ => .pure hres)
      fun _ => .pure hres
    · -- the one place where a missing node is looked into
      intro _
      rw [ends_bind, ends_modify, ends_bind, ends_throw]
      exact ⟨by decide, nofun, fun _ => rfl, rfl, fun hw => ⟨hw, Nat.le_max_left _ _⟩⟩
    · refine nodeLine_bind (.pure (.node rfl ?_))
      have hone : Lows k 0 [a] u := fun b hb => by
        rw [List.mem_singleton.1 hb]
        exact ha.low.moves hu
      exact (hone.succ rfl).mono (by decide)

theorem objectTarget (h : Good k n r) :
    (contract n 4 k 9).Meets (objectTarget r) s fun b t => Low k 1 b t := by
  refine Contract.Meets.bind (P := fun _ _ => True) ?_ fun b t _ ht _ => .ite (fun _ => ?_) fun _ => ?_
  · refine check_bind (.ite (fun _ => ?_) fun _ => .pure trivial)
    exact (lookahead_meets (by intros; rfl)).bind fun _ _ _ _ _ => .pure trivial
  · refine (enter_result (w := 8) (i := 1) ?_).mono fun _ _ _ h => h.low
    refine (relax (h.qualifiedLoop _ _) (by decide) (by omega)).bind fun _ _ _ _ _ => ?_
    exact nodeLine_bind (.pure (.leaf rfl rfl))
  · exact (h.expression (by decide) (by decide)).mono fun _ _ _ h => h.1.low.mono (by decide)

theorem objExprArgs (h : Good k n r) :
    (contract n 4 k 9).Meets (objExprArgs r) s fun as t => Lows k 2 as t := by
  refine (relax (h.parseArgs _) (by decide) id).bind fun as t _ ht has => ?_
  refine .ite (fun _ => ?_) fun _ => .pure has
  exact (error_meets _).bind fun _ u _ hu _ => .pure (has.moves hu)

theorem objExprMessage (h : Good k n r) :
    (contract n 4 k 9).Meets (objExprMessage r) s fun b t => Low k 1 b t := by
  refine Contract.Meets.get_bind (.ite (fun _ => ?_) fun _ => ?_)
  · exact advance_meets.bind fun _ t _ _ _ =>
      nodeLine_bind (previousText_bind (.pure (Result.leaf (i := 0) rfl rfl).low))
  · exact (h.expression (by decide) (by decide)).mono fun _ _ _ h => h.1.low.mono (by decide)

theorem objExprRest (h : Good k n r) :
    (contract n 4 k 9).Meets (objExprRest r) s fun p t => Low k 1 p.1 t ∧ Lows k 2 p.2 t := by
  refine (matchToken_result (by decide)).bind fun _ t _ _ _ => .ite (fun _ => ?_) fun _ => ?_
  · exact h.objExprArgs.bind fun as u _ _ has => .pure ⟨.missing, has⟩
  · refine check_bind (.ite (fun _ => .pure ⟨.missing, .nil⟩) fun _ => ?_)
    refine h.objExprMessage.bind fun a u _ hu ha => ?_
    refine (matchToken_result (by decide)).bind fun _ v _ hv _ => .ite (fun _ => ?_) fun _ => ?_
    · exact h.objExprArgs.bind fun as w _ hw has => .pure ⟨(ha.moves hv).moves hw, has⟩
    · exact .pure ⟨ha.moves hv, .nil⟩

theorem objExpr (h : Good k n r) :
    (contract n 4 k 10).Meets (objExpr r) s fun b t => Result k operandHeight b t := by
  refine enter_result (w := 9) (nodeLine_bind ?_)
  refine h.objectTarget.bind fun a t _ _ ha => ?_
  refine h.objExprRest.bind fun p u _ hu ⟨hmessage, hargs⟩ => ?_
  refine (consume_meets (by decide) _).bind fun _ v _ hv _ => .pure (.node rfl fun hw => ?_)
  have h₁ := (ha.moves hu).moves hv hw
  have h₂ := hmessage.moves hv hw
  have h₃ := (hargs.moves hv).heights hw
  have h₄ : operandHeight = 520 := rfl
  show max (max a.height p.1.height) (Tree.heights p.2) + 1 ≤ _
  omega

/-! ### Commands and bridges -/

theorem command (h : Good k n r) :
    (contract n 4 k 10).Meets (command r) s fun b t => Result k operandHeight b t := by
  refine enter_result (w := 9) (Contract.Meets.get_bind (nodeLine_bind (Contract.Meets.get_bind ?_)))
  refine .ite (fun _ => .pure (.leaf rfl rfl)) fun _ => ?_
  refine (h.expression (by decide) (by decide)).bind fun a t _ _ ⟨ha, _⟩ => ?_
  have hone : ∀ {u line kind}, Low k 0 a u →
      Result k operandHeight (.command line kind a .missing) u := fun ha =>
    .node rfl ((ha.pair .missing rfl).mono (by decide))
  refine .ite (fun _ => ?_) fun _ => .pure (hone ha.low)
  refine (matchToken_result (by decide)).bind fun _ u _ hu _ =>
    .ite (fun _ => Contract.Meets.get_bind (.ite (fun _ => ?_) fun _ => ?_)) fun _ =>
      .pure (hone (ha.low.moves hu))
  · exact (noteSkipped_meets _).bind fun _ v _ hv _ => .pure (hone ((ha.low.moves hu).moves hv))
  · refine (h.expression (by decide) (by decide)).bind fun b v _ hv ⟨hb, _⟩ => .pure ?_
    exact .node rfl ((((ha.low.moves hu).moves hv).pair hb.low rfl).mono (by decide))

theorem statements (h : Good k n r) (hn : 1 ≤ n) (hs : s.hadError = false → 8 * s.measure + 4 ≤ n) :
    (contract n c k 4).Meets (r.blockLoop []) s fun as t => Lows k 1 as t :=
  h.blockLoop _ _ _ _ hn hs .nil

theorem block (h : Good k n r) :
    (contract n 1 k 5).Meets (block r) s fun b t => Result k 2 b t ∧ Progress s t := by
  refine .of_pre fun hs => enter_meets (w := 4) ?_ fun _ _ h =>
    ⟨⟨fun ha => h.1.missing ha, fun ht => h.1.low ht⟩, h.2⟩
  refine (consume_meets (by decide) _).bind fun _ t _ ht hp => nodeLine_bind ?_
  have hlen : 8 * s.measure + 1 ≤ n := hs.2
  refine (h.statements (by omega) fun he => ?_).bind fun as u _ hu has => ?_
  · rcases hp with hp | hp
    · rw [hp] at he; cases he
    · have : t.measure < s.measure := hp.1
      omega
  · refine (consume_meets (by decide) _).bind fun _ v _ hv _ => .pure ?_
    exact ⟨.node rfl ((has.moves hv).succ rfl), (hp.moves hu).moves hv⟩

theorem bridge (h : Good k n r) :
    (contract n 1 k 1).Meets (bridge r) s fun b t => Result k 1 b t := by
  refine enter_result (w := 0) (nodeLine_bind (previousText_bind ?_))
  have htext : ∀ {s}, (contract n 1 k 0).Meets (some <$> previousText) s fun _ _ => True :=
    .map (Contract.Meets.get_bind (.pure trivial))
  refine (matchToken_result (by decide)).bind fun _ t _ _ _ =>
    .ite_bind (P := fun _ _ => True) (fun _ => htext) (fun _ => .pure trivial) fun _ u _ _ _ => ?_
  refine (matchToken_result (by decide)).bind fun _ v _ _ _ =>
    .ite_bind (P := fun _ _ => True) (fun _ => .pure trivial)
      (fun _ => (matchToken_result (by decide)).mono fun _ _ _ _ => trivial) fun _ w _ _ _ => ?_
  refine .ite_bind (P := fun _ _ => True) (fun _ => htext) (fun _ => .pure trivial) fun _ x _ _ _ => ?_
  refine check_bind (.ite_bind (P := fun b t => Low k 0 b t) (fun _ => ?_) (fun _ => .pure .missing)
    fun b y _ _ hb => .pure (.node rfl (hb.succ rfl)))
  refine (enterNested_meets (Q := fun _ => True) ?_ fun _ h => h).mono fun _ _ _ h => h.1.low
  exact (relax h.block (by decide) id).mono fun _ _ _ h =>
    ⟨h.1.mono (by unfold levelHeight; omega), trivial⟩

theorem inlinePrefix (h : Good k n r) :
    (contract n 4 k 10).Meets (inlinePrefix r) s fun b t => Result k operandHeight b t := by
  refine enter_result (w := 9) (check_bind (.ite (fun _ => ?_) fun _ => ?_))
  · exact enter_result (w := 8) (nodeLine_bind (previousText_bind (.pure (.leaf rfl rfl))))
  · exact (relax h.bridge (by decide) (by omega)).mono fun _ _ _ h => h.mono (by decide)

theorem blockExpr (h : Good k n r) :
    (contract n 4 k 10).Meets (blockExpr r) s fun b t => Result k operandHeight b t := by
  refine .of_pre fun hs => enter_result (w := 9) (nodeLine_bind ?_)
  have hlen : 8 * s.openCall.measure + 4 ≤ n := hs.2
  refine (relax (h.statements (c := 4) (by omega) fun _ => hlen) (by decide) id).bind
    fun as t _ _ has => ?_
  refine (consume_meets (by decide) _).bind fun _ u _ hu _ => .pure ?_
  have hblock : Low k 2 (.block s.openCall.previous.line as) u := (has.moves hu).succ rfl
  exact .node rfl ((hblock.succ rfl).mono (by decide))

end Good

theorem backtickExpr_meets :
    (contract n 4 k 10).Meets backtickExpr s fun b t => Result k operandHeight b t :=
  enter_result (w := 9) (previousText_bind (nodeLine_bind (.pure (.leaf rfl rfl))))

theorem addressExpr_meets :
    (contract n 4 k 10).Meets addressExpr s fun b t => Result k operandHeight b t :=
  enter_result (w := 9) (nodeLine_bind (previousText_bind (.pure (.leaf rfl rfl))))

theorem classExpr_meets :
    (contract n 4 k 10).Meets classExpr s fun b t => Result k operandHeight b t :=
  enter_result (w := 9) (nodeLine_bind (previousText_bind (.pure (.leaf rfl rfl))))

/-! ### Double-quoted strings -/

theorem splitWidth_length {d : ℕ} {cs source rest : Bytes} (h : splitWidth d cs = some (source, rest)) :
    source.length + rest.length < cs.length := by
  induction cs generalizing d source with
  | nil => cases h
  | cons c cs ih =>
    have hmap : ∀ {d'}, (splitWidth d' cs).map (fun w => (c :: w.1, w.2)) = some (source, rest) →
        source.length + rest.length < (c :: cs).length := fun h => by
      obtain ⟨⟨source', rest'⟩, hsplit, heq⟩ := Option.map_eq_some_iff.1 h
      cases heq
      have : source'.length + rest'.length < cs.length := ih hsplit
      simp only [List.length_cons]
      omega
    rw [splitWidth] at h
    split at h
    · exact hmap h
    · split at h
      · split at h
        · cases h
          simp
        · exact hmap h
      · exact hmap h

namespace Filled

variable {m : ℕ}

theorem nil : Filled k m [] t := ⟨Nat.zero_le _, .nil, fun _ ha => absurd ha List.not_mem_nil⟩

theorem moves {w' : ℕ} (h : Filled k m as s) (ht : Moves k w' s t) : Filled k m as t :=
  { h with low := h.low.moves ht }

theorem append (h : Filled k m as t) (ha : Low k 2 a t) (hm : a.isMissing = false) :
    Filled k (m + 1) (as ++ [a]) t := by
  refine ⟨?_, h.low.append ha, fun b hb => ?_⟩
  · rw [List.length_append]
    exact Nat.succ_le_succ h.length
  · rcases List.mem_append.1 hb with hb | hb
    · exact h.found b hb
    · rw [List.mem_singleton.1 hb]
      exact hm

theorem mono {m' : ℕ} (h : Filled k m as t) (hm : m ≤ m') : Filled k m' as t :=
  { h with length := h.length.trans hm }

theorem flush {p : Parts} (h : Filled k m p.parts s) : Filled k (m + 1) p.flush.parts s := by
  unfold Parts.flush
  split
  · exact h.mono (Nat.le_succ _)
  · exact h.append (Result.leaf (i := 1) rfl rfl).low rfl

end Filled

/-- What a step over a string leaves: no parts after an error, else parts and a shorter text. -/
def Rest (k m : ℕ) (p : Option Parts) (t : Parser) : Prop :=
  match p with
  | none => t.hadError = true
  | some p => p.cursor.length < m ∧ Filled k 511 p.parts t

/-- A string joined of its parts. -/
theorem Result.joinParts {m : ℕ} (ha : Result k i a t) (ham : a.isMissing = false)
    (hts : Filled k m as t) (hi : 2 ≤ i) : Result k (i + as.length) (joinParts a as) t := by
  induction as generalizing a i m with
  | nil => exact ha
  | cons b as ih =>
    obtain ⟨hb, hbs⟩ := List.forall_mem_cons.1 hts.low
    obtain ⟨_, hfound⟩ := List.forall_mem_cons.1 hts.found
    have hop : Low k (i + 1) (.binop b.line { type := .dot, text := ascii ".", line := b.line } false a b) t :=
      ha.low.pair (hb.mono hi) rfl
    refine (ih (.node rfl hop) rfl ⟨le_rfl, hbs, hfound⟩ (by omega)).mono ?_
    rw [List.length_cons]
    omega

namespace Good

theorem alignmentWidth (h : Good k n r) {source : Bytes} (hn : 8 * source.length + 1 ≤ n) {m : ℕ} :
    (contract m c k 1).Meets (parseAlignmentWidth r source) s fun a t => Result k 0 a t := by
  refine enter_result (w := 0) ?_
  refine (nestedText_meets (fun t _ => ?_) hn).bind fun p t _ _ hp => ?_
  · exact (h.expression (by decide) (by decide)).mono fun _ _ _ h => h.1.mono (Nat.zero_le _)
  · obtain ⟨width, inner⟩ := p
    refine .ite (fun _ => ?_) fun hgood => .pure (.node ?_ hp)
    · exact (error_meets _).bind fun _ u _ _ he => .pure ⟨fun _ => he, .missing⟩
    · simp only [Bool.or_eq_true, not_or, Bool.not_eq_true] at hgood
      exact hgood.1.2

theorem alignment (h : Good k n r) {p : Parts} (hn : 8 * p.cursor.length + 1 ≤ n) {m : ℕ} :
    (contract m c k 4).Meets (alignment r p) s fun o t =>
      match o with
      | none => t.hadError = true
      | some (width, p') =>
        Low k 0 width t ∧ p'.parts = p.parts ∧ p'.cursor.length ≤ p.cursor.length := by
  have hnone : ∀ {s message}, (contract m c k 4).Meets (do
      error message
      return none) s fun (o : Option (Tree × Parts)) t =>
        match o with
        | none => t.hadError = true
        | some (width, p') =>
          Low k 0 width t ∧ p'.parts = p.parts ∧ p'.cursor.length ≤ p.cursor.length :=
    (error_meets _).bind fun _ _ _ _ he => .pure he
  unfold Parse.alignment
  split
  · next c' cs hcursor =>
    refine .ite (fun _ => ?_) fun _ => .pure ⟨.missing, rfl, le_rfl⟩
    split
    · exact hnone
    · next source rest hsplit =>
      have hlen := splitWidth_length hsplit
      rw [hcursor, List.length_cons] at hn ⊢
      refine .ite (fun _ => hnone) fun _ => ?_
      refine (relax (h.alignmentWidth (by omega)) (by decide) id).bind fun width t _ _ hwidth => ?_
      refine .ite (fun hm => .pure (hwidth.missing hm)) fun _ => .ite (fun _ => hnone) fun _ => ?_
      refine .pure ⟨hwidth.low, rfl, ?_⟩
      show rest.length ≤ cs.length + 1
      omega
  · exact .pure ⟨.missing, rfl, le_rfl⟩

theorem stringVariable (h : Good k n r) {p : Parts} (hn : 8 * p.cursor.length + 1 ≤ n)
    (hp : Filled k 510 p.parts s) {m : ℕ} :
    (contract m c k 4).Meets (stringVariable r p) s (Rest k (p.cursor.length + 1)) := by
  refine (h.alignment hn).bind fun o t _ ht ho => ?_
  split
  · exact .pure ho
  · next width p' =>
    obtain ⟨hwidth, hparts, hcursor⟩ := ho
    refine .pure ⟨?_, ?_⟩
    · have := (p'.cursor.dropWhile_sublist fun c => !parsedStringVarEnd c).length_le
      show (p'.cursor.dropWhile _).length < _
      omega
    · have hvalue : Result k 1 (.scalar p.cursorLine
          (p'.cursor.takeWhile fun c => !parsedStringVarEnd c)) t := .leaf rfl rfl
      have hparts' : Filled k 510 p'.parts t := hparts ▸ hp.moves ht
      split
      · exact hparts'.append (hvalue.low.mono (by decide)) rfl
      · exact hparts'.append ((hwidth.mono (by decide)).pair hvalue.low rfl) rfl

theorem part (h : Good k n r) {p : Parts} (hn : 8 * p.cursor.length ≤ n) (hcursor : p.cursor ≠ [])
    (hp : Filled k 511 p.parts s) {m : ℕ} :
    (contract m c k 4).Meets (part r p) s (Rest k p.cursor.length) := by
  have hnone : ∀ {s message}, (contract m c k 4).Meets (do
      error message
      return none) s (Rest k p.cursor.length) :=
    (error_meets _).bind fun _ _ _ _ he => .pure he
  refine .ite (fun _ => hnone) fun hfew => ?_
  obtain ⟨cursor, cursorLine, literalLine, literal, parts⟩ := p
  cases cursor with
  | nil => exact absurd rfl hcursor
  | cons c' cs =>
    have hstep : ∀ {p' : Parts}, p'.cursor.length < cs.length + 1 → p'.parts = parts →
        Rest k (cs.length + 1) (some p') s := fun h₁ h₂ => ⟨h₁, h₂ ▸ hp⟩
    refine .ite (fun _ => .pure (hstep ?_ rfl)) fun _ => .ite (fun _ => .pure (hstep ?_ rfl))
      fun _ => .ite (fun _ => hnone) fun _ => .ite (fun _ => ?_) fun _ => .pure (hstep ?_ rfl)
    · simp only [List.length_tail]; omega
    · simp only [List.length_drop]; omega
    · -- there is room for the literal before the variable and for the variable
      have hlen : parts.length ≤ 509 := Nat.le_of_lt_succ (Nat.lt_of_not_le hfew)
      set p := Parts.flush ⟨c' :: cs, cursorLine, literalLine, literal, parts⟩
      have hflush : Filled k 510 p.parts s := Filled.flush { hp with length := hlen }
      have hn' : 8 * (cs.length + 1) ≤ n := hn
      refine h.stringVariable (p := { p with cursor := cs }) ?_ hflush
      show 8 * cs.length + 1 ≤ n
      omega
    · exact Nat.lt_succ_self _

theorem doubleQuoted (h : Good k n r) {token : Token} (hn : 8 * token.text.length ≤ n) :
    (contract n 4 k 9).Meets (parseDoubleQuotedString r token) s fun b t =>
      Result k operandHeight b t := by
  refine enter_result (w := 8) (.ite (fun _ => ?_) fun hlen => ?_)
  · exact nodeLine_bind (.pure (.leaf rfl rfl))
  · refine (relax (h.partsLoop n 4 _ _ ?_ .nil) (by decide) id).bind fun o t _ _ ho => ?_
    · show 8 * (token.text.tail.take (token.text.length - 2)).length + 1 ≤ n
      simp only [List.length_take, List.length_tail]
      omega
    · split
      · exact .pure ⟨fun _ => ho, .missing⟩
      · next p =>
        have hflush : Filled k 512 p.flush.parts t := Filled.flush ho
        split
        · exact nodeLine_bind (.pure (.leaf rfl rfl))
        · next a as hparts =>
          rw [hparts] at hflush
          obtain ⟨ha, has⟩ := List.forall_mem_cons.1 hflush.low
          obtain ⟨ham, hasm⟩ := List.forall_mem_cons.1 hflush.found
          have hlen := hflush.length
          rw [List.length_cons] at hlen
          refine .pure ((Result.joinParts (m := 511) (.node ham ha) ham ⟨?_, has, hasm⟩ le_rfl).mono ?_)
          · omega
          · unfold operandHeight
            omega

theorem stringVal (h : Good k n r) (hn : 8 * s.previous.text.length ≤ n) :
    (contract n 4 k 10).Meets (stringVal r) s fun b t => Result k operandHeight b t := by
  refine enter_result (w := 9) (Contract.Meets.get_bind (.ite (fun _ => ?_) fun _ => ?_))
  · exact h.doubleQuoted hn
  · exact nodeLine_bind (.pure (.leaf rfl rfl))

/-! ### Operator precedence -/

theorem runOpening (h : Good k n r) {opening : Opening}
    (hrule : (rules s.previous.type).opening = some opening)
    (hn : 8 * s.previous.text.length ≤ n) :
    (contract n 4 k 10).Meets (runOpening r opening) s fun b t => Result k operandHeight b t := by
  cases opening with
  | grouping => exact h.grouping
  | blockExpr => exact h.blockExpr
  | objExpr => exact h.objExpr
  | unary => exact h.unary
  | identifier => exact identifier_meets
  | stringVal => exact h.stringVal hn
  | number => exact number_meets
  | literal => exact literal_meets hrule
  | scalar => exact scalar_meets
  | array => exact h.container fun _ _ => ⟨rfl, rfl⟩
  | hash => exact h.container fun _ _ => ⟨rfl, rfl⟩
  | backtickExpr => exact backtickExpr_meets
  | addressExpr => exact addressExpr_meets
  | classExpr => exact classExpr_meets
  | command => exact h.command
  | bridge => exact (relax h.bridge (by decide) (by omega)).mono fun _ _ _ h => h.mono (by decide)
  | inlinePrefix => exact h.inlinePrefix

theorem runFollowing (h : Good k n r) {following : Following} (ha : Low k (operandHeight + i) a s) :
    (contract n 4 k 10).Meets (runFollowing r a following) s fun b t =>
      Result k (operandHeight + i + 1) b t := by
  cases following with
  | call => exact h.call ha
  | indexAcc => exact h.indexAcc ha
  | binary => exact h.binary ha
  | negatedBinary => exact h.negatedBinary ha
  | assignment => exact h.assignment ha
  | logical => exact h.logical ha
  | postfixOp => exact postfixOp ha

theorem juxtapose (h : Good k n r) (ha : Result k operandHeight a s) :
    (contract n 4 k 10).Meets (juxtapose r a) s fun b t => Result k operandHeight b t := by
  unfold Parse.juxtapose
  split
  · refine Contract.Meets.get_bind (.ite (fun _ => ?_) fun _ => .pure ha)
    exact (relax (h.juxtaposeLoop _ _) (by decide) (by omega)).bind fun _ _ _ _ _ =>
      .pure (.leaf rfl rfl)
  · exact .pure ha

theorem parsePrecedenceInner (h : Good k n r) {p : ℕ} (hp : 1 ≤ p) :
    (contract n 0 k levelCalls).Meets (parsePrecedenceInner r p) s fun b t =>
      Result k (operandHeight + k) b t ∧ Progress s t := by
  refine .of_pre fun hs => enter_meets (w := 23) ?_ fun _ _ h =>
    ⟨⟨fun ha => h.1.missing ha, fun ht => h.1.low ht⟩, h.2⟩
  have hlen : 8 * s.openCall.measure ≤ n := hs.2
  have hsound : s.openCall.Sound := ⟨hs.1.current, hs.1.panic⟩
  refine advance_meets.bind fun _ t _ _ hpass => Contract.Meets.get_bind ?_
  split
  · exact (error_meets _).bind fun _ u _ _ he => .pure ⟨⟨fun _ => he, .missing⟩, .inl he⟩
  · next opening hrule =>
    have heof : s.openCall.current.type ≠ .eof := fun he => by
      rw [hpass.previous, he] at hrule
      cases hrule
    have htext : 8 * t.previous.text.length ≤ n := by
      have := (hpass.strict hsound.current heof).1
      rw [hpass.previous]
      omega
    have hconsumed := hpass.consumed hsound heof
    have hlt := hconsumed.1
    refine (relax (h.runOpening hrule htext) (by decide) fun _ => by omega).bind
      fun a u _ hu ha => ?_
    have hlt' := hu.measure
    refine (relax (h.juxtapose ha) (by decide) fun _ => by omega).bind fun b v _ hv hb => ?_
    have hlt'' := hv.measure
    refine (relax (h.precedenceLoop p 0 b v hp (Nat.zero_le _) hb) (by decide) fun _ => by omega).mono
      fun _ _ hw hres => ⟨hres, .inr (((hconsumed.moves hu).moves hv).moves hw)⟩

theorem nextPrecedence (h : Good k n r) {p : ℕ} (hp : 1 ≤ p) :
    (contract (n + 1) 1 k 1).Meets (Parse.parsePrecedence r p) s fun a t =>
      Result k 0 a t ∧ Progress s t := by
  refine guarded_meets fun _ => ?_
  refine (relax (h.parsePrecedenceInner hp) le_rfl (by omega)).mono fun _ _ _ ⟨ha, hprog⟩ => ?_
  exact ⟨ha.mono (by unfold operandHeight levelHeight; omega), hprog⟩

theorem nextOperator (h : Good k n r) {p j : ℕ} (hp : 1 ≤ p) (hj : j ≤ s.trail.rounds)
    (ha : Result k (operandHeight + j) a s) :
    (contract (n + 1) 1 k 10).Meets (Parse.precedenceStep r p j a) s fun b t =>
      Result k (operandHeight + k) b t := by
  refine .of_pre fun hs => Contract.Meets.get_bind (.ite (fun hgo => ?_) fun _ => .pure ?_)
  · have heof : s.current.type ≠ .eof := fun he => by
      rw [he] at hgo
      have : p ≤ Precedence.none := of_decide_eq_true (Bool.and_eq_true_iff.1 hgo).2
      exact absurd (hp.trans this) (by decide)
    have hlen : 8 * s.measure + 1 ≤ n + 1 := hs.2
    refine advance_meets.bind fun _ t _ ht hpass => Contract.Meets.get_bind ?_
    have hlt := (hpass.consumed hs.1 heof).1
    split
    · refine (relax (h.runFollowing (ha.low.moves ht)) le_rfl fun _ => by omega).bind
        fun b u hu' hu hb => ?_
      have hlt' := hu.measure
      refine (Contract.Meets.modify (Q := fun _ v => j + 1 ≤ v.trail.rounds ∧
          v.measure ≤ u.measure ∧ Result k (operandHeight + (j + 1)) b v) fun _ => ?_).bind
        fun _ v _ hv ⟨hj', hm, hb'⟩ => ?_
      · have hmove : Moves k 10 u (u.note fun t => { t with rounds := max t.rounds (j + 1) }) :=
          .note hu'.1 rfl (Nat.le_max_left _ _)
        exact ⟨hmove, Nat.le_max_right _ _, le_rfl, hb.moves hmove⟩
      · exact relax (h.precedenceLoop p (j + 1) b v hp hj' hb') le_rfl fun _ => by omega
    · refine (noteSkipped_meets _).bind fun _ u _ hu _ => ?_
      have hlt' := hu.measure
      refine relax (h.precedenceLoop p j a u hp ?_ ((ha.moves ht).moves hu)) le_rfl
        fun _ => by omega
      exact hj.trans (ht.rounds.trans hu.rounds)
  · refine ⟨ha.missing, fun hw => ?_⟩
    have h₁ := ha.low hw
    have h₂ := hw.1
    omega

/-! ### Statements -/

theorem expressionStatement (h : Good k n r) :
    (contract n 1 k 20).Meets (expressionStatement r) s fun a t => Result k 3 a t ∧ Progress s t := by
  refine enter_meets (w := 19) ?_ fun _ _ h =>
    ⟨⟨fun ha => h.1.missing ha, fun ht => h.1.low ht⟩, h.2⟩
  refine (h.expression (by decide) (by decide)).bind fun a t _ _ ⟨ha, hp⟩ => ?_
  refine (matchToken_result (by decide)).bind fun _ u _ hu _ => ?_
  have hres : Result k 3 a u ∧ Progress s.openCall u :=
    ⟨(ha.moves hu).mono (by decide), hp.moves hu⟩
  refine .ite (fun _ => .pure hres) fun _ => Contract.Meets.get_bind
    (.ite (fun _ => .pure hres) fun _ => ?_)
  exact (error_meets _).bind fun _ v _ hv he => .pure ⟨hres.1.moves hv, .inl he⟩

theorem ifStatement (h : Good k n r) :
    (contract n 4 k 20).Meets (ifStatement r) s fun a t => Result k 3 a t := by
  refine enter_result (w := 19) (nodeLine_bind ?_)
  refine (consume_meets (by decide) _).bind fun _ t _ _ _ => ?_
  refine (h.expression (by decide) (by decide)).bind fun a u _ _ ⟨ha, _⟩ => ?_
  refine (consume_meets (by decide) _).bind fun _ v _ hv _ => ?_
  refine (h.body (by decide) (by decide)).bind fun b w _ hw ⟨hb, _⟩ => ?_
  refine (matchToken_result (by decide)).bind fun _ x _ hx _ => ?_
  refine .ite_bind (P := fun a t => Low k 0 a t)
    (fun _ => (h.body (by decide) (by decide)).mono fun _ _ _ h => h.1.low)
    (fun _ => .pure .missing) fun c y _ hy hc => .pure (.node rfl fun hw' => ?_)
  have h₁ := (((ha.low.moves hv).moves hw).moves hx).moves hy hw'
  have h₂ := (hb.low.moves hx).moves hy hw'
  have h₃ := hc hw'
  show max a.height (max b.height c.height) + 1 ≤ _
  omega

theorem whileStatement (h : Good k n r) :
    (contract n 4 k 20).Meets (whileStatement r) s fun a t => Result k 3 a t := by
  refine enter_result (w := 19) (nodeLine_bind ?_)
  refine (matchToken_result (by decide)).bind fun _ t _ _ _ => .ite_bind (P := fun _ _ => True)
    (fun _ => .map (Contract.Meets.get_bind (.pure trivial))) (fun _ => .pure trivial)
    fun assigned u _ _ _ => ?_
  refine (consume_meets (by decide) _).bind fun _ v _ _ _ => ?_
  refine (h.expression (by decide) (by decide)).bind fun a w _ _ ⟨ha, _⟩ => ?_
  refine (consume_meets (by decide) _).bind fun _ x _ hx _ => ?_
  refine (relax h.block (by decide) (by omega)).bind fun b y _ hy ⟨hb, _⟩ => ?_
  have ha' : Low k 2 a y := ((ha.low.moves hx).moves hy).mono (by decide)
  cases assigned with
  | some value => exact .pure (.node rfl (ha'.pair hb.low rfl))
  | none => exact .pure (.node rfl (ha'.pair hb.low rfl))

theorem forStatement (h : Good k n r) :
    (contract n 4 k 20).Meets (forStatement r) s fun a t => Result k 3 a t := by
  refine enter_result (w := 19) (nodeLine_bind ?_)
  refine (consume_meets (by decide) _).bind fun _ t _ _ _ => ?_
  refine (relax (h.forLoop _ _ _ .nil) (by decide) (by omega)).bind fun as u _ _ has => ?_
  refine (consume_meets (by decide) _).bind fun _ v _ hv _ => ?_
  refine check_bind (.ite_bind (P := fun a t => Low k 0 a t) (fun _ => .pure .missing)
    (fun _ => (h.expression (by decide) (by decide)).mono fun _ _ _ h => h.1.low)
    fun a w _ hw ha => ?_)
  refine (consume_meets (by decide) _).bind fun _ x _ hx _ => ?_
  refine (relax (h.forLoop _ _ _ .nil) (by decide) (by omega)).bind fun bs y _ hy hbs => ?_
  refine (consume_meets (by decide) _).bind fun _ z _ hz _ => ?_
  refine (h.body (by decide) (by decide)).bind fun b z' _ hz' ⟨hb, _⟩ =>
    .pure (.node rfl fun hw' => ?_)
  have h₁ := (((((has.moves hv).moves hw).moves hx).moves hy).moves hz).moves hz' |>.heights hw'
  have h₂ := (((ha.moves hx).moves hy).moves hz).moves hz' hw'
  have h₃ := (hbs.moves hz).moves hz' |>.heights hw'
  have h₄ := hb.low hw'
  show max (max (Tree.heights as) a.height) (max (Tree.heights bs) b.height) + 1 ≤ _
  omega

theorem foreachVariables_meets : (contract n 4 k 19).Meets foreachVariables s fun _ _ => True := by
  refine Contract.Meets.get_bind (.ite (fun _ => ?_) fun _ => .pure trivial)
  refine advance_meets.bind fun _ t _ _ _ => scalarName_bind ?_
  refine (matchToken_result (by decide)).bind fun _ u _ _ _ =>
    .ite (fun _ => Contract.Meets.get_bind (.ite (fun _ => ?_) fun _ => ?_)) fun _ => .pure trivial
  · exact advance_meets.bind fun _ v _ _ _ => scalarName_bind (.pure trivial)
  · exact (error_meets _).bind fun _ v _ _ _ => .pure trivial

theorem foreachStatement (h : Good k n r) :
    (contract n 4 k 20).Meets (foreachStatement r) s fun a t => Result k 3 a t := by
  refine enter_result (w := 19) (nodeLine_bind ?_)
  refine foreachVariables_meets.bind fun names t _ _ _ => ?_
  refine (consume_meets (by decide) _).bind fun _ u _ _ _ => ?_
  refine (h.expression (by decide) (by decide)).bind fun a v _ _ ⟨ha, _⟩ => ?_
  refine (consume_meets (by decide) _).bind fun _ w _ hw _ => ?_
  refine (relax h.block (by decide) (by omega)).bind fun b x _ hx ⟨hb, _⟩ => .pure (.node rfl ?_)
  exact (((ha.low.moves hw).moves hx).mono (by decide)).pair hb.low rfl

theorem tryStatement (h : Good k n r) :
    (contract n 4 k 20).Meets (tryStatement r) s fun a t => Result k 3 a t := by
  refine enter_result (w := 19) (nodeLine_bind ?_)
  refine (relax h.block (by decide) (by omega)).bind fun a t _ _ ⟨ha, _⟩ => ?_
  refine (matchToken_result (by decide)).bind fun _ u _ hu _ => .ite (fun _ => ?_) fun _ => ?_
  · refine advance_meets.bind fun _ v _ hv _ => Contract.Meets.get_bind ?_
    refine (noteSkipped_meets _).bind fun _ w _ hw _ => scalarName_bind ?_
    refine (relax h.block (by decide) (by omega)).bind fun b x _ hx ⟨hb, _⟩ => .pure (.node rfl ?_)
    exact ((((ha.low.moves hu).moves hv).moves hw).moves hx).pair hb.low rfl
  · exact .pure (.node rfl ((ha.low.moves hu).pair .missing rfl))

/-- A statement that begins with a keyword. -/
theorem keyword {type : TokenType} (htype : type ≠ .eof) {f g : ParserM Tree}
    (hf : ∀ t, (contract n 4 k w).Meets f t fun a u => Result k i a u)
    (hg : ∀ t, (contract n c k w).Meets g t fun a u => Result k i a u ∧ Progress t u) :
    (contract n c k w).Meets (matchToken type >>= fun b => if b then f else g) s fun a t =>
      Result k i a t ∧ Progress s t := by
  refine .of_pre fun hs => (matchToken_result htype).bind fun b t _ ht hb =>
    .ite (fun h => ?_) fun _ => ?_
  · have hlt := (hb h).1
    have hlen : 8 * s.measure + c ≤ n := hs.2
    refine (relax (hf t) le_rfl fun _ => by omega).mono fun a u hu ha => ?_
    exact ⟨ha, .inr ((hb h).moves hu)⟩
  · exact (hg t).mono fun a u hu ⟨ha, hp⟩ => ⟨ha, hp.of_moves ht⟩

/-- A statement that begins with a token and what may come after it. -/
theorem ahead {type : TokenType} (htype : type ≠ .eof) {restore : Lexer → Lexer → Lexer}
    (hr : ∀ saved lexer, (restore saved lexer).current = saved.current) {P : Token → Prop}
    [DecidablePred P] {f g : ParserM Tree}
    (hf : ∀ t, (contract n 4 k w).Meets f t fun a u => Result k i a u)
    (hg : ∀ t, (contract n c k w).Meets g t fun a u => Result k i a u ∧ Progress t u) :
    (contract n c k w).Meets (check type >>= fun b =>
      if b then (lookahead restore >>= fun next => if P next then (advance >>= fun _ => f) else g)
      else g) s fun a t => Result k i a t ∧ Progress s t := by
  refine .of_pre fun hs => check_bind (.ite (fun h => ?_) fun _ => hg s)
  have hcur : s.current.type = type := beq_iff_eq.1 h
  refine (lookahead_meets hr).bind fun next t hpre ht ⟨hsame, _⟩ => .ite (fun _ => ?_) fun _ => ?_
  · refine advance_meets.bind fun _ u _ _ hpass => ?_
    have hcons := hpass.consumed hpre.1 (by rw [hsame, hcur]; exact htype)
    have hlen : 8 * s.measure + c ≤ n := hs.2
    have hle := ht.measure
    have hlt := hcons.1
    refine (relax (hf u) le_rfl fun _ => by omega).mono fun a v hv ha => ?_
    exact ⟨ha, .inr ((hcons.moves hv).of_moves ht)⟩
  · exact (hg t).mono fun a u hu ⟨ha, hp⟩ => ⟨ha, hp.of_moves ht⟩

theorem statementInner (h : Good k n r) :
    (contract n 1 k levelCalls).Meets (statementInner r) s fun a t =>
      Result k 3 a t ∧ Progress s t := by
  refine relax (w := 21) (enter_meets (w := 20) ?_ fun _ _ h =>
    ⟨⟨fun ha => h.1.missing ha, fun ht => h.1.low ht⟩, h.2⟩) (by decide) id
  refine keyword (by decide) (fun _ => nodeLine_bind (.pure (.leaf rfl rfl))) fun _ => ?_
  refine keyword (by decide) (fun _ => h.ifStatement) fun _ => ?_
  refine keyword (by decide) (fun _ => h.whileStatement) fun _ => ?_
  refine keyword (by decide) (fun _ => h.forStatement) fun _ => ?_
  refine keyword (by decide) (fun _ => h.foreachStatement) fun _ => ?_
  refine keyword (by decide) (fun _ => h.tryStatement) fun _ => ?_
  refine check_bind (.ite (fun _ => ?_) fun _ => h.expressionStatement)
  exact (relax h.block (by decide) id).mono fun _ _ _ ⟨ha, hp⟩ => ⟨ha.mono (by decide), hp⟩

theorem nextStatement (h : Good k n r) :
    (contract (n + 1) 2 k 1).Meets (Parse.statement r) s fun a t =>
      Result k 0 a t ∧ Progress s t := by
  refine guarded_meets fun _ => ?_
  refine (relax h.statementInner le_rfl (by omega)).mono fun _ _ _ ⟨ha, hprog⟩ => ?_
  exact ⟨ha.mono (by unfold levelHeight; omega), hprog⟩

/-! ### Declarations -/

end Good

theorem matchEof_meets :
    (contract n c k w).Meets (matchToken .eof) s fun b t => b = false → t = s := by
  refine Contract.Meets.get_bind (.ite (fun _ => ?_) fun _ => .pure fun _ => rfl)
  exact advance_meets.bind fun _ _ _ _ _ => .pure nofun

theorem Lows.addStatement (ha : Low k 1 a t) (has : Lows k 1 as t) :
    Lows k 1 (addStatement as a) t := by
  unfold Parse.addStatement
  split
  · exact has
  · exact has.append ha

theorem addPart_meets {target part : Bytes} :
    (contract n c k w).Meets (addPart target part) s fun _ _ => True :=
  .ite (fun _ => .pure trivial) fun _ => (noteSkipped_meets _).bind fun _ _ _ _ _ => .pure trivial

theorem importPath_meets : (contract n c k w).Meets importPath s fun _ _ => True := by
  refine (matchToken_result (by decide)).bind fun _ t _ _ _ => .ite (fun _ => ?_) fun _ =>
    .pure trivial
  refine (consume_meets (by decide) _).bind fun _ u _ _ _ => Contract.Meets.get_bind
    (.ite (fun _ => ?_) fun _ => ?_)
  · exact advance_meets.bind fun _ v _ _ _ => previousText_bind (.pure trivial)
  · exact (noteSkipped_meets _).bind fun _ v _ _ _ => .pure trivial

namespace Good

theorem importTarget (h : Good k n r) :
    (contract n 4 k 2).Meets (importTarget r) s fun _ _ => True := by
  refine Contract.Meets.get_bind (.ite (fun _ => ?_) fun _ => .pure trivial)
  refine advance_meets.bind fun _ t _ _ _ => previousText_bind ?_
  refine addPart_meets.bind fun _ u _ _ _ => ?_
  exact relax (h.importLoop _ _) (by decide) (by omega)

theorem importStatement (h : Good k n r) :
    (contract n 4 k 3).Meets (importStatement r) s fun a t => Result k 1 a t := by
  refine enter_result (w := 2) (nodeLine_bind ?_)
  refine h.importTarget.bind fun _ t _ _ _ => importPath_meets.bind fun _ u _ _ _ => ?_
  exact (matchToken_result (by decide)).bind fun _ v _ _ _ => .pure (.leaf rfl rfl)

theorem nextDeclaration (h : Good k n r) :
    (contract (n + 1) 3 k 4).Meets (Parse.declaration r) s fun a t =>
      Result k 1 a t ∧ Progress s t := by
  have hbridge : ∀ t, (contract n 4 k 3).Meets (Parse.bridge r) t fun a u => Result k 1 a u :=
    fun t => relax h.bridge (by decide) (by omega)
  refine relax (n := n) (c := 2) (w := 4) (enter_meets (w := 3) ?_ fun _ _ h =>
    ⟨⟨fun ha => h.1.missing ha, fun ht => h.1.low ht⟩, h.2⟩) le_rfl (by omega)
  refine keyword (by decide) hbridge fun _ => ?_
  refine ahead (by decide) (by intros; rfl) hbridge fun _ => ?_
  refine keyword (by decide) (fun _ => h.importStatement) fun _ => ?_
  refine ahead (by decide) (by intros; rfl) hbridge fun _ => ?_
  exact (h.body (by decide) (by decide)).mono fun _ _ _ ⟨ha, hp⟩ => ⟨ha.mono (by decide), hp⟩

/-! ### Loops -/

theorem nextJuxtaposed (h : Good k n r) {b : Bytes} :
    (contract (n + 1) 1 k 1).Meets (juxtaposeStep r b) s fun _ _ => True := by
  refine .of_pre fun hs => Contract.Meets.get_bind (.ite (fun htype => ?_) fun _ => .pure trivial)
  refine advance_meets.bind fun _ t _ _ hpass => previousText_bind ?_
  have hlt := (hpass.consumed hs.1 fun he => by rw [he] at htype; cases htype).1
  have hlen : 8 * s.measure + 1 ≤ n + 1 := hs.2
  exact relax (h.juxtaposeLoop _ _) le_rfl fun _ => by omega

theorem nextElement (h : Good k n r) (has : Lows k 0 as s) :
    (contract (n + 1) 1 k 4).Meets (tupleStep r as) s fun as t => Lows k 0 as t := by
  refine .of_pre fun hs => check_bind (.ite (fun htype => ?_) fun _ => .pure has)
  have hcur : s.current.type = .comma := beq_iff_eq.1 htype
  have hlen : 8 * s.measure + 1 ≤ n + 1 := hs.2
  refine (iteration_meets (Q := fun a t => Low k 0 a t ∧ Consumed s t) ?_ fun _ _ _ h => h).bind
    fun a t _ ht ⟨⟨ha, hcons⟩, _⟩ => ?_
  · refine advance_meets.bind fun _ t _ _ hpass => ?_
    have hcons := hpass.consumed hs.1 (by rw [hcur]; decide)
    have hlt := hcons.1
    refine (relax (h.expression le_rfl le_rfl) (by decide) fun _ => by omega).mono
      fun a u hu ⟨ha, _⟩ => ?_
    exact ⟨⟨ha.low, hcons.moves hu⟩, .inr (hcons.moves hu)⟩
  · have hlt := hcons.1
    exact relax (h.tupleLoop _ _ ((has.moves ht).append ha)) le_rfl fun _ => by omega

/-- The next statement of a block or a script. -/
theorem next (h : Good k n r) {m : ℕ} {loop : List Tree → ParserM (List Tree)}
    (hloop : ∀ as t, (t.hadError = false → 8 * t.measure + 4 ≤ n) → Lows k 1 as t →
      (contract m c k 4).Meets (loop as) t fun as t => Lows k 1 as t)
    (hn : 8 * s.measure + 4 ≤ n + 1) (has : Lows k 1 as s) :
    (contract m c k 4).Meets (do
      let stmt ← iteration r.declaration
      loop (addStatement as stmt)) s fun as t => Lows k 1 as t := by
  refine (iteration_meets (relax (h.declaration s) le_rfl fun _ => by omega)
    fun _ _ _ h => ⟨fun ha => h.missing ha, fun ht => h.low ht⟩).bind fun a t _ ht ⟨ha, hp⟩ => ?_
  refine hloop _ t (fun he => ?_) (Lows.addStatement ha.low (has.moves ht))
  rcases hp with hp | hp
  · rw [hp] at he; cases he
  · have := hp.1
    omega

theorem nextInBlock (h : Good k n r) {m : ℕ} (hn : 1 ≤ n + 1)
    (hlen : s.hadError = false → 8 * s.measure + 4 ≤ n + 1) (has : Lows k 1 as s) :
    (contract m c k 4).Meets (blockStep r as) s fun as t => Lows k 1 as t := by
  refine Contract.Meets.get_bind (.ite (fun _ => .pure has) fun hgo => ?_)
  have hlen := hlen (Bool.eq_false_iff.2 fun he => hgo (.inr (.inr he)))
  exact h.next (fun as t ht has => h.blockLoop m c as t (by omega) ht has) hlen has

theorem nextInScript (h : Good k n r) {m : ℕ} (hn : 1 ≤ n + 1)
    (hlen : s.hadError = false → 8 * s.measure + 4 ≤ n + 1) (has : Lows k 1 as s) :
    (contract m c k 4).Meets (scriptStep r as) s fun as t => Lows k 1 as t := by
  refine matchEof_meets.bind fun b t _ ht hb => .ite (fun _ => .pure (has.moves ht)) fun hnot =>
    Contract.Meets.get_bind (.ite (fun _ => .pure (has.moves ht)) fun hgo => ?_)
  obtain rfl := hb (Bool.eq_false_iff.2 hnot)
  have hlen := hlen (Bool.eq_false_iff.2 hgo)
  exact h.next (fun as t ht has => h.scriptLoop m c as t (by omega) ht has) hlen has

theorem nextInFor (h : Good k n r) {type : TokenType} (has : Lows k 0 as s) :
    (contract (n + 1) 2 k 4).Meets (forStep r type as) s fun as t => Lows k 0 as t := by
  refine .of_pre fun hs => Contract.Meets.get_bind (.ite (fun _ => .pure has) fun _ => ?_)
  have hlen : 8 * s.measure + 2 ≤ n + 1 := hs.2
  refine (iteration_meets (Q := fun (p : Tree × Bool) t =>
    Low k 0 p.1 t ∧ (p.2 = true → Consumed s t)) ?_ fun _ _ _ h => h).bind
    fun p t _ ht ⟨⟨ha, hmore⟩, _⟩ => ?_
  · refine (relax (h.expression le_rfl le_rfl) (by decide) fun _ => by omega).bind
      fun a t _ ht ⟨ha, hp⟩ => ?_
    refine (matchToken_result (by decide)).bind fun b u _ hu hb => .pure ?_
    exact ⟨⟨ha.low.moves hu, fun h => (hb h).of_moves ht⟩, hp.moves hu⟩
  · refine .ite (fun hgo => ?_) fun _ => .pure ((has.moves ht).append ha)
    have hlt := (hmore hgo).1
    exact relax (h.forLoop _ _ _ ((has.moves ht).append ha)) le_rfl fun _ => by omega

theorem nextArgument (h : Good k n r) {type : TokenType} (has : Lows k 2 as s) :
    (contract (n + 1) 2 k 4).Meets (argsStep r type as) s fun as t => Lows k 2 as t := by
  refine .of_pre fun hs => check_bind (.ite (fun _ => .pure has) fun _ => ?_)
  have hlen : 8 * s.measure + 2 ≤ n + 1 := hs.2
  refine (iteration_meets (relax (h.argument type) le_rfl fun _ => by omega) fun _ _ _ h => h).bind
    fun p t _ ht ⟨⟨ha, hmore⟩, _⟩ => Contract.Meets.get_bind ?_
  refine .ite (fun hgo => ?_) fun _ => .pure ((has.moves ht).append ha)
  have hlt := (hmore (Bool.and_eq_true_iff.1 hgo).1).1
  exact relax (h.argsLoop _ _ _ ((has.moves ht).append ha)) le_rfl fun _ => by omega

theorem nextComponent (h : Good k n r) {name : Bytes} :
    (contract (n + 1) 1 k 1).Meets (qualifiedStep r name) s fun _ _ => True := by
  refine .of_pre fun hs => ?_
  have hlen : 8 * s.measure + 1 ≤ n + 1 := hs.2
  refine (iteration_meets (Q := fun (p : Bytes × Bool) t => p.2 = true → Consumed s t) ?_
    fun _ _ _ h => h).bind fun p t _ _ ⟨hmore, _⟩ => ?_
  · refine (consume_meets (by decide) _).bind fun _ t _ ht hp => previousText_bind ?_
    refine .ite (fun _ => ?_) fun _ => ?_
    · exact (error_meets _).bind fun _ u _ hu _ => .pure ⟨nofun, hp.moves hu⟩
    · refine (matchToken_result (by decide)).bind fun b u _ hu hb => .pure ?_
      exact ⟨fun h => (hb h).of_moves ht, hp.moves hu⟩
  · refine .ite (fun hgo => ?_) fun _ => .pure trivial
    have hlt := (hmore hgo).1
    exact relax (h.qualifiedLoop _ _) le_rfl fun _ => by omega

theorem nextImportPart (h : Good k n r) {target : Bytes} :
    (contract (n + 1) 1 k 1).Meets (importStep r target) s fun _ _ => True := by
  refine .of_pre fun hs => check_bind (.ite (fun htype => ?_) fun _ => .pure trivial)
  have hcur : s.current.type = .dot := beq_iff_eq.1 htype
  have hlen : 8 * s.measure + 1 ≤ n + 1 := hs.2
  refine (iteration_meets (Q := fun _ t => Consumed s t) ?_ fun _ _ _ h => h).bind
    fun _ t _ _ ⟨hcons, _⟩ => ?_
  · refine advance_meets.bind fun _ t _ _ hpass => addPart_meets.bind fun _ u _ hu _ => ?_
    have hcons := (hpass.consumed hs.1 (by rw [hcur]; decide)).moves hu
    refine Contract.Meets.get_bind (.ite (fun _ => ?_) fun _ => .pure ⟨hcons, .inr hcons⟩)
    refine advance_meets.bind fun _ v _ hv _ => previousText_bind (addPart_meets.mono fun _ x hx _ => ?_)
    have hcons' := (hcons.moves hv).moves hx
    exact ⟨hcons', .inr hcons'⟩
  · have hlt := hcons.1
    exact relax (h.importLoop _ _) le_rfl fun _ => by omega

theorem nextPart (h : Good k n r) {m : ℕ} {p : Parts} (hn : 8 * p.cursor.length + 1 ≤ n + 1)
    (hp : Filled k 511 p.parts s) :
    (contract m c k 4).Meets (partsStep r p) s fun o t =>
      match o with
      | none => t.hadError = true
      | some p => Filled k 511 p.parts t := by
  refine .ite (fun _ => .pure hp) fun hne => ?_
  refine (h.part (by omega) hne hp).bind fun o t _ _ ho => ?_
  split
  · exact .pure ho
  · obtain ⟨hlt, hfilled⟩ := ho
    exact h.partsLoop m c _ _ (by omega) hfilled

end Good

/-- The next level keeps to the bounds, with one level more. -/
theorem Good.next_level (h : Good k n r) : Good k (n + 1) (nextLevel r) where
  parsePrecedence _ _ hp := h.nextPrecedence hp
  statement _ := h.nextStatement
  declaration _ := h.nextDeclaration
  precedenceLoop _ _ _ _ hp hj ha := h.nextOperator hp hj ha
  juxtaposeLoop _ _ := h.nextJuxtaposed
  tupleLoop _ _ has := h.nextElement has
  blockLoop _ _ _ _ hn hlen has := h.nextInBlock hn hlen has
  scriptLoop _ _ _ _ hn hlen has := h.nextInScript hn hlen has
  forLoop _ _ _ has := h.nextInFor has
  argsLoop _ _ _ has := h.nextArgument has
  qualifiedLoop _ _ := h.nextComponent
  importLoop _ _ := h.nextImportPart
  partsLoop _ _ _ _ hn hp := h.nextPart hn hp

/-- Every level keeps to the bounds.  Without a level no source is short enough. -/
theorem good (k n : ℕ) : Good k n (calls n) := by
  induction n with
  | zero =>
    exact
      { parsePrecedence := fun _ _ _ hs => absurd hs.2 (by omega)
        statement := fun _ hs => absurd hs.2 (by omega)
        declaration := fun _ hs => absurd hs.2 (by omega)
        precedenceLoop := fun _ _ _ _ _ _ _ hs => absurd hs.2 (by omega)
        juxtaposeLoop := fun _ _ hs => absurd hs.2 (by omega)
        tupleLoop := fun _ _ _ hs => absurd hs.2 (by omega)
        blockLoop := fun _ _ _ _ hn => absurd hn (by omega)
        scriptLoop := fun _ _ _ _ hn => absurd hn (by omega)
        forLoop := fun _ _ _ _ hs => absurd hs.2 (by omega)
        argsLoop := fun _ _ _ _ hs => absurd hs.2 (by omega)
        qualifiedLoop := fun _ _ hs => absurd hs.2 (by omega)
        importLoop := fun _ _ hs => absurd hs.2 (by omega)
        partsLoop := fun _ _ _ _ hn => absurd hn (by omega) }
  | succ n ih => exact ih.next_level

end Slp.Parse
