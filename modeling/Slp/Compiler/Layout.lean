import Slp.Compiler.Meaning

/-!
# Code that is laid out for a shape

`Shape.Lays` says that the code between two offsets is the code of a shape: its instructions stand
one after the other, and every jump goes where the shape wants it.  The activation then does what
the shape means (`Shape.Lays.goesTo`): from the first offset the runs go to where the results of the
meaning land, and nowhere else.
-/

namespace Slp

open Flow (Command Goes Result)

open Activation (Behaviour Config Effect GoesTo Handler Instruction fetch goesTo_jump goesTo_loop
  goesTo_pushHandler goesTo_popHandler goesTo_test goesTo_effect goesTo_caught goesTo_popHandlers
  verdictConfig)

/-- What is around a piece: the loop, with the ends of its `break` and `continue` jumps, and the
handlers entered in it. -/
structure Place where
  inLoop : Bool
  brk : ℕ
  cont : ℕ
  depth : ℕ

/-- `OP_LOOP` at `p` goes back to `q`. -/
def TakesBack (code : List UInt8) (p q : ℕ) : Prop := LoopsBack code p q ∧ p + 3 ≤ q + 32767

/-- The code at `p` leaves `depth` handlers and jumps to `t`. -/
def LeavesTo (code : List UInt8) (depth t p q : ℕ) : Prop :=
  (∀ k < depth, opcodeAt code (p + k) = some .popHandler) ∧
    opcodeAt code (p + depth) = some .jump ∧ jumpTarget code (p + depth + 1) = t ∧
    q = p + depth + 3

namespace Shape

/-- The code from `p` to `q` is the code of the shape. -/
def Lays (code : List UInt8) (cs : List Constant) (x : Setting) : Shape → Place → ℕ → ℕ → Prop
  | .skip, _, p, q | .fail _, _, p, q => q = p
  | .seq a b, r, p, q => ∃ m, a.Lays code cs x r p m ∧ b.Lays code cs x r m q
  | .guard o _ a, r, p, q =>
    opcodeAt code p = some o ∧ jumpTarget code (p + 1) = q ∧ a.Lays code cs x r (p + 3) q
  | .branch o _ a b, r, p, q => ∃ m, opcodeAt code p = some o ∧ jumpTarget code (p + 1) = m + 3 ∧
    a.Lays code cs x r (p + 3) m ∧ opcodeAt code m = some .jump ∧ jumpTarget code (m + 1) = q ∧
    b.Lays code cs x r (m + 3) q
  | .inTry a, r, p, q => a.Lays code cs x { r with depth := r.depth + 1 } p q
  | .brk, r, p, q => if r.inLoop then LeavesTo code r.depth r.brk p q else q = p
  | .cont, r, p, q => if r.inLoop then LeavesTo code r.depth r.cont p q else q = p
  | .whileLoop o _ head body, _, p, q => ∃ m k, q = k + 4 ∧
    head.Lays code cs x ⟨true, q, k, 0⟩ p m ∧ opcodeAt code m = some o ∧
    jumpTarget code (m + 1) = k + 3 ∧ opcodeAt code (m + 3) = some .pop ∧
    body.Lays code cs x ⟨true, q, k, 0⟩ (m + 4) k ∧ TakesBack code k p ∧
    opcodeAt code (k + 3) = some .pop
  | .forLoop head body step, _, p, q => ∃ m k l, q = l + 4 ∧
    head.Lays code cs x ⟨true, q, k, 0⟩ p m ∧ opcodeAt code m = some .jumpIfFalse ∧
    jumpTarget code (m + 1) = l + 3 ∧ opcodeAt code (m + 3) = some .pop ∧
    body.Lays code cs x ⟨true, q, k, 0⟩ (m + 4) k ∧ step.Lays code cs x ⟨true, q, l, 0⟩ k l ∧
    TakesBack code l p ∧ opcodeAt code (l + 3) = some .pop
  | .foreverLoop body step, _, p, q => ∃ k l, q = l + 3 ∧
    body.Lays code cs x ⟨true, q, k, 0⟩ p k ∧ step.Lays code cs x ⟨true, q, l, 0⟩ k l ∧
    TakesBack code l p
  | .foreachLoop o _ body, _, p, q => ∃ k, q = k + 5 ∧ opcodeAt code p = some o ∧
    jumpTarget code (p + 1) = k + 3 ∧ body.Lays code cs x ⟨true, k + 3, k, 0⟩ (p + 3) k ∧
    TakesBack code k p ∧ opcodeAt code (k + 3) = some .pop ∧ opcodeAt code (k + 4) = some .pop
  | s, _, p, q => ∃ i, s.instruction x = some i ∧ fetch code cs p = some i ∧ q = p + i.op.length

end Shape

/-! ### Runs -/

section

variable {σ μ : Type*} {B : Behaviour σ μ} {code : List UInt8} {cs : List Constant} {x : Setting}
  {p q : ℕ} {s : σ} {r : Place} {hs : List (Handler μ)}

/-- Where the activation is after a piece that ends at `q`. -/
def land (r : Place) (q : ℕ) (hs : List (Handler μ)) : Result σ → Config σ μ
  | .done s => .running q s hs
  | .brk s => .running r.brk s (hs.drop r.depth)
  | .cont s => .running r.cont s (hs.drop r.depth)
  | .threw s => .thrown s hs
  | .left s => .left s

/-- A piece from `p` to `q` does what the command says. -/
def Does (B : Behaviour σ μ) (code : List UInt8) (cs : List Constant) (r : Place) (p q : ℕ)
    (hs : List (Handler μ)) (c : Command σ) : Prop :=
  ∀ s, GoesTo B code cs 0 (.running p s hs) (land r q hs '' c s)

namespace Does

variable {a b : Command σ} {m : ℕ} {o : Opcode}

theorem skip : Does B code cs r p p hs .skip := fun s => by
  rw [Command.skip, Set.image_singleton]
  exact .refl _

theorem seq (ha : Does B code cs r p m hs a) (hb : Does B code cs r m q hs b) :
    Does B code cs r p q hs (.seq a b) := fun s =>
  (ha s).seq (fun s' _ => hb s') fun x hx => by
    cases x with
    | done s' => exact absurd rfl (hx s')
    | _ => rfl

/-- One instruction that is no jump. -/
theorem effect {i : Instruction} (h : fetch code cs p = some i) (hi : i.op.isControl = false) :
    Does B code cs r p (p + i.op.length) hs (B.perform i) := fun s => by
  have hne : i.op ≠ .popHandler := by
    intro hpop
    rw [hpop] at hi
    cases hi
  have himage : land r (p + i.op.length) hs '' B.perform i s =
      Effect.config (p + i.op.length) hs '' B.effect i s := by
    rw [Behaviour.perform, if_neg hne, Set.image_image]
    refine Set.image_congr fun e _ => ?_
    cases e <;> rfl
  rw [himage]
  exact (goesTo_effect s hs h hi).mono (Nat.zero_le _)

theorem pop (h : opcodeAt code p = some .pop) : Does B code cs r p (p + 1) hs B.pop :=
  effect (i := ⟨.pop, none, []⟩) (Activation.fetch_of_length h rfl rfl cs) rfl

/-- A test, with what follows when it jumps and when it does not. -/
theorem choose (h : opcodeAt code p = some o) (ho : o.isTest)
    (ha : Does B code cs r (jumpTarget code (p + 1)) q hs a)
    (hb : Does B code cs r (p + 3) q hs b) :
    Does B code cs r p q hs (.choose (B.test o) a b) := fun s =>
  ((goesTo_test s hs h ho).choose (fun s' _ => ha s') (fun s' _ => hb s') (fun _ => rfl) fun _ => rfl).mono
    (Nat.zero_le _)

/-- What comes after a piece that is done. -/
theorem follow (ha : Does B code cs r p m hs a)
    (h : ∀ s, GoesTo B code cs 1 (.running m s hs) {.running q s hs}) :
    Does B code cs r p q hs a := fun s => by
  have hall := (ha s).seq (b := .skip) (g := land r q hs)
    (fun s' _ => by
      rw [Command.skip, Set.image_singleton]
      exact h s')
    fun x hx => by
      cases x with
      | done s' => exact absurd rfl (hx s')
      | _ => rfl
  rwa [Command.seq_skip] at hall

theorem jump (ha : Does B code cs r p m hs a) (h : opcodeAt code m = some .jump)
    (ht : jumpTarget code (m + 1) = q) : Does B code cs r p q hs a :=
  ha.follow fun s => ht ▸ goesTo_jump s hs h

/-- A `break` or a `continue`. -/
theorem leaves {t : ℕ} (h : LeavesTo code r.depth t p q) (s : σ) :
    GoesTo B code cs 0 (.running p s hs) {.running t s (hs.drop r.depth)} := by
  obtain ⟨hpop, hjump, rfl, -⟩ := h
  exact ((goesTo_popHandlers s hs r.depth hpop).trans (goesTo_jump s _ hjump)).mono (Nat.zero_le _)

theorem brk (h : LeavesTo code r.depth r.brk p q) : Does B code cs r p q hs .brk := fun s => by
  rw [Command.brk, Set.image_singleton]
  exact leaves h s

theorem cont (h : LeavesTo code r.depth r.cont p q) : Does B code cs r p q hs .cont := fun s => by
  rw [Command.cont, Set.image_singleton]
  exact leaves h s

/-- The end of the loop is where its `break` jumps go. -/
theorem exit {e k l : ℕ} : Does B code cs ⟨true, e, k, 0⟩ e l hs .brk := fun s => by
  rw [Command.brk, Set.image_singleton]
  exact .refl _

/-- A piece whose `continue` jumps go to its end. -/
theorem through {e k c : ℕ} (ha : Does B code cs ⟨true, e, k, 0⟩ p k hs a) :
    Does B code cs ⟨true, e, c, 0⟩ p k hs (.through a) := fun s => by
  have himage : land ⟨true, e, c, 0⟩ k hs '' Command.through a s =
      land ⟨true, e, k, 0⟩ k hs '' a s := by
    rw [Command.through, Set.image_image]
    refine Set.image_congr fun x _ => ?_
    cases x <;> rfl
  exact himage ▸ ha s

/-- A loop; `q` is where its `break` jumps go. -/
theorem loop {l : ℕ} (ha : Does B code cs ⟨true, q, l, 0⟩ p l hs a) (h : TakesBack code l p) :
    Does B code cs r p q hs (.loop a) :=
  Goes.loop ha (fun s => goesTo_loop s hs h.1 h.2) (fun _ => rfl) (fun _ => rfl) (fun _ => rfl)
    (fun _ => rfl) fun _ => rfl

/-- The exit of a loop with a test: the value that was tested is dropped either way. -/
theorem test {e k l t : ℕ} (h : opcodeAt code m = some o) (ho : o.isTest)
    (ht : jumpTarget code (m + 1) = t) (hexit : opcodeAt code t = some .pop) (he : e = t + 1)
    (hpop : opcodeAt code (m + 3) = some .pop)
    (ha : Does B code cs ⟨true, e, k, 0⟩ (m + 4) l hs a) :
    Does B code cs ⟨true, e, k, 0⟩ m l hs
      (.choose (B.test o) (.seq B.pop .brk) (.seq B.pop a)) := by
  subst he ht
  exact choose h ho ((pop hexit).seq exit) ((pop hpop).seq ha)

/-- A `try` with its handler. -/
theorem attempt {k : ℕ} (h : opcodeAt code p = some .pushHandler)
    (ht : jumpTarget code (p + 1) = k + 4) (hroom : hs.length < maxHandlers)
    (ha : ∀ h : ℕ × μ, Does B code cs { r with depth := r.depth + 1 } (p + 3) k (some h :: hs) a)
    (hpop : opcodeAt code k = some .popHandler) (hjump : opcodeAt code (k + 1) = some .jump)
    (hq : jumpTarget code (k + 2) = q) (hb : Does B code cs r (k + 4) q hs b) :
    Does B code cs r p q hs (.attempt B.mark B.caught a b) := fun s => by
  have hpush : GoesTo B code cs 1 _ _ := goesTo_pushHandler s hs h hroom
  rw [ht] at hpush
  refine ((hpush.trans (ha (k + 4, B.mark s) s)).attempt (m := 0) (fun s' _ => ?_)
    fun x hx => ?_).mono (Nat.zero_le _)
  · exact ((goesTo_caught s' hs _).trans (hb _)).mono (Nat.zero_le _)
  · cases x with
    | done s' =>
      exact (((goesTo_popHandler s' _ hpop)).trans (hq ▸ goesTo_jump s' hs hjump)).mono
        (Nat.zero_le _)
    | threw s' => exact absurd rfl (hx s')
    | _ => exact .refl _

end Does

/-- A piece that is one instruction. -/
theorem Shape.lays_leaf {t : Shape} {i : Instruction} (hi : t.instruction x = some i)
    (hc : i.op.isControl = false) (hl : ∃ i, t.instruction x = some i ∧
      fetch code cs p = some i ∧ q = p + i.op.length) : Does B code cs r p q hs (B.perform i) := by
  obtain ⟨i', hi', hfetch, rfl⟩ := hl
  obtain rfl := Option.some.inj (hi.symm.trans hi')
  exact .effect hfetch hc

/-- The activation does what the shape means. -/
theorem Shape.Lays.does {t : Shape} (ht : t.Proper) (hl : t.Lays code cs x r p q)
    (hroom : hs.length + t.tries ≤ maxHandlers) :
    Does B code cs r p q hs (t.meaning B x r.inLoop) := by
  induction ht generalizing r p q hs with
  | skip => exact hl ▸ .skip
  | fail => exact hl ▸ .skip
  | op h ho => exact lays_leaf rfl ho hl
  | var name assign => exact lays_leaf rfl (isControl_variableOp x name assign) hl
  | reference name =>
    refine lays_leaf rfl ?_ hl
    dsimp only
    split <;> rfl
  | ret =>
    refine lays_leaf rfl ?_ hl
    dsimp only
    split <;> rfl
  | endStatement script last =>
    refine lays_leaf rfl ?_ hl
    dsimp only
    split <;> rfl
  | closure => exact lays_leaf rfl rfl hl
  | seq _ _ iha ihb =>
    obtain ⟨m, ha, hb⟩ := hl
    rw [tries] at hroom
    exact (iha ha (by omega)).seq (ihb hb (by omega))
  | guard h ho _ ih =>
    obtain ⟨hop, rfl, ha⟩ := hl
    exact .choose hop ho .skip (ih ha hroom)
  | @branch o a b h ho _ _ iha ihb =>
    obtain ⟨m, hop, htarget, ha, hjump, hq, hb⟩ := hl
    rw [tries] at hroom
    have hne : o ≠ .pushHandler := by
      rintro rfl
      cases ho
    rw [meaning, if_neg hne]
    exact .choose hop ho (htarget ▸ ihb hb (by omega)) ((iha ha (by omega)).jump hjump hq)
  | @attempt a b h h' _ _ iha ihb =>
    obtain ⟨m, hop, htarget, ⟨k, ha, i, hi, hfetch, rfl⟩, hjump, hq, hb⟩ := hl
    obtain rfl : _ = i := Option.some.inj hi
    rw [tries, tries, tries] at hroom
    have hskip : B.perform ⟨.popHandler, none, []⟩ = .skip := if_pos rfl
    have hmeaning : (Shape.seq (.inTry a) (.op .popHandler [] h')).meaning B x r.inLoop =
        a.meaning B x r.inLoop := by
      refine Eq.trans ?_ (Command.seq_skip _)
      rw [← hskip]
      rfl
    rw [meaning, if_pos rfl, hmeaning]
    refine .attempt hop htarget (by omega) (fun h => ?_) (Activation.opcodeAt_of_fetch hfetch) hjump hq
      (ihb hb (by omega))
    exact iha (r := { r with depth := r.depth + 1 }) ha (by rw [List.length_cons]; omega)
  | brk =>
    rw [Lays] at hl
    rw [meaning]
    by_cases h : r.inLoop
    · rw [if_pos h] at hl ⊢
      exact .brk hl
    · rw [if_neg h] at hl ⊢
      exact hl ▸ .skip
  | cont =>
    rw [Lays] at hl
    rw [meaning]
    by_cases h : r.inLoop
    · rw [if_pos h] at hl ⊢
      exact .cont hl
    · rw [if_neg h] at hl ⊢
      exact hl ▸ .skip
  | whileLoop h ho _ _ ihh ihb =>
    obtain ⟨m, k, rfl, hh, hop, htarget, hpop, hb, hback, hexit⟩ := hl
    rw [tries] at hroom
    exact .loop ((ihh hh (by omega)).seq
      (.test hop ho htarget hexit rfl hpop (ihb hb (by omega)))) hback
  | forLoop _ _ _ ihh ihb ihs =>
    obtain ⟨m, k, l, rfl, hh, hop, htarget, hpop, hb, hs, hback, hexit⟩ := hl
    rw [tries] at hroom
    exact .loop (.seq (.through ((ihh hh (by omega)).seq
      (.test hop rfl htarget hexit rfl hpop (ihb hb (by omega))))) (ihs hs (by omega))) hback
  | foreverLoop _ _ ihb ihs =>
    obtain ⟨k, l, rfl, hb, hs, hback⟩ := hl
    rw [tries] at hroom
    exact .loop (.seq (.through (ihb hb (by omega))) (ihs hs (by omega))) hback
  | foreachLoop h ho _ ih =>
    obtain ⟨k, rfl, hop, htarget, hb, hback, hexit, hexit'⟩ := hl
    exact (Does.loop (.choose hop ho (htarget ▸ .exit) (ih hb hroom)) hback).seq
      ((Does.pop hexit).seq (.pop hexit'))

end

end Slp
