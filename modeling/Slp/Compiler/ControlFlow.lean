import Slp.Compiler.LaidOut

/-!
# Compiled functions do what their bodies mean

The runs of the code of a function, with its jumps, handlers and loops, end exactly as the structured
meaning of its body says (`ends_iff_meaning`).  The behaviour of the instructions is a parameter, so
this is about `emit_jump`, `patch_jump`, `emit_loop` and the arrays of pending jumps alone.
-/

namespace Slp

open Flow (Command Goes Result)

open Activation (Behaviour Config Effect Handler Reaches fetch fetch_of_length goesTo_escaped step)

/-- The meaning of a function: its body, and the return of null that follows it. -/
def functionMeaning {σ μ : Type*} (B : Behaviour σ μ) (x : Setting) (body : Node) : Command σ :=
  .seq ((shape body).meaning B x false)
    (.seq (B.perform ⟨.pushNull, none, []⟩) (B.perform ⟨.return, none, []⟩))

section

variable {enclosing : List (List (Option Bytes))} {replMode inlineBody : Bool} {body : Node}

theorem setting_compileBody : (compileBody enclosing replMode inlineBody body).setting =
    (Compiler.init enclosing replMode inlineBody).setting := by
  rw [compileBody_eq]
  exact setting_eq ((fixed_emitOp _ _).trans ((fixed_emitOp _ _).trans (fixed_emit (shape body) _)))

/-- The body of a function is compiled outside of loops. -/
theorem inOrder_init : (Compiler.init enclosing replMode inlineBody).InOrder :=
  ⟨core_init _ _ _, openOk_init _ _ _, weak_init _ _ _⟩

theorem fits_init (hloops : (shape body).loopsOk false (fun _ => false)) :
    Fits (shape body) (Compiler.init enclosing replMode inlineBody) := by
  have hwaits : (Compiler.init enclosing replMode inlineBody).waits = fun _ => false := by
    funext e
    rw [Compiler.waits, openJumps_init]
    rfl
  refine ⟨?_, fun hin => absurd hin Bool.false_ne_true⟩
  rw [hwaits]
  exact hloops

/-- The code of a function is that of its body and the final return. -/
theorem lays_compileBody (herr : (compileBody enclosing replMode inlineBody body).error = none)
    (hloops : (shape body).loopsOk false (fun _ => false))
    (hsmall : (compileBody enclosing replMode inlineBody body).constants.length ≤ 65536)
    (brk cont : ℕ) :
    let c := compileBody enclosing replMode inlineBody body
    ∃ m, (shape body).Lays c.code c.constants c.setting ⟨false, brk, cont, 0⟩ 0 m ∧
      opcodeAt c.code m = some .pushNull ∧ opcodeAt c.code (m + 1) = some .return ∧
      c.code.length = m + 2 := by
  intro c
  have hset : c.setting = _ := setting_compileBody
  rw [hset]
  simp only [c, compileBody_eq] at herr hsmall ⊢
  rw [error_emitOp, error_emitOp] at herr
  obtain ⟨-, -, hframe⟩ := inOrder_init.emit (made_shape body) (fits_init hloops) herr
  have hlays := @placed_emit _ (proper_shape body) (made_shape body) _ ⟨false, brk, cont, 0⟩
    (exec (emitOp .return) (exec (emitOp .pushNull)
      (exec (shape body).emit (Compiler.init enclosing replMode inlineBody)))).code
    (exec (shape body).emit (Compiler.init enclosing replMode inlineBody)).constants inOrder_init
    (fits_init hloops) ⟨rfl, rfl, Nat.le_refl _⟩ herr hsmall
  have hnone : ∀ e, (exec (shape body).emit
      (Compiler.init enclosing replMode inlineBody)).openJumps e = [] := by
    intro e
    obtain ⟨js, hjs, hlen, -⟩ := hframe.openJumps e
    rw [hjs, openJumps_init, List.length_eq_zero_iff.1 hlen, List.append_nil]
  generalize exec (shape body).emit (Compiler.init enclosing replMode inlineBody) = c₁ at *
  have hcode : (exec (emitOp .return) (exec (emitOp .pushNull) c₁)).code =
      c₁.code ++ Opcode.pushNull.byte :: [Opcode.return.byte] := by simp
  have hcode' : (exec (emitOp .return) (exec (emitOp .pushNull) c₁)).code =
      (exec (emitOp .pushNull) c₁).code ++ Opcode.return.byte :: [] := by simp
  have hlen : (exec (emitOp .pushNull) c₁).code.length = c₁.code.length + 1 := by simp
  refine ⟨c₁.code.length, hlays ⟨fun i _ hi _ => ?_, fun e j hj => ?_, List.prefix_refl _⟩, ?_, ?_, ?_⟩
  · rw [hcode, List.getElem?_append_left hi]
  · rw [hnone] at hj
    cases hj
  · rw [hcode]
    exact opcodeAt_emit _ .pushNull _
  · rw [hcode', ← hlen]
    exact opcodeAt_emit _ .return _
  · simp

end

/-! ### Where a function ends -/

section

variable {σ μ : Type*} (B : Behaviour σ μ) (code : List UInt8) (cs : List Constant)
  {hs : List (Handler μ)}

theorem reaches_of_stuck {c d : Config σ μ} (h : step B code cs c = ∅) :
    Reaches B code cs c d ↔ d = c := by
  refine ⟨fun hrun => ?_, fun heq => heq ▸ .refl⟩
  obtain rfl | ⟨e, he, -⟩ := hrun.cases_head
  · rfl
  · rw [h] at he
    cases he

theorem reaches_thrown {s : σ} {d : Config σ μ} (h : ∀ x ∈ hs, x = none) (hd : d.Final) :
    Reaches B code cs (.thrown s hs) d ↔ d = .escaped s := by
  rw [Reaches, (goesTo_escaped s hs h).reaches_iff hd]
  refine ⟨fun ⟨e, he, hrun⟩ => ?_, fun heq => ⟨_, rfl, heq ▸ .refl⟩⟩
  rw [Set.mem_singleton_iff.1 he] at hrun
  exact (reaches_of_stuck B code cs rfl).1 hrun

/-- The run of a function that is at the end of its code. -/
theorem reaches_land (h : ∀ x ∈ hs, x = none) (x : Result σ) (s : σ) :
    (Reaches B code cs (land ⟨false, code.length, code.length, 0⟩ code.length hs x) (.left s) ↔
        x = .left s) ∧
      (Reaches B code cs (land ⟨false, code.length, code.length, 0⟩ code.length hs x)
        (.escaped s) ↔ x = .threw s) := by
  have hstuck : ∀ s hs d, Reaches B code cs (.running code.length s hs) d ↔
      d = .running code.length s hs := by
    intro s hs d
    have hend : opcodeAt code code.length = none := by
      rw [opcodeAt, List.getElem?_eq_none (Nat.le_refl _)]
      rfl
    exact reaches_of_stuck B code cs (by simp only [step, fetch, hend, Option.map_none])
  cases x with
  | done s' => simp [land, hstuck]
  | brk s' => simp [land, hstuck]
  | cont s' => simp [land, hstuck]
  | threw s' =>
    have hl := reaches_thrown B code cs (s := s') (d := .left s) h trivial
    have he := reaches_thrown B code cs (s := s') (d := .escaped s) h trivial
    simp [land, hl, he, eq_comm]
  | left s' =>
    have hend : ∀ d, Reaches B code cs (.left s') d ↔ d = .left s' := fun d =>
      reaches_of_stuck B code cs rfl
    simp [land, hend, eq_comm]

end

/-- Tests that count down, and instructions that do nothing else. -/
def countdown : Behaviour ℕ Unit where
  effect i n := if i.op = .return then {.left n} else {.next n}
  test _
    | 0 => {.jump 0}
    | n + 1 => {.fall n}
  mark _ := ()
  caught _ n := n

end Slp
