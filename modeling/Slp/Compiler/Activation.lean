import Slp.Compiler.Operands
import Slp.Flow.Goes

/-!
# The run loop on one activation

What the run loop makes of the code of one function: it reads an instruction (`fetch`), follows the
jumps and keeps the handler array (`step`).  What an instruction does to the rest of the machine is
a `Behaviour`, of which nothing is assumed.  A call is one instruction, with all that runs until it
comes back, if it does; what it throws may find a handler of this activation.
-/

namespace Slp

open Flow (Command Goes Result Steps Verdict)

/-! ### Instructions -/

namespace Opcode

/-- The opcodes that jump or not. -/
def isTest : Opcode → Bool
  | .and | .or | .jumpIfFalse | .jumpIfTrue | .jumpIfNull | .foreachNext | .foreachNextValue => true
  | _ => false

/-- The opcodes that set the instruction pointer or change the handlers. -/
def isControl (o : Opcode) : Bool := o.isJump || o = .loop || o = .popHandler

/-- The opcodes with a one-byte operand other than a slot. -/
def hasCount (o : Opcode) : Bool := o = .callNamed || (o.length = 2 && !o.isLocal)

theorem hasCount_of_length {o : Opcode} (h : o.length = 1) : o.hasCount = false := by
  cases o <;> first | rfl | exact absurd h (by decide)

theorem length_of_hasCount {o : Opcode} (h : o.hasCount) : 1 < o.length := by
  cases o <;> first | decide | exact absurd h (by decide)

end Opcode

namespace Activation

/-- An operand that is a slot of the frame or a constant. -/
inductive Argument where
  | slot (i : ℕ)
  | constant (v : Option Constant)

/-- An instruction with its operands. -/
structure Instruction where
  op : Opcode
  count : Option UInt8
  arguments : List Argument

/-- What an operand stands for, with these constants. -/
def argument (cs : List Constant) : Access → Argument
  | .slot i => .slot i
  | .constant _ k => .constant cs[k]?

/-- The instruction at `p`.  `OP_IMPORT` does not use its operands. -/
def fetch (code : List UInt8) (cs : List Constant) (p : ℕ) : Option Instruction :=
  (opcodeAt code p).map fun o =>
    { op := o
      count := if o.hasCount then code[p + 1]? else none
      arguments := if o = .importOp then [] else (accessesAt code p o).map (argument cs) }

theorem opcodeAt_of_fetch {code : List UInt8} {cs : List Constant} {p : ℕ} {i : Instruction}
    (h : fetch code cs p = some i) : opcodeAt code p = some i.op := by
  obtain ⟨o, ho, rfl⟩ := Option.map_eq_some_iff.1 h
  exact ho

theorem exists_fetch {code : List UInt8} {p : ℕ} {o : Opcode} (h : opcodeAt code p = some o)
    (cs : List Constant) : ∃ i, fetch code cs p = some i ∧ i.op = o := by
  rw [fetch, h]
  exact ⟨_, rfl, rfl⟩

/-- An instruction without operands. -/
theorem fetch_of_length {code : List UInt8} {p : ℕ} {o : Opcode} (h : opcodeAt code p = some o)
    (hlen : o.length = 1) (hlocal : o.isLocal = false) (cs : List Constant) :
    fetch code cs p = some ⟨o, none, []⟩ := by
  rw [fetch, h]
  simp [Opcode.hasCount_of_length hlen, accessesAt, hlocal,
    Opcode.constantOperands_of_length (.inl hlen)]

/-! ### The machine -/

/-- What an instruction that is no jump does to the activation. -/
inductive Effect (σ : Type*) where
  | next (s : σ)
  | threw (s : σ)
  | left (s : σ)

/-- What the instructions do to the rest of the machine. -/
structure Behaviour (σ μ : Type*) where
  effect : Instruction → σ → Set (Effect σ)
  test : Opcode → σ → Set (Verdict σ)
  /-- What `OP_PUSH_HANDLER` keeps of the machine. -/
  mark : σ → μ
  /-- What the machine is when a handler is entered. -/
  caught : μ → σ → σ

/-- An entry of the handler array, with its `catch_ip` if it belongs to this activation. -/
abbrev Handler (μ : Type*) := Option (ℕ × μ)

/-- The activation: at an instruction, on its way to a handler, or left, by a return or by what was
thrown. -/
inductive Config (σ μ : Type*) where
  | running (p : ℕ) (s : σ) (hs : List (Handler μ))
  | thrown (s : σ) (hs : List (Handler μ))
  | left (s : σ)
  | escaped (s : σ)

variable {σ μ : Type*}

/-- Where the activation is after an instruction that ends at `q`. -/
def Effect.config (q : ℕ) (hs : List (Handler μ)) : Effect σ → Config σ μ
  | .next s => .running q s hs
  | .threw s => .thrown s hs
  | .left s => .left s

/-- Where the activation is after a test that ends at `q` and may jump to `t`. -/
def verdictConfig (t q : ℕ) (hs : List (Handler μ)) : Verdict σ → Config σ μ
  | .jump s => .running t s hs
  | .fall s => .running q s hs
  | .threw s => .thrown s hs
  | .left s => .left s

/-- `OP_LOOP` reads its operand as an `int16_t`. -/
def loopDistance (code : List UInt8) (p : ℕ) : ℤ := (BitVec.ofNat 16 (readShort code (p + 1))).toInt

/-- The activation is over. -/
def Config.Final : Config σ μ → Prop
  | .left _ | .escaped _ => True
  | _ => False

/-- `OP_PUSH_HANDLER`, which does nothing when the array is full. -/
def pushHandler (hs : List (Handler μ)) (h : ℕ × μ) : List (Handler μ) :=
  if hs.length < maxHandlers then some h :: hs else hs

/-- One turn of the run loop. -/
def step (B : Behaviour σ μ) (code : List UInt8) (cs : List Constant) :
    Config σ μ → Set (Config σ μ)
  | .running p s hs =>
    match fetch code cs p with
    | none => ∅
    | some i =>
      match i.op with
      | .jump => {.running (jumpTarget code (p + 1)) s hs}
      | .loop => {c | ∃ q : ℕ, (q : ℤ) = p + 3 - loopDistance code p ∧ c = .running q s hs}
      | .pushHandler => {.running (p + 3) s (pushHandler hs (jumpTarget code (p + 1), B.mark s))}
      | .popHandler => {.running (p + 1) s hs.tail}
      | o =>
        if o.isTest then verdictConfig (jumpTarget code (p + 1)) (p + 3) hs '' B.test o s
        else Effect.config (p + i.op.length) hs '' B.effect i s
  | .thrown s (some (q, m) :: hs) => {.running q (B.caught m s) hs}
  | .thrown s _ => {.escaped s}
  | .left _ | .escaped _ => ∅

/-- The runs of the activation. -/
abbrev Reaches (B : Behaviour σ μ) (code : List UInt8) (cs : List Constant) :
    Config σ μ → Config σ μ → Prop :=
  Relation.ReflTransGen fun c d => d ∈ step B code cs c

/-! ### One turn -/

section

variable {B : Behaviour σ μ} {code : List UInt8} {cs : List Constant} {p q : ℕ} {o : Opcode}
  (s : σ) (hs : List (Handler μ))

/-- Where the runs from a configuration go, after `n` steps or more. -/
abbrev GoesTo (B : Behaviour σ μ) (code : List UInt8) (cs : List Constant) (n : ℕ)
    (c : Config σ μ) (S : Set (Config σ μ)) : Prop :=
  Goes (fun c d => d ∈ step B code cs c) Config.Final n c S

theorem goesTo_step (c : Config σ μ) (hc : ¬c.Final) : GoesTo B code cs 1 c (step B code cs c) :=
  .of_step hc fun _ => Iff.rfl

theorem goesTo_jump (h : opcodeAt code p = some .jump) :
    GoesTo B code cs 1 (.running p s hs) {.running (jumpTarget code (p + 1)) s hs} := by
  obtain ⟨i, hi, hop⟩ := exists_fetch h cs
  have hstep : step B code cs (.running p s hs) = {.running (jumpTarget code (p + 1)) s hs} := by
    simp only [step, hi, hop]
  exact hstep ▸ goesTo_step _ id

theorem goesTo_loop (h : LoopsBack code p q) (hnear : p + 3 ≤ q + 32767) :
    GoesTo B code cs 1 (.running p s hs) {.running q s hs} := by
  obtain ⟨i, hi, hop⟩ := exists_fetch h.1 cs
  have hback := h.2
  have hdistance : loopDistance code p = readShort code (p + 1) := by
    rw [loopDistance, BitVec.toInt_ofNat']
    exact Int.bmod_eq_of_le (by omega) (by omega)
  have hstep : step B code cs (.running p s hs) = {.running q s hs} := by
    simp only [step, hi, hop, hdistance]
    ext c
    constructor
    · rintro ⟨q', hq, rfl⟩
      obtain rfl : q' = q := by omega
      rfl
    · rintro rfl
      exact ⟨q, by omega, rfl⟩
  exact hstep ▸ goesTo_step _ id

theorem goesTo_pushHandler (h : opcodeAt code p = some .pushHandler)
    (hroom : hs.length < maxHandlers) : GoesTo B code cs 1 (.running p s hs)
      {.running (p + 3) s (some (jumpTarget code (p + 1), B.mark s) :: hs)} := by
  obtain ⟨i, hi, hop⟩ := exists_fetch h cs
  have hstep : step B code cs (.running p s hs) =
      {.running (p + 3) s (some (jumpTarget code (p + 1), B.mark s) :: hs)} := by
    simp only [step, hi, hop, pushHandler, if_pos hroom]
  exact hstep ▸ goesTo_step _ id

theorem goesTo_popHandler (h : opcodeAt code p = some .popHandler) :
    GoesTo B code cs 1 (.running p s hs) {.running (p + 1) s hs.tail} := by
  obtain ⟨i, hi, hop⟩ := exists_fetch h cs
  have hstep : step B code cs (.running p s hs) = {.running (p + 1) s hs.tail} := by
    simp only [step, hi, hop]
  exact hstep ▸ goesTo_step _ id

theorem goesTo_test (h : opcodeAt code p = some o) (ho : o.isTest) :
    GoesTo B code cs 1 (.running p s hs)
      (verdictConfig (jumpTarget code (p + 1)) (p + 3) hs '' B.test o s) := by
  obtain ⟨i, hi, hop⟩ := exists_fetch h cs
  have hstep : step B code cs (.running p s hs) =
      verdictConfig (jumpTarget code (p + 1)) (p + 3) hs '' B.test o s := by
    simp only [step, hi, hop]
    cases o <;> first | rfl | cases ho
  exact hstep ▸ goesTo_step _ id

theorem goesTo_effect {i : Instruction} (h : fetch code cs p = some i)
    (hi : i.op.isControl = false) : GoesTo B code cs 1 (.running p s hs)
      (Effect.config (p + i.op.length) hs '' B.effect i s) := by
  have hstep : step B code cs (.running p s hs) =
      Effect.config (p + i.op.length) hs '' B.effect i s := by
    obtain ⟨o, count, arguments⟩ := i
    simp only [step, h]
    cases o <;> first | rfl | cases hi
  exact hstep ▸ goesTo_step _ id

theorem goesTo_caught (h : ℕ × μ) :
    GoesTo B code cs 1 (.thrown s (some h :: hs)) {.running h.1 (B.caught h.2 s) hs} :=
  goesTo_step _ id

/-- What is thrown leaves the activation if it has no handler. -/
theorem goesTo_escaped (h : ∀ x ∈ hs, x = none) : GoesTo B code cs 1 (.thrown s hs) {.escaped s} := by
  have hstep : step B code cs (.thrown s hs) = {.escaped s} := by
    cases hs with
    | nil => rfl
    | cons x hs =>
      obtain rfl := h x List.mem_cons_self
      rfl
  exact hstep ▸ goesTo_step _ id

/-- The handlers that a `break` or `continue` leaves. -/
theorem goesTo_popHandlers (n : ℕ) (h : ∀ k < n, opcodeAt code (p + k) = some .popHandler) :
    GoesTo B code cs 0 (.running p s hs) {.running (p + n) s (hs.drop n)} := by
  induction n generalizing p hs with
  | zero => exact .refl _
  | succ n ih =>
    have hrest := @ih (p + 1) hs.tail fun k hk => by
      have := h (k + 1) (by omega)
      rwa [Nat.add_assoc, Nat.add_comm 1 k]
    rw [List.drop_tail, Nat.add_assoc, Nat.add_comm 1 n] at hrest
    exact ((goesTo_popHandler s hs (h 0 (Nat.succ_pos n))).trans hrest).mono (Nat.zero_le _)

end

end Activation

end Slp
