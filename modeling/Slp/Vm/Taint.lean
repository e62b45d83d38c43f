import Slp.Vm.Operators
import Mathlib.Tactic.Common

/-!
# Taint and the operator instructions

Eight of the operator instructions wrap what they push when an operand is tainted: the arithmetic
ones and the concatenation.  The others push the bare result.  Reading an operand as a number
never depends on the taint wrappers, so that the payload is the one of the bare operands.  Reading
it as a text does: `stringify_value` counts a wrapper as a level of nesting, and gives `...` below
the thirty-second.

`keepsTaint_iff` says when an instruction that completes treats its taint as it should.
-/

namespace Slp

namespace OperandValue

variable {D O : Type}

/-! ### Wrappers -/

/-- A number or a text the machine has just made. -/
def IsFresh : OperandValue D O → Prop
  | num _ | string _ | long _ | double _ => True
  | _ => False

theorem IsFresh.not_isTainted {v : OperandValue D O} (h : v.IsFresh) : v.isTainted = false := by
  cases v <;> simp_all [IsFresh, isTainted]

theorem IsFresh.unwrapTaint {v : OperandValue D O} (h : v.IsFresh) : v.unwrapTaint = v := by
  cases v <;> simp_all [IsFresh, OperandValue.unwrapTaint]

theorem IsFresh.taintValue {v : OperandValue D O} (h : v.IsFresh) : v.taintValue = tainted v := by
  simp [OperandValue.taintValue, h.not_isTainted]

theorem IsFresh.unwrapTaint_tainted {v : OperandValue D O} (h : v.IsFresh) :
    (tainted v).unwrapTaint = v := by
  rw [OperandValue.unwrapTaint, h.unwrapTaint]

/-- An operand that is not tainted has no wrapper to lose. -/
theorem untaint_of_not_isTainted {v : OperandValue D O} (h : v.isTainted = false) : v.untaint = v := by
  induction v with
  | scalarCell v ih => rw [untaint, ih h]
  | tainted v _ => simp [isTainted] at h
  | _ => rfl

@[simp]
theorem isTainted_untaint (v : OperandValue D O) : v.untaint.isTainted = false := by
  induction v with
  | scalarCell v ih => simpa only [untaint, isTainted] using ih
  | tainted v ih => simpa only [untaint] using ih
  | _ => rfl

/-! ### Numbers do not see the wrappers -/

variable (A : DoubleArith D)

@[simp]
theorem asNumber_untaint (v : OperandValue D O) : v.untaint.asNumber A = v.asNumber A := by
  induction v with
  | scalarCell v ih => rw [untaint, asNumber, asNumber, ih]
  | tainted v ih => rw [untaint, asNumber, ih]
  | _ => rfl

@[simp]
theorem numericIntValue_untaint (v : OperandValue D O) :
    v.untaint.numericIntValue A = v.numericIntValue A := by
  rw [numericIntValue, numericIntValue, asNumber_untaint]

/-- The kind is decided behind the wrappers, and a cell counts as an integer whatever it holds. -/
@[simp]
theorem numericKind_untaint (v : OperandValue D O) : v.untaint.numericKind A = v.numericKind A := by
  induction v with
  | tainted v ih => rw [untaint, ih, numericKind, numericKind, unwrapTaint]
  | _ => rfl

@[simp]
theorem numericLongValue_untaint (v : OperandValue D O) :
    v.untaint.numericLongValue A = v.numericLongValue A := by
  induction v with
  | tainted v ih => rw [untaint, ih, numericLongValue, numericLongValue, unwrapTaint]
  | scalarCell v _ =>
    simp only [untaint, numericLongValue, unwrapTaint, asNumber, asNumber_untaint]
  | _ => rfl

@[simp]
theorem widestNumericKind_untaint (a b : OperandValue D O) :
    widestNumericKind A a.untaint b.untaint = widestNumericKind A a b := by
  simp only [widestNumericKind, numericKind_untaint]

theorem arithmetic_untaint (onDouble : D → D → D) (onLong onInt) (a b : OperandValue D O) :
    arithmetic A onDouble onLong onInt a.untaint b.untaint =
      arithmetic A onDouble onLong onInt a b := by
  simp [arithmetic]

theorem arithmeticUnary_untaint (onDouble : D → D) (onLong onInt) (v : OperandValue D O) :
    arithmeticUnary A onDouble onLong onInt v.untaint = arithmeticUnary A onDouble onLong onInt v := by
  simp [arithmeticUnary]

theorem divideResult_untaint (a b : OperandValue D O) :
    divideResult A a.untaint b.untaint = divideResult A a b := by
  simp [divideResult]

theorem moduloResult_untaint (a b : OperandValue D O) :
    moduloResult A a.untaint b.untaint = moduloResult A a b := by
  simp [moduloResult]

/-! ### What is pushed is fresh -/

theorem isFresh_arithmetic (onDouble : D → D → D) (onLong onInt) (a b : OperandValue D O) :
    (arithmetic A onDouble onLong onInt a b).IsFresh := by
  unfold arithmetic
  split <;> trivial

theorem isFresh_arithmeticUnary (onDouble : D → D) (onLong onInt) (v : OperandValue D O) :
    (arithmeticUnary A onDouble onLong onInt v).IsFresh := by
  unfold arithmeticUnary
  split <;> trivial

theorem isFresh_bitwise (onLong onInt) (a b : OperandValue D O) :
    (bitwise A onLong onInt a b).IsFresh := by
  unfold bitwise
  split <;> trivial

theorem isFresh_shift (onLong onInt) (a b : OperandValue D O) : (shift A onLong onInt a b).IsFresh := by
  unfold shift
  split <;> trivial

theorem isFresh_divideResult {a b v : OperandValue D O} (h : divideResult A a b = .ok v) :
    v.IsFresh := by
  unfold divideResult at h
  split at h
  · cases h; trivial
  all_goals
    split at h <;> cases h
    trivial

theorem isFresh_moduloResult {a b v : OperandValue D O} (h : moduloResult A a b = .ok v) :
    v.IsFresh := by
  unfold moduloResult at h
  split at h
  · split at h <;> cases h; trivial
  all_goals
    split at h
    · cases h
    · unfold remainder at h
      split at h <;> cases h
      trivial

/-! ### Texts do -/

variable (describe : O → ℕ → Option Bytes)

/-- The taint wrappers around the value, also those behind a cell. -/
def wrappers : OperandValue D O → ℕ
  | tainted v => wrappers v + 1
  | scalarCell v => wrappers v
  | _ => 0

/-- The value behind the cells and the wrappers. -/
def leaf : OperandValue D O → OperandValue D O
  | tainted v | scalarCell v => leaf v
  | v => v

theorem stringifyValue_of_lt (v : OperandValue D O) {depth : ℕ} (h : 32 < depth) :
    v.stringifyValue A describe depth = some (ascii "...") := by
  induction v with
  | scalarCell v ih => rw [stringifyValue, ih]
  | _ => rw [stringifyValue, if_pos h]

/-- The text of a value is the one of the bare value that many levels down. -/
theorem stringifyValue_eq_untaint (v : OperandValue D O) (depth : ℕ) :
    v.stringifyValue A describe depth =
      v.untaint.stringifyValue A describe (depth + v.wrappers) := by
  induction v generalizing depth with
  | scalarCell v ih => rw [stringifyValue, untaint, stringifyValue, wrappers, ih]
  | tainted v ih =>
    rw [stringifyValue, untaint, wrappers]
    split
    · rw [stringifyValue_of_lt A describe v.untaint (by omega)]
    · rw [ih, Nat.add_right_comm, Nat.add_assoc]
  | _ => rfl

/-- Down to the last level the depth makes no difference to a number or a text. -/
theorem stringifyValue_depth (v : OperandValue D O) (hv : v.wrappers = 0)
    (hl : ∀ o, v.leaf ≠ other o) {depth : ℕ} (h : depth ≤ 32) :
    v.stringifyValue A describe depth = v.stringifyValue A describe 0 := by
  have h' : ¬ 32 < depth := by omega
  induction v with
  | scalarCell v ih => rw [stringifyValue, stringifyValue, ih hv hl]
  | tainted v _ => simp [wrappers] at hv
  | other o => exact absurd rfl (hl o)
  | _ => simp only [stringifyValue, if_neg h', Nat.not_lt_zero, if_false]

@[simp]
theorem wrappers_untaint (v : OperandValue D O) : v.untaint.wrappers = 0 := by
  induction v with
  | tainted v ih | scalarCell v ih => simpa only [untaint, wrappers] using ih
  | _ => rfl

@[simp]
theorem leaf_untaint (v : OperandValue D O) : v.untaint.leaf = v.leaf := by
  induction v with
  | tainted v ih | scalarCell v ih => simpa only [untaint, leaf] using ih
  | _ => rfl

theorem stringify_eq (v : OperandValue D O) :
    v.stringify A describe = v.stringifyValue A describe 0 := by
  cases v
  all_goals rfl

/-- Up to thirty-two wrappers leave the text of a number or a text as it is. -/
theorem stringify_untaint (v : OperandValue D O) (hl : ∀ o, v.leaf ≠ other o)
    (h : v.wrappers ≤ 32) : v.untaint.stringify A describe = v.stringify A describe := by
  rw [stringify_eq, stringify_eq, stringifyValue_eq_untaint A describe v, Nat.zero_add]
  exact (stringifyValue_depth A describe v.untaint (wrappers_untaint v) (by simpa using hl) h).symm

/-- The two texts one after the other. -/
def joinedText (a b : OperandValue D O) : Option Bytes :=
  (a.stringify A describe).bind fun left => (b.stringify A describe).map (left ++ ·)

theorem concatResult_eq_ok_iff {a b : OperandValue D O} {chars : Bytes} :
    concatResult A describe a b = .ok chars ↔
      joinedText A describe a b = some chars ∧ chars.length + 1 < 2 ^ 32 := by
  unfold concatResult joinedText
  cases a.stringify A describe with
  | none => simp
  | some left =>
    cases b.stringify A describe with
    | none => simp
    | some right =>
      simp only [Option.bind_some, Option.map_some, Option.some.injEq]
      constructor
      · intro h
        split at h
        · cases h; simpa using ‹_›
        · cases h
      · rintro ⟨rfl, h⟩
        rw [if_pos (by simpa using h)]

/-! ### Propagation -/

section Propagation

variable {f g : OperandValue D O → OperandValue D O → Except Fault (OperandValue D O)}
  {a b v : OperandValue D O}

/-- A result that is wrapped when an operand is tainted is tainted just then. -/
theorem isTainted_propagateTaintBinary (hv : v.IsFresh) :
    (propagateTaintBinary v a b).isTainted = (a.isTainted || b.isTainted) := by
  unfold propagateTaintBinary
  split
  · next h => rw [hv.taintValue, isTainted, h]
  · next h => rw [hv.not_isTainted, Bool.not_eq_true _ |>.mp h]

theorem unwrapTaint_propagateTaintBinary (hv : v.IsFresh) :
    (propagateTaintBinary v a b).unwrapTaint = v := by
  unfold propagateTaintBinary
  split
  · rw [hv.taintValue, hv.unwrapTaint_tainted]
  · exact hv.unwrapTaint

theorem propagateTaintBinary_untaint : propagateTaintBinary v a.untaint b.untaint = v := by
  simp [propagateTaintBinary]

theorem propagateTaintUnary_eq : propagateTaintUnary v a = propagateTaintBinary v a a := by
  simp [propagateTaintUnary, propagateTaintBinary]

end Propagation

end OperandValue

/-! ### The law -/

namespace Operator

variable {D O : Type} (A : DoubleArith D) (describe : O → ℕ → Option Bytes)

/-- The instructions that end in one of the two `propagate_taint` functions. -/
def propagates : Operator → Bool
  | add | subtract | multiply | divide | modulo | power | negate | concat => true
  | _ => false

/-- The stack with the operands of the instruction bare. -/
def bare (op : Operator) (stack : List (OperandValue D O)) : List (OperandValue D O) :=
  (stack.take op.arity).map OperandValue.untaint ++ stack.drop op.arity

/-- What an instruction that pushed `v` owes its operands: `v` is tainted when one of them is, and
only then, and the rest of it is what the bare operands give. -/
structure KeepsTaint (op : Operator) (stack rest : List (OperandValue D O))
    (v : OperandValue D O) : Prop where
  tainted : v.isTainted = (stack.take op.arity).any OperandValue.isTainted
  payload : op.exec A describe (op.bare stack) = .ok (v.unwrapTaint :: rest)

variable {A describe} {op : Operator} {stack rest : List (OperandValue D O)} {v : OperandValue D O}

theorem binary_eq_ok {f : OperandValue D O → OperandValue D O → Except Fault (OperandValue D O)}
    (h : binary f stack = .ok (v :: rest)) : ∃ a b, stack = b :: a :: rest ∧ f a b = .ok v := by
  match stack, h with
  | b :: a :: rest', h =>
    rw [binary] at h
    cases hf : f a b with
    | error e => rw [hf] at h; cases h
    | ok w => rw [hf] at h; cases h; exact ⟨a, b, rfl, hf⟩

theorem unary_eq_ok {f : OperandValue D O → Except Fault (OperandValue D O)}
    (h : unary f stack = .ok (v :: rest)) : ∃ a, stack = a :: rest ∧ f a = .ok v := by
  match stack, h with
  | a :: rest', h =>
    rw [unary] at h
    cases hf : f a with
    | error e => rw [hf] at h; cases h
    | ok w => rw [hf] at h; cases h; exact ⟨a, rfl, hf⟩

/-- The texts an instruction joins are those of the bare operands. -/
def SameText (A : DoubleArith D) (describe : O → ℕ → Option Bytes) (op : Operator) :
    List (OperandValue D O) → Prop
  | b :: a :: _ => op = .concat →
    OperandValue.joinedText A describe a.untaint b.untaint = OperandValue.joinedText A describe a b
  | _ => True

/-- An instruction that wraps the result `g` of its two operands keeps the taint when `g` does not
see the wrappers. -/
theorem keepsTaint_binary_iff
    {f g : OperandValue D O → OperandValue D O → Except Fault (OperandValue D O)}
    (hexec : op.exec A describe = binary f) (har : op.arity = 2)
    (hf : ∀ a b, f a b = (g a b).map (OperandValue.propagateTaintBinary · a b))
    (hg : ∀ a b w, g a b = .ok w → w.IsFresh) {a b : OperandValue D O}
    (h : f a b = .ok v) :
    KeepsTaint A describe op (b :: a :: rest) rest v ↔ g a.untaint b.untaint = g a b := by
  rw [hf] at h
  cases hw : g a b with
  | error e => rw [hw] at h; cases h
  | ok w =>
    rw [hw] at h
    cases h
    have hfresh := hg a b w hw
    have hbare : op.exec A describe (op.bare (b :: a :: rest)) =
        (g a.untaint b.untaint).map (· :: rest) := by
      have hb : op.bare (b :: a :: rest) = b.untaint :: a.untaint :: rest := by simp [bare, har]
      rw [hb, hexec, binary, hf]
      cases g a.untaint b.untaint with
      | error e => rfl
      | ok w' => simp [Except.map, OperandValue.propagateTaintBinary_untaint]
    constructor
    · intro hk
      have hp := hk.payload
      rw [hbare, OperandValue.unwrapTaint_propagateTaintBinary hfresh] at hp
      cases hw' : g a.untaint b.untaint with
      | error e => rw [hw'] at hp; cases hp
      | ok w' => rw [hw'] at hp; cases hp; rfl
    · intro hs
      refine ⟨?_, ?_⟩
      · rw [OperandValue.isTainted_propagateTaintBinary hfresh, har]
        simp [Bool.or_comm]
      · rw [hbare, hs, OperandValue.unwrapTaint_propagateTaintBinary hfresh]
        rfl

/-- The one instruction on one operand that wraps its result. -/
theorem keepsTaint_negate {a : OperandValue D O} (h : OperandValue.negate A a = .ok v) :
    KeepsTaint A describe .negate (a :: rest) rest v := by
  cases h
  have hfresh := OperandValue.isFresh_arithmeticUnary A A.neg (0 - ·) (0 - ·) a
  refine ⟨?_, ?_⟩
  · rw [OperandValue.propagateTaintUnary_eq, OperandValue.isTainted_propagateTaintBinary hfresh]
    simp [arity]
  · rw [OperandValue.propagateTaintUnary_eq,
      OperandValue.unwrapTaint_propagateTaintBinary hfresh]
    show ((OperandValue.negate A a.untaint).map (· :: rest)) = _
    rw [OperandValue.negate, OperandValue.propagateTaintUnary_eq,
      OperandValue.propagateTaintBinary_untaint, OperandValue.arithmeticUnary_untaint]
    rfl

/-- The other instructions push a number or a text of their own. -/
theorem isFresh_of_not_propagates (hop : op.propagates = false)
    (h : op.exec A describe stack = .ok (v :: rest)) : v.IsFresh := by
  cases op with
  | add | subtract | multiply | divide | modulo | power | negate | concat => cases hop
  | align =>
    obtain ⟨a, b, -, h⟩ := binary_eq_ok h
    unfold OperandValue.align at h
    dsimp only at h
    split at h <;> cases h
    trivial
  | «repeat» =>
    obtain ⟨a, b, -, h⟩ := binary_eq_ok h
    unfold OperandValue.repeat at h
    dsimp only at h
    split at h
    · cases h
    · split at h
      · cases h; trivial
      · split at h <;> cases h
        trivial
  | spaceship => obtain ⟨a, b, -, h⟩ := binary_eq_ok h; cases h; trivial
  | bitAnd | bitOr | bitXor =>
    obtain ⟨a, b, -, h⟩ := binary_eq_ok h
    cases h
    exact OperandValue.isFresh_bitwise A _ _ a b
  | lshift | rshift =>
    obtain ⟨a, b, -, h⟩ := binary_eq_ok h
    cases h
    exact OperandValue.isFresh_shift A _ _ a b
  | bitNot =>
    obtain ⟨a, -, h⟩ := unary_eq_ok h
    cases h
    split <;> trivial
  | increment | decrement =>
    obtain ⟨a, -, h⟩ := unary_eq_ok h
    cases h
    exact OperandValue.isFresh_arithmeticUnary A _ _ _ a

/-- Where no operand is tainted there is nothing to take off. -/
theorem bare_of_untainted (h : ∀ x ∈ stack.take op.arity, x.isTainted = false) :
    op.bare stack = stack := by
  rw [bare, List.map_congr_left fun x hx => OperandValue.untaint_of_not_isTainted (h x hx),
    List.map_id', List.take_append_drop]

/-- An instruction that pushes a fresh value keeps the taint only where there is none. -/
theorem keepsTaint_fresh_iff (hv : v.IsFresh) (h : op.exec A describe stack = .ok (v :: rest)) :
    KeepsTaint A describe op stack rest v ↔ ∀ x ∈ stack.take op.arity, x.isTainted = false := by
  constructor
  · intro hk x hx
    have := hk.tainted
    rw [hv.not_isTainted, eq_comm, List.any_eq_false] at this
    exact Bool.not_eq_true _ |>.mp (this x hx)
  · intro hn
    refine ⟨?_, ?_⟩
    · rw [hv.not_isTainted, eq_comm, List.any_eq_false]
      exact fun x hx => by simp [hn x hx]
    · rw [bare_of_untainted hn, hv.unwrapTaint, h]

/-- The concatenation keeps the taint when the wrappers leave the text as it is. -/
theorem keepsTaint_concat_iff {a b : OperandValue D O}
    (h : OperandValue.concat A describe a b = .ok v) :
    KeepsTaint A describe .concat (b :: a :: rest) rest v ↔
      SameText A describe .concat (b :: a :: rest) := by
  rw [keepsTaint_binary_iff (g := fun a b => (OperandValue.concatResult A describe a b).map
    OperandValue.string) rfl rfl (fun a b => ?_) (fun a b w hw => ?_) h]
  · cases hc : OperandValue.concatResult A describe a b with
    | error e => rw [OperandValue.concat, hc] at h; cases h
    | ok chars =>
      obtain ⟨hj, hlen⟩ := (OperandValue.concatResult_eq_ok_iff A describe).1 hc
      constructor
      · intro he _
        cases hc' : OperandValue.concatResult A describe a.untaint b.untaint with
        | error e => rw [hc'] at he; cases he
        | ok chars' =>
          rw [hc'] at he
          cases he
          rw [hj, ((OperandValue.concatResult_eq_ok_iff A describe).1 hc').1]
      · intro hs
        have := (OperandValue.concatResult_eq_ok_iff A describe).2 ⟨(hs rfl).trans hj, hlen⟩
        rw [this]
  · rw [OperandValue.concat]
    cases OperandValue.concatResult A describe a b <;> rfl
  · cases hc : OperandValue.concatResult A describe a b with
    | error e => rw [hc] at hw; cases hw
    | ok chars => rw [hc] at hw; cases hw; trivial

/-- An instruction that wraps its result and reads its operands as numbers keeps the taint. -/
theorem keepsTaint_of_propagates (hop : op.propagates = true) (hc : op ≠ .concat)
    (h : op.exec A describe stack = .ok (v :: rest)) : KeepsTaint A describe op stack rest v := by
  -- `g` is the instruction before its taint, once for each
  cases op with
  | add =>
    obtain ⟨a, b, rfl, hv⟩ := binary_eq_ok h
    refine (keepsTaint_binary_iff (g := fun a b => .ok (OperandValue.arithmetic A A.add (· + ·)
      (· + ·) a b)) rfl rfl (fun _ _ => rfl) ?_ hv).2 (by rw [OperandValue.arithmetic_untaint])
    rintro a b _ ⟨⟩
    exact OperandValue.isFresh_arithmetic A _ _ _ a b
  | subtract =>
    obtain ⟨a, b, rfl, hv⟩ := binary_eq_ok h
    refine (keepsTaint_binary_iff (g := fun a b => .ok (OperandValue.arithmetic A A.sub (· - ·)
      (· - ·) a b)) rfl rfl (fun _ _ => rfl) ?_ hv).2 (by rw [OperandValue.arithmetic_untaint])
    rintro a b _ ⟨⟩
    exact OperandValue.isFresh_arithmetic A _ _ _ a b
  | multiply =>
    obtain ⟨a, b, rfl, hv⟩ := binary_eq_ok h
    refine (keepsTaint_binary_iff (g := fun a b => .ok (OperandValue.arithmetic A A.mul (· * ·)
      (· * ·) a b)) rfl rfl (fun _ _ => rfl) ?_ hv).2 (by rw [OperandValue.arithmetic_untaint])
    rintro a b _ ⟨⟩
    exact OperandValue.isFresh_arithmetic A _ _ _ a b
  | divide =>
    obtain ⟨a, b, rfl, hv⟩ := binary_eq_ok h
    exact (keepsTaint_binary_iff (g := OperandValue.divideResult A) rfl rfl (fun _ _ => rfl)
      (fun _ _ _ => OperandValue.isFresh_divideResult A) hv).2
      (OperandValue.divideResult_untaint A a b)
  | modulo =>
    obtain ⟨a, b, rfl, hv⟩ := binary_eq_ok h
    exact (keepsTaint_binary_iff (g := OperandValue.moduloResult A) rfl rfl (fun _ _ => rfl)
      (fun _ _ _ => OperandValue.isFresh_moduloResult A) hv).2
      (OperandValue.moduloResult_untaint A a b)
  | power =>
    obtain ⟨a, b, rfl, hv⟩ := binary_eq_ok h
    refine (keepsTaint_binary_iff (g := fun a b => .ok (.double (A.pow (a.asNumber A)
      (b.asNumber A)))) rfl rfl (fun _ _ => rfl) ?_ hv).2 (by simp)
    rintro a b _ ⟨⟩
    trivial
  | negate =>
    obtain ⟨a, rfl, hv⟩ := unary_eq_ok h
    exact keepsTaint_negate hv
  | concat => exact absurd rfl hc
  | _ => cases hop

/-- **An instruction that completes treats its taint as it should** just when it is one of those
that wrap their result, or none of its operands is tainted; and the concatenation, which reads its
operands as texts, when also the wrappers leave the text as it is. -/
theorem keepsTaint_iff (h : op.exec A describe stack = .ok (v :: rest)) :
    KeepsTaint A describe op stack rest v ↔
      (op.propagates = true ∨ ∀ x ∈ stack.take op.arity, x.isTainted = false) ∧
        SameText A describe op stack := by
  have hsame : op ≠ .concat → SameText A describe op stack := by
    intro hc
    match stack with
    | [] | [_] => trivial
    | _ :: _ :: _ => exact fun h => absurd h hc
  by_cases hop : op.propagates = true
  · simp only [hop, true_or, true_and]
    by_cases hc : op = .concat
    · subst hc
      obtain ⟨a, b, rfl, hv⟩ := binary_eq_ok h
      exact keepsTaint_concat_iff hv
    · exact iff_of_true (keepsTaint_of_propagates hop hc h) (hsame hc)
  · have hc : op ≠ .concat := by rintro rfl; exact hop rfl
    rw [keepsTaint_fresh_iff (isFresh_of_not_propagates (Bool.not_eq_true _ |>.mp hop) h) h]
    simp [hop, hsame hc]

/-! ### An instruction that forgets -/

/-- Whole numbers for `double`, which they agree with on small ones. -/
def wholeNumbers : DoubleArith ℤ where
  ofInt := id
  add := (· + ·)
  sub := (· - ·)
  mul := (· * ·)
  div := Int.tdiv
  fmod := Int.tmod
  pow a b := a ^ b.toNat
  neg := (- ·)
  trunc := id
  lt a b := decide (a < b)
  eq a b := decide (a = b)
  isfinite _ := true
  toInt32 := BitVec.ofInt 32
  toInt64 := BitVec.ofInt 64
  strtod chars := (chars.takeWhile fun c => 48 ≤ c && c ≤ 57).foldl
    (fun n c => 10 * n + (c.toNat - 48 : ℤ)) 0
  formatSleepNumber d := ascii (toString d)
  formatOneDigit d := ascii (toString d ++ ".0")

/-- Two numbers, the one below tainted. -/
def taintedPair : List (OperandValue ℤ Empty) := [.num 3, .tainted (.num 5)]

/-- A tainted number keeps its taint in a sum. -/
theorem keepsTaint_iff_add :
    add.exec wholeNumbers Empty.elim taintedPair = .ok [.tainted (.num 8)] ∧
      (KeepsTaint wholeNumbers Empty.elim add taintedPair [] (.tainted (.num 8)) ↔
        (add.propagates = true ∨
            ∀ x ∈ taintedPair.take add.arity, x.isTainted = false) ∧
          SameText wholeNumbers Empty.elim add taintedPair) :=
  ⟨by decide, keepsTaint_iff (by decide)⟩

/-- The bitwise and of the same two is bare. -/
theorem not_keepsTaint_bitAnd :
    bitAnd.exec wholeNumbers Empty.elim taintedPair = .ok [.num 1] ∧
      ¬ KeepsTaint wholeNumbers Empty.elim bitAnd taintedPair [] (.num 1) :=
  ⟨by decide, fun h => absurd h.tainted (by decide)⟩

end Operator

end Slp
