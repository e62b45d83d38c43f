import Slp.Text.CString
import Slp.Vm.Stringify

/-!
# The predicates on texts

`eq` and `ne` compare all bytes of two texts; `lt`, `gt`, `ge`, `le` and `cmp` are decided by
`strcmp`, which does not see what is behind a NUL.

* `TextPredicate.test`, `textCmp` : the branches of `OP_BINARY_PREDICATE`;
* `Coherent` : what the operators owe to each other on two texts;
* `coherent_iff` : **they are coherent if and only if the texts are equal or differ before the first
  NUL.**
-/

namespace Slp

namespace Heap

/-- `get_string_repr`: the bytes, of which C sees those before the first NUL.  The address of an
object is printed by `address`. -/
def stringRepr (C : CLib) (address : Ref → Bytes) (h : Heap) (v : Value) : Bytes :=
  match h.unwrapTaint v with
  | .null => []
  | .bool b => ascii (if b then "true" else "false")
  | .num n => C.formatNum n
  | .obj r =>
    match h.get? r with
    | some (.string s) => s.chars
    | some (.long n) => ascii (toString n)
    | some (.double bits) => C.formatSleepDouble bits
    | some (.classObj c) =>
      (ascii (if c.isInterface then "interface " else "class ") ++
        cstring (h.textAt (some c.name))).take 63
    | _ => (ascii "<object " ++ address r ++ ascii ">").take 63

end Heap

/-- The predicates that compare texts. -/
inductive TextPredicate where
  | eq | ne | lt | gt | ge | le
  deriving DecidableEq, Repr

/-- `memcmp` finds no difference in the first `n` bytes. -/
def sameBytes (a b : Bytes) (n : ℕ) : Bool := a.take n = b.take n

namespace TextPredicate

/-- The branch of a predicate, on the texts of the two operands. -/
def test (a b : Bytes) : TextPredicate → Bool
  | eq => a.length = b.length && sameBytes a b a.length
  | ne => !(a.length = b.length && sameBytes a b a.length)
  | lt => strcmp a b = .lt
  | gt => strcmp a b = .gt
  | ge => strcmp a b ≠ .lt
  | le => strcmp a b ≠ .gt

end TextPredicate

/-- The number that stands for an order. -/
def orderNumber : Ordering → ℤ
  | .lt => -1
  | .gt => 1
  | .eq => 0

/-- What the operator `cmp` pushes. -/
def textCmp (a b : Bytes) : ℤ := orderNumber (strcmp a b)

namespace Heap

/-- `OP_BINARY_PREDICATE` and `OP_NEGATED_BINARY_PREDICATE` for the predicates on texts and for
`cmp`: what is pushed. -/
def binaryPredicate (C : CLib) (address : Ref → Bytes) (h : Heap) (negated : Bool)
    (p : Option TextPredicate) (a b : Value) : Value :=
  let a := h.stringRepr C address a
  let b := h.stringRepr C address b
  match p with
  | some p => .bool (p.test a b != negated)
  | none => .num (textCmp a b)

end Heap

/-- The operators on two texts agree with each other and with one total order, the lexicographic
one. -/
structure Coherent (a b : Bytes) : Prop where
  eq : TextPredicate.eq.test a b = true ↔ textCmp a b = 0
  ne : TextPredicate.ne.test a b = !TextPredicate.eq.test a b
  lt : TextPredicate.lt.test a b = true ↔ textCmp a b < 0
  gt : TextPredicate.gt.test a b = true ↔ 0 < textCmp a b
  le : TextPredicate.le.test a b = true ↔ textCmp a b ≤ 0
  ge : TextPredicate.ge.test a b = true ↔ 0 ≤ textCmp a b
  antisymm : textCmp b a = -textCmp a b
  trans : ∀ c, textCmp a b ≤ 0 → textCmp b c ≤ 0 → textCmp a c ≤ 0
  order : textCmp a b = orderNumber (compare a b)

section

variable {a b c : Bytes}

/-- The predicate `eq` compares all bytes. -/
theorem test_eq : TextPredicate.eq.test a b = true ↔ a = b := by
  rw [TextPredicate.test, Bool.and_eq_true, decide_eq_true_iff, sameBytes, decide_eq_true_iff]
  constructor
  · rintro ⟨hlength, hbytes⟩
    rw [List.take_length, hlength, List.take_length] at hbytes
    exact hbytes
  · rintro rfl
    exact ⟨rfl, rfl⟩

theorem textCmp_neg : textCmp a b < 0 ↔ strcmp a b = .lt := by
  unfold textCmp orderNumber
  cases strcmp a b <;> decide

theorem textCmp_pos : 0 < textCmp a b ↔ strcmp a b = .gt := by
  unfold textCmp orderNumber
  cases strcmp a b <;> decide

theorem textCmp_zero : textCmp a b = 0 ↔ strcmp a b = .eq := by
  unfold textCmp orderNumber
  cases strcmp a b <;> decide

theorem textCmp_nonpos : textCmp a b ≤ 0 ↔ strcmp a b ≠ .gt := by
  rw [← not_lt, textCmp_pos]

theorem textCmp_nonneg : 0 ≤ textCmp a b ↔ strcmp a b ≠ .lt := by
  rw [← not_lt, textCmp_neg]

theorem strcmp_eq_compare_cstring (a b : Bytes) : strcmp a b = compare (cstring a) (cstring b) := by
  rw [strcmp_eq, List.compare_eq_compareLex]

/-- Two texts count as the same for `cmp` when C sees the same of them. -/
theorem strcmp_eq_eq : strcmp a b = .eq ↔ cstring a = cstring b := by
  rw [strcmp_eq_compare_cstring, Std.LawfulEqOrd.compare_eq_iff_eq]

theorem strcmp_swap (a b : Bytes) : strcmp b a = (strcmp a b).swap := by
  rw [strcmp_eq_compare_cstring, strcmp_eq_compare_cstring, Std.OrientedOrd.eq_swap]

theorem textCmp_swap (a b : Bytes) : textCmp b a = -textCmp a b := by
  unfold textCmp orderNumber
  rw [strcmp_swap]
  cases strcmp a b <;> rfl

theorem textCmp_trans (hab : textCmp a b ≤ 0) (hbc : textCmp b c ≤ 0) : textCmp a c ≤ 0 := by
  rw [textCmp_nonpos, strcmp_eq_compare_cstring, ne_eq, ← Ordering.isLE_iff_ne_gt] at hab hbc ⊢
  exact Std.TransOrd.isLE_trans hab hbc

/-- Texts that are equal or differ before the first NUL are ordered as byte strings. -/
theorem strcmp_eq_compare (h : a = b ∨ cstring a ≠ cstring b) : strcmp a b = compare a b := by
  rcases h with rfl | hne
  · exact (strcmp_eq_eq.2 rfl).trans Std.ReflCmp.compare_self.symm
  · rw [strcmp_eq_compare_cstring, compare_cstring hne]

/-- **The operators on texts are coherent if and only if the texts are equal or differ before the
first NUL.** -/
theorem coherent_iff (a b : Bytes) : Coherent a b ↔ a = b ∨ cstring a ≠ cstring b := by
  constructor
  · intro hlaw
    by_cases hcut : cstring a = cstring b
    · exact .inl (test_eq.1 (hlaw.eq.2 (textCmp_zero.2 (strcmp_eq_eq.2 hcut))))
    · exact .inr hcut
  · intro h
    have hcmp : strcmp a b = compare a b := strcmp_eq_compare h
    refine ⟨?_, rfl, ?_, ?_, ?_, ?_, textCmp_swap a b, fun c => textCmp_trans, ?_⟩
    · rw [test_eq, textCmp_zero, hcmp, Std.LawfulEqCmp.compare_eq_iff_eq]
    · rw [textCmp_neg, TextPredicate.test, decide_eq_true_iff]
    · rw [textCmp_pos, TextPredicate.test, decide_eq_true_iff]
    · rw [textCmp_nonpos, TextPredicate.test, decide_eq_true_iff]
    · rw [textCmp_nonneg, TextPredicate.test, decide_eq_true_iff]
    · rw [textCmp, hcmp]

/-- Two texts that differ behind a NUL are not equal, but `cmp` gives zero. -/
theorem not_coherent_nul : ¬∀ a b, Coherent a b := by
  intro hall
  have hlaw := hall [97, 0, 98] [97, 0, 99]
  have hzero : textCmp [97, 0, 98] [97, 0, 99] = 0 := by decide
  exact absurd (hlaw.eq.2 hzero) (by decide)

/-- The operators on two strings compare their bytes. -/
theorem binaryPredicate_string {C : CLib} {address : Ref → Bytes} {h : Heap} {r s : Ref}
    {x y : StringObj} (hr : h.get? r = some (.string x)) (hs : h.get? s = some (.string y))
    (negated : Bool) (p : Option TextPredicate) :
    h.binaryPredicate C address negated p (.obj r) (.obj s) =
      match p with
      | some p => .bool (p.test x.chars y.chars != negated)
      | none => .num (textCmp x.chars y.chars) := by
  have hrepr : ∀ {r x}, h.get? r = some (.string x) →
      h.stringRepr C address (.obj r) = x.chars := by
    intro r x hr
    rw [Heap.stringRepr, Heap.unwrapTaint_obj hr (by simp)]
    dsimp only
    rw [hr]
  unfold Heap.binaryPredicate
  rw [hrepr hr, hrepr hs]

end

end Slp
