import Std.Data.String.ToInt
import Slp.Codec.Bytecode
import Slp.Number.CInt
import Slp.Number.Rounding
import Slp.Stdlib.Bulk
import Slp.Vm.TextPredicates

/-!
# The comparison instructions

`==`, `<` and the others compare two numbers as doubles, whatever kind they are of; `is` and the keys
of a hash compare two longs themselves.

* `Heap.valueEquals`, `Heap.asNumber` : `slp_value_equals` and `slp_value_as_number`;
* `ComparisonLaw` : the instructions agree with the order of the integers, and `==` with `is` and
  the keys;
* `comparisonLaw_iff` : **the law holds if and only if the integers are equal or have different
  doubles;**
* `doubleOfInt_ne` : an integer of at most 53 bits has a double of its own.
-/

namespace Slp

open Rounding

/-! ### Doubles -/

/-- The conversion of an integer: it has 53 bits, and is rounded to the nearest such. -/
def doubleOfInt (n : ℤ) : UInt64 :=
  UInt64.ofNat ((if n < 0 then 9223372036854775808 else 0) + encode 52 1022 n.natAbs)

/-- Where a double that is a number comes in the order. -/
def doubleKey (bits : UInt64) : ℤ :=
  if bits.toNat < 9223372036854775808 then bits.toNat else 9223372036854775808 - bits.toNat

/-- `<` on doubles. -/
def doubleLess (a b : UInt64) : Bool := !isNaN a && !isNaN b && doubleKey a < doubleKey b

/-- `<=` on doubles. -/
def doubleLessEqual (a b : UInt64) : Bool := !isNaN a && !isNaN b && doubleKey a ≤ doubleKey b

/-! ### Values -/

namespace Heap

variable (strtod : Bytes → UInt64) (h : Heap)

/-- `is_numeric_value`. -/
def isNumericValue (v : Value) : Bool :=
  match h.unwrapTaint v with
  | .num _ => true
  | .obj r =>
    match h.get? r with
    | some (.long _) | some (.double _) => true
    | _ => false
  | _ => false

/-- `numeric_double_value`, of a numeric value. -/
def numericDoubleValue (v : Value) : UInt64 :=
  match h.unwrapTaint v with
  | .num n => doubleOfInt n
  | .obj r =>
    match h.get? r with
    | some (.long n) => doubleOfInt n
    | some (.double bits) => bits
    | _ => 0
  | _ => 0

/-- `slp_value_equals`. -/
def valueEquals (a b : Value) : Bool :=
  let a := h.unwrapTaint a
  let b := h.unwrapTaint b
  if h.isNumericValue a && h.isNumericValue b then
    doubleEquals (h.numericDoubleValue a) (h.numericDoubleValue b)
  else a == b

/-- `slp_value_as_number`, through at most `fuel` cells. -/
def asNumberLoop : (fuel : ℕ) → Value → UInt64
  | fuel, v =>
    match h.unwrapTaint v with
    | .num n => doubleOfInt n
    | .bool b => doubleOfInt (if b then 1 else 0)
    | .null => 0
    | .obj r =>
      match h.get? r, fuel with
      | some (.scalarCell v _), fuel + 1 => asNumberLoop fuel v
      | some (.string s), _ => strtod s.chars
      | some (.long n), _ => doubleOfInt n
      | some (.double bits), _ => bits
      | _, _ => 0

/-- `slp_value_as_number`. -/
def asNumber (v : Value) : UInt64 := h.asNumberLoop strtod h.length v

end Heap

/-- The instructions that push whether a comparison holds. -/
inductive Comparison where
  | equal | notEqual | less | greater | lessEqual | greaterEqual
  deriving DecidableEq, Repr

namespace Comparison

variable (strtod : Bytes → UInt64) (h : Heap)

/-- What `OP_EQUAL` to `OP_GREATER_EQUAL` push. -/
def test (a b : Value) : Comparison → Bool
  | equal => h.valueEquals a b
  | notEqual => !h.valueEquals a b
  | less => doubleLess (h.asNumber strtod a) (h.asNumber strtod b)
  | greater => doubleLess (h.asNumber strtod b) (h.asNumber strtod a)
  | lessEqual => doubleLessEqual (h.asNumber strtod a) (h.asNumber strtod b)
  | greaterEqual => doubleLessEqual (h.asNumber strtod b) (h.asNumber strtod a)

/-- The comparison of two integers. -/
def holds (a b : ℤ) : Comparison → Bool
  | equal => a = b
  | notEqual => a ≠ b
  | less => a < b
  | greater => a > b
  | lessEqual => a ≤ b
  | greaterEqual => a ≥ b

end Comparison

/-- `OP_SPACESHIP`. -/
def Heap.spaceship (strtod : Bytes → UInt64) (h : Heap) (a b : Value) : Value :=
  let da := h.asNumber strtod a
  let db := h.asNumber strtod b
  .num (if doubleLess da db then -1 else if doubleLess db da then 1 else 0)

/-- An integer of 64 bits. -/
def IsInt64 (n : ℤ) : Prop := -9223372036854775808 ≤ n ∧ n ≤ 9223372036854775807

/-- A value is a long. -/
def Heap.IsLong (h : Heap) (v : Value) (n : ℤ) : Prop :=
  (∃ r, h.unwrapTaint v = .obj r ∧ h.get? r = some (.long n)) ∧ IsInt64 n

/-- A value is an integer: a long, or a number of 32 bits. -/
def Heap.IsInteger (h : Heap) (v : Value) (n : ℤ) : Prop :=
  h.IsLong v n ∨ h.unwrapTaint v = .num n ∧ CInt.IsInt n

/-- The instructions agree with the order of the integers `a` and `b` that the values are. -/
structure ComparisonLaw (strtod : Bytes → UInt64) (fmt : Printf) (C : CEquality) (h : Heap) (x y : Value)
    (a b : ℤ) : Prop where
  test : ∀ op : Comparison, op.test strtod h x y = op.holds a b
  spaceship : h.spaceship strtod x y = .num (orderNumber (compare a b))
  trichotomy : ([.less, .equal, .greater].filter (Comparison.test strtod h x y)).length = 1
  longs : h.IsLong x a → h.IsLong y b →
    (h.valueEquals x y = true ↔ HashObj.keyEquals fmt h x y = true ∧ h.identityEquals C x y = true)

/-! ### The order of the doubles -/

section

variable {n a b : ℤ}

/-- Where the double of an integer comes in the order. -/
def roundKey (n : ℤ) : ℤ :=
  if n < 0 then -(encode 52 1022 n.natAbs : ℤ) else encode 52 1022 n.natAbs

/-- The exponent stays far below that of an infinity. -/
theorem encode_lt (hn : IsInt64 n) : encode 52 1022 n.natAbs < 9218868437227405312 := by
  obtain ⟨hlow, hhigh⟩ := hn
  have hle : n.natAbs ≤ 2 ^ 63 := by omega
  have hmax : encode 52 1022 (2 ^ 63) ≤ (1022 + Nat.log 2 (2 ^ 63) + 2) * 2 ^ 52 :=
    encode_le (by positivity) 52 1022
  rw [Nat.log_pow Nat.one_lt_two] at hmax
  have hmono := encode_mono 52 1022 hle
  omega

theorem toNat_doubleOfInt (hn : IsInt64 n) :
    (doubleOfInt n).toNat =
      (if n < 0 then 9223372036854775808 else 0) + encode 52 1022 n.natAbs := by
  have hlt := encode_lt hn
  rw [doubleOfInt, UInt64.toNat_ofNat']
  split_ifs <;> omega

/-- The bits but the sign. -/
theorem toNat_magnitude (hn : IsInt64 n) :
    (doubleOfInt n &&& 0x7FFFFFFFFFFFFFFF).toNat = encode 52 1022 n.natAbs := by
  have hlt := encode_lt hn
  have hmask : (0x7FFFFFFFFFFFFFFF : UInt64).toNat = 2 ^ 63 - 1 := rfl
  rw [UInt64.toNat_and, hmask, Nat.and_two_pow_sub_one_eq_mod, toNat_doubleOfInt hn]
  split_ifs <;> omega

theorem isNaN_doubleOfInt (hn : IsInt64 n) : isNaN (doubleOfInt n) = false := by
  have hlt := encode_lt hn
  rw [isNaN, decide_eq_false_iff_not, gt_iff_lt, UInt64.lt_iff_toNat_lt, toNat_magnitude hn]
  exact Nat.not_lt.2 hlt.le

theorem isZero_doubleOfInt (hn : IsInt64 n) : isZero (doubleOfInt n) = decide (n = 0) := by
  rw [isZero, decide_eq_decide, ← UInt64.toNat_inj, toNat_magnitude hn]
  exact encode_eq_zero.trans Int.natAbs_eq_zero

theorem doubleKey_doubleOfInt (hn : IsInt64 n) : doubleKey (doubleOfInt n) = roundKey n := by
  have hlt := encode_lt hn
  rw [doubleKey, roundKey, toNat_doubleOfInt hn]
  split_ifs <;> omega

theorem roundKey_inj (ha : IsInt64 a) (hb : IsInt64 b) :
    doubleOfInt a = doubleOfInt b ↔ roundKey a = roundKey b := by
  constructor
  · intro heq
    rw [← doubleKey_doubleOfInt ha, heq, doubleKey_doubleOfInt hb]
  · intro heq
    have hpos : ∀ n : ℤ, n < 0 → 0 < encode 52 1022 n.natAbs := fun n hn =>
      encode_pos (by omega) 52 1022
    have hapos := hpos a
    have hbpos := hpos b
    rw [← UInt64.toNat_inj, toNat_doubleOfInt ha, toNat_doubleOfInt hb]
    unfold roundKey at heq
    split_ifs at heq ⊢ <;> omega

/-- The conversion keeps the order. -/
theorem roundKey_mono (h : a ≤ b) : roundKey a ≤ roundKey b := by
  unfold roundKey
  split_ifs with ha hb
  · have hmono := encode_mono 52 1022 (show b.natAbs ≤ a.natAbs by omega)
    omega
  · omega
  · omega
  · exact_mod_cast encode_mono 52 1022 (show a.natAbs ≤ b.natAbs by omega)

theorem doubleEquals_doubleOfInt (ha : IsInt64 a) (hb : IsInt64 b) :
    doubleEquals (doubleOfInt a) (doubleOfInt b) = decide (doubleOfInt a = doubleOfInt b) := by
  rw [doubleEquals, isNaN_doubleOfInt ha, isNaN_doubleOfInt hb, isZero_doubleOfInt ha,
    isZero_doubleOfInt hb, Bool.not_false, Bool.true_and, Bool.true_and, Bool.eq_iff_iff]
  simp only [Bool.or_eq_true, beq_iff_eq, Bool.and_eq_true, decide_eq_true_eq]
  exact or_iff_left_of_imp fun hzero => by rw [hzero.1, hzero.2]

theorem doubleLess_doubleOfInt (ha : IsInt64 a) (hb : IsInt64 b) :
    doubleLess (doubleOfInt a) (doubleOfInt b) = decide (roundKey a < roundKey b) := by
  rw [doubleLess, isNaN_doubleOfInt ha, isNaN_doubleOfInt hb, doubleKey_doubleOfInt ha,
    doubleKey_doubleOfInt hb, Bool.not_false, Bool.true_and, Bool.true_and]

theorem doubleLessEqual_doubleOfInt (ha : IsInt64 a) (hb : IsInt64 b) :
    doubleLessEqual (doubleOfInt a) (doubleOfInt b) = decide (roundKey a ≤ roundKey b) := by
  rw [doubleLessEqual, isNaN_doubleOfInt ha, isNaN_doubleOfInt hb, doubleKey_doubleOfInt ha,
    doubleKey_doubleOfInt hb, Bool.not_false, Bool.true_and, Bool.true_and]

/-- The doubles of different integers that are different are ordered as the integers are. -/
theorem roundKey_lt_iff (ha : IsInt64 a) (hb : IsInt64 b) (hexact : a = b ∨ doubleOfInt a ≠ doubleOfInt b) :
    roundKey a < roundKey b ↔ a < b := by
  constructor
  · intro hlt
    by_contra hle
    exact absurd (roundKey_mono (not_lt.1 hle)) (not_le.2 hlt)
  · intro hlt
    refine lt_of_le_of_ne (roundKey_mono hlt.le) fun heq => ?_
    rcases hexact with rfl | hne
    · exact lt_irrefl _ hlt
    · exact hne ((roundKey_inj ha hb).2 heq)

/-- **An integer of at most 53 bits has a double of its own.** -/
theorem doubleOfInt_ne (hb : IsInt64 b) (hsmall : a.natAbs < 2 ^ 53) (hne : a ≠ b) :
    doubleOfInt a ≠ doubleOfInt b := by
  have ha : IsInt64 a := ⟨by omega, by omega⟩
  rw [ne_eq, roundKey_inj ha hb]
  have hlt := encode_lt_encode (p := 52) (m := b.natAbs) hsmall 1022
  have hgt := encode_lt_encode (p := 52) (n := b.natAbs) (m := a.natAbs)
  have hzero : ∀ n : ℤ, n < 0 → 0 < encode 52 1022 n.natAbs := fun n hn =>
    encode_pos (by omega) 52 1022
  have ha0 := hzero a
  have hb0 := hzero b
  unfold roundKey
  rcases Nat.lt_trichotomy a.natAbs b.natAbs with habs | habs | habs
  · have hlt := hlt habs
    split_ifs <;> omega
  · split_ifs <;> omega
  · have hgt := hgt (by omega) 1022 habs
    split_ifs <;> omega

end

/-! ### Integers on the heap -/

section

variable {h : Heap} {v : Value} {n : ℤ}

theorem Heap.IsInteger.isInt64 (hv : h.IsInteger v n) : IsInt64 n := by
  rcases hv with ⟨-, hn⟩ | ⟨-, hlow, hhigh⟩
  · exact hn
  · exact ⟨by omega, by omega⟩

/-- What is in the taint wrappers of an integer. -/
theorem Heap.IsInteger.cases (hv : h.IsInteger v n) :
    (∃ r, h.unwrapTaint v = .obj r ∧ h.unwrapTaint (.obj r) = .obj r ∧ h.get? r = some (.long n)) ∨
      h.unwrapTaint v = .num n ∧ h.unwrapTaint (.num n) = .num n := by
  rcases hv with ⟨⟨r, hr, hlong⟩, -⟩ | ⟨hnum, -⟩
  · exact .inl ⟨r, hr, unwrapTaint_obj hlong (by simp), hlong⟩
  · exact .inr ⟨hnum, unwrapTaint_of_not_obj (by simp)⟩

theorem Heap.IsInteger.isNumericValue (hv : h.IsInteger v n) :
    h.isNumericValue (h.unwrapTaint v) = true := by
  rcases hv.cases with ⟨r, hr, hself, hlong⟩ | ⟨hnum, hself⟩
  · rw [hr, Heap.isNumericValue, hself]
    dsimp only
    rw [hlong]
  · rw [hnum, Heap.isNumericValue, hself]

theorem Heap.IsInteger.numericDoubleValue (hv : h.IsInteger v n) :
    h.numericDoubleValue (h.unwrapTaint v) = doubleOfInt n := by
  rcases hv.cases with ⟨r, hr, hself, hlong⟩ | ⟨hnum, hself⟩
  · rw [hr, Heap.numericDoubleValue, hself]
    dsimp only
    rw [hlong]
  · rw [hnum, Heap.numericDoubleValue, hself]

theorem Heap.IsInteger.asNumber (hv : h.IsInteger v n) (strtod : Bytes → UInt64) :
    h.asNumber strtod v = doubleOfInt n := by
  unfold Heap.asNumber
  rcases hv.cases with ⟨r, hr, -, hlong⟩ | ⟨hnum, -⟩
  · rw [asNumberLoop.eq_def]
    dsimp only
    rw [hr]
    dsimp only
    rw [hlong]
  · rw [asNumberLoop.eq_def]
    dsimp only
    rw [hnum]

/-- A long is in no cell. -/
theorem Heap.IsLong.dereferenceValue (hv : h.IsLong v n) : h.dereferenceValue v = v := by
  obtain ⟨⟨r, hr, hlong⟩, -⟩ := hv
  refine dereferenceValue_of_not_cell ?_
  cases v with
  | obj q =>
    rw [isCell_obj]
    cases hq : h.get? q with
    | none => rfl
    | some o =>
      cases o with
      | scalarCell w i =>
        -- it would not be unwrapped
        rw [unwrapTaint_obj hq (by simp)] at hr
        rw [Value.obj.inj hr, hlong] at hq
        cases hq
      | _ => rfl
  | null => rfl
  | bool b => rfl
  | num n => rfl

/-- The characters of a text that is ASCII. -/
theorem map_ascii {s : String} (hs : ∀ c ∈ s.toList, c.toNat < 128) :
    (ascii s).map (fun b => Char.ofNat b.toNat) = s.toList := by
  rw [ascii, List.map_map]
  refine (List.map_congr_left fun c hc => ?_).trans (List.map_id _)
  have hlt := hs c hc
  rw [Function.comp_apply, UInt8.toNat_ofNat', Nat.mod_eq_of_lt (by omega), Char.ofNat_toNat, id]

/-- A number is written with digits and a sign. -/
theorem toString_ascii (n : ℤ) : ∀ c ∈ (toString n).toList, c.toNat < 128 := by
  have hdigits : ∀ m : ℕ, ∀ c ∈ m.repr.toList, c.toNat < 128 := by
    intro m c hc
    rw [Nat.toList_repr] at hc
    have hdigit := Nat.isDigit_of_mem_toDigits (by omega) (by omega) hc
    rw [Char.isDigit, Bool.and_eq_true, decide_eq_true_iff, decide_eq_true_iff] at hdigit
    exact lt_of_le_of_lt (UInt32.le_iff_toNat_le.1 hdigit.2) (by decide)
  intro c hc
  rw [show toString n = n.repr from rfl, Int.repr_eq_if] at hc
  split_ifs at hc
  · exact hdigits _ c hc
  · rw [String.toList_append, List.mem_append] at hc
    rcases hc with hc | hc
    · rw [show c = '-' by simpa using hc]
      decide
    · exact hdigits _ c hc

theorem ascii_toString_injective {a b : ℤ} (heq : ascii (toString a) = ascii (toString b)) : a = b := by
  have hchars := map_ascii (toString_ascii a)
  rw [heq, map_ascii (toString_ascii b)] at hchars
  exact Int.repr_injective (String.toList_inj.1 hchars.symm)

theorem Heap.IsLong.keyRepr (hv : h.IsLong v n) (fmt : Printf) :
    HashObj.keyRepr fmt h v = some (ascii (toString n)) := by
  have hderef := hv.dereferenceValue
  obtain ⟨⟨r, hr, hlong⟩, -⟩ := hv
  rw [HashObj.keyRepr, hderef, hr]
  dsimp only
  rw [hlong]

/-- Two longs are the same key exactly if they are the same integer. -/
theorem Heap.IsLong.keyEquals {w : Value} {m : ℤ} (hv : h.IsLong v n) (hw : h.IsLong w m) (fmt : Printf) :
    HashObj.keyEquals fmt h v w = true ↔ n = m := by
  rw [HashObj.keyEquals, hv.keyRepr, hw.keyRepr]
  dsimp only
  rw [beq_iff_eq]
  exact ⟨ascii_toString_injective, fun heq => by rw [heq]⟩

/-- Two longs are identical exactly if they are the same integer. -/
theorem Heap.IsLong.identityEquals {w : Value} {m : ℤ} (hv : h.IsLong v n) (hw : h.IsLong w m)
    (C : CEquality) : h.identityEquals C v w = true ↔ n = m := by
  have hv' := hv.dereferenceValue
  have hw' := hw.dereferenceValue
  obtain ⟨⟨r, hr, hrlong⟩, -⟩ := hv
  obtain ⟨⟨q, hq, hqlong⟩, -⟩ := hw
  rw [Heap.identityEquals, hv', hw', hr, hq]
  dsimp only
  rw [hrlong, hqlong]
  exact beq_iff_eq

end

/-! ### The law -/

section

variable {strtod : Bytes → UInt64} {fmt : Printf} {C : CEquality} {h : Heap} {x y : Value} {a b : ℤ}

/-- `==` on two integers. -/
theorem valueEquals_iff (hx : h.IsInteger x a) (hy : h.IsInteger y b) :
    h.valueEquals x y = true ↔ doubleOfInt a = doubleOfInt b := by
  rw [Heap.valueEquals, hx.isNumericValue, hy.isNumericValue, hx.numericDoubleValue,
    hy.numericDoubleValue, doubleEquals_doubleOfInt hx.isInt64 hy.isInt64]
  exact decide_eq_true_iff

theorem test_of_exact (hx : h.IsInteger x a) (hy : h.IsInteger y b)
    (hexact : a = b ∨ doubleOfInt a ≠ doubleOfInt b) (op : Comparison) :
    op.test strtod h x y = op.holds a b := by
  have ha := hx.isInt64
  have hb := hy.isInt64
  have hequal : doubleOfInt a = doubleOfInt b ↔ a = b := by
    refine ⟨fun heq => ?_, fun heq => by rw [heq]⟩
    exact hexact.resolve_right fun hne => hne heq
  have hless := roundKey_lt_iff ha hb hexact
  have hgreater := roundKey_lt_iff hb ha (hexact.imp Eq.symm Ne.symm)
  rw [Bool.eq_iff_iff]
  cases op with
  | equal => simpa only [Comparison.test, Comparison.holds, decide_eq_true_iff, valueEquals_iff hx hy]
  | notEqual =>
    simp only [Comparison.test, Comparison.holds, decide_eq_true_iff, Bool.not_eq_true',
      ← Bool.not_eq_true, valueEquals_iff hx hy, hequal]
  | less =>
    simpa only [Comparison.test, Comparison.holds, hx.asNumber, hy.asNumber, decide_eq_true_iff,
      doubleLess_doubleOfInt ha hb]
  | greater =>
    simpa only [Comparison.test, Comparison.holds, hx.asNumber, hy.asNumber, decide_eq_true_iff,
      doubleLess_doubleOfInt hb ha]
  | lessEqual =>
    rw [Comparison.test, Comparison.holds, hx.asNumber, hy.asNumber, decide_eq_true_iff,
      doubleLessEqual_doubleOfInt ha hb, decide_eq_true_iff, ← not_lt, hgreater, not_lt]
  | greaterEqual =>
    rw [Comparison.test, Comparison.holds, hx.asNumber, hy.asNumber, decide_eq_true_iff,
      doubleLessEqual_doubleOfInt hb ha, decide_eq_true_iff, ← not_lt, hless, not_lt]

/-- **The instructions agree with the order of the integers, and `==` with `is` and the keys of a
hash, if and only if the integers are equal or have different doubles.** -/
theorem comparisonLaw_iff (strtod : Bytes → UInt64) (fmt : Printf) (C : CEquality) (h : Heap) (x y : Value)
    (a b : ℤ) (hx : h.IsInteger x a) (hy : h.IsInteger y b) :
    ComparisonLaw strtod fmt C h x y a b ↔ a = b ∨ doubleOfInt a ≠ doubleOfInt b := by
  constructor
  · intro hlaw
    have hequal := hlaw.test .equal
    rw [Bool.eq_iff_iff, Comparison.test, Comparison.holds, valueEquals_iff hx hy,
      decide_eq_true_iff] at hequal
    by_cases hab : doubleOfInt a = doubleOfInt b
    · exact .inl (hequal.1 hab)
    · exact .inr hab
  · intro hexact
    have htest := @test_of_exact strtod h x y a b hx hy hexact
    have hless : doubleLess (h.asNumber strtod x) (h.asNumber strtod y) = decide (a < b) := htest .less
    have hgreater : doubleLess (h.asNumber strtod y) (h.asNumber strtod x) = decide (b < a) :=
      htest .greater
    have hequal : h.valueEquals x y = decide (a = b) := htest .equal
    refine ⟨htest, ?_, ?_, fun hlx hly => ?_⟩
    · simp only [Heap.spaceship, hless, hgreater, decide_eq_true_iff]
      rcases lt_trichotomy a b with hlt | rfl | hgt
      · rw [if_pos hlt, compare_lt_iff_lt.2 hlt, orderNumber]
      · rw [if_neg (lt_irrefl a), if_neg (lt_irrefl a), compare_eq_iff_eq.2 rfl, orderNumber]
      · rw [if_neg hgt.not_gt, if_pos hgt, compare_gt_iff_gt.2 hgt, orderNumber]
    · simp only [List.filter_cons, List.filter_nil, htest, Comparison.holds, decide_eq_true_iff]
      rcases lt_trichotomy a b with hlt | rfl | hgt
      · rw [if_pos hlt, if_neg hlt.ne, if_neg hlt.not_gt, List.length_singleton]
      · rw [if_neg (lt_irrefl a), if_pos rfl, if_neg (lt_irrefl a), List.length_singleton]
      · rw [if_neg hgt.not_gt, if_neg hgt.ne', if_pos hgt, List.length_singleton]
    · rw [hlx.keyEquals hly, hlx.identityEquals hly, hequal, decide_eq_true_iff, and_self]

/-- A number and a long. -/
theorem comparisonLaw_iff_three :
    ComparisonLaw (fun _ => 0) ⟨fun _ => [], fun _ => []⟩ Heap.ieeeEquality [⟨0, false, .long 5⟩] (.num 3) (.obj 0) 3 5 ↔
      (3 : ℤ) = 5 ∨ doubleOfInt 3 ≠ doubleOfInt 5 :=
  comparisonLaw_iff _ _ _ [⟨0, false, .long 5⟩] (.num 3) (.obj 0) 3 5 (.inr ⟨rfl, by decide⟩)
    (.inl ⟨⟨0, rfl, rfl⟩, by decide, by decide⟩)

/-- The long 2 ^ 53 + 1 has the double of 2 ^ 53, and is equal to it. -/
theorem not_comparisonLaw_long :
    ¬∀ (h : Heap) (x y : Value) (a b : ℤ), h.IsLong x a → h.IsLong y b →
      ComparisonLaw (fun _ => 0) ⟨fun _ => [], fun _ => []⟩ Heap.ieeeEquality h x y a b := by
  intro hall
  let h : Heap := [⟨1, false, .long 9007199254740993⟩, ⟨0, false, .long 9007199254740992⟩]
  have hx : h.IsLong (.obj 0) 9007199254740992 := ⟨⟨0, rfl, rfl⟩, by decide, by decide⟩
  have hy : h.IsLong (.obj 1) 9007199254740993 := ⟨⟨1, rfl, rfl⟩, by decide, by decide⟩
  have hequal := (hall h _ _ _ _ hx hy).test .equal
  rw [Bool.eq_iff_iff, Comparison.test, valueEquals_iff (.inl hx) (.inl hy)] at hequal
  exact absurd (hequal.1 (by decide)) (by decide)

end

end Slp
