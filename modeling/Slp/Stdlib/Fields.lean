import Slp.Stdlib.Pack
import Slp.Stdlib.Snapshot

/-!
# The fields of a format

* `fields` : the fields of a format, as both loops scan them;
* `packLoop_eq`, `unpackLoop_eq` : the loops go over the fields;
* `InRange` : the values that a letter has the width for;
* `Plan` : the fields with the values that each of them takes, `Plan.Suits` : these are in range;
* `Faithful` : what the code takes for granted of the numbers of the host.
-/

namespace Slp

namespace Pack

open Parse (chr)

variable {D : Type} (H : Host D) (sizeof : ObjType → ℕ) (fmt : Printf)

/-! ### Scanning -/

/-- The fields that both loops find, in at most `fuel` rounds. -/
def fieldsFrom : (fuel : ℕ) → Bool → Bytes → Option (List Field)
  | 0, _, _ => some []
  | _ + 1, _, [] => some []
  | fuel + 1, pending, c :: rest =>
    match orderMark H c with
    | some big => fieldsFrom fuel big rest
    | none =>
      if isLetter c then do
        let (f, rest) ← scanField H pending c rest
        let fs ← fieldsFrom fuel true rest
        return f :: fs
      else fieldsFrom fuel pending rest

/-- The fields of a format; none where a count is no `int`. -/
def fields (text : Bytes) : Option (List Field) := fieldsFrom H text.length true text

/-- One field after the other is packed. -/
def packFields : List Field → PackState D → Except Stop (PackState D)
  | [], s => .ok s
  | f :: fs, s => do packFields fs (← packField H sizeof fmt f s)

/-- One field after the other is unpacked, up to the end of the data. -/
def unpackFields (data : Bytes) : List Field → UnpackState D → Option (UnpackState D)
  | [], s => some s
  | f :: fs, s =>
    if s.offset < data.length then do unpackFields data fs (← unpackField H sizeof fmt data f s)
    else some s

variable {H} {sizeof} {fmt} {fuel : ℕ} {pending : Bool} {text data : Bytes} {fs : List Field}

/-- What a scan of a letter leads to. -/
theorem exists_of_scan {c : UInt8} {rest : Bytes}
    (h : (do
      let (f, rest) ← scanField H pending c rest
      let fs ← fieldsFrom H fuel true rest
      return f :: fs) = some fs) :
    ∃ f rest' fs', scanField H pending c rest = some (f, rest') ∧
      fieldsFrom H fuel true rest' = some fs' ∧ fs = f :: fs' := by
  obtain ⟨⟨f, rest'⟩, hscan, h⟩ := Option.bind_eq_some_iff.1 h
  obtain ⟨fs', hfs', h⟩ := Option.bind_eq_some_iff.1 h
  exact ⟨f, rest', fs', hscan, hfs', (Option.some.inj h).symm⟩

/-- **The loop of `pack` goes over the fields.** -/
theorem packLoop_eq (s : PackState D) (h : fieldsFrom H fuel pending text = some fs) :
    packLoop H sizeof fmt fuel pending text s = packFields H sizeof fmt fs s := by
  fun_induction fieldsFrom H fuel pending text generalizing fs s with
  | case1 =>
    cases h
    rfl
  | case2 =>
    cases h
    rfl
  | case3 fuel pending c rest big hmark ih =>
    rw [packLoop, hmark]
    exact ih s h
  | case4 fuel pending c rest hmark hletter ih =>
    obtain ⟨f, rest', fs', hscan, hfs', rfl⟩ := exists_of_scan h
    rw [packLoop, hmark]
    dsimp only
    rw [if_pos hletter, hscan, packFields]
    show (packField H sizeof fmt f s).bind _ = (packField H sizeof fmt f s).bind _
    congr 1
    funext s'
    exact ih rest' s' hfs'
  | case5 fuel pending c rest hmark hletter ih =>
    rw [packLoop, hmark]
    dsimp only
    rw [if_neg hletter]
    exact ih s h

theorem unpackFields_of_end {s : UnpackState D} (h : ¬ s.offset < data.length) :
    unpackFields H sizeof fmt data fs s = some s := by
  cases fs with
  | nil => rfl
  | cons f fs => exact if_neg h

theorem unpackLoop_of_end {s : UnpackState D} (h : ¬ s.offset < data.length) :
    unpackLoop H sizeof fmt data fuel pending text s = some s := by
  cases fuel with
  | zero => rfl
  | succ fuel =>
    cases text with
    | nil => rfl
    | cons c rest => exact if_neg h

/-- **The loop of `unpack` goes over the same fields, up to the end of the data.** -/
theorem unpackLoop_eq (s : UnpackState D) (h : fieldsFrom H fuel pending text = some fs) :
    unpackLoop H sizeof fmt data fuel pending text s = unpackFields H sizeof fmt data fs s := by
  by_cases hend : s.offset < data.length
  swap
  · rw [unpackLoop_of_end hend, unpackFields_of_end hend]
  fun_induction fieldsFrom H fuel pending text generalizing fs s with
  | case1 =>
    cases h
    rfl
  | case2 =>
    cases h
    rfl
  | case3 fuel pending c rest big hmark ih =>
    rw [unpackLoop, if_pos hend, hmark]
    exact ih s h hend
  | case4 fuel pending c rest hmark hletter ih =>
    obtain ⟨f, rest', fs', hscan, hfs', rfl⟩ := exists_of_scan h
    rw [unpackLoop, if_pos hend, hmark]
    dsimp only
    rw [if_pos hletter, hscan, unpackFields, if_pos hend]
    show (unpackField H sizeof fmt data f s).bind _ = (unpackField H sizeof fmt data f s).bind _
    congr 1
    funext s'
    by_cases hend' : s'.offset < data.length
    · exact ih rest' s' hfs' hend'
    · rw [unpackLoop_of_end hend', unpackFields_of_end hend']
  | case5 fuel pending c rest hmark hletter ih =>
    rw [unpackLoop, if_pos hend, hmark]
    dsimp only
    rw [if_neg hletter]
    exact ih s h hend

/-! ### Numbers -/

/-- What the code takes for granted of the numbers of the host.  `IsWhole d n` says that the double `d`
is the whole number `n`. -/
structure Faithful (H : Host D) (IsWhole : D → ℤ → Prop) : Prop where
  ofInt : ∀ n : ℤ, -2 ^ 53 ≤ n → n ≤ 2 ^ 53 → IsWhole (H.ofInt n) n
  toUInt8 : ∀ d n, IsWhole d n → -2 ^ 7 ≤ n → n < 2 ^ 8 → H.toUInt8 d = BitVec.ofInt 8 n
  toUInt16 : ∀ d n, IsWhole d n → -2 ^ 15 ≤ n → n < 2 ^ 16 → H.toUInt16 d = BitVec.ofInt 16 n
  toInt32 : ∀ d n, IsWhole d n → -2 ^ 31 ≤ n → n < 2 ^ 31 → H.toInt32 d = BitVec.ofInt 32 n
  toInt64 : ∀ d n, IsWhole d n → -2 ^ 63 ≤ n → n < 2 ^ 63 → H.toInt64 d = BitVec.ofInt 64 n
  /-- A float is not changed on the way to a double and back. -/
  ofFloatBits : ∀ x, H.ofFloatBits (H.toFloatBits (H.ofFloatBits x)) = H.ofFloatBits x
  ofBits : ∀ d, H.ofBits (H.toBits d) = d

section Numbers

variable {IsWhole : D → ℤ → Prop} {v w : OperandValue D Ref} {n : ℤ} {d : D}

/-- The operand is this whole number. -/
inductive IsInteger (IsWhole : D → ℤ → Prop) : OperandValue D Ref → ℤ → Prop
  | num {d : D} {n : ℤ} (h : IsWhole d n) : IsInteger IsWhole (.num d) n
  | double {d : D} {n : ℤ} (h : IsWhole d n) : IsInteger IsWhole (.double d) n
  | long (x : BitVec 64) : IsInteger IsWhole (.long x) x.toInt

/-- The operand is this number. -/
inductive IsNumber (H : Host D) : OperandValue D Ref → D → Prop
  | num (d : D) : IsNumber H (.num d) d
  | double (d : D) : IsNumber H (.double d) d
  | long (x : BitVec 64) (h : -2 ^ 53 ≤ x.toInt ∧ x.toInt ≤ 2 ^ 53) :
    IsNumber H (.long x) (H.ofInt x.toInt)

theorem IsNumber.asNumber_eq (h : IsNumber H v d) : v.asNumber H.toDoubleArith = d := by
  cases h <;> rfl

theorem IsInteger.asNumber (hH : Faithful H IsWhole) (h : IsInteger IsWhole v n) (hlo : -2 ^ 53 ≤ n)
    (hhi : n ≤ 2 ^ 53) : IsWhole (v.asNumber H.toDoubleArith) n := by
  cases h with
  | num h => exact h
  | double h => exact h
  | long x => exact hH.ofInt _ hlo hhi

theorem IsInteger.asInt64_eq (hH : Faithful H IsWhole) (h : IsInteger IsWhole v n)
    (hlo : -2 ^ 63 ≤ n) (hhi : n < 2 ^ 63) : asInt64 H v = BitVec.ofInt 64 n := by
  cases h with
  | num h => exact hH.toInt64 _ _ h hlo hhi
  | double h => exact hH.toInt64 _ _ h hlo hhi
  | long x => exact BitVec.ofInt_toInt.symm

end Numbers

/-! ### Values in range -/

/-- The object is neither a scalar nor a text. -/
def IsObject (h : Heap) (r : Ref) : Prop :=
  match h.get? r with
  | none | some (.string _) | some (.long _) | some (.double _) | some (.scalarCell _ _)
  | some (.tainted _) => False
  | _ => True

/-- What `o` packs: a scalar, a text, or an object that is copied whole. -/
inductive Packable (fmt : Printf) (h : Heap) : OperandValue D Ref → Prop
  | scalar {v : OperandValue D Ref} (hcell : ∀ w, v ≠ .scalarCell w) (hobject : ∀ r, v ≠ .other r) :
    Packable fmt h v
  | object {r : Ref} (hr : IsObject h r) (hser : Stdlib.Serializable fmt h (.obj r))
    (hsafe : Stdlib.Cloneable fmt h (.obj r)) : Packable fmt h (.other r)

/-- The values that a letter has the width for. -/
def InRange (H : Host D) (fmt : Printf) (IsWhole : D → ℤ → Prop) (h : Heap) (code : Code)
    (v : OperandValue D Ref) : Prop :=
  match code with
  | .C | .c => ∃ c, v = .string [c]
  | .b => ∃ n, IsInteger IsWhole v n ∧ -2 ^ 7 ≤ n ∧ n < 2 ^ 7
  | .B => ∃ n, IsInteger IsWhole v n ∧ 0 ≤ n ∧ n < 2 ^ 8
  | .s => ∃ n, IsInteger IsWhole v n ∧ -2 ^ 15 ≤ n ∧ n < 2 ^ 15
  | .S => ∃ n, IsInteger IsWhole v n ∧ 0 ≤ n ∧ n < 2 ^ 16
  | .i => ∃ n, IsInteger IsWhole v n ∧ -2 ^ 31 ≤ n ∧ n < 2 ^ 31
  | .I => ∃ n, IsInteger IsWhole v n ∧ 0 ≤ n ∧ n < 2 ^ 32
  | .l => ∃ n, IsInteger IsWhole v n ∧ -2 ^ 63 ≤ n ∧ n < 2 ^ 63
  | .f => ∃ x, IsNumber H v (H.ofFloatBits x)
  | .d => ∃ d, IsNumber H v d
  | .o => Packable fmt h v
  | _ => False

/-- The values are the same: equal, the same number, or the same data structure. -/
inductive SameValue (H : Host D) (fmt : Printf) (IsWhole : D → ℤ → Prop) (h : Heap) :
    OperandValue D Ref → OperandValue D Ref → Prop
  | refl (v : OperandValue D Ref) : SameValue H fmt IsWhole h v v
  | integer {v w : OperandValue D Ref} {n : ℤ} (hv : IsInteger IsWhole v n)
    (hw : IsInteger IsWhole w n) : SameValue H fmt IsWhole h v w
  | number {v w : OperandValue D Ref} {d : D} (hv : IsNumber H v d) (hw : IsNumber H w d) :
    SameValue H fmt IsWhole h v w
  | object {r r' : Ref} (hr : Stdlib.SameData fmt h (.obj r) (.obj r')) :
    SameValue H fmt IsWhole h (.other r) (.other r')

/-! ### Plans -/

/-- The count is `*` or at least one, and the letter is one of those that both functions know. -/
def Field.WellFormed (f : Field) : Prop := f.code ≠ .other ∧ (f.count = -1 ∨ 1 ≤ f.count)

/-- The field takes all that is left. -/
def Field.IsGreedy (f : Field) : Prop := f.count = -1 ∧ f.code ≠ .z ∧ f.code ≠ .Z

/-- A digit of a hexadecimal text, a letter in lower case. -/
def isLowerHex (c : UInt8) : Bool := Parse.isDigit c || (chr 'a' ≤ c && c ≤ chr 'f')

/-- The values are what the field takes. -/
def Field.Takes (H : Host D) (fmt : Printf) (IsWhole : D → ℤ → Prop) (h : Heap) (f : Field)
    (vs : List (OperandValue D Ref)) : Prop :=
  match f.code with
  | .z => ∃ text, vs = [.string text] ∧ 0 ∉ text ∧ f.count = -1
  | .Z => ∃ text, vs = [.string text] ∧ 0 ∉ text ∧ (f.count = -1 ∨ (text.length : ℤ) ≤ f.count)
  | .h | .H => ∃ text, vs = [.string text] ∧ (∀ c ∈ text, isLowerHex c = true) ∧
    text.length % 2 = 0 ∧ text.length < 2 ^ 31 ∧
      if f.count = -1 then text ≠ [] else (text.length : ℤ) = 2 * f.count
  | .x => vs = []
  | code => (f.count = -1 ∨ (vs.length : ℤ) = f.count) ∧ ∀ v ∈ vs, InRange H fmt IsWhole h code v

/-- The bytes that the values of the field take. -/
def Field.width (f : Field) (vs : List (OperandValue D Ref)) : ℕ :=
  match f.code with
  | .z | .Z => if f.count = -1 then (textOf (vs.headD .null)).length + 1 else f.count.toNat
  | .h | .H => (textOf (vs.headD .null)).length / 2
  | .x => f.count.toNat
  | code => vs.length * code.unit

/-- How many of `n` values of the field are packed as objects. -/
def Field.objects (f : Field) (n : ℕ) : ℕ := if f.code = .o then n else 0

/-- The fields of a format, with the values that each of them takes. -/
abbrev Plan (D : Type) := List (Field × List (OperandValue D Ref))

/-- The bytes of all values. -/
def Plan.bytes (plan : Plan D) : ℕ := (plan.map fun p => p.1.width p.2).sum

/-- The values that are packed as objects. -/
def Plan.objects (plan : Plan D) : ℕ := (plan.map fun p => p.1.objects p.2.length).sum

/-- A plan of a format with values in range.  The last field only takes all that is left. -/
structure Plan.Suits (H : Host D) (fmt : Printf) (IsWhole : D → ℤ → Prop) (h : Heap)
    (plan : Plan D) : Prop where
  wellFormed : ∀ p ∈ plan, p.1.WellFormed
  last : ∀ p ∈ plan.dropLast, ¬p.1.IsGreedy
  takes : ∀ p ∈ plan, p.1.Takes H fmt IsWhole h p.2

end Pack

end Slp
