import Slp.Object.Cells
import Slp.Object.Hash
import Slp.Object.Stale

/-!
# The text of a value

`slp_vm_stringify` and `canonical_hash_key`: numbers in the fewest digits that are read back as the
same double, containers by their elements, down to a depth, and a container met again by its number.
A hash makes its keys canonical with it, and then tells them apart by their `hash_key_repr`, which
formats doubles with 17 digits.  Of an integer, a string or a boolean the two are the same
(`canonicalHashKey?_eq_keyRepr`).
-/

namespace Slp

/-- The functions of the C library on doubles, which are given by their bits. -/
structure CLib where
  /-- `snprintf` with `%.*g`. -/
  printg : (precision : ℕ) → UInt64 → Bytes
  /-- `snprintf` with `%.1f`. -/
  fixed : UInt64 → Bytes
  /-- `strtod` of a text that it reads to its end. -/
  strtod : Bytes → Option UInt64
  /-- The integer that a double is. -/
  integer : UInt64 → Option ℤ
  /-- The double that an integer is converted to. -/
  ofInt : ℤ → UInt64

namespace CLib

variable (C : CLib)

/-- The formats of `hash_key_repr`. -/
def printf : Printf := ⟨fun n => C.printg 17 (C.ofInt n), C.printg 17⟩

/-- The shortest text that is read back as the double. -/
def shortest (bits : UInt64) : Bytes :=
  ((List.range' 1 17).findSome? fun precision =>
    let candidate := C.printg precision bits
    if C.strtod candidate = some bits then some candidate else none).getD (C.printg 17 bits)

end CLib

/-- `strtol` of an exponent. -/
def exponentValue (text : Bytes) : ℤ :=
  let number (digits : Bytes) : ℤ :=
    (digits.takeWhile fun c => 48 ≤ c ∧ c ≤ 57).foldl (fun n c => n * 10 + (c.toNat - 48 : ℕ)) 0
  match text with
  | 45 :: digits => -number digits
  | 43 :: digits => number digits
  | digits => number digits

/-- The digits of a text and their exponent, laid out as `format_sleep_number` does. -/
def layoutNumber (text : Bytes) : Bytes :=
  let negative := text.head? = some 45
  let cursor := if negative then text.tail else text
  let marker : UInt8 := if 101 ∈ cursor then 101 else 69
  let mantissa := cursor.takeWhile fun c => c ≠ marker
  let explicitExponent := if marker ∈ cursor then exponentValue (cursor.drop (mantissa.length + 1)) else 0
  let isDigit (c : UInt8) : Bool := 48 ≤ c ∧ c ≤ 57
  let digits := mantissa.filter isDigit
  let decimalIndex := ((mantissa.takeWhile fun c => c ≠ 46).filter isDigit).length
  let firstSignificant := (digits.dropLast.takeWhile fun c => c = 48).length
  let significant := digits.drop firstSignificant
  let scientificExponent : ℤ := explicitExponent + decimalIndex - firstSignificant - 1
  (if negative then ascii "-" else []) ++
    if -3 ≤ scientificExponent ∧ scientificExponent < 7 then
      if scientificExponent < 0 then
        ascii "0." ++ List.replicate (-1 - scientificExponent).toNat 48 ++ significant
      else
        let integerDigits := (scientificExponent + 1).toNat
        (significant ++ List.replicate integerDigits 48).take integerDigits ++
          if significant.length > integerDigits then ascii "." ++ significant.drop integerDigits else []
    else
      significant.take 1 ++ ascii "." ++
        (if significant.length = 1 then ascii "0" else significant.drop 1) ++
        ascii "E" ++ ascii (toString scientificExponent)

namespace CLib

variable (C : CLib)

/-- `format_sleep_number`, of a double that is no `int`. -/
def formatSleepNumber (bits : UInt64) : Bytes :=
  let magnitude := bits &&& 0x7fffffffffffffff
  if magnitude > 0x7ff0000000000000 then ascii "NaN"
  else if magnitude = 0x7ff0000000000000 then
    if bits = magnitude then ascii "Infinity" else ascii "-Infinity"
  else match C.integer bits with
    | some n =>
      if -2147483648 ≤ n ∧ n ≤ 2147483647 then ascii (toString n) else layoutNumber (C.shortest bits)
    | none => layoutNumber (C.shortest bits)

/-- `format_sleep_number` of a number. -/
def formatNum (n : ℤ) : Bytes :=
  if -2147483648 ≤ n ∧ n ≤ 2147483647 then ascii (toString n) else C.formatSleepNumber (C.ofInt n)

/-- `format_sleep_double`. -/
def formatSleepDouble (bits : UInt64) : Bytes :=
  match C.integer bits with
  | some n =>
    if -2147483648 ≤ n ∧ n ≤ 2147483647 then C.fixed bits else C.formatSleepNumber bits
  | none => C.formatSleepNumber bits

end CLib

/-- `SlpStringBuilder`. -/
structure StringBuilder where
  chars : Bytes := []
  failed : Bool := false
  containers : List Ref := []

namespace StringBuilder

/-- `string_builder_append`. -/
def append (b : StringBuilder) (text : Bytes) : StringBuilder :=
  if b.failed then b else { b with chars := b.chars ++ text }

/-- The items of a container, with commas between them. -/
def items {α : Type} (item : StringBuilder → α → StringBuilder) (b : StringBuilder) :
    List α → StringBuilder
  | [] => b
  | x :: xs => xs.foldl (fun b y => item (b.append (ascii ", ")) y) (item b x)

end StringBuilder

namespace Heap

variable (C : CLib) (h : Heap)

/-- The text of the name at an address. -/
def textAt (r : Option Ref) : Bytes :=
  match r.bind h.string? with
  | some s => s.chars
  | none => []

/-- The entries that a hash is printed with. -/
def printedEntries (t : HashObj) : List HashEntry :=
  ((List.range t.count).filterMap fun ordinal =>
    (HashObj.orderedIndex C.printf h t ordinal).map fun p => t.entries.getD p {}).filter
      fun e => e.value ≠ .null

/-- `stringify_value` on an object, with `item` for what is in it. -/
def stringifyObject (item : StringBuilder → Value → (quoteStrings : Bool) → StringBuilder)
    (b : StringBuilder) (r : Ref) (quoteStrings : Bool) : StringBuilder :=
  match h.get? r with
  | some (.string s) =>
    let quote := if quoteStrings then ascii "'" else []
    b.append (quote ++ s.chars ++ quote)
  | some (.classObj c) =>
    b.append (ascii (if c.isInterface then "interface " else "class ") ++ h.textAt (some c.name))
  | some (.javaObject j) =>
    let className := match h.get? j.classObject with
      | some (.classObj c) => some (h.textAt (some c.name))
      | _ => none
    match j.kind, j.list.bind h.array?, j.map.bind h.get? with
    | .list, some a, _ =>
      ((b.append (ascii "[")).items
        (fun b x => item b x false) a.live).append (ascii "]")
    | .map, _, some (.hash t) =>
      ((b.append (ascii "\x7b")).items (fun b (e : HashEntry) =>
        item ((item b e.key false).append (ascii "=")) e.value false)
          (h.printedEntries C t)).append (ascii "\x7d")
    | _, _, _ =>
      match className with
      | some name =>
        if j.value ≠ .null ∧ name.head? ≠ some 91 then item b j.value false
        else b.append name
      | none => b.append (ascii "[object]")
  | some (.long n) => b.append (ascii (toString n) ++ if quoteStrings then ascii "L" else [])
  | some (.double bits) => b.append (C.formatSleepDouble bits)
  | some (.array a) =>
    if h.viewIsValid r = false then { b with failed := true }
    else if r ∈ b.containers then b.append (ascii "@" ++ ascii (toString (b.containers.idxOf r)))
    else if b.containers.length ≥ 64 then b.append (ascii "...")
    else
      ((({ b with containers := b.containers ++ [r] } : StringBuilder).append (ascii "@(")).items
        (fun b x => item b x true) a.live).append (ascii ")")
  | some (.hash t) =>
    if r ∈ b.containers then b.append (ascii "%" ++ ascii (toString (b.containers.idxOf r)))
    else if b.containers.length ≥ 64 then b.append (ascii "...")
    else
      ((({ b with containers := b.containers ++ [r] } : StringBuilder).append (ascii "%(")).items
        (fun b (e : HashEntry) => item
          ((item b e.key false).append (ascii " => ")) e.value true)
        (h.printedEntries C t)).append (ascii ")")
  | some (.closure c) =>
    let f := match h.get? c.function with
      | some (.function f) => f
      | _ => {}
    let source := match f.sourceName with
      | some _ => h.textAt f.sourceName
      | none => ascii "<unknown>"
    let lines := if f.lineEnd > f.lineStart then
        ascii (toString f.lineStart) ++ ascii "-" ++ ascii (toString f.lineEnd)
      else ascii (toString f.lineStart)
    b.append (ascii "&closure[" ++ source ++ ascii ":" ++ lines ++ ascii "]#" ++
      ascii (toString c.identity))
  | some (.function _) => b.append (ascii "&function")
  | some (.native n) => b.append (ascii "&" ++ h.textAt n.name)
  | some (.continuation c) =>
    match c.coroutineOwner with
    | some owner => item b (.obj owner) quoteStrings
    | none => b.append (ascii "&continuation")
  | some (.keyValue key value) =>
    item ((item b key false).append (ascii " => ")) value true
  | some (.tainted v) => item b v quoteStrings
  | _ => b.append (ascii "[object]")

/-- `stringify_value`, `33 - fuel` containers and wrappers deep. -/
def stringifyValue : (fuel : ℕ) → StringBuilder → Value → (quoteStrings : Bool) → StringBuilder
  | 0, b, _, _ => b.append (ascii "...")
  | fuel + 1, b, v, quoteStrings =>
    match h.dereferenceValue v with
    | .null => b
    | .bool x => b.append (ascii (if x then "true" else "false"))
    | .num n => b.append (C.formatNum n)
    | .obj r => h.stringifyObject C (stringifyValue fuel) b r quoteStrings

/-- `slp_vm_stringify`: none if the value has a view that is not valid. -/
def stringify? (v : Value) : Option Bytes :=
  let b := h.stringifyValue C 33 {} v false
  if b.failed then none else some b.chars

/-- `canonical_hash_key`. -/
def canonicalHashKey? (key : Value) : Option Bytes :=
  match h.dereferenceValue key with
  | .bool b => some (ascii (if b then "1" else ""))
  | key => h.stringify? C key

/-- An `int`, a long, a string, a boolean or null, which may be in a cell. -/
def SimpleKey (key : Value) : Prop :=
  match h.dereferenceValue key with
  | .num n => -2147483648 ≤ n ∧ n ≤ 2147483647
  | .obj r => match h.get? r with
    | some (.string _) => True
    | some (.long _) => True
    | _ => False
  | _ => True

variable {C h} {key : Value}

theorem unwrapTaint_of_not_obj {v : Value} (hv : ∀ r, v ≠ .obj r) : h.unwrapTaint v = v := by
  rw [unwrapTaint]
  cases h.length with
  | zero => rfl
  | succ n => cases v with
    | obj r => exact absurd rfl (hv r)
    | null => rfl
    | bool b => rfl
    | num n => rfl

theorem unwrapTaint_obj {r : Ref} {o : Obj} (hr : h.get? r = some o) (ho : ∀ v, o ≠ .tainted v) :
    h.unwrapTaint (.obj r) = .obj r :=
  unwrapTaint_of_not_tainted fun v hv => ho v (Option.some.inj (hr.symm.trans hv))

theorem stringify?_eq (v : Value) : h.stringify? C v =
    let b : StringBuilder := match h.dereferenceValue v with
      | .null => {}
      | .bool x => StringBuilder.append {} (ascii (if x then "true" else "false"))
      | .num n => StringBuilder.append {} (C.formatNum n)
      | .obj r => h.stringifyObject C (h.stringifyValue C 32) {} r false
    if b.failed then none else some b.chars := rfl

/-- A simple key has a text. -/
theorem keyRepr_isSome (C : CLib) (hkey : h.SimpleKey key) :
    (HashObj.keyRepr C.printf h key).isSome := by
  unfold SimpleKey at hkey
  unfold HashObj.keyRepr
  generalize h.dereferenceValue key = v at hkey ⊢
  cases v with
  | null => rw [unwrapTaint_of_not_obj (by simp), Option.isSome_some]
  | bool b => rw [unwrapTaint_of_not_obj (by simp), Option.isSome_some]
  | num n =>
    rw [unwrapTaint_of_not_obj (by simp)]
    dsimp only at hkey ⊢
    rw [if_pos hkey, Option.isSome_some]
  | obj r =>
    dsimp only at hkey
    cases hr : h.get? r with
    | none =>
      rw [hr] at hkey
      exact hkey.elim
    | some o =>
      rw [hr] at hkey
      rw [unwrapTaint_obj hr (by rintro v rfl; exact hkey)]
      dsimp only
      rw [hr]
      cases o with
      | string s => rfl
      | long n => rfl
      | _ => exact hkey.elim

/-- A simple key has the text it is told apart by. -/
theorem canonicalHashKey?_eq_keyRepr (hkey : h.SimpleKey key) :
    h.canonicalHashKey? C key = HashObj.keyRepr C.printf h key := by
  unfold SimpleKey at hkey
  unfold canonicalHashKey? HashObj.keyRepr
  generalize h.dereferenceValue key = v at hkey ⊢
  cases v with
  | null =>
    dsimp only
    rw [unwrapTaint_of_not_obj (by simp), stringify?_eq, dereferenceValue_of_not_cell rfl]
    rfl
  | bool b =>
    rw [unwrapTaint_of_not_obj (by simp)]
    cases b <;> rfl
  | num n =>
    dsimp only at hkey ⊢
    rw [unwrapTaint_of_not_obj (by simp), stringify?_eq, dereferenceValue_of_not_cell rfl]
    dsimp only
    rw [if_pos hkey, CLib.formatNum, if_pos hkey]
    rfl
  | obj r =>
    dsimp only at hkey ⊢
    cases hr : h.get? r with
    | none =>
      rw [hr] at hkey
      exact hkey.elim
    | some o =>
      rw [hr] at hkey
      have hcell : h.isCell (.obj r) = false := by
        rw [isCell_obj, hr]
        cases o <;> first | rfl | exact hkey.elim
      rw [stringify?_eq, dereferenceValue_of_not_cell hcell,
        unwrapTaint_obj hr (by rintro v rfl; exact hkey)]
      dsimp only
      cases o with
      | string s => simp [stringifyObject, StringBuilder.append, hr]
      | long n => simp [stringifyObject, StringBuilder.append, hr]
      | _ => exact hkey.elim

end Heap

end Slp
