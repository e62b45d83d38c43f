import Slp.Embed.Unpack

/-!
# What a format is documented to read

* `documented`, `documentedResult` : what the documentation says of a unit, and of a whole format;
* `UnpackLaw` : the code does what is documented of the format without its white space, and the
  integers are the arguments truncated;
* `Sound` : as far as the two readings of the format agree, no text that goes with `s#` is too long
  for an `int`, and where they come apart what is documented fails as the code does;
* `unpackLaw_iff` : **the law holds if and only if the call is sound.**

The code skips no white space other than a space, and a space that parts the two characters of a unit
makes two units of it (`Reading`).
-/

namespace Slp

namespace Embed

open Parse (chr)

variable {D O : Type}

/-! ### What is documented -/

/-- The variable arguments of a unit: the type that is expected, if one is, and where to store. -/
structure Slot where
  expected : ObjType
  first : ℕ
  second : ℕ
  deriving DecidableEq, Repr

/-- The variable arguments that the documentation asks for. -/
def Slot.outputs (u : Letter) (slot : Slot) : List Output :=
  match u with
  | .s => [.pointer .chars slot.first]
  | .sHash => [.pointer .chars slot.first, .pointer .int slot.second]
  | .i => [.pointer .int slot.first]
  | .l => [.pointer .long slot.first]
  | .d => [.pointer .double slot.first]
  | .b => [.pointer .bool slot.first]
  | .O => [.pointer .value slot.first]
  | .OBang =>
    [.type slot.expected, .pointer (if slot.expected = .array then .array else .hash) slot.first]
  | .unknown => []

/-- The units of a format, each with whether it is optional. -/
def units : (optional : Bool) → List Token → List (Letter × Bool)
  | _, [] => []
  | _, .bar :: ts => units true ts
  | optional, .unit u :: ts => (u, optional) :: units optional ts

/-- The variable arguments of the units. -/
def outputsOf (us : List (Letter × Bool)) (slots : List Slot) : List Output :=
  (us.zip slots).flatMap fun p => p.2.outputs p.1.1

/-- White space. -/
def isSpace (c : UInt8) : Bool := c = 32 || 9 ≤ c && c ≤ 13

/-- The format without white space. -/
def strip (format : Bytes) : Bytes := (cstring format).filter fun c => !isSpace c

/-- The units of a format as it is documented. -/
def unitsOf (format : Bytes) : List (Letter × Bool) := units false (tokens (strip format))

section Documented

variable (A : DoubleArith D) (type : O → ObjType)

/-- What a unit stores of an argument that it matches. -/
def documented (u : Letter) (expected : ObjType) (v : OperandValue D O) :
    Option (List (Stored D O)) :=
  match u with
  | .s =>
    match embeddingValue v with
    | .null => some [.chars none]
    | .string text => some [.chars (some text)]
    | _ => none
  | .sHash =>
    match embeddingValue v with
    | .null => some [.chars none, .int 0]
    | .string text =>
      if text.length ≤ 2147483647 then some [.chars (some text), .int text.length] else none
    | _ => none
  | .i => (intOf A v).map fun n => [.int n.toInt]
  | .l => (getLong A v).map fun n => [.long n.toInt]
  | .d => (getNumber A v).map fun d => [.double d]
  | .b => some [.bool !isFalsy A v]
  | .O => some [.value (embeddingValue v)]
  | .OBang =>
    if expected = .array ∨ expected = .hash then
      (getObject type expected v).map fun o => [.object o]
    else none
  | .unknown => none

/-- What the unit stores of the argument it is paired with, and where. -/
def storesOf (pair : ((Letter × Bool) × Slot) × OperandValue D O) : Option (List (Store D O)) :=
  (documented A type pair.1.1.1 pair.1.2.expected pair.2).map
    ([pair.1.2.first, pair.1.2.second].zip ·)

/-- The units and the arguments are paired in order.  All pairs have to match, and all units without
an argument to be optional; what is stored is what the pairs before the first that does not match
say. -/
def documentedResult (us : List (Letter × Bool)) (slots : List Slot)
    (args : List (OperandValue D O)) : Bool × List (Store D O) :=
  let pairs := ((us.zip slots).zip args).map (storesOf A type)
  (pairs.all Option.isSome && (us.drop args.length).all Prod.snd,
    (pairs.takeWhile Option.isSome).flatMap (Option.getD · []))

/-- The integers that are stored are the argument truncated, and no conversion is out of range. -/
def Truncated (v : OperandValue D O) : Prop :=
  (∀ n, intOf A v = some n →
      fitsInt A (v.asNumber A) ∧ A.ofInt n.toInt = A.trunc (v.asNumber A)) ∧
    ∀ n, getLong A v = some n → embeddingValue v = .long n ∨
      ∃ d, getNumber A v = some d ∧ fitsLong A d ∧ A.ofInt n.toInt = A.trunc d

/-- A call does what is documented of the format. -/
def UnpackLaw (format : Bytes) (slots : List Slot) (args : List (OperandValue D O)) : Prop :=
  unpack A type (some format) args (outputsOf (unitsOf format) slots) =
      some (documentedResult A type (unitsOf format) slots args) ∧
    ∀ v ∈ args, Truncated A v

/-! ### Where the code does it -/

/-- A text that goes with `s#` has a length that is an `int`. -/
def Small (u : Letter) (v : OperandValue D O) : Prop :=
  u = .sHash → ∀ text, embeddingValue v = .string text → text.length ≤ 2147483647

/-- The readings come apart at the unit `u` of the code.  With no argument left, the units are optional
or one that is documented is next; with one left, neither takes it. -/
def Fails (u : Letter) (ds : List Token) (optional : Bool) (slots : List Slot)
    (args : List (OperandValue D O)) : Prop :=
  match args with
  | [] => optional = true ∨ ∃ w, ds.head? = some (.unit w)
  | v :: _ => ∃ w ∈ (units optional ds).head?, ∃ slot ∈ slots.head?,
      documented A type u slot.expected v = none ∧ documented A type w.1 slot.expected v = none

/-- As long as the readings agree and the arguments match the texts are small, and where the readings
come apart the documented one fails as the code does. -/
def Sound : (code doc : List Token) → (optional : Bool) → List Slot → List (OperandValue D O) → Prop
  | [], _, _, _, _ => True
  | .bar :: ts, ds, _, slots, args => Sound ts (ds.drop 1) true slots args
  | .unit u :: ts, ds, optional, slots, args =>
    if ds.head? = some (.unit u) then
      match args, slots with
      | v :: args, slot :: slots =>
        Small u v ∧
          ((documented A type u slot.expected v).isSome → Sound ts (ds.drop 1) optional slots args)
      | _, _ => True
    else Fails A type u ds optional slots args

end Documented

/-! ### The two readings -/

/-- How the code reads a format, and how it is documented to be read. -/
inductive Reading : (code doc : List Token) → Prop
  | nil : Reading [] []
  | bar {ts ds} : Reading ts ds → Reading (.bar :: ts) (.bar :: ds)
  | unit {ts ds} (u) : Reading ts ds → Reading (.unit u :: ts) (.unit u :: ds)
  /-- White space that is not skipped. -/
  | space (ts ds) : Reading (.unit .unknown :: ts) ds
  /-- A space between `s` and `#`. -/
  | hash (ts ds) : Reading (.unit .s :: .unit .unknown :: ts) (.unit .sHash :: ds)
  /-- A space between `O` and `!`. -/
  | bang (ts ds) : Reading (.unit .O :: ts) (.unit .OBang :: ds)

theorem letter_of_isSpace {c : UInt8} (h : isSpace c = true) : letter c = .unknown := by
  simp only [isSpace, Bool.or_eq_true, decide_eq_true_eq, Bool.and_eq_true] at h
  have hne : ∀ b : UInt8, 32 < b → c ≠ b := by
    rintro b hb rfl
    obtain rfl | ⟨-, hle⟩ := h
    · exact absurd hb (by decide)
    · rw [UInt8.lt_iff_toNat_lt] at hb
      rw [UInt8.le_iff_toNat_le] at hle
      exact absurd (hb.trans_le hle) (by decide)
  simp only [letter, if_neg (hne (chr 's') (by decide)), if_neg (hne (chr 'i') (by decide)),
    if_neg (hne (chr 'l') (by decide)), if_neg (hne (chr 'd') (by decide)),
    if_neg (hne (chr 'b') (by decide)), if_neg (hne (chr 'O') (by decide))]

/-- A character that is neither a space nor a bar is a unit, alone or with the next one. -/
theorem tokens_of_ne {c : UInt8} {cs : Bytes} (hspace : c ≠ 32) (hbar : c ≠ chr '|')
    (hs : ¬ (c = chr 's' ∧ cs.head? = some (chr '#')))
    (hO : ¬ (c = chr 'O' ∧ cs.head? = some (chr '!'))) :
    tokens (c :: cs) = .unit (letter c) :: tokens cs := by
  rw [tokens, if_neg hspace, if_neg hbar, if_neg hs, if_neg hO]

/-- White space is an unknown unit, a space apart. -/
theorem tokens_of_isSpace {c : UInt8} {cs : Bytes} (h : isSpace c = true) (hspace : c ≠ 32) :
    tokens (c :: cs) = .unit .unknown :: tokens cs := by
  have hletter := letter_of_isSpace h
  rw [tokens_of_ne hspace, hletter]
  · rintro rfl
    exact absurd h (by decide)
  · rintro ⟨rfl, -⟩
    exact absurd h (by decide)
  · rintro ⟨rfl, -⟩
    exact absurd h (by decide)

/-- Behind white space the character `#` is not joined to the one before. -/
theorem tokens_of_filter {cs : Bytes}
    (h : (cs.filter fun c => !isSpace c).head? = some (chr '#')) :
    ∃ ts, tokens cs = .unit .unknown :: ts := by
  induction cs with
  | nil => cases h
  | cons c cs ih =>
    by_cases hspace : c = 32
    · subst hspace
      rw [tokens, if_pos rfl]
      exact ih h
    · by_cases hc : isSpace c = true
      · exact ⟨_, tokens_of_isSpace hc hspace⟩
      · rw [List.filter_cons_of_pos (by simpa using hc), List.head?_cons, Option.some.injEq] at h
        subst h
        exact ⟨_, tokens_of_ne (by decide) (by decide) (by rintro ⟨h, -⟩; exact absurd h (by decide))
          (by rintro ⟨h, -⟩; exact absurd h (by decide))⟩

/-- A unit that stands for itself, whatever is behind it. -/
theorem reading_cons {c : UInt8} {cs : Bytes} (hc : isSpace c = false) (hbar : c ≠ chr '|')
    (hs : ¬ (c = chr 's' ∧ cs.head? = some (chr '#')))
    (hO : ¬ (c = chr 'O' ∧ cs.head? = some (chr '!')))
    (ih : Reading (tokens cs) (tokens (cs.filter fun c => !isSpace c))) :
    Reading (.unit (letter c) :: tokens cs) (tokens (c :: cs.filter fun c => !isSpace c)) := by
  have hspace : c ≠ 32 := by
    rintro rfl
    exact absurd hc (by decide)
  by_cases hs' : c = chr 's' ∧ (cs.filter fun c => !isSpace c).head? = some (chr '#')
  · obtain ⟨rfl, hhead⟩ := hs'
    obtain ⟨ts, hts⟩ := tokens_of_filter hhead
    rw [tokens, if_neg hspace, if_neg hbar, if_pos ⟨rfl, hhead⟩, hts]
    exact .hash ts _
  by_cases hO' : c = chr 'O' ∧ (cs.filter fun c => !isSpace c).head? = some (chr '!')
  · obtain ⟨rfl, hhead⟩ := hO'
    rw [tokens, if_neg hspace, if_neg hbar, if_neg hs', if_pos ⟨rfl, hhead⟩]
    exact .bang _ _
  · rw [tokens_of_ne hspace hbar hs' hO']
    exact .unit _ ih

theorem reading_tokens (format : Bytes) :
    Reading (tokens format) (tokens (format.filter fun c => !isSpace c)) := by
  fun_induction tokens format with
  | case1 => exact tokens.eq_def [] ▸ .nil
  | case2 cs ih => exact ih
  | case3 cs _ ih =>
    rw [List.filter_cons_of_pos (by decide), tokens, if_neg (by decide), if_pos rfl]
    exact .bar ih
  | case4 c cs _ _ hs ih =>
    obtain ⟨rfl, hhead⟩ := hs
    obtain ⟨rest, rfl⟩ : ∃ rest, cs = chr '#' :: rest := by
      cases cs with
      | nil => cases hhead
      | cons b rest => exact ⟨rest, by rw [Option.some.inj hhead]⟩
    rw [List.filter_cons_of_pos (by decide), List.filter_cons_of_pos (by decide), tokens,
      if_neg (by decide), if_neg (by decide), if_pos ⟨rfl, rfl⟩]
    exact .unit .sHash ih
  | case5 c cs _ _ _ hO ih =>
    obtain ⟨rfl, hhead⟩ := hO
    obtain ⟨rest, rfl⟩ : ∃ rest, cs = chr '!' :: rest := by
      cases cs with
      | nil => cases hhead
      | cons b rest => exact ⟨rest, by rw [Option.some.inj hhead]⟩
    rw [List.filter_cons_of_pos (by decide), List.filter_cons_of_pos (by decide), tokens,
      if_neg (by decide), if_neg (by decide), if_neg (by rintro ⟨h, -⟩; exact absurd h (by decide)),
      if_pos ⟨rfl, rfl⟩]
    exact .unit .OBang ih
  | case6 c cs hspace hbar hs hO ih =>
    by_cases hc : isSpace c = true
    · rw [letter_of_isSpace hc]
      exact .space _ _
    · rw [List.filter_cons_of_pos (by simpa using hc)]
      exact reading_cons (by simpa using hc) hbar hs hO ih

/-! ### The units of a format -/

theorem all_units_true (ts : List Token) : (units true ts).all Prod.snd = true := by
  induction ts with
  | nil => rfl
  | cons t ts ih =>
    cases t with
    | bar => exact ih
    | unit u => rwa [units, List.all_cons, Bool.true_and]

/-- The units are optional if there is none, or a bar is next. -/
theorem all_units (optional : Bool) (ts : List Token) :
    (units optional ts).all Prod.snd = true ↔ optional = true ∨ ∀ u, ts.head? ≠ some (.unit u) := by
  cases optional with
  | true => simp only [all_units_true, true_or]
  | false =>
    match ts with
    | [] => simp [units]
    | .bar :: ts => simp [units, all_units_true]
    | .unit u :: ts => simp [units]

section Result

variable (A : DoubleArith D) (type : O → ObjType)

theorem documentedResult_nil (us : List (Letter × Bool)) (slots : List Slot) :
    documentedResult A type us slots [] = (us.all Prod.snd, []) := by
  simp [documentedResult]

theorem documentedResult_done (slots : List Slot) (args : List (OperandValue D O)) :
    documentedResult A type [] slots args = (true, []) := by
  simp [documentedResult]

variable {A type} {u : Letter} {slot : Slot} {v : OperandValue D O}

/-- A pair that matches. -/
theorem documentedResult_of_some {xs : List (Stored D O)}
    (h : documented A type u slot.expected v = some xs) (optional : Bool)
    (us : List (Letter × Bool)) (slots : List Slot) (args : List (OperandValue D O)) :
    documentedResult A type ((u, optional) :: us) (slot :: slots) (v :: args) =
      ((documentedResult A type us slots args).1,
        [slot.first, slot.second].zip xs ++ (documentedResult A type us slots args).2) := by
  simp [documentedResult, storesOf, h]

/-- A pair that does not match. -/
theorem documentedResult_of_none (h : documented A type u slot.expected v = none) (optional : Bool)
    (us : List (Letter × Bool)) (slots : List Slot) (args : List (OperandValue D O)) :
    documentedResult A type ((u, optional) :: us) (slot :: slots) (v :: args) = (false, []) := by
  simp [documentedResult, storesOf, h]

/-- There is something to store for a unit that matches, and two things for `s#`. -/
theorem length_documented {xs : List (Stored D O)}
    (h : documented A type u slot.expected v = some xs) :
    ([slot.first, slot.second].zip xs).length = if u = .sHash then 2 else 1 := by
  have hmap : ∀ {α : Type} {x : Option α} {f : α → Stored D O},
      (x.map fun a => [f a]) = some xs → ([slot.first, slot.second].zip xs).length = 1 := by
    intro α x f h
    obtain ⟨a, -, rfl⟩ := Option.map_eq_some_iff.1 h
    rfl
  cases u with
  | s =>
    simp only [documented] at h
    split at h <;> cases h <;> rfl
  | sHash =>
    simp only [documented] at h
    split at h
    · cases h
      rfl
    · split_ifs at h
      cases h
      rfl
    · cases h
  | i | l | d => exact hmap h
  | b | O =>
    cases h
    rfl
  | OBang =>
    simp only [documented] at h
    split_ifs at h
    exact hmap h
  | unknown => cases h

/-! ### A unit with its argument -/

theorem typedNext_some (kind : Kind) (x : Stored D O) (p : ℕ) (outputs : List Output) :
    typedNext kind (some x) (.pointer kind (some p) :: outputs) = some (true, [(p, x)], outputs) := by
  simp [typedNext, nextPointer]

theorem typedNext_none (kind : Kind) (p : ℕ) (outputs : List Output) :
    typedNext (D := D) (O := O) kind none (.pointer kind (some p) :: outputs) =
      some (false, [], outputs) := by
  simp [typedNext, nextPointer]

/-- A unit that matches is read as it is documented. -/
theorem unpackUnit_of_some {xs : List (Stored D O)}
    (h : documented A type u slot.expected v = some xs) (outputs : List Output) :
    unpackUnit A type u v (slot.outputs u ++ outputs) =
      some (true, [slot.first, slot.second].zip xs, outputs) := by
  cases u with
  | s =>
    simp only [documented] at h
    split at h <;> cases h
    all_goals simp_all [unpackUnit, Slot.outputs, nextPointer, unpackNullableString]
  | sHash =>
    simp only [documented] at h
    split at h
    · cases h
      simp_all [unpackUnit, Slot.outputs, nextPointer, unpackNullableString]
    · rename_i text htext
      split_ifs at h with hlen
      cases h
      simp [unpackUnit, Slot.outputs, nextPointer, unpackNullableString, htext, if_neg hlen.not_gt]
    · cases h
  | i =>
    obtain ⟨n, hn, rfl⟩ := Option.map_eq_some_iff.1 h
    simp only [unpackUnit, hn]
    exact typedNext_some ..
  | l =>
    obtain ⟨n, hn, rfl⟩ := Option.map_eq_some_iff.1 h
    simp only [unpackUnit, hn]
    exact typedNext_some ..
  | d =>
    obtain ⟨d, hd, rfl⟩ := Option.map_eq_some_iff.1 h
    simp only [unpackUnit, hd]
    exact typedNext_some ..
  | b =>
    cases h
    exact typedNext_some ..
  | O =>
    cases h
    exact typedNext_some ..
  | OBang =>
    simp only [documented] at h
    split_ifs at h with hexpected
    obtain ⟨o, ho, rfl⟩ := Option.map_eq_some_iff.1 h
    obtain hexpected | hexpected := hexpected
    all_goals
      rw [hexpected] at ho
      simp only [unpackUnit, Slot.outputs, hexpected, List.cons_append, ho]
      exact typedNext_some ..
  | unknown => cases h

/-- A unit that does not match fails; the text that is too long has been stored by then. -/
theorem unpackUnit_of_none (h : documented A type u slot.expected v = none)
    (outputs : List Output) :
    ∃ stores outputs', unpackUnit A type u v (slot.outputs u ++ outputs) =
      some (false, stores, outputs') ∧ (stores = [] ↔ Small u v) := by
  cases u with
  | s =>
    simp only [documented] at h
    split at h <;> cases h
    refine ⟨[], outputs, ?_, by simp [Small]⟩
    simp_all [unpackUnit, Slot.outputs, nextPointer, unpackNullableString]
  | sHash =>
    simp only [documented] at h
    split at h
    · cases h
    · rename_i text htext
      split_ifs at h with hlen
      refine ⟨[(slot.first, .chars (some text))], outputs, ?_, by simp_all [Small]⟩
      simp_all [unpackUnit, Slot.outputs, nextPointer, unpackNullableString]
    · refine ⟨[], outputs, ?_, by simp_all [Small]⟩
      simp_all [unpackUnit, Slot.outputs, nextPointer, unpackNullableString]
  | i =>
    refine ⟨[], outputs, ?_, by simp [Small]⟩
    simp only [unpackUnit, Option.map_eq_none_iff.1 h]
    exact typedNext_none ..
  | l =>
    refine ⟨[], outputs, ?_, by simp [Small]⟩
    simp only [unpackUnit, Option.map_eq_none_iff.1 h]
    exact typedNext_none ..
  | d =>
    refine ⟨[], outputs, ?_, by simp [Small]⟩
    simp only [unpackUnit, Option.map_eq_none_iff.1 h]
    exact typedNext_none ..
  | b => cases h
  | O => cases h
  | OBang =>
    simp only [documented] at h
    split_ifs at h with hexpected
    · have hnone := Option.map_eq_none_iff.1 h
      refine ⟨[], outputs, ?_, by simp [Small]⟩
      obtain hexpected | hexpected := hexpected
      all_goals
        rw [hexpected] at hnone
        simp only [unpackUnit, Slot.outputs, hexpected, List.cons_append, hnone]
        exact typedNext_none ..
    · obtain ⟨harray, hhash⟩ := not_or.1 hexpected
      refine ⟨[], .pointer .hash (some slot.first) :: outputs, ?_, by simp [Small]⟩
      simp only [unpackUnit, Slot.outputs, List.cons_append, if_neg harray, if_neg hhash]
      rfl
  | unknown => exact ⟨[], outputs, rfl, by simp [Small]⟩

/-! ### The loop -/

variable {ts ds : List Token} {optional : Bool} {slots : List Slot}
  {args : List (OperandValue D O)} {stores : List (Store D O)}

variable (A type) in
/-- The loop stores what is documented of the tokens `ds` behind what was stored before. -/
def Follows (ts ds : List Token) (optional : Bool) (slots : List Slot)
    (args : List (OperandValue D O)) (stores : List (Store D O)) : Prop :=
  unpackTokens A type ts optional args (outputsOf (units optional ds) slots) stores =
    some ((documentedResult A type (units optional ds) slots args).map id (stores ++ ·))

/-- No argument is left for the unit. -/
theorem follows_nil :
    Follows A type (.unit u :: ts) ds optional slots [] stores ↔
      Fails A type u ds optional slots [] := by
  rw [Follows, Fails, documentedResult_nil, unpackTokens]
  have hall := all_units optional ds
  cases optional with
  | true => simp [all_units_true]
  | false =>
    simp only [Bool.false_eq_true, false_or, ← not_exists, Prod.map_apply, id_eq,
      List.append_nil, Option.some.injEq, Prod.mk.injEq, and_true] at hall ⊢
    rw [eq_comm, ← Bool.not_eq_true, hall, not_not]

/-- Both read the unit, and its argument matches. -/
theorem follows_of_some {xs : List (Stored D O)}
    (h : documented A type u slot.expected v = some xs) :
    Follows A type (.unit u :: ts) (.unit u :: ds) optional (slot :: slots) (v :: args) stores ↔
      Follows A type ts ds optional slots args (stores ++ [slot.first, slot.second].zip xs) := by
  have hunit := unpackUnit_of_some h (outputsOf (units optional ds) slots)
  simp only [Follows, units, documentedResult_of_some h, unpackTokens]
  rw [show outputsOf ((u, optional) :: units optional ds) (slot :: slots) =
    slot.outputs u ++ outputsOf (units optional ds) slots from rfl, hunit]
  simp [Prod.map]

/-- The unit of the code does not take the argument, and the next one that is documented does not
take it either. -/
theorem follows_of_none {w : Letter × Bool} {us : List (Letter × Bool)}
    (hds : units optional ds = w :: us) (hdoc : documented A type w.1 slot.expected v = none)
    {written : List (Store D O)} {outputs : List Output}
    (hunit : unpackUnit A type u v (outputsOf (units optional ds) (slot :: slots)) =
      some (false, written, outputs)) :
    Follows A type (.unit u :: ts) ds optional (slot :: slots) (v :: args) stores ↔ written = [] := by
  rw [Follows, unpackTokens, hunit, hds, documentedResult_of_none hdoc]
  simp

/-- A unit of both with its argument. -/
theorem follows_unit
    (ih : ∀ stores, Follows A type ts ds optional slots args stores ↔
      Sound A type ts ds optional slots args) :
    Follows A type (.unit u :: ts) (.unit u :: ds) optional (slot :: slots) (v :: args) stores ↔
      Small u v ∧
        ((documented A type u slot.expected v).isSome → Sound A type ts ds optional slots args) := by
  cases hdoc : documented A type u slot.expected v with
  | none =>
    obtain ⟨written, outputs, hunit, hsmall⟩ :=
      unpackUnit_of_none hdoc (outputsOf (units optional ds) slots)
    rw [follows_of_none rfl hdoc hunit, hsmall]
    simp
  | some xs =>
    have hsmall : Small u v := by
      rintro rfl text htext
      by_contra hlen
      simp [documented, htext, if_neg hlen] at hdoc
    rw [follows_of_some hdoc, ih]
    simp [hsmall]

/-- White space that is not skipped, with an argument left. -/
theorem follows_space {slots : List Slot} (hlen : slots.length = (units optional ds).length) :
    Follows A type (.unit .unknown :: ts) ds optional slots (v :: args) stores ↔
      Fails A type .unknown ds optional slots (v :: args) := by
  match hds : units optional ds, slots with
  | [], [] =>
    rw [Follows, hds, documentedResult_done]
    simp [Fails, hds, unpackTokens, unpackUnit]
  | (w, o) :: us, slot :: slots =>
    have hunit : unpackUnit A type .unknown v (outputsOf (units optional ds) (slot :: slots)) =
        some (false, [], outputsOf (units optional ds) (slot :: slots)) := rfl
    have hunknown : documented A type .unknown slot.expected v = none := rfl
    have hfails : Fails A type .unknown ds optional (slot :: slots) (v :: args) ↔
        documented A type w slot.expected v = none := by
      simp [Fails, hds, hunknown]
    rw [hfails]
    cases hdoc : documented A type w slot.expected v with
    | none => simp [follows_of_none hds hdoc hunit]
    | some xs =>
      have hpos : [slot.first, slot.second].zip xs ≠ [] := by
        rw [← List.length_pos_iff, length_documented hdoc]
        split_ifs <;> decide
      rw [Follows, unpackTokens, hunit, hds, documentedResult_of_some hdoc]
      simp [hpos]
  | [], _ :: _ => simp [hds] at hlen
  | _ :: _, [] => simp [hds] at hlen

/-- The loop stops at a unit that is not known. -/
theorem unpackTokens_unknown (A : DoubleArith D) (type : O → ObjType) (ts : List Token)
    (optional : Bool) (args : List (OperandValue D O)) (outputs : List Output)
    (stores : List (Store D O)) :
    ∃ ok, unpackTokens A type (.unit .unknown :: ts) optional args outputs stores =
      some (ok, stores) := by
  cases args with
  | nil => exact ⟨optional, rfl⟩
  | cons v args =>
    refine ⟨false, ?_⟩
    rw [unpackTokens, unpackUnit]
    simp

/-- A space between `s` and `#`, with an argument left. -/
theorem follows_hash :
    Follows A type (.unit .s :: .unit .unknown :: ts) (.unit .sHash :: ds) optional (slot :: slots)
        (v :: args) stores ↔
      Fails A type .s (.unit .sHash :: ds) optional (slot :: slots) (v :: args) := by
  have hfails : Fails A type .s (.unit .sHash :: ds) optional (slot :: slots) (v :: args) ↔
      documented A type .s slot.expected v = none ∧
        documented A type .sHash slot.expected v = none := by
    simp [Fails, units]
  rw [hfails]
  let rest := outputsOf (units optional ds) slots
  cases hdoc : documented A type .s slot.expected v with
  | none =>
    have hnone : documented A type .sHash slot.expected v = none := by
      simp only [documented] at hdoc ⊢
      split at hdoc <;> cases hdoc
      simp_all
    obtain ⟨written, outputs, hunit, hsmall⟩ :=
      unpackUnit_of_none hdoc (.pointer .int (some slot.second) :: rest)
    rw [follows_of_none rfl hnone hunit, hsmall]
    simp [hnone, Small]
  | some xs =>
    -- one thing is stored before the loop stops at `#`, and not two
    have hunit := unpackUnit_of_some hdoc (.pointer .int (some slot.second) :: rest)
    obtain ⟨ok, hstop⟩ := unpackTokens_unknown A type ts optional args
      (.pointer .int (some slot.second) :: rest) (stores ++ [slot.first, slot.second].zip xs)
    have hcode : unpackTokens A type (.unit .s :: .unit .unknown :: ts) optional (v :: args)
        (outputsOf (units optional (.unit .sHash :: ds)) (slot :: slots)) stores =
          some (ok, stores ++ [slot.first, slot.second].zip xs) := by
      rw [unpackTokens, show outputsOf (units optional (.unit .sHash :: ds)) (slot :: slots) =
        slot.outputs .s ++ .pointer .int (some slot.second) :: rest from rfl, hunit]
      exact hstop
    have hone := length_documented hdoc
    rw [Follows, hcode, units]
    cases hhash : documented A type .sHash slot.expected v with
    | none =>
      rw [documentedResult_of_none hhash]
      simp [← List.length_eq_zero_iff, hone]
    | some ys =>
      have htwo := length_documented hhash
      rw [documentedResult_of_some hhash]
      simp only [Prod.map_apply, Option.some.injEq, Prod.mk.injEq, List.append_cancel_left_eq,
        reduceCtorEq, false_and, iff_false, not_and]
      intro _ hstores
      have hlen := congrArg List.length hstores
      rw [List.length_append, hone, htwo] at hlen
      simp only [reduceCtorEq, if_true, if_false] at hlen
      omega

/-- The types of the variable arguments are not those of the unit. -/
theorem follows_bang :
    Follows A type (.unit .O :: ts) (.unit .OBang :: ds) optional (slot :: slots) (v :: args) stores ↔
      Fails A type .O (.unit .OBang :: ds) optional (slot :: slots) (v :: args) := by
  have hcode : unpackTokens A type (.unit .O :: ts) optional (v :: args)
      (outputsOf (units optional (.unit .OBang :: ds)) (slot :: slots)) stores = none := rfl
  rw [Follows, hcode]
  simp [Fails, units, documented]

theorem sound_unit : Sound A type (.unit u :: ts) (.unit u :: ds) optional (slot :: slots) (v :: args) ↔
    Small u v ∧
      ((documented A type u slot.expected v).isSome → Sound A type ts ds optional slots args) := by
  rw [Sound.eq_def]
  simp

theorem sound_unit_nil : Sound A type (.unit u :: ts) (.unit u :: ds) optional slots [] := by
  rw [Sound.eq_def]
  simp

theorem sound_of_ne (h : ds.head? ≠ some (.unit u)) :
    Sound A type (.unit u :: ts) ds optional slots args ↔
      Fails A type u ds optional slots args := by
  rw [Sound.eq_def]
  simp [h]

/-- **The loop does what is documented if and only if the call is sound.** -/
theorem follows_iff (h : Reading ts ds) (hlen : slots.length = (units optional ds).length) :
    Follows A type ts ds optional slots args stores ↔ Sound A type ts ds optional slots args := by
  induction h generalizing optional slots args stores with
  | nil =>
    rw [Follows, units, documentedResult_done]
    simp [unpackTokens, Sound]
  | bar _ ih => exact ih hlen
  | unit u _ ih =>
    match args, slots with
    | [], _ =>
      rw [follows_nil, iff_true_right sound_unit_nil]
      exact .inr ⟨u, rfl⟩
    | v :: args, slot :: slots =>
      rw [sound_unit]
      exact follows_unit fun _ => ih (Nat.succ.inj hlen)
    | _ :: _, [] => cases hlen
  | space ts ds =>
    have hiff : Follows A type (.unit .unknown :: ts) ds optional slots args stores ↔
        Fails A type .unknown ds optional slots args := by
      cases args with
      | nil => exact follows_nil
      | cons v args => exact follows_space hlen
    by_cases hhead : ds.head? = some (.unit .unknown)
    · -- the unit that is documented next is not known either
      obtain ⟨ds, rfl⟩ : ∃ rest, ds = .unit .unknown :: rest := by
        obtain ⟨rest, hrest⟩ := List.head?_eq_some_iff.1 hhead
        exact ⟨rest, hrest⟩
      match args, slots with
      | [], _ =>
        rw [follows_nil, iff_true_right sound_unit_nil]
        exact .inr ⟨_, rfl⟩
      | v :: args, slot :: slots =>
        rw [hiff, sound_unit]
        simp [Fails, units, documented, Small]
      | _ :: _, [] => cases hlen
    · rw [hiff, sound_of_ne hhead]
  | hash ts ds =>
    rw [sound_of_ne (by simp)]
    match args, slots with
    | [], _ => exact follows_nil
    | v :: args, slot :: slots => exact follows_hash
    | _ :: _, [] => cases hlen
  | bang ts ds =>
    rw [sound_of_ne (by simp)]
    match args, slots with
    | [], _ => exact follows_nil
    | v :: args, slot :: slots => exact follows_bang
    | _ :: _, [] => cases hlen

end Result

/-! ### The law -/

/-- What is used of C: a conversion in range gives the number truncated. -/
structure Converts (A : DoubleArith D) : Prop where
  toInt32 : ∀ d, fitsInt A d → A.ofInt (A.toInt32 d).toInt = A.trunc d
  toInt64 : ∀ d, fitsLong A d → A.ofInt (A.toInt64 d).toInt = A.trunc d

section Law

variable {A : DoubleArith D} (hA : Converts A)

include hA in
theorem truncated (v : OperandValue D O) : Truncated A v := by
  constructor
  · intro n hn
    simp only [intOf] at hn
    split_ifs at hn with hfits
    cases hn
    exact ⟨hfits, hA.toInt32 _ hfits⟩
  · intro n hn
    unfold getLong at hn
    split at hn
    · cases hn
      exact .inl ‹_›
    · obtain ⟨d, hd, hlong⟩ := Option.bind_eq_some_iff.1 hn
      split_ifs at hlong with hfits
      cases hlong
      exact .inr ⟨d, hd, hfits, hA.toInt64 d hfits⟩

include hA in
/-- **The call does what is documented if and only if it is sound.** -/
theorem unpackLaw_iff (type : O → ObjType) {format : Bytes} {slots : List Slot}
    (hlen : slots.length = (unitsOf format).length) (args : List (OperandValue D O)) :
    UnpackLaw A type format slots args ↔
      Sound A type (tokens (cstring format)) (tokens (strip format)) false slots args := by
  have hread : Reading (tokens (cstring format)) (tokens (strip format)) := reading_tokens _
  have hfollows : Follows A type _ _ false slots args [] ↔ _ := follows_iff hread hlen
  rw [← hfollows, UnpackLaw, and_iff_left fun v _ => truncated hA v, Follows]
  simp [unpack, unitsOf, Prod.map]

end Law

/-- A format that both read the same is read as it is documented. -/
theorem sound_self (A : DoubleArith D) (type : O → ObjType) (ts : List Token) (optional : Bool)
    (slots : List Slot) {args : List (OperandValue D O)}
    (h : ∀ v ∈ args, ∀ text, embeddingValue v = .string text → text.length ≤ 2147483647) :
    Sound A type ts ts optional slots args := by
  induction ts generalizing optional slots args with
  | nil => trivial
  | cons t ts ih =>
    match t, args, slots with
    | .bar, _, _ => exact ih _ _ h
    | .unit u, [], _ => exact sound_unit_nil
    | .unit u, v :: args, [] =>
      rw [Sound.eq_def]
      simp
    | .unit u, v :: args, slot :: slots =>
      rw [sound_unit]
      exact ⟨fun _ => h v List.mem_cons_self, fun _ => ih _ _ fun w hw => h w (.tail _ hw)⟩

theorem converts_wholeNumbers : Converts Operator.wholeNumbers := by
  constructor
  · intro d hd
    simp only [fitsInt, Operator.wholeNumbers, id_eq, Bool.and_eq_true, Bool.not_eq_true',
      decide_eq_false_iff_not, true_and] at hd
    exact (BitVec.toInt_ofInt ..).trans (Int.bmod_eq_of_le (by omega) (by omega))
  · intro d hd
    simp only [fitsLong, Operator.wholeNumbers, id_eq, Bool.and_eq_true, Bool.not_eq_true',
      decide_eq_false_iff_not, true_and, decide_eq_true_eq] at hd
    exact (BitVec.toInt_ofInt ..).trans (Int.bmod_eq_of_le (by omega) (by omega))

/-- The format of the documentation, and three places to store. -/
def documentedFormat : Bytes := ascii "s i | b"

def threeSlots : List Slot := [⟨.array, 0, 0⟩, ⟨.array, 1, 0⟩, ⟨.array, 2, 0⟩]

/-- Two arguments, without the one that is optional. -/
theorem unpackLaw_documentedFormat :
    UnpackLaw Operator.wholeNumbers (O := Empty) Empty.elim documentedFormat threeSlots
      [.string (ascii "port"), .num 80] := by
  refine (unpackLaw_iff converts_wholeNumbers Empty.elim (by decide +kernel) _).2 ?_
  have hsame : tokens (cstring documentedFormat) = tokens (strip documentedFormat) := by
    decide +kernel
  rw [hsame]
  refine sound_self _ _ _ _ _ fun v hv text htext => ?_
  simp only [List.mem_cons, List.not_mem_nil, or_false] at hv
  obtain rfl | rfl := hv
  · cases htext
    decide
  · cases htext

/-- Two units with a tab between them. -/
def tabFormat : Bytes := ascii "s\ti"

/-- The code stops at the tab. -/
theorem not_unpackLaw_tabFormat :
    (threeSlots.take 2).length = (unitsOf tabFormat).length ∧
      ¬ UnpackLaw Operator.wholeNumbers (O := Empty) Empty.elim tabFormat (threeSlots.take 2)
        [.string (ascii "port"), .num 80] :=
  ⟨by decide +kernel, fun h => absurd h.1 (by decide +kernel)⟩

end Embed

end Slp
