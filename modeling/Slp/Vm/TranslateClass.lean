import Slp.Vm.TranslateRegex

/-!
# The translation of classes

In a class the translation leaves the classes inside open, moves an escaped `]` to the beginning and an
escaped hyphen to the end, and takes the backslash from some other punctuation.

* `ClassItems.terms`: the terms that are written for the items of a class;
* `translateLoop_cls`: what is written for a class;
* `ClassFits`: the class does not use what this gets wrong;
* `ClassFits.bracket_classEre`: **then the same bytes are in what is written.**
-/

namespace Slp

namespace Regex

open Parse (chr)

/-! ### What a class turns into -/

namespace ClassChar

/-- A byte that is written as it is, at either end of a range. -/
def Bare : ClassChar → Prop
  | plain _ _ => True
  | quoted c _ => c ∈ bareInClass ∨ c = chr '\\'

/-- The second backslash of an escaped one. -/
def extra : ClassChar → List Term
  | plain _ _ => []
  | quoted c _ => if c = chr '\\' then [.char c] else []

end ClassChar

namespace ClassItems

/-- What is written of a class, without the bytes that are moved. -/
def terms : ClassItems → List Term
  | char x => if x.byte = chr ']' ∨ x.byte = chr '-' then [] else x.extra ++ [.char x.byte]
  | range lo hi _ => lo.extra ++ .range lo.byte hi.byte :: hi.extra
  | shorthand .space => [.named .space]
  | shorthand .digit => [.named .digit]
  | shorthand .word => [.named .alnum, .char (chr '_')]
  | shorthand _ => []
  | nested _ items => items.terms
  | union a b => a.terms ++ b.terms

/-- A byte is there behind a backslash. -/
def escapes (c : UInt8) : ClassItems → Bool
  | char (.quoted d _) => d == c
  | nested _ items => items.escapes c
  | union a b => a.escapes c || b.escapes c
  | _ => false

/-- Escapes that keep no backslash, and no negation inside. -/
def Translatable : ClassItems → Prop
  | char x => x.Bare ∨ x.byte = chr ']' ∨ x.byte = chr '-'
  | range lo hi _ => lo.Bare ∧ hi.Bare
  | shorthand k => k = .space ∨ k = .digit ∨ k = .word
  | nested negated items => negated = false ∧ items.Translatable
  | union a b => a.Translatable ∧ b.Translatable

end ClassItems

section

variable {prev : Option UInt8} {d : ℕ} {deferred : Bool} {c : UInt8} {rest : Bytes}

/-- The bytes that are read as they are in a class. -/
theorem classLiteral_ne {c : UInt8} (hc : isClassLiteral c = true) :
    c ≠ chr '\\' ∧ c ≠ chr '[' ∧ c ≠ chr ']' ∧ c ≠ chr '-' := by
  refine ⟨?_, ?_, ?_, ?_⟩ <;> (rintro rfl; revert hc; decide)

/-- In a class the previous byte does not matter. -/
theorem translateLoop_prev (prev : Option UInt8) (d : ℕ) (deferred : Bool) (rest : Bytes) :
    translateLoop prev (d + 1) deferred rest = translateLoop none (d + 1) deferred rest := by
  cases rest with
  | nil => rfl
  | cons c rest =>
    rw [translateLoop.eq_def, translateLoop.eq_def]
    simp only [Nat.add_one_ne_zero, false_and, if_false]

/-- A byte is written as it is. -/
theorem translateLoop_class (hslash : c ≠ chr '\\') (hopen : c ≠ chr '[') (hclose : c ≠ chr ']') :
    translateLoop none (d + 1) deferred (c :: rest) = c :: translateLoop none (d + 1) deferred rest := by
  rw [translateLoop.eq_def]
  dsimp only
  rw [if_neg hslash, if_neg hopen, if_neg fun hand => hclose hand.1,
    if_neg fun hand => Nat.add_one_ne_zero d hand.1, translateLoop_prev]

/-- A backslash and the byte behind it in a class. -/
theorem translateLoop_escaped :
    translateLoop none (d + 1) deferred (chr '\\' :: c :: rest) = escapedText true c ++
      translateLoop none (d + 1) (deferred || c == chr '-') rest := by
  rw [translateLoop.eq_def]
  dsimp only
  rw [if_pos rfl, translateLoop_prev, decide_eq_true (Nat.succ_pos d), Bool.true_and]

/-- A class inside a class only opens and closes. -/
theorem translateLoop_open :
    translateLoop none (d + 1) deferred (chr '[' :: rest) = translateLoop none (d + 2) deferred rest := by
  rw [translateLoop.eq_def]
  dsimp only
  rw [if_neg (by decide), if_pos rfl, if_neg (Nat.succ_ne_zero d), translateLoop_prev]

theorem translateLoop_close :
    translateLoop none (d + 2) deferred (chr ']' :: rest) = translateLoop none (d + 1) deferred rest := by
  rw [translateLoop.eq_def]
  dsimp only
  rw [if_neg (by decide), if_neg (by decide), if_pos ⟨rfl, Nat.succ_pos _⟩, if_neg (by omega),
    show d + 2 - 1 = d + 1 from rfl, translateLoop_prev]

theorem escapedText_bare (hc : c ∈ bareInClass) :
    escapedText true c = [c] ∧ c ≠ chr ']' ∧ c ≠ chr '-' ∧ c ≠ chr '\\' := by
  have hall : (bareInClass.all fun c =>
      decide (escapedText true c = [c] ∧ c ≠ chr ']' ∧ c ≠ chr '-' ∧ c ≠ chr '\\')) = true := by decide
  exact of_decide_eq_true (List.all_eq_true.1 hall c hc)

namespace ClassChar

variable {x : ClassChar}

/-- A bare byte is neither of the two that are moved. -/
theorem Bare.byte_ne (hx : x.Bare) : x.byte ≠ chr ']' ∧ x.byte ≠ chr '-' := by
  cases x with
  | plain c hc => exact (classLiteral_ne hc).2.2
  | quoted c hc =>
    rcases hx with hbare | rfl
    · exact ⟨(escapedText_bare hbare).2.1, (escapedText_bare hbare).2.2.1⟩
    · exact ⟨show chr '\\' ≠ chr ']' by decide, show chr '\\' ≠ chr '-' by decide⟩

/-- The second backslash may stand on either side. -/
theorem extra_append (x : ClassChar) : termsText x.extra ++ [x.byte] = x.byte :: termsText x.extra := by
  cases x with
  | plain c hc => rfl
  | quoted c hc =>
    rw [extra]
    split_ifs <;> rfl

/-- A bare byte is written, an escaped backslash twice. -/
theorem Bare.translateLoop (hx : x.Bare) :
    translateLoop none (d + 1) deferred (x.text ++ rest) =
      termsText x.extra ++ x.byte :: translateLoop none (d + 1) deferred rest := by
  cases x with
  | plain c hc =>
    obtain ⟨hslash, hopen, hclose, -⟩ := classLiteral_ne hc
    exact translateLoop_class hslash hopen hclose
  | quoted c hc =>
    rw [text, List.cons_append, List.singleton_append, translateLoop_escaped, extra]
    rcases hx with hbare | rfl
    · obtain ⟨htext, -, hhyphen, hslash⟩ := escapedText_bare hbare
      rw [htext, beq_eq_false_iff_ne.2 hhyphen, Bool.or_false, if_neg hslash]
      rfl
    · rw [show (chr '\\' == chr '-') = false by decide, Bool.or_false, if_pos rfl]
      rfl

end ClassChar

/-- The items of a class turn into terms, less the bytes that are moved. -/
theorem translateLoop_items {items : ClassItems} (hitems : items.Translatable) :
    translateLoop none (d + 1) deferred (items.text ++ rest) = termsText items.terms ++
      translateLoop none (d + 1) (deferred || items.escapes (chr '-')) rest := by
  induction items generalizing d deferred rest with
  | char x =>
    rw [ClassItems.text, ClassItems.terms]
    by_cases hbare : x.Bare
    · have hescapes : (ClassItems.char x).escapes (chr '-') = false := by
        cases x with
        | plain c hc => rfl
        | quoted c hc => exact beq_eq_false_iff_ne.2 hbare.byte_ne.2
      rw [hbare.translateLoop, if_neg (not_or.2 hbare.byte_ne), hescapes, Bool.or_false, termsText_append,
        List.append_assoc]
      rfl
    · -- only a byte that is moved is not bare
      have hmoved := hitems.resolve_left hbare
      rw [if_pos hmoved]
      cases x with
      | plain c hc => exact absurd trivial hbare
      | quoted c hc =>
        rw [ClassChar.text, List.cons_append, List.singleton_append, translateLoop_escaped]
        rcases hmoved with heq | heq
        · change c = chr ']' at heq
          subst heq
          rfl
        · change c = chr '-' at heq
          subst heq
          rfl
  | range lo hi hle =>
    have hhyphen : ∀ rest, translateLoop none (d + 1) deferred (chr '-' :: rest) =
        chr '-' :: translateLoop none (d + 1) deferred rest :=
      fun rest => translateLoop_class (by decide) (by decide) (by decide)
    rw [ClassItems.text, ClassItems.terms, List.append_assoc, hitems.1.translateLoop, List.cons_append,
      hhyphen, hitems.2.translateLoop, show (ClassItems.range lo hi hle).escapes (chr '-') = false from rfl,
      Bool.or_false, termsText_append, termsText_cons]
    have hextra : ∀ rest, termsText hi.extra ++ hi.byte :: rest = hi.byte :: (termsText hi.extra ++ rest) :=
      fun rest => by
        rw [← List.cons_append, ← ClassChar.extra_append, List.append_assoc]
        rfl
    rw [hextra]
    simp only [Term.text, List.append_assoc, List.cons_append, List.nil_append]
  | shorthand k =>
    rw [ClassItems.text, List.cons_append, List.singleton_append, translateLoop_escaped]
    rcases hitems with rfl | rfl | rfl <;> rfl
  | nested negated items ih =>
    obtain ⟨rfl, hitems⟩ := hitems
    rw [ClassItems.text, flag, if_neg (by decide), List.cons_append, List.cons_append, List.cons_append,
      translateLoop_open, List.append_assoc, List.nil_append, ih hitems, List.singleton_append,
      translateLoop_close]
    rfl
  | union a b iha ihb =>
    rw [ClassItems.text, List.append_assoc, iha hitems.1, ihb hitems.2, ClassItems.terms, termsText_append,
      List.append_assoc, ClassItems.escapes, Bool.or_assoc]

/-! ### The search for an escaped bracket -/

theorem hasLiteralClosingBracket_skip (hslash : c ≠ chr '\\') (hopen : c ≠ chr '[')
    (hclose : c ≠ chr ']') :
    hasLiteralClosingBracket (d + 1) (c :: rest) = hasLiteralClosingBracket (d + 1) rest := by
  rw [hasLiteralClosingBracket.eq_def]
  dsimp only
  rw [if_neg hslash, if_neg hopen, if_neg hclose]

theorem hasLiteralClosingBracket_escaped :
    hasLiteralClosingBracket (d + 1) (chr '\\' :: c :: rest) =
      (c == chr ']' || hasLiteralClosingBracket (d + 1) rest) := by
  rw [hasLiteralClosingBracket.eq_def]
  dsimp only
  rw [if_pos rfl]

theorem hasLiteralClosingBracket_flag {b : Bool} (hslash : c ≠ chr '\\') (hopen : c ≠ chr '[')
    (hclose : c ≠ chr ']') :
    hasLiteralClosingBracket (d + 1) (flag b c ++ rest) = hasLiteralClosingBracket (d + 1) rest := by
  cases b with
  | false => rfl
  | true => exact hasLiteralClosingBracket_skip hslash hopen hclose

/-- A byte that stays where it is is no escaped bracket. -/
theorem ClassChar.Bare.hasLiteralClosingBracket {x : ClassChar} (hx : x.Bare) :
    hasLiteralClosingBracket (d + 1) (x.text ++ rest) = hasLiteralClosingBracket (d + 1) rest := by
  have hne := hx.byte_ne.1
  cases x with
  | plain c hc =>
    obtain ⟨hslash, hopen, hclose, -⟩ := classLiteral_ne hc
    exact hasLiteralClosingBracket_skip hslash hopen hclose
  | quoted c hc =>
    rw [text, List.cons_append, List.singleton_append, hasLiteralClosingBracket_escaped,
      beq_eq_false_iff_ne.2 (show c ≠ chr ']' from hne), Bool.false_or]

/-- The search goes through the items of a class. -/
theorem hasLiteralClosingBracket_items {items : ClassItems} (hitems : items.Translatable) :
    hasLiteralClosingBracket (d + 1) (items.text ++ rest) =
      (items.escapes (chr ']') || hasLiteralClosingBracket (d + 1) rest) := by
  induction items generalizing d rest with
  | char x =>
    rw [ClassItems.text]
    cases x with
    | plain c hc => exact ClassChar.Bare.hasLiteralClosingBracket (x := .plain c hc) trivial
    | quoted c hc => exact hasLiteralClosingBracket_escaped
  | range lo hi hle =>
    rw [ClassItems.text, List.append_assoc, hitems.1.hasLiteralClosingBracket, List.cons_append,
      hasLiteralClosingBracket_skip (by decide) (by decide) (by decide), hitems.2.hasLiteralClosingBracket]
    rfl
  | shorthand k =>
    rw [ClassItems.text, List.cons_append, List.singleton_append, hasLiteralClosingBracket_escaped]
    rcases hitems with rfl | rfl | rfl <;> rfl
  | nested negated items ih =>
    obtain ⟨rfl, hitems⟩ := hitems
    have hopen : ∀ rest, hasLiteralClosingBracket (d + 1) (chr '[' :: rest) =
        hasLiteralClosingBracket (d + 2) rest := fun rest => by
      rw [hasLiteralClosingBracket.eq_def]
      dsimp only
      rw [if_neg (by decide), if_pos rfl]
    have hclose : hasLiteralClosingBracket (d + 2) (chr ']' :: rest) =
        hasLiteralClosingBracket (d + 1) rest := by
      rw [hasLiteralClosingBracket.eq_def]
      dsimp only
      rw [if_neg (by decide), if_neg (by decide), if_pos rfl]
    rw [ClassItems.text, flag, if_neg (by decide), List.cons_append, List.cons_append, List.cons_append,
      hopen, List.append_assoc, List.nil_append, ih hitems, List.singleton_append, hclose]
    rfl
  | union a b iha ihb =>
    rw [ClassItems.text, List.append_assoc, iha hitems.1, ihb hitems.2, ClassItems.escapes, Bool.or_assoc]

/-- What is written between the brackets of a class. -/
def classEre (negated first last : Bool) (items : ClassItems) : Bytes :=
  flag (items.escapes (chr ']')) (chr ']') ++ flag negated (chr '^') ++ flag first (chr '-') ++
    termsText items.terms ++ flag last (chr '-') ++ flag (items.escapes (chr '-')) (chr '-')

theorem translateLoop_flag {b : Bool} (hslash : c ≠ chr '\\') (hopen : c ≠ chr '[')
    (hclose : c ≠ chr ']') :
    translateLoop none (d + 1) deferred (flag b c ++ rest) =
      flag b c ++ translateLoop none (d + 1) deferred rest := by
  cases b with
  | false => rfl
  | true => exact translateLoop_class hslash hopen hclose

/-- The translation of a class. -/
theorem translateLoop_cls {negated first last : Bool} {items : ClassItems} (hitems : items.Translatable) :
    translateLoop prev 0 false (chr '[' :: Pattern.classText negated first last items ++ [chr ']'] ++ rest) =
      chr '[' :: classEre negated first last items ++ [chr ']'] ++
        translateLoop (some (chr ']')) 0 false rest := by
  have hclose : ∀ deferred, translateLoop none 1 deferred (chr ']' :: rest) =
      flag deferred (chr '-') ++ chr ']' :: translateLoop (some (chr ']')) 0 false rest := fun deferred => by
    rw [translateLoop.eq_def]
    dsimp only
    rw [if_neg (by decide), if_neg (by decide), if_pos ⟨rfl, Nat.zero_lt_one⟩, if_pos rfl]
  have hend : hasLiteralClosingBracket (0 + 1) (chr ']' :: rest) = false := by
    rw [hasLiteralClosingBracket.eq_def]
    dsimp only
    rw [if_neg (by decide), if_neg (by decide), if_pos rfl, hasLiteralClosingBracket.eq_def]
  have hlook : hasLiteralClosingBracket 1 (Pattern.classText negated first last items ++ chr ']' :: rest) =
      items.escapes (chr ']') := by
    unfold Pattern.classText
    rw [List.append_assoc, List.append_assoc, List.append_assoc,
      hasLiteralClosingBracket_flag (by decide) (by decide) (by decide),
      hasLiteralClosingBracket_flag (by decide) (by decide) (by decide),
      hasLiteralClosingBracket_items hitems,
      hasLiteralClosingBracket_flag (by decide) (by decide) (by decide), hend, Bool.or_false]
  have hbody : translateLoop none 1 false (Pattern.classText negated first last items ++ chr ']' :: rest) =
      flag negated (chr '^') ++ (flag first (chr '-') ++ (termsText items.terms ++ (flag last (chr '-') ++
        (flag (items.escapes (chr '-')) (chr '-') ++
          chr ']' :: translateLoop (some (chr ']')) 0 false rest)))) := by
    unfold Pattern.classText
    rw [List.append_assoc, List.append_assoc, List.append_assoc,
      translateLoop_flag (by decide) (by decide) (by decide),
      translateLoop_flag (by decide) (by decide) (by decide), translateLoop_items hitems,
      translateLoop_flag (by decide) (by decide) (by decide), hclose, Bool.false_or]
  rw [List.append_assoc, List.cons_append, List.singleton_append, translateLoop.eq_def]
  dsimp only
  rw [if_neg (by decide), if_pos rfl, if_pos rfl, hlook, translateLoop_prev, hbody, classEre]
  simp only [List.append_assoc, List.cons_append, List.nil_append]

/-! ### What a translated class denotes -/

theorem ClassChar.mem_extra {x : ClassChar} {y : Term} (hy : y ∈ x.extra) : y = .char x.byte := by
  cases x with
  | plain c hc => cases hy
  | quoted c hc =>
    rw [extra] at hy
    split_ifs at hy with hslash
    · exact List.mem_singleton.1 hy
    · cases hy

/-- A second backslash adds nothing to a set that has the first one. -/
theorem ClassChar.extra_bytes {x : ClassChar} {P : Prop} (hP : c = x.byte → P) :
    (∃ y ∈ x.extra, c ∈ y.bytes) ∨ P ↔ P := by
  refine or_iff_right_of_imp ?_
  rintro ⟨y, hy, hc⟩
  rw [ClassChar.mem_extra hy] at hc
  exact hP hc

namespace ClassItems

variable {items : ClassItems}

/-- The terms of a class may stand everywhere. -/
theorem Translatable.ordinary (hitems : items.Translatable) : ∀ x ∈ items.terms, x.Ordinary := by
  have hextra : ∀ {x : ClassChar}, x.Bare → ∀ y ∈ x.extra, y.Ordinary := fun hx y hy => by
    rw [ClassChar.mem_extra hy]
    exact hx.byte_ne
  induction items with
  | char x =>
    rw [terms]
    split_ifs with hmoved
    · exact fun y hy => absurd hy List.not_mem_nil
    · have hx := hitems.resolve_right hmoved
      exact List.forall_mem_append.2 ⟨hextra hx, List.forall_mem_singleton.2 hx.byte_ne⟩
  | range lo hi hle =>
    exact List.forall_mem_append.2 ⟨hextra hitems.1,
      List.forall_mem_cons.2 ⟨⟨hle, hitems.1.byte_ne, hitems.2.byte_ne.1⟩, hextra hitems.2⟩⟩
  | shorthand k =>
    rcases hitems with rfl | rfl | rfl
    · exact List.forall_mem_singleton.2 trivial
    · exact List.forall_mem_singleton.2 trivial
    · exact List.forall_mem_cons.2 ⟨trivial, List.forall_mem_singleton.2 ⟨by decide, by decide⟩⟩
  | nested negated items ih => exact ih hitems.2
  | union a b iha ihb => exact List.forall_mem_append.2 ⟨iha hitems.1, ihb hitems.2⟩

/-- A class of nothing but bytes that are moved has one of them. -/
theorem Translatable.terms_ne_nil (hitems : items.Translatable) (hbracket : items.escapes (chr ']') = false)
    (hhyphen : items.escapes (chr '-') = false) : items.terms ≠ [] := by
  induction items with
  | char x =>
    have hmoved : ¬(x.byte = chr ']' ∨ x.byte = chr '-') := by
      cases x with
      | plain c hc => exact not_or.2 (ClassChar.Bare.byte_ne (x := .plain c hc) trivial)
      | quoted c hc => exact not_or.2 ⟨beq_eq_false_iff_ne.1 hbracket, beq_eq_false_iff_ne.1 hhyphen⟩
    rw [terms, if_neg hmoved]
    exact List.append_ne_nil_of_right_ne_nil _ (List.cons_ne_nil _ _)
  | range lo hi hle => exact List.append_ne_nil_of_right_ne_nil _ (List.cons_ne_nil _ _)
  | shorthand k => rcases hitems with rfl | rfl | rfl <;> exact List.cons_ne_nil _ _
  | nested negated items ih => exact ih hitems.2 hbracket hhyphen
  | union a b iha ihb =>
    exact List.append_ne_nil_of_left_ne_nil
      (iha hitems.1 (Bool.or_eq_false_iff.1 hbracket).1 (Bool.or_eq_false_iff.1 hhyphen).1) _

/-- The bytes of a class are those of its terms, and those that are moved. -/
theorem Translatable.has_iff (hitems : items.Translatable) (c : UInt8) :
    items.has c = true ↔
      (∃ x ∈ items.terms, c ∈ x.bytes) ∨ (c = chr ']' ∨ c = chr '-') ∧ items.escapes c = true := by
  induction items with
  | char x =>
    rw [show (char x).has c = (c == x.byte) from rfl, beq_iff_eq, terms]
    split_ifs with hmoved
    · -- a byte that is moved stands behind a backslash
      have hescapes : (char x).escapes c = true ↔ x.byte = c := by
        cases x with
        | plain d hd => exact absurd hmoved (not_or.2 (ClassChar.Bare.byte_ne (x := .plain d hd) trivial))
        | quoted d hd => exact beq_iff_eq
      simp only [List.not_mem_nil, false_and, exists_false, false_or, hescapes]
      constructor
      · rintro rfl
        exact ⟨hmoved, rfl⟩
      · exact fun hand => hand.2.symm
    · have hescapes : ¬((c = chr ']' ∨ c = chr '-') ∧ (char x).escapes c = true) := by
        cases x with
        | plain d hd => exact fun hand => nomatch hand.2
        | quoted d hd =>
          rintro ⟨hc, heq⟩
          rw [show c = d from (beq_iff_eq.1 heq).symm] at hc
          exact hmoved hc
      have hextra := ClassChar.extra_bytes (x := x) (P := c = x.byte) id
      rw [or_iff_left hescapes, ← hextra]
      simp only [List.mem_append, or_and_right, exists_or, List.mem_singleton, exists_eq_left]
      rfl
  | range lo hi hle =>
    have hlo := ClassChar.extra_bytes (c := c) (x := lo) (P := lo.byte ≤ c ∧ c ≤ hi.byte) fun heq => by
      rw [heq]
      exact ⟨UInt8.le_refl _, hle⟩
    have hhi := ClassChar.extra_bytes (c := c) (x := hi) (P := lo.byte ≤ c ∧ c ≤ hi.byte) fun heq => by
      rw [heq]
      exact ⟨hle, UInt8.le_refl _⟩
    have hhas : (range lo hi hle).has c = true ↔ lo.byte ≤ c ∧ c ≤ hi.byte := by
      rw [has, Bool.and_eq_true, decide_eq_true_iff, decide_eq_true_iff]
    rw [hhas, or_iff_left (fun hand => nomatch hand.2)]
    simp only [terms, List.mem_append, List.mem_cons, or_and_right, exists_or, exists_eq_left]
    exact hlo.symm.trans (or_congr_right (or_comm.trans hhi).symm)
  | shorthand k =>
    rw [or_iff_left (fun hand => nomatch hand.2)]
    rcases hitems with rfl | rfl | rfl <;> simp [has, terms, Term.bytes, Shorthand.has]
  | nested negated items ih =>
    obtain ⟨rfl, hitems⟩ := hitems
    rw [show (nested false items).has c = items.has c from Bool.false_bne _]
    exact ih hitems
  | union a b iha ihb =>
    have hhas : (union a b).has c = true ↔ a.has c = true ∨ b.has c = true := Bool.or_eq_true_iff
    have hescapes : (union a b).escapes c = true ↔ a.escapes c = true ∨ b.escapes c = true :=
      Bool.or_eq_true_iff
    rw [hhas, iha hitems.1, ihb hitems.2, hescapes, and_or_left, or_or_or_comm, terms]
    simp only [List.mem_append, or_and_right, exists_or]

end ClassItems

/-- The bytes that are moved are moved past nothing that minds, and no others turn into a negation or
a symbol. -/
structure ClassFits (negated first last : Bool) (items : ClassItems) : Prop where
  translatable : items.Translatable
  apart : Apart items.terms
  /-- The bracket is moved to the beginning, also of a negation. -/
  bracket : items.escapes (chr ']') = true → negated = false ∧ first = false
  /-- The hyphen is moved to the end. -/
  hyphen : items.escapes (chr '-') = true → last = false
  caret : negated = false → first = false → items.escapes (chr ']') = false →
    (termsText items.terms).head? ≠ some (chr '^')

namespace ClassFits

variable {negated first last : Bool} {items : ClassItems}

/-- What is written for a class, less the negation. -/
def body (first last : Bool) (items : ClassItems) : Bytes :=
  flag (items.escapes (chr ']')) (chr ']') ++ (flag first (chr '-') ++
    (termsText items.terms ++ flag (last || items.escapes (chr '-')) (chr '-')))

theorem classEre_eq (fits : ClassFits negated first last items) :
    classEre negated first last items = flag negated (chr '^') ++ body first last items := by
  have hbracket : flag (items.escapes (chr ']')) (chr ']') ++ flag negated (chr '^') =
      flag negated (chr '^') ++ flag (items.escapes (chr ']')) (chr ']') := by
    cases hescapes : items.escapes (chr ']') with
    | false => exact (List.append_nil _).symm
    | true =>
      rw [(fits.bracket hescapes).1]
      rfl
  have hhyphen : flag last (chr '-') ++ flag (items.escapes (chr '-')) (chr '-') =
      flag (last || items.escapes (chr '-')) (chr '-') := by
    cases hescapes : items.escapes (chr '-') with
    | false =>
      rw [Bool.or_false]
      exact List.append_nil _
    | true =>
      rw [fits.hyphen hescapes]
      rfl
  rw [classEre, hbracket, List.append_assoc _ (flag last _), hhyphen, body]
  simp only [List.append_assoc]

/-- The body of a class denotes its bytes. -/
theorem terms_body (fits : ClassFits negated first last items) :
    Terms true (body first last items) {c | items.has c = true ∨ (first || last) = true ∧ c = chr '-'} := by
  have hordinary := fits.translatable.ordinary
  have hhas := fits.translatable.has_iff
  have hhyphen : ∀ c, (c = chr '-' ∧ items.escapes c = true) ↔
      (items.escapes (chr '-') = true ∧ c = chr '-') := fun c => by
    rw [and_comm]
    exact and_congr_left fun heq => by rw [heq]
  rw [body]
  cases hescapes : items.escapes (chr ']') with
  | true =>
    obtain ⟨-, rfl⟩ := fits.bracket hescapes
    have hbracket : ∀ c, (c = chr ']' ∧ items.escapes c = true) ↔ c = chr ']' := fun c =>
      and_iff_left_of_imp fun heq => heq ▸ hescapes
    refine (terms_cons_first (by decide) hordinary fits.apart _).congr fun c => ?_
    rw [Set.mem_ofPred_eq, Set.mem_ofPred_eq, hhas, or_and_right, hbracket, hhyphen, Bool.or_eq_true,
      Bool.false_or]
    grind
  | false =>
    have hbracket : ∀ c, ¬(c = chr ']' ∧ items.escapes c = true) := by
      rintro c ⟨rfl, heq⟩
      rw [hescapes] at heq
      cases heq
    cases first with
    | true =>
      refine (terms_cons_first (by decide) hordinary fits.apart _).congr fun c => ?_
      rw [Set.mem_ofPred_eq, Set.mem_ofPred_eq, hhas, or_and_right, or_iff_right (hbracket c), hhyphen,
        Bool.or_eq_true, Bool.true_or]
      grind
    | false =>
      have hne : termsText items.terms ++ flag (last || items.escapes (chr '-')) (chr '-') ≠ [] := by
        cases hlast : items.escapes (chr '-') with
        | true =>
          rw [Bool.or_true]
          exact List.append_ne_nil_of_right_ne_nil _ (List.cons_ne_nil _ _)
        | false =>
          obtain ⟨x, ts, hterms⟩ := List.exists_cons_of_ne_nil
            (fits.translatable.terms_ne_nil hescapes hlast)
          obtain ⟨c, t, htext⟩ := x.exists_text
          rw [hterms, termsText_cons, htext]
          exact List.cons_ne_nil _ _
      refine ((terms_termsText hordinary fits.apart _).of_false hne).congr fun c => ?_
      rw [Set.mem_ofPred_eq, Set.mem_ofPred_eq, hhas, or_and_right, or_iff_right (hbracket c), hhyphen,
        Bool.or_eq_true, Bool.false_or]
      grind

/-- A class that fits is written as a bracket expression with the same bytes. -/
theorem bracket_classEre (fits : ClassFits negated first last items) :
    Bracket (classEre negated first last items) {c | Pattern.classHas negated first last items c = true} := by
  have hterms := fits.terms_body
  have hhas : ∀ c, (items.has c || (first || last) && c == chr '-') = true ↔
      items.has c = true ∨ (first || last) = true ∧ c = chr '-' := fun c => by
    rw [Bool.or_eq_true, Bool.and_eq_true, beq_iff_eq]
  rw [fits.classEre_eq]
  cases negated with
  | false =>
    have hset : {c | Pattern.classHas false first last items c = true} =
        {c | items.has c = true ∨ (first || last) = true ∧ c = chr '-'} :=
      Set.ext fun c => by
        rw [Set.mem_ofPred_eq, Set.mem_ofPred_eq, ← hhas c, Pattern.classHas, Bool.false_bne]
    have hcaret : (body first last items).head? ≠ some (chr '^') := by
      have hcaret := fits.caret rfl
      unfold body
      cases hescapes : items.escapes (chr ']') with
      | true => exact show some (chr ']') ≠ some (chr '^') by decide
      | false =>
        cases first with
        | true => exact show some (chr '-') ≠ some (chr '^') by decide
        | false =>
          cases hhead : termsText items.terms with
          | nil => cases last || items.escapes (chr '-') <;> decide
          | cons c t =>
            rw [hhead] at hcaret
            exact hcaret rfl hescapes
    rw [hset]
    exact .list hterms hcaret
  | true =>
    have hset : {c | Pattern.classHas true first last items c = true} =
        {c | items.has c = true ∨ (first || last) = true ∧ c = chr '-'}ᶜ :=
      Set.ext fun c => by
        rw [Set.mem_ofPred_eq, Set.mem_compl_iff, Set.mem_ofPred_eq, ← hhas c, Pattern.classHas,
          Bool.true_bne, Bool.not_eq_true']
        exact Bool.not_eq_true _ ▸ Iff.rfl
    rw [hset]
    exact .nonmatching hterms

end ClassFits

end

end Regex

end Slp
