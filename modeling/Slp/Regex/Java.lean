import Slp.Regex.Extended

/-!
# Patterns of Java

The patterns made of literals, the dot, shorthand classes, escaped punctuation, classes in brackets,
groups, alternatives and quantifiers with a suffix: their text, and what they match.  A letter is a
byte.

* `ClassItems`: what stands in brackets, with unions of classes;
* `Pattern`: the patterns, by levels of the grammar;
* `Pattern.text`, `Pattern.matcher`: how a pattern is written and how it matches, by backtracking;
* `Pattern.reads`: where nothing is committed to, a pattern reads its language;
* `Pattern.Indifferent`: nothing depends on what is committed to.
-/

namespace Slp

namespace Regex

open Parse (chr)

/-- `\s`, `\S`, `\d`, `\D`, `\w` and `\W`. -/
inductive Shorthand where
  | space | notSpace | digit | notDigit | word | notWord
  deriving DecidableEq, Repr

namespace Shorthand

def letter : Shorthand → UInt8
  | space => chr 's'
  | notSpace => chr 'S'
  | digit => chr 'd'
  | notDigit => chr 'D'
  | word => chr 'w'
  | notWord => chr 'W'

def has : Shorthand → UInt8 → Bool
  | space, c => ClassName.space.has c
  | notSpace, c => !ClassName.space.has c
  | digit, c => ClassName.digit.has c
  | notDigit, c => !ClassName.digit.has c
  | word, c => ClassName.alnum.has c || c == chr '_'
  | notWord, c => !(ClassName.alnum.has c || c == chr '_')

end Shorthand

/-! ### Classes -/

/-- A byte that stands for itself in brackets. -/
def isClassLiteral (c : UInt8) : Bool := !(ascii "[]\\-").contains c && c != 0

/-- A byte in brackets: as it is, or punctuation behind a backslash. -/
inductive ClassChar where
  | plain (c : UInt8) (hc : isClassLiteral c = true)
  | quoted (c : UInt8) (hc : isPunctuation c = true)

namespace ClassChar

def byte : ClassChar → UInt8
  | plain c _ | quoted c _ => c

def text : ClassChar → Bytes
  | plain c _ => [c]
  | quoted c _ => [chr '\\', c]

end ClassChar

/-- What stands in brackets: bytes, ranges, shorthand classes and classes, one behind the other. -/
inductive ClassItems where
  | char (x : ClassChar)
  | range (lo hi : ClassChar) (hle : lo.byte ≤ hi.byte)
  | shorthand (k : Shorthand)
  | nested (negated : Bool) (items : ClassItems)
  | union (a b : ClassItems)

namespace ClassItems

def text : ClassItems → Bytes
  | char x => x.text
  | range lo hi _ => lo.text ++ chr '-' :: hi.text
  | shorthand k => [chr '\\', k.letter]
  | nested negated items => chr '[' :: flag negated (chr '^') ++ items.text ++ [chr ']']
  | union a b => a.text ++ b.text

def has : ClassItems → UInt8 → Bool
  | char x, c => c == x.byte
  | range lo hi _, c => lo.byte ≤ c && c ≤ hi.byte
  | shorthand k, c => k.has c
  | nested negated items, c => negated != items.has c
  | union a b, c => a.has c || b.has c

/-- No class inside starts with a caret that negates it. -/
def isLegal : ClassItems → Bool
  | nested negated items => (negated || items.text.head? != some (chr '^')) && items.isLegal
  | union a b => a.isLegal && b.isLegal
  | _ => true

end ClassItems

/-- Brackets are read as the class that they are written for: no caret negates it, and nothing is
intersected. -/
def isLegalClass (negated first : Bool) (items : ClassItems) : Bool :=
  (negated || first || items.text.head? != some (chr '^')) && items.isLegal &&
    !decide (ascii "&&" <:+: items.text)

/-! ### Patterns -/

/-- A byte that stands for itself. -/
def isLiteral (c : UInt8) : Bool := !specials.contains c && c != 0

/-- The suffix of a quantifier. -/
inductive Suffix where
  | greedy | reluctant | possessive
  deriving DecidableEq, Repr

def Suffix.text : Suffix → Bytes
  | greedy => []
  | reluctant => [chr '?']
  | possessive => [chr '+']

/-- The levels of the grammar; a branch is what stands between bars. -/
inductive Level where
  | atom | piece | branch | regex
  deriving DecidableEq, Repr

/-- The patterns of a level.  A class may have a bare hyphen at its beginning and at its end. -/
inductive Pattern : Level → Type where
  | char (c : UInt8) (hc : isLiteral c = true) : Pattern .atom
  | dot : Pattern .atom
  | shorthand (k : Shorthand) : Pattern .atom
  | quoted (c : UInt8) (hc : isPunctuation c = true) : Pattern .atom
  | cls (negated first last : Bool) (items : ClassItems) (hlegal : isLegalClass negated first items = true) :
      Pattern .atom
  | group (r : Pattern .regex) : Pattern .atom
  | once (a : Pattern .atom) : Pattern .piece
  | repeated (a : Pattern .atom) (q : Quantifier) (suffix : Suffix) : Pattern .piece
  | empty : Pattern .branch
  | cat (b : Pattern .branch) (p : Pattern .piece) : Pattern .branch
  | branch (b : Pattern .branch) : Pattern .regex
  | alt (r : Pattern .regex) (b : Pattern .branch) : Pattern .regex

/-- A line terminator, which the dot matches only in the mode `DOTALL`. -/
def isLineTerminator (c : UInt8) : Bool := c == 10 || c == 13 || c == 133

namespace Pattern

/-- What stands between the brackets of a class. -/
def classText (negated first last : Bool) (items : ClassItems) : Bytes :=
  flag negated (chr '^') ++ flag first (chr '-') ++ items.text ++ flag last (chr '-')

/-- The class of a byte. -/
def classHas (negated first last : Bool) (items : ClassItems) (c : UInt8) : Bool :=
  negated != (items.has c || (first || last) && c == chr '-')

def text : {l : Level} → Pattern l → Bytes
  | _, char c _ => [c]
  | _, dot => [chr '.']
  | _, shorthand k => [chr '\\', k.letter]
  | _, quoted c _ => [chr '\\', c]
  | _, cls negated first last items _ => chr '[' :: classText negated first last items ++ [chr ']']
  | _, group r => chr '(' :: r.text ++ [chr ')']
  | _, once a => a.text
  | _, repeated a q suffix => a.text ++ q.text ++ suffix.text
  | _, empty => []
  | _, cat b p => b.text ++ p.text
  | _, branch b => b.text
  | _, alt r b => r.text ++ chr '|' :: b.text

/-- The text of a pattern in the mode `DOTALL` or not. -/
def source (dotall : Bool) (r : Pattern .regex) : Bytes :=
  if dotall then ascii "(?s)" ++ r.text else r.text

/-- A repetition: a possessive one does not give back. -/
def repetition (f : Matcher UInt8) (q : Quantifier) : Suffix → Matcher UInt8
  | .possessive => f.possessive q.min q.max
  | .reluctant => f.repeated true q.min q.max
  | .greedy => f.repeated false q.min q.max

/-- What is left behind a match. -/
def matcher (dotall : Bool) : {l : Level} → Pattern l → Matcher UInt8
  | _, char c _ => .single (· == c)
  | _, dot => .single fun c => dotall || !isLineTerminator c
  | _, shorthand k => .single k.has
  | _, quoted c _ => .single (· == c)
  | _, cls negated first last items _ => .single (classHas negated first last items)
  | _, group r => r.matcher dotall
  | _, once a => a.matcher dotall
  | _, repeated a q suffix => repetition (a.matcher dotall) q suffix
  | _, empty => fun s => [s]
  | _, cat b p => (b.matcher dotall).seq (p.matcher dotall)
  | _, branch b => b.matcher dotall
  | _, alt r b => fun s => r.matcher dotall s ++ b.matcher dotall s

/-- The pattern matches the whole of a string. -/
def Accepts (dotall : Bool) (r : Pattern .regex) (s : Bytes) : Prop := [] ∈ r.matcher dotall s

/-- The language of a pattern that commits itself to nothing, if its dots match everything. -/
def language : {l : Level} → Pattern l → Language UInt8
  | _, char c _ => letters {c}
  | _, dot => letters Set.univ
  | _, shorthand k => letters {c | k.has c}
  | _, quoted c _ => letters {c}
  | _, cls negated first last items _ => letters {c | classHas negated first last items c}
  | _, group r => r.language
  | _, once a => a.language
  | _, repeated a q _ => between a.language q.min q.max
  | _, empty => 1
  | _, cat b p => b.language * p.language
  | _, branch b => b.language
  | _, alt r b => r.language + b.language

/-- No quantifier is possessive, and a dot matches everything. -/
def Regular (dotall : Bool) : {l : Level} → Pattern l → Prop
  | _, dot => dotall = true
  | _, group r => r.Regular dotall
  | _, once a => a.Regular dotall
  | _, repeated a _ suffix => a.Regular dotall ∧ suffix ≠ .possessive
  | _, cat b p => b.Regular dotall ∧ p.Regular dotall
  | _, branch b => b.Regular dotall
  | _, alt r b => r.Regular dotall ∧ b.Regular dotall
  | _, _ => True

/-- The pattern with greedy quantifiers in the place of possessive ones. -/
def giveBack : {l : Level} → Pattern l → Pattern l
  | _, group r => group r.giveBack
  | _, once a => once a.giveBack
  | _, repeated a q suffix => repeated a.giveBack q (if suffix = .possessive then .greedy else suffix)
  | _, cat b p => cat b.giveBack p.giveBack
  | _, branch b => branch b.giveBack
  | _, alt r b => alt r.giveBack b.giveBack
  | _, p => p

/-- The same strings are matched if the possessive quantifiers give back and the dots match
everything. -/
def Indifferent (dotall : Bool) (r : Pattern .regex) : Prop :=
  ∀ s, r.Accepts dotall s ↔ r.giveBack.Accepts true s

theorem reads_letter (c : UInt8) : Reads (.single (· == c)) (letters {c}) := by
  have hreads := reads_single (· == c)
  simpa only [beq_iff_eq, Set.ofPred_eq_eq_singleton] using hreads

/-- Where nothing is committed to, a pattern reads its language. -/
theorem reads {dotall : Bool} {l : Level} {p : Pattern l} (hp : p.Regular dotall) :
    Reads (p.matcher dotall) p.language := by
  induction p with
  | char c hc => exact reads_letter c
  | dot =>
    obtain rfl : dotall = true := hp
    have hall : {c : UInt8 | (true || !isLineTerminator c) = true} = Set.univ :=
      Set.eq_univ_of_forall fun _ => rfl
    have hreads := reads_single fun c => true || !isLineTerminator c
    rwa [hall] at hreads
  | shorthand k => exact reads_single k.has
  | quoted c hc => exact reads_letter c
  | cls negated first last items hlegal => exact reads_single (classHas negated first last items)
  | group r ih => exact ih hp
  | once a ih => exact ih hp
  | repeated a q suffix ih =>
    cases suffix with
    | possessive => exact absurd rfl hp.2
    | reluctant => exact (ih hp.1).repeated true q.min q.min_le_max
    | greedy => exact (ih hp.1).repeated false q.min q.min_le_max
  | empty => exact reads_one
  | cat b p ihb ihp => exact (ihb hp.1).seq (ihp hp.2)
  | branch b ih => exact ih hp
  | alt r b ihr ihb => exact (ihr hp.1).alt (ihb hp.2)

theorem regular_giveBack {l : Level} (p : Pattern l) : p.giveBack.Regular true := by
  induction p with
  | dot => rfl
  | group r ih => exact ih
  | once a ih => exact ih
  | repeated a q suffix ih =>
    refine ⟨ih, ?_⟩
    split_ifs with hpossessive
    · exact nofun
    · exact hpossessive
  | cat b p ihb ihp => exact ⟨ihb, ihp⟩
  | branch b ih => exact ih
  | alt r b ihr ihb => exact ⟨ihr, ihb⟩
  | _ => trivial

theorem language_giveBack {l : Level} (p : Pattern l) : p.giveBack.language = p.language := by
  induction p with
  | group r ih => exact ih
  | once a ih => exact ih
  | repeated a q suffix ih => rw [giveBack, language, ih, language]
  | cat b p ihb ihp => rw [giveBack, language, ihb, ihp, language]
  | branch b ih => exact ih
  | alt r b ihr ihb => rw [giveBack, language, ihr, ihb, language]
  | _ => rfl

/-- A pattern that gives back matches the words of its language. -/
theorem giveBack_accepts (r : Pattern .regex) (s : Bytes) : r.giveBack.Accepts true s ↔ s ∈ r.language := by
  rw [← language_giveBack]
  exact (reads r.regular_giveBack).nil_mem s

theorem Regular.indifferent {dotall : Bool} {r : Pattern .regex} (hr : r.Regular dotall) :
    r.Indifferent dotall :=
  fun s => ((reads hr).nil_mem s).trans (r.giveBack_accepts s).symm

end Pattern

end Regex

end Slp
