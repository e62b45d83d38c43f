import Slp.Parse.Lexer
import Slp.Regex.Backtracking

/-!
# Extended regular expressions

The extended regular expressions of POSIX, without anchors, as a relation between a text and the
language that it denotes, in the C locale.

* `Term`, `Terms`, `Bracket`: what stands in brackets;
* `terms_termsText`: terms behind one another denote their bytes together;
* `Quantifier`: the symbols behind an atom;
* `Ere`: the grammar, by levels.
-/

namespace Slp

namespace Regex

open Parse (chr)

/-! ### Bracket expressions -/

/-- A named class. -/
inductive ClassName where
  | space | digit | alnum
  deriving DecidableEq, Repr

namespace ClassName

def text : ClassName → Bytes
  | space => ascii "[:space:]"
  | digit => ascii "[:digit:]"
  | alnum => ascii "[:alnum:]"

/-- The bytes of the class. -/
def has : ClassName → UInt8 → Bool
  | space, c => (9 ≤ c && c ≤ 13) || c == chr ' '
  | digit, c => Parse.isDigit c
  | alnum, c => Parse.isDigit c || (chr 'a' ≤ c && c ≤ chr 'z') || (chr 'A' ≤ c && c ≤ chr 'Z')

end ClassName

/-- What stands in brackets: a byte, a range or a named class. -/
inductive Term where
  | char (c : UInt8)
  | range (lo hi : UInt8)
  | named (name : ClassName)
  deriving DecidableEq, Repr

/-- Behind `[` one of these makes a symbol of another kind. -/
def Opens (rest : Bytes) : Prop :=
  rest.head? = some (chr '.') ∨ rest.head? = some (chr '=') ∨ rest.head? = some (chr ':')

instance (rest : Bytes) : Decidable (Opens rest) := inferInstanceAs (Decidable (_ ∨ _))

namespace Term

def text : Term → Bytes
  | char c => [c]
  | range lo hi => [lo, chr '-', hi]
  | named name => name.text

/-- The bytes of a term. -/
def bytes : Term → Set UInt8
  | char c => {c}
  | range lo hi => {c | lo ≤ c ∧ c ≤ hi}
  | named name => {c | name.has c}

/-- The text of a term is read as that term in front of the rest: `]` stands for itself only at the
beginning, and `-` there and at the end. -/
def Legible (first : Bool) (rest : Bytes) : Term → Prop
  | char c => (c = chr ']' → first) ∧ (c = chr '-' → first ∨ rest = []) ∧ (c = chr '[' → ¬Opens rest) ∧
      (rest.head? = some (chr '-') → rest = [chr '-'])
  | range lo hi => lo ≤ hi ∧ (lo = chr ']' → first) ∧ (lo = chr '-' → first) ∧ hi ≠ chr ']' ∧
      (hi = chr '[' → ¬Opens rest)
  | named _ => True

end Term

/-- The terms up to the closing bracket, and the bytes that they denote together. -/
inductive Terms : (first : Bool) → Bytes → Set UInt8 → Prop where
  | nil : Terms false [] ∅
  | cons {first : Bool} {rest : Bytes} {S : Set UInt8} (x : Term) (hx : x.Legible first rest)
      (hrest : Terms false rest S) : Terms first (x.text ++ rest) (x.bytes ∪ S)

/-- What stands between the brackets, and the bytes that it denotes. -/
inductive Bracket : Bytes → Set UInt8 → Prop where
  | list {t : Bytes} {S : Set UInt8} (ht : Terms true t S) (hcaret : t.head? ≠ some (chr '^')) :
      Bracket t S
  | nonmatching {t : Bytes} {S : Set UInt8} (ht : Terms true t S) : Bracket (chr '^' :: t) Sᶜ

/-- The byte, if there is one. -/
def flag (b : Bool) (c : UInt8) : Bytes := if b then [c] else []

/-- The text of terms. -/
def termsText (ts : List Term) : Bytes := ts.flatMap Term.text

@[simp] theorem termsText_nil : termsText [] = [] := rfl

@[simp] theorem termsText_cons (x : Term) (ts : List Term) : termsText (x :: ts) = x.text ++ termsText ts :=
  List.flatMap_cons

@[simp] theorem termsText_append (ts us : List Term) :
    termsText (ts ++ us) = termsText ts ++ termsText us := List.flatMap_append

namespace Term

/-- A term that may stand everywhere, up to what is behind it. -/
def Ordinary : Term → Prop
  | char c => c ≠ chr ']' ∧ c ≠ chr '-'
  | range lo hi => lo ≤ hi ∧ (lo ≠ chr ']' ∧ lo ≠ chr '-') ∧ hi ≠ chr ']'
  | named _ => True

/-- The last byte may open a symbol together with the next one. -/
def EndsOpen : Term → Prop
  | char c => c = chr '['
  | range _ hi => hi = chr '['
  | named _ => False

end Term

/-- No two terms make a symbol of another kind together. -/
def Apart : List Term → Prop
  | [] => True
  | x :: ts => (x.EndsOpen → ¬Opens (termsText ts)) ∧ Apart ts

section

variable {x : Term} {ts : List Term} {first : Bool} {t : Bytes} {S : Set UInt8}

theorem Term.exists_text (x : Term) : ∃ c t, x.text = c :: t := by
  cases x with
  | char c => exact ⟨c, [], rfl⟩
  | range lo hi => exact ⟨lo, _, rfl⟩
  | named name => cases name <;> exact ⟨_, _, rfl⟩

theorem Term.Ordinary.head_ne (hx : x.Ordinary) : x.text.head? ≠ some (chr '-') := by
  cases x with
  | char c => exact fun heq => hx.2 (Option.some.inj heq)
  | range lo hi => exact fun heq => hx.2.1.2 (Option.some.inj heq)
  | named name => cases name <;> decide

/-- A hyphen is only read behind the terms. -/
theorem eq_hyphen_of_head (hts : ∀ x ∈ ts, x.Ordinary) (b : Bool)
    (hhead : (termsText ts ++ flag b (chr '-')).head? = some (chr '-')) :
    termsText ts ++ flag b (chr '-') = [chr '-'] := by
  cases ts with
  | nil =>
    cases b with
    | false => cases hhead
    | true => rfl
  | cons x ts =>
    obtain ⟨c, t, htext⟩ := x.exists_text
    have hne := (hts x List.mem_cons_self).head_ne
    rw [htext] at hne
    rw [termsText_cons, htext] at hhead
    exact absurd hhead hne

/-- A hyphen behind the terms opens nothing. -/
theorem not_opens_append (b : Bool) (ht : ¬Opens t) : ¬Opens (t ++ flag b (chr '-')) := by
  cases t with
  | nil => cases b <;> decide
  | cons c t => exact ht

/-- An ordinary term is read as it is in front of ordinary ones. -/
theorem Term.Ordinary.legible (hx : x.Ordinary) (hts : ∀ y ∈ ts, y.Ordinary) (b : Bool)
    (hapart : x.EndsOpen → ¬Opens (termsText ts)) :
    x.Legible false (termsText ts ++ flag b (chr '-')) := by
  have hopen := fun hends => not_opens_append b (hapart hends)
  cases x with
  | char c =>
    exact ⟨fun heq => absurd heq hx.1, fun heq => absurd heq hx.2, hopen, eq_hyphen_of_head hts b⟩
  | range lo hi =>
    obtain ⟨hle, ⟨hclose, hhyphen⟩, hhi⟩ := hx
    exact ⟨hle, fun heq => absurd heq hclose, fun heq => absurd heq hhyphen, hhi, hopen⟩
  | named name => trivial

theorem Terms.congr {S' : Set UInt8} (ht : Terms first t S) (heq : ∀ c, c ∈ S ↔ c ∈ S') : Terms first t S' :=
  Set.ext heq ▸ ht

/-- Terms behind one another, and maybe a hyphen. -/
theorem terms_termsText (hts : ∀ x ∈ ts, x.Ordinary) (hapart : Apart ts) (b : Bool) :
    Terms false (termsText ts ++ flag b (chr '-')) {c | (∃ x ∈ ts, c ∈ x.bytes) ∨ (b ∧ c = chr '-')} := by
  induction ts with
  | nil =>
    cases b with
    | false => exact Terms.nil.congr fun c => by simp
    | true =>
      have hlegible : Term.Legible false [] (.char (chr '-')) :=
        ⟨fun heq => absurd heq (by decide), fun _ => .inr rfl, fun heq => absurd heq (by decide),
          fun hhead => nomatch hhead⟩
      exact (Terms.cons _ hlegible .nil).congr fun c => by simp [Term.bytes]
  | cons x ts ih =>
    obtain ⟨hx, hrest⟩ := List.forall_mem_cons.1 hts
    rw [termsText_cons, List.append_assoc]
    exact (Terms.cons x (hx.legible hrest b hapart.1) (ih hrest hapart.2)).congr fun c => by simp [or_assoc]

theorem Term.Legible.of_false (hx : x.Legible false t) : x.Legible true t := by
  cases x with
  | char c => exact ⟨fun _ => rfl, fun _ => .inl rfl, hx.2.2⟩
  | range lo hi => exact ⟨hx.1, fun _ => rfl, fun _ => rfl, hx.2.2.2⟩
  | named name => trivial

/-- More may stand at the beginning. -/
theorem Terms.of_false (ht : Terms false t S) (hne : t ≠ []) : Terms true t S := by
  cases ht with
  | nil => exact absurd rfl hne
  | cons x hx hrest => exact .cons x hx.of_false hrest

/-- At the beginning `]` and `-` stand for themselves. -/
theorem terms_cons_first {c : UInt8} (hc : c ≠ chr '[') (hts : ∀ x ∈ ts, x.Ordinary) (hapart : Apart ts)
    (b : Bool) :
    Terms true (c :: (termsText ts ++ flag b (chr '-')))
      {d | d = c ∨ (∃ x ∈ ts, d ∈ x.bytes) ∨ (b ∧ d = chr '-')} := by
  have hlegible : Term.Legible true (termsText ts ++ flag b (chr '-')) (.char c) :=
    ⟨fun _ => rfl, fun _ => .inl rfl, fun heq => absurd heq hc, eq_hyphen_of_head hts b⟩
  exact (Terms.cons _ hlegible (terms_termsText hts hapart b)).congr fun d => by simp [Term.bytes]

end

/-! ### Quantifiers -/

/-- A number, in decimal. -/
def number (n : ℕ) : Bytes := ascii (toString n)

/-- How often an atom is repeated. -/
inductive Quantifier where
  | star | plus | opt
  | count (m : ℕ)
  | atLeast (m : ℕ)
  | range (m n : ℕ) (hle : m ≤ n)

namespace Quantifier

def text : Quantifier → Bytes
  | star => [chr '*']
  | plus => [chr '+']
  | opt => [chr '?']
  | count m => chr '{' :: number m ++ [chr '}']
  | atLeast m => chr '{' :: number m ++ [chr ',', chr '}']
  | range m n _ => chr '{' :: number m ++ chr ',' :: number n ++ [chr '}']

def min : Quantifier → ℕ
  | star | opt => 0
  | plus => 1
  | count m | atLeast m | range m _ _ => m

def max : Quantifier → Option ℕ
  | star | plus | atLeast _ => none
  | opt => some 1
  | count m => some m
  | range _ n _ => some n

/-- The greatest number in braces. -/
def bound : Quantifier → ℕ
  | star | plus | opt => 0
  | count m | atLeast m => m
  | range _ n _ => n

theorem min_le_max (q : Quantifier) : ∀ n ∈ q.max, q.min ≤ n := by
  cases q with
  | star | plus | atLeast m => exact fun n hn => absurd hn (Option.not_mem_none n)
  | opt => exact fun n _ => Nat.zero_le n
  | count m => exact fun n hn => (Option.some.inj hn).le
  | range m n hle => exact fun k hk => Option.some.inj hk ▸ hle

end Quantifier

/-- `RE_DUP_MAX`. -/
def dupMax : ℕ := 255

/-! ### Expressions -/

/-- The bytes that do not stand for themselves. -/
def specials : Bytes := ascii "^.[$()|*+?\x7b\\"

/-- The punctuation of ASCII. -/
def isPunctuation (c : UInt8) : Bool :=
  (33 ≤ c && c ≤ 47) || (58 ≤ c && c ≤ 64) || (91 ≤ c && c ≤ 96) || (123 ≤ c && c ≤ 126)

/-- The punctuation that an engine may take for an anchor behind a backslash. -/
def anchors : Bytes := ascii "<>`'"

/-- The levels of the grammar; a branch is what stands between bars. -/
inductive EreLevel where
  | atom | branch | regex
  deriving DecidableEq, Repr

/-- A text denotes a language. -/
inductive Ere : EreLevel → Bytes → Language UInt8 → Prop where
  | char (c : UInt8) (hc : c ∉ specials) : Ere .atom [c] (letters {c})
  | quoted (c : UInt8) (hc : isPunctuation c = true) (hanchor : c ∉ anchors) :
      Ere .atom [chr '\\', c] (letters {c})
  | any : Ere .atom [chr '.'] (letters Set.univ)
  | bracket {t : Bytes} {S : Set UInt8} (ht : Bracket t S) :
      Ere .atom (chr '[' :: t ++ [chr ']']) (letters S)
  | group {x : Bytes} {L : Language UInt8} (hx : Ere .regex x L) :
      Ere .atom (chr '(' :: x ++ [chr ')']) L
  | dup {x : Bytes} {L : Language UInt8} (hx : Ere .atom x L) (q : Quantifier) (hq : q.bound ≤ dupMax) :
      Ere .atom (x ++ q.text) (between L q.min q.max)
  | empty : Ere .branch [] 1
  | cat {x y : Bytes} {L K : Language UInt8} (hx : Ere .branch x L) (hy : Ere .atom y K) :
      Ere .branch (x ++ y) (L * K)
  | branch {x : Bytes} {L : Language UInt8} (hx : Ere .branch x L) : Ere .regex x L
  | alt {x y : Bytes} {L K : Language UInt8} (hx : Ere .regex x L) (hy : Ere .branch y K) :
      Ere .regex (x ++ chr '|' :: y) (L + K)

section

variable {x y t : Bytes} {L : Language UInt8} {c : UInt8}

/-- The bytes that no atom starts with. -/
def followers : Bytes := ascii "*+?\x7b|)"

theorem followers_special (hc : c ∈ followers) : c ∈ specials := by
  have hall : (followers.all fun c => specials.contains c) = true := by decide
  exact List.contains_iff_mem.1 (List.all_eq_true.1 hall c hc)

/-- An atom is not empty, and does not start with what can only follow. -/
theorem Ere.exists_cons {l : EreLevel} (hx : Ere l x L) (hl : l = .atom) :
    ∃ c t, x = c :: t ∧ c ∉ followers := by
  induction hx with
  | char c hc => exact ⟨c, [], rfl, mt followers_special hc⟩
  | quoted c => exact ⟨_, _, rfl, by decide⟩
  | any => exact ⟨_, _, rfl, by decide⟩
  | bracket => exact ⟨_, _, rfl, by decide⟩
  | group => exact ⟨_, _, rfl, by decide⟩
  | dup hx q hq ih =>
    obtain ⟨c, t, rfl, hc⟩ := ih rfl
    exact ⟨c, _, rfl, hc⟩
  | _ => cases hl

end

end Regex

end Slp
