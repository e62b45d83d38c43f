import Mathlib.Data.List.Basic
import Slp.Object.Basic

/-!
# The lexer

Tokens, and `slp_lexer_scan_token`.  A lexer holds the rest of the source up to its terminating
NUL, so that an empty rest is the end; a token holds its own text, the message for an error token.

The only place where the cursor may step over the NUL is the escape of `scan_string`: a backslash
right before it.  The scan has no defined result then.

Every other scan leaves a suffix of what it began with (`scanToken_suffix`), a proper one unless
it is at the end (`scanToken_length`).
-/

namespace Slp.Parse

/-- `SlpTokenType`. -/
inductive TokenType where
  | bang | dot | ampersand | at | comma | slash | equal | percent | backslash | minus | plus
  | lowerX | star | caret | pipe | colon | semicolon | rightBrace | leftBrace | leftBracket
  | rightBracket | leftParen | rightParen | less | greater
  | assert | break | callcc | catch | continue | done | else | for | foreach | from | halt | if
  | import | return | throw | try | while | yield | inline | sub | copy | addAll | println
  | removeAll | retainAll | local | this
  | andEqual | catEqual | divEqual | lshiftEqual | minusEqual | orEqual | plusEqual | rshiftEqual
  | timesEqual | xorEqual
  | address | argPassedByName | arrow | backtickExpr | classLiteral | dec | double | eof | eq | eqi
  | exp | expEqual | true | false | ge | id | importPath | inc | land | le | literal | long | lor
  | lshift | ne | neqi | null | number | rshift | scalar | spaceship | string
  | unaryPredicateBridge | builtinBinaryPredicateBridge | binPred
  | error
  deriving DecidableEq, Repr

structure Token where
  type : TokenType
  text : Bytes := []
  line : ℤ := 0
  deriving DecidableEq, Repr

/-- `SlpLexer`; `current` is the source from the cursor up to the NUL. -/
structure Lexer where
  current : Bytes
  line : ℕ := 1
  startLine : ℕ := 1
  deriving DecidableEq, Repr

/-- Why a run of the parser has no defined result. -/
inductive Fault where
  /-- The lexer read past the end of the source. -/
  | overrun
  /-- A `NULL` node was inspected. -/
  | nullDeref
  /-- The bound of the recursion is used up. -/
  | fuel
  deriving DecidableEq, Repr

/-! ### Characters -/

/-- The byte of an ASCII character. -/
def chr (c : Char) : UInt8 := UInt8.ofNat c.toNat

def isDigit (c : UInt8) : Bool := chr '0' ≤ c && c ≤ chr '9'

def isAlpha (c : UInt8) : Bool :=
  (chr 'a' ≤ c && c ≤ chr 'z') || (chr 'A' ≤ c && c ≤ chr 'Z') || c == chr '_'

/-- A letter, a digit or an underscore. -/
def isWord (c : UInt8) : Bool := isAlpha c || isDigit c || c == chr '_'

def isHexDigit (c : UInt8) : Bool :=
  isDigit c || (chr 'a' ≤ c && c ≤ chr 'f') || (chr 'A' ≤ c && c ≤ chr 'F')

/-- `peek`: the byte at the cursor, the NUL at the end. -/
def peek (cs : Bytes) : UInt8 := cs.headD 0

/-- `peek_next`. -/
def peekNext (cs : Bytes) : UInt8 := peek cs.tail

/-! ### Words -/

/-- `check_keyword`: the part of a word from `start` on. -/
def checkKeyword (word : Bytes) (start : ℕ) (rest : String) (type : TokenType) : TokenType :=
  if word.length = start + rest.length ∧ word.drop start = ascii rest then type else .id

/-- The built-in binary predicates. -/
def builtinPredicates : List Bytes :=
  ["cmp", "eq", "ge", "gt", "hasmatch", "is", "isa", "isin", "ismatch", "iswm", "in", "le", "lt",
    "ne"].map ascii

/-- Whether a lone `x` before `rest` is the repetition operator. -/
def isRepetition (rest : Bytes) : Bool :=
  let next := peek (rest.dropWhile fun c =>
    c == chr ' ' || c == chr '\t' || c == chr '\r' || c == chr '\n')
  next != chr '=' &&
    (isDigit next || next == chr '"' || next == chr '\'' || next == chr '`' || next == chr '_' ||
      isAlpha next || next == chr '$' || next == chr '@' || next == chr '%' || next == chr '(' ||
      next == chr '[' || next == chr '{')

/-- `identifier_type`.  The branch for `inline` compares a fourth byte past its three letters, the
NUL of the constant, and is never taken; a word that begins with `in` is a name. -/
def identifierType (word rest : Bytes) : TokenType :=
  if word ∈ builtinPredicates then .builtinBinaryPredicateBridge
  else match word.map fun c => Char.ofNat c.toNat with
    | 'a' :: 's' :: _ => checkKeyword word 2 "sert" .assert
    | 'a' :: 'd' :: _ => checkKeyword word 2 "dAll" .addAll
    | 'b' :: _ => checkKeyword word 1 "reak" .break
    | 'c' :: 'a' :: 'l' :: _ => checkKeyword word 3 "lcc" .callcc
    | 'c' :: 'a' :: 't' :: _ => checkKeyword word 3 "ch" .catch
    | 'c' :: 'o' :: _ =>
      if word = ascii "copy" then .copy else checkKeyword word 2 "ntinue" .continue
    | 'd' :: _ => checkKeyword word 1 "one" .done
    | 'e' :: 'l' :: _ => checkKeyword word 2 "se" .else
    | 'f' :: 'a' :: _ => checkKeyword word 2 "lse" .false
    | 'f' :: 'o' :: 'r' :: rest => if rest = [] then .for else checkKeyword word 3 "each" .foreach
    | 'f' :: 'r' :: _ => checkKeyword word 2 "om" .from
    | 'h' :: 'a' :: _ => checkKeyword word 2 "lt" .halt
    | 'i' :: 'f' :: _ => checkKeyword word 2 "" .if
    | 'i' :: 'm' :: _ => checkKeyword word 2 "port" .import
    | 'i' :: 'l' :: _ => checkKeyword word 2 "ine\u0000" .inline
    | 'r' :: 'e' :: 't' :: _ =>
      if word.length = 9 then checkKeyword word 3 "ainAll" .retainAll
      else checkKeyword word 3 "urn" .return
    | 'r' :: 'e' :: 'm' :: _ => checkKeyword word 3 "oveAll" .removeAll
    | 's' :: _ => checkKeyword word 1 "ub" .sub
    | 't' :: 'h' :: _ => checkKeyword word 2 "row" .throw
    | 't' :: 'r' :: _ =>
      if word.length = 3 then checkKeyword word 2 "y" .try else checkKeyword word 2 "ue" .true
    | 'w' :: _ => checkKeyword word 1 "hile" .while
    | ['x'] => if isRepetition rest then .lowerX else .id
    | 'y' :: _ => checkKeyword word 1 "ield" .yield
    | _ => .id

/-! ### Scanning -/

/-- What a scan finds after the leading space: a token or an error, the rest of the source, and
the line ends it passed. -/
structure Scan where
  type : TokenType
  rest : Bytes
  newlines : ℕ := 0
  /-- The text of an error token. -/
  message : Bytes := []
  deriving DecidableEq, Repr

/-- `skip_whitespace`, with the line ends passed; `comment` is set inside a comment. -/
def skipWhitespace : Bool → Bytes → ℕ → Bytes × ℕ
  | _, [], n => ([], n)
  | comment, c :: cs, n =>
    if c = chr '\n' then skipWhitespace false cs (n + 1)
    else if comment then skipWhitespace true cs n
    else if c = chr ' ' ∨ c = chr '\r' ∨ c = chr '\t' then skipWhitespace false cs n
    else if c = chr '#' then skipWhitespace true cs n
    else (c :: cs, n)

/-- `scan_identifier`: the rest of a word that began with `c`. -/
def scanIdentifier (c : UInt8) (cs : Bytes) : Scan :=
  let inWord c := isAlpha c || isDigit c || c == chr '-' || c == chr '+'
  let rest := cs.dropWhile inWord
  { type := identifierType (c :: cs.takeWhile inWord) rest, rest }

/-- The end of an integer: the mark of a long. -/
def scanLongMark (cs : Bytes) : Scan :=
  if peek cs = chr 'L' ∨ peek cs = chr 'l' then { type := .long, rest := cs.tail }
  else { type := .number, rest := cs }

/-- The end of a decimal number: an exponent, or no mark after a fraction. -/
def scanExponent (hasDot : Bool) (cs : Bytes) : Scan :=
  let sign c := c == chr '+' || c == chr '-'
  if (peek cs = chr 'e' ∨ peek cs = chr 'E') ∧
      (isDigit (peekNext cs) ∨ sign (peekNext cs) ∧ isDigit (peekNext cs.tail)) then
    let rest := if sign (peekNext cs) then cs.tail.tail else cs.tail
    { type := .double, rest := rest.dropWhile isDigit }
  else if hasDot then { type := .double, rest := cs }
  else scanLongMark cs

/-- `scan_number`. -/
def scanNumber (c : UInt8) (cs : Bytes) : Scan :=
  if c = chr '0' ∧ (peek cs = chr 'x' ∨ peek cs = chr 'X') then
    scanLongMark (cs.tail.dropWhile isHexDigit)
  else
    let rest := cs.dropWhile isDigit
    if peek rest = chr '.' ∧ isDigit (peekNext rest) then
      scanExponent true (rest.tail.dropWhile isDigit)
    else scanExponent false rest

/-- `scan_string`, after the opening quote. -/
def scanString (quote : UInt8) (type : TokenType) : Bytes → ℕ → Except Fault Scan
  | [], newlines =>
    .ok { type := .error, rest := [], newlines, message := ascii "Unterminated string." }
  | c :: cs, newlines =>
    if c = quote then .ok { type, rest := cs, newlines }
    else if c = chr '\\' then
      match cs with
      | [] => .error .overrun
      | _ :: cs => scanString quote type cs newlines
    else scanString quote type cs (if c = chr '\n' then newlines + 1 else newlines)

/-- Whether a dot in a class name starts a concatenation instead. -/
def isConcatenation (cs : Bytes) : Bool :=
  peek cs == chr '.' &&
    (peekNext cs == chr '"' || peekNext cs == chr '\'' || peekNext cs == chr '$' ||
      peekNext cs == chr '@' || peekNext cs == chr '%')

/-- The loop over a class name. -/
def skipClassName : Bytes → Bytes
  | [] => []
  | c :: cs =>
    if (isWord c || c == chr '$' || c == chr '.') && !isConcatenation (c :: cs) then
      skipClassName cs
    else c :: cs

/-- The longest part of `expected` at the front is passed over: a chain of `lexer_match`. -/
def matchAll : Bytes → Bytes → Bool × Bytes
  | [], cs => (true, cs)
  | e :: es, c :: cs => if c = e then matchAll es cs else (false, c :: cs)
  | _ :: _, [] => (false, [])

/-- A token that one of several second characters extends. -/
def extend (cs : Bytes) (options : List (Char × TokenType)) (type : TokenType) : Scan :=
  match options.find? fun o => peek cs = chr o.1 with
  | some o => { type := o.2, rest := cs.tail }
  | none => { type, rest := cs }

/-- The switch of `slp_lexer_scan_token`, after the first byte. -/
def scanSymbol (c : Char) (cs : Bytes) : Except Fault Scan :=
  match c with
  | '(' => .ok { type := .leftParen, rest := cs }
  | ')' => .ok { type := .rightParen, rest := cs }
  | '{' => .ok { type := .leftBrace, rest := cs }
  | '}' => .ok { type := .rightBrace, rest := cs }
  | '[' => .ok { type := .leftBracket, rest := cs }
  | ']' => .ok { type := .rightBracket, rest := cs }
  | ';' => .ok { type := .semicolon, rest := cs }
  | ',' => .ok { type := .comma, rest := cs }
  | ':' => .ok { type := .colon, rest := cs }
  | '@' => .ok { type := .at, rest := cs.dropWhile isWord }
  | '%' => .ok { type := .percent, rest := cs.dropWhile isWord }
  | '\\' =>
    if peek cs = chr '&' then
      -- the ampersand stays passed over when no name follows it
      let cs := cs.tail
      if isAlpha (peek cs) then .ok { type := .address, rest := cs.dropWhile isWord }
      else if peek cs = chr '$' ∨ peek cs = chr '@' ∨ peek cs = chr '%' then
        .ok { type := .argPassedByName, rest := cs.tail.dropWhile isWord }
      else .ok { type := .backslash, rest := cs }
    else if peek cs = chr '$' ∨ peek cs = chr '@' ∨ peek cs = chr '%' then
      .ok { type := .argPassedByName, rest := cs.tail.dropWhile isWord }
    else .ok { type := .backslash, rest := cs }
  | '.' => .ok (extend cs [('=', .catEqual)] .dot)
  | '-' =>
    if isAlpha (peek cs) then .ok { type := .unaryPredicateBridge, rest := cs.dropWhile isWord }
    else .ok (extend cs [('-', .dec), ('=', .minusEqual)] .minus)
  | '+' => .ok (extend cs [('+', .inc), ('=', .plusEqual)] .plus)
  | '/' => .ok (extend cs [('=', .divEqual)] .slash)
  | '*' =>
    if peek cs = chr '*' then .ok (extend cs.tail [('=', .expEqual)] .exp)
    else .ok (extend cs [('=', .timesEqual)] .star)
  | '^' =>
    if peek cs = chr '=' then .ok { type := .xorEqual, rest := cs.tail }
    else if isAlpha (peek cs) ∨ peek cs = chr '$' then
      .ok { type := .classLiteral, rest := skipClassName cs }
    else .ok { type := .caret, rest := cs }
  | '|' => .ok (extend cs [('|', .lor), ('=', .orEqual)] .pipe)
  | '&' =>
    if isAlpha (peek cs) then .ok { type := .address, rest := cs.dropWhile isWord }
    else .ok (extend cs [('&', .land), ('=', .andEqual)] .ampersand)
  | '!' =>
    if peek cs = chr '=' then .ok (extend cs.tail [('~', .neqi)] .ne)
    else .ok { type := .bang, rest := cs }
  | '=' => .ok (extend cs [('=', .eq), ('~', .eqi), ('>', .arrow)] .equal)
  | '<' =>
    if peek cs = chr '=' then .ok (extend cs.tail [('>', .spaceship)] .le)
    else if peek cs = chr '<' then .ok (extend cs.tail [('=', .lshiftEqual)] .lshift)
    else .ok { type := .less, rest := cs }
  | '>' =>
    if peek cs = chr '=' then .ok { type := .ge, rest := cs.tail }
    else if peek cs = chr '>' then .ok (extend cs.tail [('=', .rshiftEqual)] .rshift)
    else .ok { type := .greater, rest := cs }
  | '"' => scanString (chr '"') .string cs 0
  | '\'' => scanString (chr '\'') .literal cs 0
  | '`' => scanString (chr '`') .backtickExpr cs 0
  | '$' =>
    match matchAll (ascii "null") cs with
    | (true, cs) => .ok { type := .null, rest := cs }
    | (false, cs) =>
      if peek cs = chr '+' then .ok { type := .scalar, rest := cs.tail }
      else .ok { type := .scalar, rest := cs.dropWhile isWord }
  | _ => .ok { type := .error, rest := cs, message := ascii "Unexpected character." }

/-- The scan after the first byte. -/
def scanFrom (c : UInt8) (cs : Bytes) : Except Fault Scan :=
  if isAlpha c then .ok (scanIdentifier c cs)
  else if isDigit c then .ok (scanNumber c cs)
  else scanSymbol (Char.ofNat c.toNat) cs

/-- `slp_lexer_scan_token`. -/
def scanToken (lexer : Lexer) : Except Fault (Token × Lexer) :=
  let (current, newlines) := skipWhitespace false lexer.current 0
  let startLine := lexer.line + newlines
  match current with
  | [] => .ok ({ type := .eof, line := startLine }, { current := [], line := startLine, startLine })
  | c :: cs => (scanFrom c cs).map fun s =>
    let line := startLine + s.newlines
    let text := if s.type = .error then s.message
      else (c :: cs).take ((c :: cs).length - s.rest.length)
    ({ type := s.type, text, line }, { current := s.rest, line, startLine })

/-- Whether a quoted text, after the opening quote, ends in a backslash at the end of the source. -/
def endsInEscape (quote : UInt8) : Bytes → Bool
  | [] => false
  | c :: cs =>
    if c = quote then false
    else if c = chr '\\' then
      match cs with
      | [] => true
      | _ :: cs => endsInEscape quote cs
    else endsInEscape quote cs

def isQuote (c : UInt8) : Bool := c == chr '"' || c == chr '\'' || c == chr '`'

/-- Whether the next token is such a text. -/
def Lexer.opensEscape (lexer : Lexer) : Bool :=
  match (skipWhitespace false lexer.current 0).1 with
  | [] => false
  | c :: cs => isQuote c && endsInEscape c cs

/-- `slp_lexer_init`: the source is read up to its NUL. -/
def Lexer.init (source : Bytes) : Lexer := { current := source.takeWhile (· ≠ 0) }

/-! ### What a scan leaves -/

/-- A scan of `cs` that finds some token and leaves a suffix. -/
def Scan.Within (cs : Bytes) (s : Scan) : Prop := s.type ≠ .eof ∧ s.rest <:+ cs

theorem Scan.Within.trans {cs cs' : Bytes} {s : Scan} (h : s.Within cs) (hs : cs <:+ cs') :
    s.Within cs' :=
  ⟨h.1, h.2.trans hs⟩

theorem checkKeyword_ne_eof {word : Bytes} {start : ℕ} {rest : String} {type : TokenType}
    (h : type ≠ .eof) : checkKeyword word start rest type ≠ .eof := by
  unfold checkKeyword
  split
  · exact h
  · decide

theorem identifierType_ne_eof (word rest : Bytes) : identifierType word rest ≠ .eof := by
  unfold identifierType
  split
  · decide
  · split
    all_goals try exact checkKeyword_ne_eof (by decide)
    -- the words that two branches share, and the default
    all_goals try split
    all_goals first
      | decide
      | exact checkKeyword_ne_eof (by decide)

theorem scanIdentifier_within (c : UInt8) (cs : Bytes) : (scanIdentifier c cs).Within cs :=
  ⟨identifierType_ne_eof _ _, List.dropWhile_suffix _⟩

theorem scanLongMark_within (cs : Bytes) : (scanLongMark cs).Within cs := by
  unfold scanLongMark
  split
  · exact ⟨by simp, List.tail_suffix cs⟩
  · exact ⟨by simp, List.suffix_rfl⟩

theorem dropWhile_tail_suffix (p : UInt8 → Bool) (cs : Bytes) : cs.tail.dropWhile p <:+ cs :=
  (List.dropWhile_suffix p).trans (List.tail_suffix cs)

theorem scanExponent_within (hasDot : Bool) (cs : Bytes) : (scanExponent hasDot cs).Within cs := by
  unfold scanExponent
  dsimp only
  split
  · refine ⟨by simp, (List.dropWhile_suffix _).trans ?_⟩
    split
    · exact (List.tail_suffix _).trans (List.tail_suffix _)
    · exact List.tail_suffix _
  · split
    · exact ⟨by simp, List.suffix_rfl⟩
    · exact scanLongMark_within cs

theorem scanNumber_within (c : UInt8) (cs : Bytes) : (scanNumber c cs).Within cs := by
  unfold scanNumber
  split
  · exact (scanLongMark_within _).trans (dropWhile_tail_suffix _ cs)
  · dsimp only
    split
    · exact (scanExponent_within true _).trans
        ((dropWhile_tail_suffix _ _).trans (List.dropWhile_suffix _))
    · exact (scanExponent_within false _).trans (List.dropWhile_suffix _)

theorem scanString_within {quote : UInt8} {type : TokenType} (ht : type ≠ .eof) {cs : Bytes}
    {n : ℕ} {s : Scan} (h : scanString quote type cs n = .ok s) : s.Within cs := by
  fun_induction scanString quote type cs n with
  | case1 => cases h; exact ⟨by simp, List.suffix_rfl⟩
  | case2 => cases h; exact ⟨ht, List.suffix_cons _ _⟩
  | case3 => cases h
  | case4 => rename_i ih; exact (ih h).trans ((List.suffix_cons _ _).trans (List.suffix_cons _ _))
  | case5 => rename_i ih; exact (ih h).trans (List.suffix_cons _ _)

theorem skipClassName_suffix (cs : Bytes) : skipClassName cs <:+ cs := by
  induction cs with
  | nil => exact List.suffix_rfl
  | cons c cs ih =>
    rw [skipClassName]
    split
    · exact ih.trans (List.suffix_cons c cs)
    · exact List.suffix_rfl

theorem matchAll_suffix (expected cs : Bytes) : (matchAll expected cs).2 <:+ cs := by
  fun_induction matchAll expected cs with
  | case1 => exact List.suffix_rfl
  | case2 => rename_i ih; exact ih.trans (List.suffix_cons _ _)
  | case3 => exact List.suffix_rfl
  | case4 => exact List.suffix_rfl

theorem extend_within {cs : Bytes} {options : List (Char × TokenType)} {type : TokenType}
    (ht : type ≠ .eof) (ho : ∀ o ∈ options, o.2 ≠ .eof) : (extend cs options type).Within cs := by
  unfold extend
  split
  · next o h => exact ⟨ho o (List.mem_of_find?_eq_some h), List.tail_suffix cs⟩
  · exact ⟨ht, List.suffix_rfl⟩

theorem scanSymbol_within {c : Char} {cs : Bytes} {s : Scan} (h : scanSymbol c cs = .ok s) :
    s.Within cs := by
  have hdrop : cs.dropWhile isWord <:+ cs := List.dropWhile_suffix _
  have htail : cs.tail <:+ cs := List.tail_suffix cs
  have hboth : cs.tail.dropWhile isWord <:+ cs := dropWhile_tail_suffix _ cs
  unfold scanSymbol at h
  split at h
  case h_25 | h_26 | h_27 => exact scanString_within (by decide) h
  case h_28 =>
    have hm := matchAll_suffix (ascii "null") cs
    split at h
    · next rest he => rw [he] at hm; cases h; exact ⟨by simp, hm⟩
    · next rest he =>
      rw [he] at hm
      split at h <;> cases h
      · exact ⟨by simp, (List.tail_suffix _).trans hm⟩
      · exact ⟨by simp, (List.dropWhile_suffix _).trans hm⟩
  -- the others leave what follows a name or an operator of two or three characters
  all_goals try dsimp only at h
  all_goals repeat' split at h
  all_goals cases h
  all_goals first
    | exact ⟨by simp, List.suffix_rfl⟩
    | exact ⟨by simp, htail⟩
    | exact ⟨by simp, hdrop⟩
    | exact ⟨by simp, hboth⟩
    | exact ⟨by simp, skipClassName_suffix cs⟩
    | exact ⟨by simp, (dropWhile_tail_suffix _ _).trans htail⟩
    | exact extend_within (by decide) (by decide)
    | exact (extend_within (by decide) (by decide)).trans htail

theorem scanFrom_within {c : UInt8} {cs : Bytes} {s : Scan} (h : scanFrom c cs = .ok s) :
    s.Within cs := by
  unfold scanFrom at h
  split at h
  · cases h; exact scanIdentifier_within c cs
  · split at h
    · cases h; exact scanNumber_within c cs
    · exact scanSymbol_within h

theorem skipWhitespace_suffix (comment : Bool) (cs : Bytes) (n : ℕ) :
    (skipWhitespace comment cs n).1 <:+ cs := by
  fun_induction skipWhitespace comment cs n with
  | case1 => exact List.suffix_rfl
  | case6 => exact List.suffix_rfl
  | _ => rename_i ih; exact ih.trans (List.suffix_cons _ _)

/-- The text in front of a rest. -/
theorem take_of_rest (u rest : Bytes) :
    (u ++ rest).take ((u ++ rest).length - rest.length) = u := by
  rw [List.length_append, Nat.add_sub_cancel, List.take_left]

/-- What a scan of a whole token leaves: at the end nothing changes any more, and elsewhere the
source gets shorter, by the text of the token at least. -/
structure Token.ScannedFrom (lexer : Lexer) (t : Token) (lexer' : Lexer) : Prop where
  suffix : lexer'.current <:+ lexer.current
  ofEof : t.type = .eof → lexer'.current = [] ∧ t.text = []
  length : t.type ≠ .eof → lexer'.current.length < lexer.current.length
  text : t.type ≠ .error → t.text.length + lexer'.current.length ≤ lexer.current.length

theorem scanToken_spec {lexer lexer' : Lexer} {t : Token}
    (h : scanToken lexer = .ok (t, lexer')) : t.ScannedFrom lexer lexer' := by
  have hskip := skipWhitespace_suffix false lexer.current 0
  unfold scanToken at h
  dsimp only at h
  split at h
  · cases h
    exact ⟨List.nil_suffix, fun _ => ⟨rfl, rfl⟩, fun h => absurd rfl h, fun _ => Nat.zero_le _⟩
  · next c cs hc =>
    rw [hc] at hskip
    cases hs : scanFrom c cs with
    | error e => rw [hs] at h; cases h
    | ok s =>
      rw [hs] at h
      cases h
      obtain ⟨hne, hrest⟩ := scanFrom_within hs
      have hlen := hskip.length_le
      have hle := hrest.length_le
      rw [List.length_cons] at hlen
      refine ⟨(hrest.trans (List.suffix_cons c cs)).trans hskip, fun h => absurd h hne,
        fun _ => by dsimp only; omega, fun h => ?_⟩
      dsimp only at h ⊢
      rw [if_neg h, List.length_take, List.length_cons]
      omega

/-! ### The only fault -/

theorem scanString_eq_error {quote : UInt8} {type : TokenType} {cs : Bytes} {n : ℕ} {e : Fault} :
    scanString quote type cs n = .error e ↔ endsInEscape quote cs = true ∧ e = .overrun := by
  fun_induction scanString quote type cs n with
  | case1 => simp [endsInEscape]
  | case2 => rw [endsInEscape.eq_def]; simp
  | case3 _ h => rw [endsInEscape.eq_def]; simp [h, eq_comm]
  | case4 _ _ cs h ih => rw [endsInEscape.eq_def, ih]; simp [h]
  | case5 c cs _ h₁ h₂ ih => rw [endsInEscape.eq_def quote (c :: cs), ih]; simp [h₁, h₂]

/-- A quoted text begins with its quote. -/
theorem scanFrom_quote {c : UInt8} (cs : Bytes) (h : isQuote c = true) :
    ∃ type, type ≠ .error ∧ scanFrom c cs = scanString c type cs 0 := by
  simp only [isQuote, Bool.or_eq_true, beq_iff_eq] at h
  rcases h with (rfl | rfl) | rfl
  · exact ⟨.string, by decide, rfl⟩
  · exact ⟨.literal, by decide, rfl⟩
  · exact ⟨.backtickExpr, by decide, rfl⟩

theorem chr_ofNat (c : UInt8) : chr (Char.ofNat c.toNat) = c := by
  have hc : (Char.ofNat c.toNat).toNat = c.toNat := by
    have hlt : c.toNat < 256 := c.toNat_lt
    have hvalid : c.toNat.isValidChar := .inl (by omega)
    rw [Char.ofNat, dif_pos hvalid]
    rfl
  rw [chr, hc, UInt8.ofNat_toNat]

/-- Only a quoted text may fail to scan. -/
theorem scanFrom_ok {c : UInt8} (cs : Bytes) (h : isQuote c = false) :
    ∃ s, scanFrom c cs = .ok s := by
  unfold scanFrom
  split
  · exact ⟨_, rfl⟩
  · split
    · exact ⟨_, rfl⟩
    · have hc := chr_ofNat c
      revert hc
      generalize Char.ofNat c.toNat = d
      intro hc
      unfold scanSymbol
      split
      case h_25 | h_26 | h_27 => rw [← hc] at h; cases h
      all_goals try dsimp only
      all_goals repeat' split
      all_goals exact ⟨_, rfl⟩

/-- A scan fails exactly at a quoted text that ends in a backslash at the end of the source. -/
theorem scanToken_eq_error {lexer : Lexer} {e : Fault} :
    scanToken lexer = .error e ↔ lexer.opensEscape = true ∧ e = .overrun := by
  unfold scanToken Lexer.opensEscape
  obtain ⟨current, newlines⟩ := skipWhitespace false lexer.current 0
  cases current with
  | nil => simp
  | cons c cs =>
    cases hq : isQuote c with
    | true =>
      obtain ⟨type, -, hscan⟩ := scanFrom_quote cs hq
      have hmap : ∀ {f : Scan → Token × Lexer},
          (scanFrom c cs).map f = .error e ↔ scanFrom c cs = .error e := fun {f} => by
        cases scanFrom c cs <;> simp [Except.map]
      dsimp only
      rw [hmap, hscan, scanString_eq_error, hq, Bool.true_and]
    | false =>
      obtain ⟨scan, hscan⟩ := scanFrom_ok cs hq
      simp [hscan, hq, Except.map]

end Slp.Parse
