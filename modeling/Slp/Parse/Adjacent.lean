import Slp.Parse.Strings

/-!
# Adjacent quoted literals

* `Adjacent`: the quoted literals that follow one another from a token on;
* `operand`: what `parse_precedence_inner` does with a quoted literal before it goes on with operators;
* `LiteralLaw`: the tree is the concatenation of what these literals stand for, one by one;
* `literalLaw_iff`: **this is so if and only if no other quoted literal follows the first one.**

The first literal is decoded, and `operand_ends` says what becomes of the others: their lexemes are
added as they stand, quotes included, to a first literal that is a plain text, and they are left unread
behind any other.
-/

namespace Slp.Parse

open Program

variable {l l' l'' : Lexer} {t t' u : Token} {ts us : List Token}

/-! ### The tokens that follow -/

/-- The next token of the lexer, errors passed over. -/
inductive Next : Lexer → Token → Lexer → Prop
  | token {l l' : Lexer} {t : Token} (h : scanToken l = .ok (t, l')) (ht : t.type ≠ .error) : Next l t l'
  | skip {l l' l'' : Lexer} {t u : Token} (h : scanToken l = .ok (t, l')) (ht : t.type = .error)
    (hnext : Next l' u l'') : Next l u l''

theorem Next.unique (h : Next l t l') (h' : Next l u l'') : t = u ∧ l' = l'' := by
  induction h with
  | token h ht =>
    cases h' with
    | token h' =>
      rw [h] at h'
      cases h'
      exact ⟨rfl, rfl⟩
    | skip h' ht' =>
      rw [h] at h'
      cases h'
      exact absurd ht' ht
  | skip h ht _ ih =>
    cases h' with
    | token h' ht' =>
      rw [h] at h'
      cases h'
      exact absurd ht ht'
    | skip h' _ hnext =>
      rw [h] at h'
      cases h'
      exact ih hnext

/-- The quoted literals from a token on. -/
inductive Adjacent : Token → Lexer → List Token → Prop
  | nil {t : Token} {l : Lexer} (ht : isStringToken t.type = false) : Adjacent t l []
  | cons {t u : Token} {l l' : Lexer} {ts : List Token} (ht : isStringToken t.type = true)
    (hnext : Next l u l') (hts : Adjacent u l' ts) : Adjacent t l (t :: ts)

theorem Adjacent.unique (h : Adjacent t l ts) (h' : Adjacent t l us) : ts = us := by
  induction h generalizing us with
  | nil ht =>
    cases h' with
    | nil => rfl
    | cons ht' => rw [ht] at ht'; cases ht'
  | cons ht hnext _ ih =>
    cases h' with
    | nil ht' => rw [ht] at ht'; cases ht'
    | cons _ hnext' hts' =>
      obtain ⟨rfl, rfl⟩ := hnext.unique hnext'
      rw [ih hts']

theorem Adjacent.of_plain (h : Adjacent t l ts) (ht : isStringToken t.type = false) : ts = [] :=
  h.unique (.nil ht)

/-! ### The length of a literal -/

theorem scanString_shorter {quote : UInt8} {type : TokenType} {cs : Bytes} {n : ℕ} {s : Scan}
    (h : scanString quote type cs n = .ok s) (hs : s.type ≠ .error) : s.rest.length < cs.length := by
  fun_induction scanString quote type cs n with
  | case1 =>
    cases h
    exact absurd rfl hs
  | case2 =>
    cases h
    exact Nat.lt_succ_self _
  | case3 => cases h
  | case4 _ _ _ _ ih => exact (ih h).trans (Nat.lt_succ_of_lt (Nat.lt_succ_self _))
  | case5 _ _ _ _ _ ih => exact (ih h).trans (Nat.lt_succ_self _)

theorem checkKeyword_unquoted {word : Bytes} {start : ℕ} {rest : String} {type : TokenType}
    (h : isStringToken type = false) : isStringToken (checkKeyword word start rest type) = false := by
  unfold checkKeyword
  split
  · exact h
  · rfl

theorem identifierType_unquoted (word rest : Bytes) :
    isStringToken (identifierType word rest) = false := by
  unfold identifierType
  split
  · rfl
  · split
    all_goals try exact checkKeyword_unquoted rfl
    -- the words that two branches share, and the default
    all_goals try split
    all_goals first
      | rfl
      | exact checkKeyword_unquoted rfl

theorem scanLongMark_unquoted (cs : Bytes) : isStringToken (scanLongMark cs).type = false := by
  unfold scanLongMark
  split <;> rfl

theorem scanExponent_unquoted (hasDot : Bool) (cs : Bytes) :
    isStringToken (scanExponent hasDot cs).type = false := by
  unfold scanExponent
  dsimp only
  split
  · rfl
  · split
    · rfl
    · exact scanLongMark_unquoted cs

theorem scanNumber_unquoted (c : UInt8) (cs : Bytes) : isStringToken (scanNumber c cs).type = false := by
  unfold scanNumber
  split
  · exact scanLongMark_unquoted _
  · dsimp only
    split
    · exact scanExponent_unquoted _ _
    · exact scanExponent_unquoted _ _

theorem extend_unquoted {cs : Bytes} {options : List (Char × TokenType)} {type : TokenType}
    (ht : isStringToken type = false) (ho : ∀ o ∈ options, isStringToken o.2 = false) :
    isStringToken (extend cs options type).type = false := by
  unfold extend
  split
  · next o h => exact ho o (List.mem_of_find?_eq_some h)
  · exact ht

/-- Only the scan of a quoted text finds a literal. -/
theorem scanSymbol_quoted {c : Char} {cs : Bytes} {s : Scan} (h : scanSymbol c cs = .ok s)
    (hs : isStringToken s.type = true) : s.rest.length < cs.length := by
  have hne : s.type ≠ .error := fun he => by rw [he] at hs; cases hs
  unfold scanSymbol at h
  split at h
  case h_25 | h_26 | h_27 => exact scanString_shorter h hne
  -- the others find a token of their own, or one of those that a second character extends
  all_goals try dsimp only at h
  all_goals repeat' split at h
  all_goals cases h
  all_goals first
    | cases hs
    | exact absurd hs (Bool.eq_false_iff.1 (extend_unquoted rfl (by decide)))

/-- A literal has both its quotes. -/
theorem scanToken_quoted (h : scanToken l = .ok (t, l')) (ht : isStringToken t.type = true) :
    2 ≤ t.text.length := by
  unfold scanToken at h
  dsimp only at h
  split at h
  · cases h
    cases ht
  · next c cs hcons =>
    cases hs : scanFrom c cs with
    | error e => rw [hs] at h; cases h
    | ok s =>
      rw [hs] at h
      cases h
      have hlen : s.rest.length < cs.length := by
        unfold scanFrom at hs
        split at hs
        · cases hs
          exact absurd ht (Bool.eq_false_iff.1 (identifierType_unquoted _ _))
        · split at hs
          · cases hs
            exact absurd ht (Bool.eq_false_iff.1 (scanNumber_unquoted _ _))
          · exact scanSymbol_quoted hs ht
      have hne : s.type ≠ .error := fun he => by rw [he] at ht; cases ht
      dsimp only
      rw [if_neg hne, List.length_take, List.length_cons]
      omega

theorem Next.quoted (h : Next l t l') (ht : isStringToken t.type = true) : 2 ≤ t.text.length := by
  induction h with
  | token h => exact scanToken_quoted h ht
  | skip _ _ _ ih => exact ih ht

theorem length_unescapeLiteral (cs : Bytes) : (unescapeLiteral cs).length ≤ cs.length := by
  fun_induction unescapeLiteral cs with
  | case1 => exact le_rfl
  | case2 => exact le_rfl
  | case3 _ _ _ _ ih => exact Nat.succ_le_succ (ih.trans (Nat.le_succ _))
  | case4 _ _ _ _ ih => exact Nat.succ_le_succ ih

/-- A literal stands for fewer pieces than its lexeme has bytes. -/
theorem decoded_shorter {ps : List Piece} (ht : 2 ≤ t.text.length) (h : decoded t = some ps) :
    ps.length < t.text.length := by
  have hinner : (inner t.text).length ≤ t.text.length - 2 := by
    unfold inner
    exact List.length_take_le _ _
  unfold decoded at h
  split at h
  · have := length_reference h
    omega
  · cases h
    have := length_unescapeLiteral (inner t.text)
    rw [List.length_map, copyUnquotedLexeme, if_neg (Nat.not_lt.2 ht)]
    exact Nat.lt_of_le_of_lt this (by omega)

/-! ### A run of literals -/

theorem advanceLoop_next (n : ℕ) (s : Parser) :
    Ends (advanceLoop n) s (fun _ t => Next s.lexer t.current t.lexer ∧ t.previous = s.previous)
      fun _ _ => True := by
  induction n generalizing s with
  | zero => trivial
  | succ n ih =>
    rw [advanceLoop, ends_bind]
    refine (scan_ends s).mono ?_ fun _ _ _ => trivial
    rintro token _ ⟨lexer, hscan, rfl⟩
    rw [ends_bind, ends_modify]
    split
    · next herror =>
      rw [errorAtCurrent, ends_bind, ends_modify]
      refine (ih _).mono ?_ fun _ _ h => h
      rintro _ t ⟨hnext, hprevious⟩
      have herr : ∀ s : Parser, (s.errorAt s.current token.text).lexer = s.lexer ∧
          (s.errorAt s.current token.text).previous = s.previous := by
        intro s
        unfold Parser.errorAt
        split <;> exact ⟨rfl, rfl⟩
      rw [(herr _).1] at hnext
      exact ⟨.skip hscan herror hnext, hprevious.trans (herr _).2⟩
    · next herror => exact ends_pure.2 ⟨.token hscan herror, rfl⟩

/-- The next token becomes the current one. -/
theorem advance_next (s : Parser) :
    Ends advance s (fun _ t => Next s.lexer t.current t.lexer ∧ t.previous = s.current)
      fun _ _ => True := by
  unfold advance
  rw [ends_bind, ends_modify, ends_get_bind]
  exact advanceLoop_next _ s.passOver

/-- The lexemes as they stand. -/
def texts (ts : List Token) : Bytes := (ts.map (·.text)).flatten

/-- The lexemes of the literals that follow are added as they stand. -/
theorem juxtaposeLoop_ends (n : ℕ) (b : Bytes) (s : Parser) :
    Ends ((calls n).juxtaposeLoop b) s (fun b' t => isStringToken t.current.type = false ∧
      ∃ ts, Adjacent s.current s.lexer ts ∧ b' = b ++ texts ts) fun _ _ => True := by
  induction n generalizing b s with
  | zero => trivial
  | succ n ih =>
    show Ends (juxtaposeStep (calls n) b) s _ _
    unfold juxtaposeStep
    rw [ends_get_bind]
    split
    · next hs =>
      rw [ends_bind]
      refine (advance_next s).mono (fun _ t ⟨hnext, hprevious⟩ => ?_) fun _ _ h => h
      refine (ih (b ++ t.previous.text) t).mono ?_ fun _ _ h => h
      rintro b' u ⟨hu, ts, hts, rfl⟩
      refine ⟨hu, _, .cons hs hnext hts, ?_⟩
      rw [hprevious, List.append_assoc]
      rfl
    · next hs =>
      have hs := Bool.eq_false_iff.2 hs
      exact ends_pure.2 ⟨hs, [], .nil hs, (List.append_nil b).symm⟩

/-- What becomes of the first literal and of those behind it. -/
inductive Joined (u : Token) (l : Lexer) (first : Tree) : Tree → Parser → Prop
  | text {line : ℤ} {b : Bytes} {ts : List Token} {t : Parser} (hfirst : first = .string line b)
    (hts : Adjacent u l ts) (ht : isStringToken t.current.type = false) :
    Joined u l first (.string line (b ++ texts ts)) t
  | value {t : Parser} (ht : t.current = u) : Joined u l first first t

/-- A literal that no other one follows stays as it is. -/
theorem Joined.of_plain {first tree : Tree} {p : Parser} (h : Joined u l first tree p)
    (hu : isStringToken u.type = false) : tree = first ∧ isStringToken p.current.type = false := by
  cases h with
  | value hp => exact ⟨rfl, hp ▸ hu⟩
  | @text line b _ _ hfirst hts hp =>
    have hnil : b ++ texts [] = b := List.append_nil b
    rw [hts.of_plain hu, hfirst, hnil]
    exact ⟨rfl, hp⟩

theorem juxtapose_ends (n : ℕ) (first : Tree) (s : Parser) :
    Ends (juxtapose (calls n) first) s (fun tree t => Joined s.current s.lexer first tree t)
      fun _ _ => True := by
  unfold juxtapose
  split
  · next line b =>
    rw [ends_get_bind]
    split
    · rw [ends_bind]
      refine (juxtaposeLoop_ends n b s).mono ?_ fun _ _ h => h
      rintro _ t ⟨ht, ts, hts, rfl⟩
      exact ends_pure.2 (.text rfl hts ht)
    · exact ends_pure.2 (.value rfl)
  · exact ends_pure.2 (.value rfl)

/-- The part of `parse_precedence_inner` before the operators, at a quoted literal. -/
def operand (r : Calls) : ParserM Tree := do
  advance
  let expr ← stringVal r
  juxtapose r expr

/-- Runs that go on in the same way from where the first part ends are the same. -/
theorem bind_congr_run {α β : Type} {p : ParserM α} {f g : α → ParserM β} {s : Parser}
    (h : Ends p s (fun a t => f a t = g a t) fun _ _ => True) : (p >>= f) s = (p >>= g) s := by
  unfold Ends at h
  show (ExceptT.bind p f) s = (ExceptT.bind p g) s
  simp only [ExceptT.bind, ExceptT.mk, bind, StateT.bind]
  revert h
  obtain ⟨_ | a, t⟩ := p s
  · exact fun _ => rfl
  · exact fun h => h

theorem operand_ends (n : ℕ) (s : Parser) :
    Ends (operand (calls n)) s (fun tree t => ∃ u l first, Next s.lexer u l ∧
      (first.isMissing = false → ∃ ps, decoded s.current = some ps ∧ Denotes first ps) ∧
      Joined u l first tree t) fun _ _ => True := by
  unfold operand
  rw [ends_bind]
  refine (advance_next s).mono (fun _ t ⟨hnext, hprevious⟩ => ?_) fun _ _ h => h
  rw [ends_bind]
  refine (stringVal_spec n t trivial).mono (fun first t' ⟨⟨hlexer, hcurrent⟩, hfirst⟩ => ?_)
    fun _ _ h => h
  rw [hprevious] at hfirst
  refine (juxtapose_ends n first t').mono (fun tree _ hjoined => ?_) fun _ _ h => h
  rw [hlexer, hcurrent] at hjoined
  exact ⟨_, _, first, hnext, hfirst, hjoined⟩

/-! ### The law -/

/-- At the quoted literal that is the current token of `s`, a parse that ended in a tree and in `t` has
read all the literals there, and the tree is the concatenation of what each of them stands for; and no
string overruns its array of parts or its buffer. -/
def LiteralLaw (s : Parser) (tree : Tree) (t : Parser) : Prop :=
  (∀ token, Fits token) ∧ isStringToken t.current.type = false ∧
    ∃ ts pss, Adjacent s.current s.lexer ts ∧ ts.mapM decoded = some pss ∧ Denotes tree pss.flatten

/-- No other quoted literal follows. -/
def Alone (s : Parser) : Prop := ∀ u l, Next s.lexer u l → isStringToken u.type = false

theorem Denotes.eq_of_string {line : ℤ} {b : Bytes} {ps : List Piece}
    (h : Denotes (.string line b) ps) : ps = b.map .byte := by
  cases h
  rfl

/-- What literals stand for is shorter than their lexemes, by a piece for each of them at least. -/
theorem Adjacent.shorter {pss : List (List Piece)} (h : Adjacent t l ts)
    (ht : isStringToken t.type = true → 2 ≤ t.text.length) (hpss : ts.mapM decoded = some pss) :
    pss.flatten.length + ts.length ≤ (texts ts).length := by
  induction h generalizing pss with
  | nil =>
    cases hpss
    exact le_rfl
  | @cons t u l l' ts hquoted hnext _ ih =>
    rw [List.mapM_cons] at hpss
    obtain ⟨ps, hps, hpss⟩ := Option.bind_eq_some_iff.1 hpss
    obtain ⟨qss, hqss, hcons⟩ := Option.bind_eq_some_iff.1 hpss
    cases hcons
    have hfirst := decoded_shorter (ht hquoted) hps
    have hrest := ih hnext.quoted hqss
    have htexts : (texts (t :: ts)).length = t.text.length + (texts ts).length := by simp [texts]
    rw [htexts, List.flatten_cons, List.length_append, List.length_cons]
    omega

section

variable {n : ℕ} {s t : Parser} {tree : Tree}

theorem operand_run (hrun : operand (calls n) s = (.ok tree, t)) :
    ∃ u l first, Next s.lexer u l ∧
      (first.isMissing = false → ∃ ps, decoded s.current = some ps ∧ Denotes first ps) ∧
      Joined u l first tree t := by
  have h := operand_ends n s
  unfold Ends at h
  rw [hrun] at h
  exact h

/-- A literal that another one follows is not parsed as the law says. -/
theorem LiteralLaw.alone (hquoted : isStringToken s.current.type = true)
    (hrun : operand (calls n) s = (.ok tree, t)) (hlaw : LiteralLaw s tree t) : Alone s := by
  obtain ⟨u, l, first, hnext, hfirst, hjoined⟩ := operand_run hrun
  obtain ⟨-, hread, ts, pss, hts, hpss, hdenotes⟩ := hlaw
  suffices isStringToken u.type = false by
    intro u' l' hnext'
    exact (hnext.unique hnext').1 ▸ this
  cases hjoined with
  | value ht => exact ht ▸ hread
  | @text line b ts' _ heq hts' _ =>
    cases hts with
    | nil hplain => rw [hquoted] at hplain; cases hplain
    | cons _ hnext' hrest =>
      obtain ⟨rfl, rfl⟩ := hnext.unique hnext'
      cases hts'.unique hrest
      rw [List.mapM_cons] at hpss
      obtain ⟨ps, hps, hpss⟩ := Option.bind_eq_some_iff.1 hpss
      obtain ⟨qss, hqss, hcons⟩ := Option.bind_eq_some_iff.1 hpss
      cases hcons
      -- the first literal has as many pieces as its text has bytes
      obtain ⟨ps', hps', hdecoded⟩ := hfirst (heq ▸ rfl)
      cases hps.symm.trans hps'
      rw [heq] at hdecoded
      have hlen := congrArg List.length hdenotes.eq_of_string
      rw [hdecoded.eq_of_string] at hlen
      simp only [List.flatten_cons, List.length_append, List.length_map] at hlen
      have hshort := hrest.shorter hnext.quoted hqss
      cases hrest with
      | nil hplain => exact hplain
      | cons => rw [List.length_cons] at hshort; omega

/-- **The result is the concatenation of the literals, each decoded, if and only if there is one.** -/
theorem literalLaw_iff (hquoted : isStringToken s.current.type = true)
    (hrun : operand (calls n) s = (.ok tree, t)) (htree : tree.isMissing = false) :
    LiteralLaw s tree t ↔ Alone s := by
  refine ⟨fun hlaw => hlaw.alone hquoted hrun, fun halone => ⟨rounds_fit, ?_⟩⟩
  obtain ⟨u, l, first, hnext, hfirst, hjoined⟩ := operand_run hrun
  have hplain := halone u l hnext
  obtain ⟨rfl, ht⟩ := hjoined.of_plain hplain
  obtain ⟨ps, hps, hdenotes⟩ := hfirst htree
  refine ⟨ht, [s.current], [ps], .cons hquoted hnext (.nil hplain), ?_, ?_⟩
  · rw [List.mapM_cons, hps]
    rfl
  · rwa [List.flatten_cons, List.flatten_nil, List.append_nil]

end

/-- The parser at the first token of a text. -/
def opened (source : Bytes) : Parser := (advance (Parser.init source)).2

/-- Whether a run from `s` ends in a tree of a kind. -/
def yields (p : ParserM Tree) (s : Parser) (kind : Tree → Bool) : Bool :=
  match (p s).1 with
  | .ok tree => kind tree
  | .error _ => false

theorem exists_of_yields {p : ParserM Tree} {s : Parser} {kind : Tree → Bool}
    (h : yields p s kind = true) : ∃ tree t, p s = (.ok tree, t) ∧ kind tree = true := by
  unfold yields at h
  revert h
  obtain ⟨_ | tree, t⟩ := p s
  · exact nofun
  · exact fun h => ⟨tree, t, rfl, h⟩

/-- A text and the value of a variable. -/
theorem literalLaw_greeting :
    ∃ tree t, operand (calls 8) (opened (ascii "\"a $x\";")) = (.ok tree, t) ∧
      LiteralLaw (opened (ascii "\"a $x\";")) tree t := by
  have hyields : yields (operand (calls 8)) (opened (ascii "\"a $x\";")) (! ·.isMissing) = true := by
    decide +kernel
  have hnext : Next (opened (ascii "\"a $x\";")).lexer
      { type := .semicolon, text := ascii ";", line := 1 } { current := [], line := 1, startLine := 1 } :=
    .token (by decide +kernel) (by decide)
  obtain ⟨tree, t, hrun, htree⟩ := exists_of_yields hyields
  refine ⟨tree, t, hrun, (literalLaw_iff (by decide +kernel) hrun (by simpa using htree)).2 ?_⟩
  intro u l hu
  rw [← (hnext.unique hu).1]
  rfl

/-- Whether a tree is this text. -/
def isText (b : Bytes) : Tree → Bool
  | .string _ b' => b' = b
  | _ => false

/-- The literals `"a"` and `"b"` one behind the other are the text `a"b"`. -/
theorem not_literalLaw_pair :
    ∃ tree t, operand (calls 8) (opened (ascii "\"a\" \"b\"")) = (.ok tree, t) ∧
      isText (ascii "a\"b\"") tree = true ∧ ¬ LiteralLaw (opened (ascii "\"a\" \"b\"")) tree t := by
  have hyields : yields (operand (calls 8)) (opened (ascii "\"a\" \"b\"")) (isText (ascii "a\"b\"")) =
      true := by decide +kernel
  have hnext : Next (opened (ascii "\"a\" \"b\"")).lexer
      { type := .string, text := ascii "\"b\"", line := 1 }
      { current := [], line := 1, startLine := 1 } := .token (by decide +kernel) (by decide)
  obtain ⟨tree, t, hrun, htree⟩ := exists_of_yields hyields
  refine ⟨tree, t, hrun, htree, fun hlaw => ?_⟩
  have halone := hlaw.alone (by decide +kernel) hrun
  exact absurd (halone _ _ hnext) (by decide)

end Slp.Parse
