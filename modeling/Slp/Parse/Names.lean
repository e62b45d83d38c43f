import Slp.Parse.Lexer

/-!
# Names

A sigil and the word behind it are one token.  The literal `$null` is looked for byte by byte, and
the scan goes on where that stopped.

* `NameLaw`: the scan finds the sigil and the whole word;
* `Misread`: the word begins with `null` and goes on, or it is a part of `null` in front of a plus;
* `nameLaw_iff`: **the scan finds the name if and only if it is not misread.**
-/

namespace Slp.Parse

/-- What a sigil stands for. -/
inductive Sigil where
  | scalar | array | hashtable | function
  deriving DecidableEq, Repr

namespace Sigil

def byte : Sigil → UInt8
  | scalar => chr '$'
  | array => chr '@'
  | hashtable => chr '%'
  | function => chr '&'

/-- The sigil, behind a backslash where a variable is passed by name. -/
def text (byName : Bool) (s : Sigil) : Bytes := if byName then [chr '\\', s.byte] else [s.byte]

/-- The kind of token for a name. -/
def type : (byName : Bool) → Sigil → TokenType
  | _, function => .address
  | true, _ => .argPassedByName
  | false, scalar => .scalar
  | false, array => .at
  | false, hashtable => .percent

end Sigil

/-- The kind of token for a sigil and a word. -/
def nameType (byName : Bool) (s : Sigil) (w : Bytes) : TokenType :=
  if byName = false ∧ s = .scalar ∧ w = ascii "null" then .null else s.type byName

/-- The scan finds a sigil and the whole word behind it. -/
def NameLaw (lexer : Lexer) (byName : Bool) (s : Sigil) (w rest : Bytes) : Prop :=
  ∃ token lexer', scanToken lexer = .ok (token, lexer') ∧ token.type = nameType byName s w ∧
    token.text = s.text byName ++ w ∧ lexer'.current = rest

/-- The search for `null` ends inside of a longer word, or in front of a plus, which is taken for the
one of `$+`. -/
def Misread (w rest : Bytes) : Prop :=
  w ≠ ascii "null" ∧ (ascii "null" <+: w ∨ w <+: ascii "null" ∧ peek rest = chr '+')

section

variable {w rest e : Bytes} {c : UInt8} {s : Scan} {lexer : Lexer} {byName : Bool} {sigil : Sigil}

theorem dropWhile_word (hw : ∀ c ∈ w, isWord c = true) (hrest : isWord (peek rest) = false) :
    (w ++ rest).dropWhile isWord = rest := by
  rw [List.dropWhile_append_of_pos hw]
  cases rest with
  | nil => rfl
  | cons c rest => exact List.dropWhile_cons_of_neg (Bool.eq_false_iff.1 hrest)

/-- How far a chain of `lexer_match` gets into a word. -/
theorem matchAll_word (e : Bytes) (hw : ∀ c ∈ w, isWord c = true) (he : ∀ c ∈ e, isWord c = true)
    (hrest : isWord (peek rest) = false) :
    (e <+: w ∧ matchAll e (w ++ rest) = (true, w.drop e.length ++ rest)) ∨
      (w <+: e ∧ w ≠ e ∧ matchAll e (w ++ rest) = (false, rest)) ∨
      (¬e <+: w ∧ ¬w <+: e ∧ ∃ u ≠ [], u <:+ w ∧ matchAll e (w ++ rest) = (false, u ++ rest)) := by
  induction e generalizing w with
  | nil => exact .inl ⟨List.nil_prefix, rfl⟩
  | cons d e ih =>
    obtain ⟨hd, he'⟩ := List.forall_mem_cons.1 he
    cases w with
    | nil =>
      refine .inr (.inl ⟨List.nil_prefix, List.cons_ne_nil d e |>.symm, ?_⟩)
      cases rest with
      | nil => rfl
      | cons c rest =>
        have hne : c ≠ d := by
          rintro rfl
          rw [peek, List.headD_cons, hd] at hrest
          cases hrest
        exact if_neg hne
    | cons c w =>
      obtain ⟨-, hw'⟩ := List.forall_mem_cons.1 hw
      by_cases hcd : c = d
      · subst hcd
        have hstep : matchAll (c :: e) (c :: w ++ rest) = matchAll e (w ++ rest) := if_pos rfl
        rw [hstep]
        rcases ih hw' he' with ⟨hpre, heq⟩ | ⟨hpre, hne, heq⟩ | ⟨hnot, hnot', u, hu, hsuffix, heq⟩
        · exact .inl ⟨(List.prefix_cons_inj c).2 hpre, heq⟩
        · exact .inr (.inl ⟨(List.prefix_cons_inj c).2 hpre, fun h => hne (List.cons.inj h).2, heq⟩)
        · exact .inr (.inr ⟨mt (List.prefix_cons_inj c).1 hnot, mt (List.prefix_cons_inj c).1 hnot',
            u, hu, hsuffix.trans (List.suffix_cons c w), heq⟩)
      · exact .inr (.inr ⟨fun h => hcd (List.cons_prefix_cons.1 h).1.symm,
          fun h => hcd (List.cons_prefix_cons.1 h).1, c :: w, List.cons_ne_nil c w, List.suffix_rfl,
          if_neg hcd⟩)

/-- The scan of a name: what is left and the kind decide. -/
theorem nameLaw_of_scan (hat : (skipWhitespace false lexer.current 0).1 = sigil.text byName ++ w ++ rest)
    (hscan : ∀ c t, sigil.text byName = c :: t → scanFrom c (t ++ w ++ rest) = .ok s)
    (htype : s.type ≠ .error) :
    NameLaw lexer byName sigil w rest ↔ s.type = nameType byName sigil w ∧ s.rest = rest := by
  obtain ⟨c, t, htext⟩ : ∃ c t, sigil.text byName = c :: t := by
    cases byName <;> exact ⟨_, _, rfl⟩
  have hscan := hscan c t htext
  have hrun : scanToken lexer = .ok
      ({ type := s.type
         text := (sigil.text byName ++ w ++ rest).take
           ((sigil.text byName ++ w ++ rest).length - s.rest.length)
         line := (lexer.line + (skipWhitespace false lexer.current 0).2 : ℕ) + s.newlines },
        { current := s.rest
          line := lexer.line + (skipWhitespace false lexer.current 0).2 + s.newlines
          startLine := lexer.line + (skipWhitespace false lexer.current 0).2 }) := by
    unfold scanToken
    dsimp only
    rw [hat, htext, List.cons_append, List.cons_append]
    dsimp only
    rw [hscan, Except.map, if_neg htype]
    rfl
  unfold NameLaw
  rw [hrun]
  constructor
  · rintro ⟨token, lexer', heq, htype, -, hrest⟩
    cases heq
    exact ⟨htype, hrest⟩
  · rintro ⟨htype, hrest⟩
    refine ⟨_, _, rfl, htype, ?_, hrest⟩
    dsimp only
    rw [hrest, take_of_rest]

/-- The chain for `null` leaves the whole word, unless it is misread. -/
theorem scan_null (hw : ∀ c ∈ w, isWord c = true) (hrest : isWord (peek rest) = false) :
    ∃ s, scanFrom (chr '$') (w ++ rest) = .ok s ∧ s.type ≠ .error ∧
      (s.type = nameType false .scalar w ∧ s.rest = rest ↔ ¬Misread w rest) := by
  have hscalar : w ≠ ascii "null" → nameType false .scalar w = .scalar := fun hne =>
    if_neg fun h => hne h.2.2
  have hlen : ∀ {u v : Bytes}, u ++ v = v → u = [] := fun h => List.append_left_eq_self.1 h
  rcases matchAll_word (ascii "null") hw (List.all_eq_true.1 (by decide)) hrest with
    ⟨hpre, heq⟩ | ⟨hpre, hne, heq⟩ | ⟨hnot, hnot', u, hu, hsuffix, heq⟩
  · refine ⟨{ type := .null, rest := w.drop (ascii "null").length ++ rest }, ?_, nofun, ?_⟩
    · change scanSymbol '$' (w ++ rest) = _
      rw [scanSymbol, heq]
    · by_cases hnull : w = ascii "null"
      · refine iff_of_true ⟨(if_pos ⟨rfl, rfl, hnull⟩).symm, ?_⟩ fun h => h.1 hnull
        rw [hnull, List.drop_length, List.nil_append]
      · refine iff_of_false (fun h => ?_) (not_not.2 ⟨hnull, .inl hpre⟩)
        rw [hscalar hnull] at h
        cases h.1
  · have hscan : ∀ r, scanFrom (chr '$') (w ++ rest) = .ok { type := .scalar, rest := r } ↔
        (if peek rest = chr '+' then rest.tail else rest) = r := by
      intro r
      change scanSymbol '$' (w ++ rest) = _ ↔ _
      rw [scanSymbol, heq]
      dsimp only
      split_ifs with hplus
      · simp
      · rw [show rest.dropWhile isWord = rest from dropWhile_word (w := []) (fun _ h => nomatch h) hrest]
        simp
    refine ⟨_, (hscan _).2 rfl, nofun, ?_⟩
    dsimp only
    rw [hscalar hne]
    split_ifs with hplus
    · refine iff_of_false (fun h => ?_) (not_not.2 ⟨hne, .inr ⟨hpre, hplus⟩⟩)
      have hlength := congrArg List.length h.2
      cases rest with
      | nil => exact absurd hplus (by decide)
      | cons c rest => simp at hlength
    · refine iff_of_true ⟨rfl, rfl⟩ fun h => ?_
      rcases h.2 with hnull | ⟨-, hhead⟩
      · exact hne (hpre.eq_of_length_le hnull.length_le)
      · exact hplus hhead
  · have hplus : peek (u ++ rest) ≠ chr '+' := by
      cases u with
      | nil => exact absurd rfl hu
      | cons c u =>
        have hc := hw c (hsuffix.subset List.mem_cons_self)
        rintro rfl
        exact absurd hc (by decide)
    have hdrop : (u ++ rest).dropWhile isWord = rest :=
      dropWhile_word (fun c hc => hw c (hsuffix.subset hc)) hrest
    have hne : w ≠ ascii "null" := fun h => hnot (h ▸ List.prefix_rfl)
    refine ⟨{ type := .scalar, rest }, ?_, nofun, iff_of_true ⟨(hscalar hne).symm, rfl⟩ ?_⟩
    · change scanSymbol '$' (w ++ rest) = _
      rw [scanSymbol, heq]
      dsimp only
      rw [if_neg hplus, hdrop]
    · rintro ⟨-, h | h⟩
      · exact hnot h
      · exact hnot' h.1

/-- The other sigils take the whole word. -/
theorem scan_word (hw : ∀ c ∈ w, isWord c = true) (hrest : isWord (peek rest) = false)
    (hsigil : ¬(byName = false ∧ sigil = .scalar))
    (hstart : sigil = .function → isAlpha (peek (w ++ rest)) = true) :
    ∀ c t, sigil.text byName = c :: t →
      scanFrom c (t ++ w ++ rest) = .ok { type := sigil.type byName, rest } := by
  have hdrop := dropWhile_word hw hrest
  intro c t htext
  cases byName with
  | false =>
    obtain ⟨rfl, rfl⟩ := List.cons.inj htext
    cases sigil with
    | scalar => exact absurd ⟨rfl, rfl⟩ hsigil
    | array => exact congrArg (fun r => Except.ok (Scan.mk .at r 0 [])) hdrop
    | hashtable => exact congrArg (fun r => Except.ok (Scan.mk .percent r 0 [])) hdrop
    | function =>
      change scanSymbol '&' (w ++ rest) = _
      rw [scanSymbol, if_pos (hstart rfl), hdrop]
      rfl
  | true =>
    obtain ⟨rfl, rfl⟩ := List.cons.inj htext
    change scanSymbol '\\' (sigil.byte :: (w ++ rest)) = _
    rw [scanSymbol, show peek (sigil.byte :: (w ++ rest)) = sigil.byte from rfl]
    cases sigil with
    | function =>
      rw [if_pos (show Sigil.function.byte = chr '&' from rfl)]
      dsimp only [List.tail_cons]
      rw [if_pos (hstart rfl), hdrop]
      rfl
    | scalar =>
      rw [if_neg (show Sigil.scalar.byte ≠ chr '&' by decide), if_pos (.inl rfl), List.tail_cons, hdrop]
      rfl
    | array =>
      rw [if_neg (show Sigil.array.byte ≠ chr '&' by decide), if_pos (.inr (.inl rfl)), List.tail_cons, hdrop]
      rfl
    | hashtable =>
      rw [if_neg (show Sigil.hashtable.byte ≠ chr '&' by decide), if_pos (.inr (.inr rfl)), List.tail_cons, hdrop]
      rfl

/-- **A name is one token if and only if it is not a scalar that is misread.** -/
theorem nameLaw_iff (lexer : Lexer) (byName : Bool) (sigil : Sigil) (w rest : Bytes)
    (hat : (skipWhitespace false lexer.current 0).1 = sigil.text byName ++ w ++ rest)
    (hw : ∀ c ∈ w, isWord c = true) (hrest : isWord (peek rest) = false)
    (hstart : sigil = .function → isAlpha (peek (w ++ rest)) = true) :
    NameLaw lexer byName sigil w rest ↔ ¬(byName = false ∧ sigil = .scalar ∧ Misread w rest) := by
  by_cases hsigil : byName = false ∧ sigil = .scalar
  · obtain ⟨rfl, rfl⟩ := hsigil
    obtain ⟨s, hscan, htype, hiff⟩ := scan_null hw hrest
    rw [nameLaw_of_scan hat (fun c t htext => ?_) htype, hiff]
    · simp
    · obtain ⟨rfl, rfl⟩ := List.cons.inj htext
      exact hscan
  · have htype : nameType byName sigil w = sigil.type byName := if_neg fun h => hsigil ⟨h.1, h.2.1⟩
    have hne : sigil.type byName ≠ .error := by cases byName <;> cases sigil <;> decide
    rw [nameLaw_of_scan hat (scan_word hw hrest hsigil hstart) hne, htype]
    exact iff_of_true ⟨rfl, rfl⟩ fun h => hsigil ⟨h.1, h.2.1⟩

/-- `@list` in front of a semicolon. -/
theorem nameLaw_iff_array :
    NameLaw { current := ascii " @list;" } false .array (ascii "list") (ascii ";") ↔
      ¬(false = false ∧ Sigil.array = .scalar ∧ Misread (ascii "list") (ascii ";")) :=
  nameLaw_iff _ false .array (ascii "list") (ascii ";") rfl (List.all_eq_true.1 (by decide))
    rfl nofun

/-- `$nullable` is read as `$null` and a word. -/
theorem not_nameLaw_nullable :
    ¬NameLaw { current := ascii "$nullable" } false .scalar (ascii "nullable") [] := by
  rintro ⟨token, lexer', heq, htype, -, -⟩
  have hnull : (scanToken { current := ascii "$nullable" }).map (·.1.type) = .ok .null := by rfl
  rw [heq] at hnull
  rw [show token.type = .null from Except.ok.inj hnull] at htype
  exact absurd htype (by decide)

end

end Slp.Parse
