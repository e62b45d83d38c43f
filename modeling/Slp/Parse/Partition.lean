import Slp.Parse.Skips

/-!
# The tokens of a source

* `scanTokens`: a number of calls of the lexer;
* `Partition`: blanks and lexemes in turn make up the source;
* `escapesEnd`: a quoted text of the source ends in a backslash right before the NUL;
* `scanLaw_iff`: **the calls stay in the source and divide it up, and end in the token of the end, if
  and only if there is no such text.**
-/

namespace Slp.Parse

/-- A number of calls of the lexer, as long as they have a defined result. -/
def scanTokens : ℕ → Lexer → Except Fault (List Token × Lexer)
  | 0, lexer => .ok ([], lexer)
  | k + 1, lexer =>
    (scanToken lexer).bind fun s => (scanTokens k s.2).map fun r => (s.1 :: r.1, r.2)

/-- Whitespace and comments; a comment goes up to the end of its line. -/
inductive Blank : Bytes → Prop where
  | nil : Blank []
  | space {c : UInt8} {cs : Bytes} (hc : c = chr ' ' ∨ c = chr '\r' ∨ c = chr '\t' ∨ c = chr '\n')
      (hcs : Blank cs) : Blank (c :: cs)
  | comment {u cs : Bytes} (hu : chr '\n' ∉ u) (hend : cs = [] ∨ peek cs = chr '\n') (hcs : Blank cs) :
      Blank (chr '#' :: u ++ cs)

/-- The source is made of blanks and the lexemes of the tokens in turn, up to a rest.  The text of an
error token is a message. -/
inductive Partition : Bytes → List Token → Bytes → Prop where
  | done (rest : Bytes) : Partition rest [] rest
  | eof {blank rest : Bytes} {t : Token} {ts : List Token} (hblank : Blank blank) (htype : t.type = .eof)
      (htext : t.text = []) (hrest : Partition [] ts rest) : Partition blank (t :: ts) rest
  | token {blank lexeme cs rest : Bytes} {t : Token} {ts : List Token} (hblank : Blank blank)
      (htype : t.type ≠ .eof) (htext : t.type ≠ .error → t.text = lexeme) (hne : lexeme ≠ [])
      (hrest : Partition cs ts rest) : Partition (blank ++ lexeme ++ cs) (t :: ts) rest

/-- Every number of calls has a defined result; the tokens divide the source up; behind as many tokens
as it has bytes there is only the end, which stays. -/
def ScanLaw (source : Bytes) : Prop :=
  ∀ k, ∃ tokens lexer, scanTokens k (.init source) = .ok (tokens, lexer) ∧ tokens.length = k ∧
    Partition (Lexer.init source).current tokens lexer.current ∧
    (∀ (i : ℕ) (t : Token), tokens[i]? = some t → (Lexer.init source).current.length ≤ i → t.type = .eof) ∧
    ∀ (i j : ℕ) (t t' : Token), i ≤ j → tokens[i]? = some t → tokens[j]? = some t' → t.type = .eof → t'.type = .eof

/-- Where the scan is: between tokens, in a comment or in a quoted text. -/
inductive Mode where
  | code | comment
  | text (quote : UInt8)
  deriving DecidableEq, Repr

/-- Whether a quoted text ends in a backslash at the end. -/
def escapesEnd : Mode → Bytes → Bool
  | _, [] => false
  | .code, c :: cs =>
    if c = chr '#' then escapesEnd .comment cs
    else if isQuote c then escapesEnd (.text c) cs
    else escapesEnd .code cs
  | .comment, c :: cs => escapesEnd (if c = chr '\n' then .code else .comment) cs
  | .text quote, c :: cs =>
    if c = quote then escapesEnd .code cs
    else if c = chr '\\' then
      match cs with
      | [] => true
      | _ :: cs => escapesEnd (.text quote) cs
    else escapesEnd (.text quote) cs

section

variable {quote c : UInt8} (cs : Bytes)

theorem escapesEnd_quote : escapesEnd (.text quote) (quote :: cs) = escapesEnd .code cs := by
  rw [escapesEnd.eq_def]
  exact if_pos rfl

theorem escapesEnd_escape_nil (hquote : chr '\\' ≠ quote) :
    escapesEnd (.text quote) [chr '\\'] = true := by
  rw [escapesEnd.eq_def]
  exact if_neg hquote

theorem escapesEnd_escape (hquote : chr '\\' ≠ quote) :
    escapesEnd (.text quote) (chr '\\' :: c :: cs) = escapesEnd (.text quote) cs := by
  rw [escapesEnd.eq_def]
  exact if_neg hquote

theorem escapesEnd_char (hquote : c ≠ quote) (hslash : c ≠ chr '\\') :
    escapesEnd (.text quote) (c :: cs) = escapesEnd (.text quote) cs := by
  rw [escapesEnd.eq_def]
  exact (if_neg hquote).trans (if_neg hslash)

end

/-! ### Blanks -/

section

variable {rest : Bytes} {c : UInt8}

/-- What is skipped is blank; in a comment it is the rest of the comment first. -/
theorem skipWhitespace_blank (comment : Bool) (cs : Bytes) (n : ℕ) :
    ∃ u v, cs = u ++ v ++ (skipWhitespace comment cs n).1 ∧ chr '\n' ∉ u ∧ (comment = false → u = []) ∧
      Blank v ∧ (comment = true → v ++ (skipWhitespace comment cs n).1 = [] ∨ peek v = chr '\n') := by
  fun_induction skipWhitespace comment cs n with
  | case1 comment n => exact ⟨[], [], rfl, List.not_mem_nil, fun _ => rfl, .nil, fun _ => .inl rfl⟩
  | case2 comment n cs ih =>
    obtain ⟨u, v, heq, -, hu, hv, -⟩ := ih
    rw [hu rfl, List.nil_append] at heq
    refine ⟨[], chr '\n' :: v, ?_, List.not_mem_nil, fun _ => rfl, .space (.inr (.inr (.inr rfl))) hv,
      fun _ => .inr rfl⟩
    rw [List.nil_append, List.cons_append, ← heq]
  | case3 c cs n hc ih =>
    obtain ⟨u, v, heq, hu, -, hv, hend⟩ := ih
    refine ⟨c :: u, v, ?_, List.not_mem_cons_of_ne_of_not_mem (Ne.symm hc) hu,
      fun h => (by cases h), hv, hend⟩
    rw [List.cons_append, List.cons_append, ← heq]
  | case4 comment c cs n hc hcomment hspace ih =>
    obtain ⟨u, v, heq, -, hu, hv, -⟩ := ih
    rw [hu rfl, List.nil_append] at heq
    refine ⟨[], c :: v, ?_, List.not_mem_nil, fun _ => rfl, .space ?_ hv, fun h => absurd h hcomment⟩
    · rw [List.nil_append, List.cons_append, ← heq]
    · rcases hspace with h | h | h
      · exact .inl h
      · exact .inr (.inl h)
      · exact .inr (.inr (.inl h))
  | case5 comment cs n hc hcomment hspace ih =>
    obtain ⟨u, v, heq, hu, -, hv, hend⟩ := ih
    refine ⟨[], chr '#' :: u ++ v, ?_, List.not_mem_nil, fun _ => rfl, .comment hu ?_ hv,
      fun h => absurd h hc⟩
    · rw [List.nil_append, List.cons_append, List.cons_append, ← heq]
    · exact (hend rfl).imp_left fun h => (List.append_eq_nil_iff.1 h).1
  | case6 comment c cs n hc hcomment hspace hhash =>
    exact ⟨[], [], rfl, List.not_mem_nil, fun _ => rfl, .nil, fun h => absurd h hcomment⟩

theorem blank_skipped (cs : Bytes) (n : ℕ) :
    ∃ blank, Blank blank ∧ cs = blank ++ (skipWhitespace false cs n).1 := by
  obtain ⟨u, v, heq, -, hu, hv, -⟩ := skipWhitespace_blank false cs n
  rw [hu rfl, List.nil_append] at heq
  exact ⟨v, hv, heq⟩

/-- What is skipped opens no text. -/
theorem escapesEnd_skipped (comment : Bool) (cs : Bytes) (n : ℕ) :
    escapesEnd .code (skipWhitespace comment cs n).1 =
      escapesEnd (if comment then .comment else .code) cs := by
  fun_induction skipWhitespace comment cs n with
  | case1 comment n => cases comment <;> rfl
  | case2 comment n cs ih =>
    rw [ih]
    cases comment <;> rfl
  | case3 c cs n hc ih =>
    rw [ih, if_pos rfl, escapesEnd, if_neg hc]
  | case4 comment c cs n hc hcomment hspace ih =>
    rw [ih, if_neg hcomment, if_neg Bool.false_ne_true, escapesEnd]
    rcases hspace with rfl | rfl | rfl <;> rfl
  | case5 comment cs n hc hcomment hspace ih =>
    rw [ih, if_neg hc]
    rfl
  | case6 comment c cs n hc hcomment hspace hhash => rw [if_neg hcomment]

/-- The first byte of a token opens no comment and ends no line. -/
theorem skipWhitespace_head (comment : Bool) (cs : Bytes) (n : ℕ)
    (hcs : (skipWhitespace comment cs n).1 = c :: rest) : c ≠ chr '#' ∧ c ≠ chr '\n' := by
  fun_induction skipWhitespace comment cs n with
  | case1 => cases hcs
  | case6 comment c' cs n hc hcomment hspace hhash => exact (List.cons.inj hcs).1 ▸ ⟨hhash, hc⟩
  | _ =>
    rename_i ih
    exact ih hcs

end

/-! ### Tokens that are no quoted text -/

section

variable {cs rest : Bytes} {c : UInt8} {s : Scan}

theorem escapesEnd_cons (h : opens c = false) : escapesEnd .code (c :: cs) = escapesEnd .code cs := by
  rw [opens, Bool.or_eq_false_iff, beq_eq_false_iff_ne] at h
  rw [escapesEnd, if_neg h.1, h.2, if_neg Bool.false_ne_true]

theorem escapesEnd_skips (h : Skips plain cs rest) :
    escapesEnd .code rest = escapesEnd .code cs := by
  obtain ⟨u, rfl, hu⟩ := h
  induction u with
  | nil => rfl
  | cons c u ih =>
    obtain ⟨hc, hu⟩ := List.forall_mem_cons.1 hu
    rw [ih hu, List.cons_append, escapesEnd_cons (plain_iff.1 hc).1]

theorem scanFrom_level (hc : opens c = false) (h : scanFrom c cs = .ok s) :
    escapesEnd .code s.rest = escapesEnd .code cs :=
  escapesEnd_skips (scanFrom_plain hc h).skips

end

/-! ### Quoted texts -/

theorem scanString_level {quote : UInt8} {type : TokenType} {cs : Bytes} {n : ℕ} {s : Scan}
    (h : scanString quote type cs n = .ok s) :
    escapesEnd .code s.rest = escapesEnd (.text quote) cs := by
  fun_induction scanString quote type cs n with
  | case1 => cases h; rfl
  | case2 => cases h; rw [escapesEnd_quote]
  | case3 => cases h
  | case4 _ _ cs hquote ih => rw [ih h, escapesEnd_escape cs hquote]
  | case5 c cs _ hquote hslash ih => rw [ih h, escapesEnd_char cs hquote hslash]

theorem escapesEnd_text {quote : UInt8} {cs : Bytes} (h : endsInEscape quote cs = true) :
    escapesEnd (.text quote) cs = true := by
  fun_induction endsInEscape quote cs with
  | case1 => cases h
  | case2 => cases h
  | case3 hquote => exact escapesEnd_escape_nil hquote
  | case4 _ cs hquote ih => rw [escapesEnd_escape cs hquote, ih h]
  | case5 c cs hquote hslash ih => rw [escapesEnd_char cs hquote hslash, ih h]

/-! ### One token -/

section

variable {lexer lexer' : Lexer} {t : Token}

/-- What one call does to the source: at the end only blanks are left, and elsewhere blanks and a
lexeme are passed over. -/
theorem scanToken_passes (h : scanToken lexer = .ok (t, lexer')) :
    ∃ blank, Blank blank ∧
      ((t.type = .eof ∧ t.text = [] ∧ lexer.current = blank ∧ lexer'.current = []) ∨
        t.type ≠ .eof ∧ ∃ lexeme, lexeme ≠ [] ∧ (t.type ≠ .error → t.text = lexeme) ∧
          lexer.current = blank ++ lexeme ++ lexer'.current) := by
  obtain ⟨blank, hblank, hcurrent⟩ := blank_skipped lexer.current 0
  refine ⟨blank, hblank, ?_⟩
  unfold scanToken at h
  dsimp only at h
  split at h
  · next hnil =>
    cases h
    rw [hnil, List.append_nil] at hcurrent
    exact .inl ⟨rfl, rfl, hcurrent, rfl⟩
  · next c cs hcons =>
    rw [hcons] at hcurrent
    cases hs : scanFrom c cs with
    | error e => rw [hs] at h; cases h
    | ok s =>
      rw [hs] at h
      cases h
      obtain ⟨hne, u, hu⟩ := scanFrom_within hs
      refine .inr ⟨hne, c :: u, List.cons_ne_nil c u, fun herror => ?_, ?_⟩
      · dsimp only at herror ⊢
        rw [if_neg herror, ← hu]
        exact take_of_rest (c :: u) s.rest
      · rw [hcurrent, ← hu, List.append_assoc, List.cons_append]

theorem scanToken_level (h : scanToken lexer = .ok (t, lexer')) :
    escapesEnd .code lexer'.current = escapesEnd .code lexer.current := by
  have hskip := escapesEnd_skipped false lexer.current 0
  rw [if_neg Bool.false_ne_true] at hskip
  rw [← hskip]
  unfold scanToken at h
  dsimp only at h
  split at h
  · next hnil => cases h; rw [hnil]
  · next c cs hcons =>
    rw [hcons]
    cases hs : scanFrom c cs with
    | error e => rw [hs] at h; cases h
    | ok s =>
      rw [hs] at h
      cases h
      show escapesEnd .code s.rest = _
      have hhash : c ≠ chr '#' := (skipWhitespace_head false lexer.current 0 hcons).1
      cases hquote : isQuote c with
      | false =>
        have hopens : opens c = false := by rw [opens, beq_false_of_ne hhash, hquote]; rfl
        rw [scanFrom_level hopens hs, escapesEnd_cons hopens]
      | true =>
        obtain ⟨type, -, htype⟩ := scanFrom_quote cs hquote
        rw [scanString_level (htype ▸ hs), escapesEnd, if_neg hhash, hquote, if_pos rfl]

/-- A text that ends in an escape at the end is still ahead of a call that has no result. -/
theorem escapesEnd_of_opensEscape (h : lexer.opensEscape = true) :
    escapesEnd .code lexer.current = true := by
  have hskip := escapesEnd_skipped false lexer.current 0
  rw [if_neg Bool.false_ne_true] at hskip
  rw [← hskip]
  unfold Lexer.opensEscape at h
  split at h
  · cases h
  · next c cs hcons =>
    rw [Bool.and_eq_true] at h
    rw [hcons, escapesEnd, if_neg (skipWhitespace_head false lexer.current 0 hcons).1, if_pos h.1]
    exact escapesEnd_text h.2

theorem scanToken_ok (h : escapesEnd .code lexer.current = false) :
    ∃ t lexer', scanToken lexer = .ok (t, lexer') := by
  cases hs : scanToken lexer with
  | ok s => exact ⟨s.1, s.2, rfl⟩
  | error e =>
    rw [escapesEnd_of_opensEscape (scanToken_eq_error.1 hs).1] at h
    cases h

end

/-! ### Runs -/

theorem scanTokens_cons {k : ℕ} {lexer lexer' : Lexer} {t : Token}
    (h : scanToken lexer = .ok (t, lexer')) :
    scanTokens (k + 1) lexer = (scanTokens k lexer').map fun r => (t :: r.1, r.2) := by
  rw [scanTokens, h]
  rfl

/-- What `ScanLaw` says of `k` calls from anywhere. -/
structure Scanned (lexer : Lexer) (k : ℕ) (tokens : List Token) (lexer' : Lexer) : Prop where
  length : tokens.length = k
  partition : Partition lexer.current tokens lexer'.current
  /-- Each token but the end takes at least a byte. -/
  ends : ∀ (i : ℕ) (t : Token), tokens[i]? = some t → lexer.current.length ≤ i → t.type = .eof
  stays : ∀ (i j : ℕ) (t t' : Token), i ≤ j → tokens[i]? = some t → tokens[j]? = some t' →
    t.type = .eof → t'.type = .eof

theorem scanTokens_scanned (k : ℕ) (lexer : Lexer) (h : escapesEnd .code lexer.current = false) :
    ∃ tokens lexer', scanTokens k lexer = .ok (tokens, lexer') ∧ Scanned lexer k tokens lexer' := by
  induction k generalizing lexer with
  | zero =>
    have hnone : ∀ {i : ℕ} {t : Token}, ([] : List Token)[i]? ≠ some t := by simp
    exact ⟨[], lexer, rfl, rfl, .done _, fun _ _ h => absurd h hnone,
      fun _ _ _ _ _ h => absurd h hnone⟩
  | succ k ih =>
    obtain ⟨t, lexer₁, hscan⟩ := scanToken_ok h
    obtain ⟨ts, lexer₂, hrun, hts⟩ := ih lexer₁ (scanToken_level hscan ▸ h)
    have hspec := scanToken_spec hscan
    refine ⟨t :: ts, lexer₂, by rw [scanTokens_cons hscan, hrun]; rfl, congrArg (· + 1) hts.length,
      ?_, fun i t' hi hle => ?_, fun i j t' t'' hij hi hj heof => ?_⟩
    · obtain ⟨blank, hblank, ⟨heof, htext, hcurrent, hnil⟩ | ⟨hne, lexeme, hlexeme, htext, hcurrent⟩⟩ :=
        scanToken_passes hscan
      · exact hcurrent ▸ .eof hblank heof htext (hnil ▸ hts.partition)
      · exact hcurrent ▸ .token hblank hne htext hlexeme hts.partition
    · -- the source gets shorter by a byte at least until it is empty
      have hlt := hspec.length
      have hnil := hspec.ofEof
      cases i with
      | zero =>
        cases hi
        by_contra hne
        have := hlt hne
        omega
      | succ i =>
        refine hts.ends i t' hi ?_
        by_cases heof : t.type = .eof
        · rw [(hnil heof).1]
          exact Nat.zero_le i
        · have := hlt heof
          omega
    · cases i with
      | zero =>
        cases hi
        cases j with
        | zero => cases hj; exact heof
        | succ j =>
          refine hts.ends j t'' hj ?_
          rw [(hspec.ofEof heof).1]
          exact Nat.zero_le j
      | succ i =>
        cases j with
        | zero => omega
        | succ j => exact hts.stays i j t' t'' (Nat.le_of_succ_le_succ hij) hi hj heof

/-- A text that ends in an escape at the end is reached. -/
theorem scanTokens_fails (n : ℕ) (lexer : Lexer) (hn : lexer.current.length ≤ n)
    (h : escapesEnd .code lexer.current = true) : ∃ k e, scanTokens k lexer = .error e := by
  induction n generalizing lexer with
  | zero =>
    rw [List.eq_nil_of_length_eq_zero (Nat.le_zero.1 hn)] at h
    cases h
  | succ n ih =>
    cases hscan : scanToken lexer with
    | error e => exact ⟨1, e, by rw [scanTokens, hscan]; rfl⟩
    | ok s =>
      obtain ⟨t, lexer'⟩ := s
      have hlevel := scanToken_level hscan
      have hspec := scanToken_spec hscan
      have hne : t.type ≠ .eof := by
        intro heof
        rw [(hspec.ofEof heof).1, h] at hlevel
        cases hlevel
      have hlt := hspec.length hne
      obtain ⟨k, e, hk⟩ := ih lexer' (by omega) (hlevel ▸ h)
      exact ⟨k + 1, e, by rw [scanTokens_cons hscan, hk]; rfl⟩

/-- The calls of the lexer divide the source up and end, for as many calls as one likes, exactly if no
quoted text of it ends in a backslash right before the NUL. -/
theorem scanLaw_iff (source : Bytes) :
    ScanLaw source ↔ escapesEnd .code (Lexer.init source).current = false := by
  constructor
  · intro h
    by_contra hends
    obtain ⟨k, e, hk⟩ := scanTokens_fails _ (.init source) (Nat.le_refl _) (Bool.not_eq_false _ ▸ hends)
    obtain ⟨tokens, lexer, hok, -⟩ := h k
    rw [hk] at hok
    cases hok
  · intro h k
    obtain ⟨tokens, lexer, hrun, hscanned⟩ := scanTokens_scanned k (.init source) h
    exact ⟨tokens, lexer, hrun, hscanned.length, hscanned.partition, hscanned.ends, hscanned.stays⟩

/-- A quotation mark and a backslash. -/
theorem not_scanLaw_escape : ¬ ScanLaw [chr '"', chr '\\'] := by
  intro h
  obtain ⟨tokens, lexer, hok, -⟩ := h 1
  cases hok

end Slp.Parse
