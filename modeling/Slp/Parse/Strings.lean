import Mathlib.Logic.Relation
import Mathlib.Order.Basic
import Slp.Parse.Good

/-!
# Double-quoted strings

* `reference`: what a double-quoted text stands for, piece by piece;
* `Denotes`: the pieces that a tree of the parser is the concatenation of;
* `Rounds`: the values that the variables of `parse_double_quoted_string` take in its loop;
* `rounds_fit`: **the array of the parts and the buffer of the literal are never overrun;**
* `parseDoubleQuotedString_spec`: **a text that is accepted gives a tree of the pieces it stands for.**

What one time round the loop does is said once (`Grows`).
-/

namespace Slp.Parse

open Program

/-! ### What a text stands for -/

/-- A piece of a string: a byte, the value of a variable, or such a value with a width. -/
inductive Piece where
  | byte (c : UInt8)
  | variable (name : Bytes)
  | aligned (width name : Bytes)
  deriving DecidableEq, Repr

/-- Whether a byte goes on with a name. -/
def isName (c : UInt8) : Bool := !parsedStringVarEnd c

/-- The variable behind a dollar sign, and what follows it. -/
def variableAt (cs : Bytes) : Option (Piece × Bytes) :=
  if peek cs = chr '[' then
    (splitWidth 1 cs.tail).map fun w => (.aligned w.1 (w.2.takeWhile isName), w.2.dropWhile isName)
  else some (.variable (cs.takeWhile isName), cs.dropWhile isName)

theorem length_variableAt {cs : Bytes} {v : Piece × Bytes} (h : variableAt cs = some v) :
    v.2.length ≤ cs.length := by
  unfold variableAt at h
  split_ifs at h with hbracket
  · obtain ⟨w, hw, rfl⟩ := Option.map_eq_some_iff.1 h
    have hle := (List.dropWhile_sublist (p := isName) (l := w.2)).length_le
    have hlen := splitWidth_length hw
    rw [List.length_tail] at hlen
    show (w.2.dropWhile isName).length ≤ cs.length
    omega
  · cases h
    exact (List.dropWhile_sublist _).length_le

/-- The pieces of a double-quoted text: an escape is a character, ` $+ ` joins what is around it, a
dollar sign before a name stands for a variable, and any other byte for itself. -/
def reference : Bytes → Option (List Piece)
  | [] => some []
  | c :: cs =>
    if c = chr '\\' ∧ cs ≠ [] then (reference cs.tail).map (.byte (unescape (peek cs)) :: ·)
    else if c = chr ' ' ∧ cs.take 3 = ascii "$+ " then reference (cs.drop 3)
    else if c = chr '$' ∧ cs ≠ [] ∧ isName (peek cs) then
      match h : variableAt cs with
      | none => none
      | some (piece, rest) =>
        have : rest.length ≤ cs.length := length_variableAt h
        (reference rest).map (piece :: ·)
    else (reference cs).map (.byte c :: ·)
termination_by cs => cs.length
decreasing_by all_goals simp only [List.length_cons, List.length_tail, List.length_drop]; omega

/-- There are no more pieces than bytes. -/
theorem length_reference {cs : Bytes} {ps : List Piece} (h : reference cs = some ps) :
    ps.length ≤ cs.length := by
  fun_induction reference cs generalizing ps with
  | case1 =>
    cases h
    exact le_rfl
  | case2 c cs hesc ih =>
    obtain ⟨qs, hqs, rfl⟩ := Option.map_eq_some_iff.1 h
    have := ih hqs
    rw [List.length_tail] at this
    simp only [List.length_cons]
    omega
  | case3 c cs _ hjoin ih =>
    have := ih h
    rw [List.length_drop] at this
    simp only [List.length_cons]
    omega
  | case4 => cases h
  | case5 c cs _ _ _ piece rest hvalue hlen ih =>
    obtain ⟨qs, hqs, rfl⟩ := Option.map_eq_some_iff.1 h
    have := ih hqs
    simp only [List.length_cons]
    omega
  | case6 c cs _ _ _ ih =>
    obtain ⟨qs, hqs, rfl⟩ := Option.map_eq_some_iff.1 h
    have := ih hqs
    simp only [List.length_cons]
    omega

/-! ### What a tree is the concatenation of -/

/-- The parser of alignment widths makes this tree of the text. -/
def WidthOf (source : Bytes) (width : Tree) : Prop :=
  ∃ n s t, parseAlignmentWidth (calls n) source s = (.ok width, t) ∧ width.isMissing = false

/-- The tree is the concatenation of the pieces. -/
inductive Denotes : Tree → List Piece → Prop
  | string (line : ℤ) (s : Bytes) : Denotes (.string line s) (s.map .byte)
  | scalar (line : ℤ) (name : Bytes) : Denotes (.scalar line name) [.variable name]
  | align {source : Bytes} {width : Tree} (line line' : ℤ) (name : Bytes) (h : WidthOf source width) :
    Denotes (.align line width (.scalar line' name)) [.aligned source name]
  | join {line : ℤ} {op : Token} {a b : Tree} {ps qs : List Piece} (hop : op.type = .dot)
    (ha : Denotes a ps) (hb : Denotes b qs) : Denotes (.binop line op false a b) (ps ++ qs)

/-- The parts are the concatenation of the pieces. -/
inductive DenoteAll : List Tree → List Piece → Prop
  | nil : DenoteAll [] []
  | concat {ts : List Tree} {t : Tree} {ps qs : List Piece} (h : DenoteAll ts ps) (ht : Denotes t qs) :
    DenoteAll (ts ++ [t]) (ps ++ qs)

theorem joinParts_concat (t : Tree) (ts : List Tree) (u : Tree) :
    joinParts t (ts ++ [u]) =
      .binop u.line { type := .dot, text := ascii ".", line := u.line } false (joinParts t ts) u := by
  induction ts generalizing t with
  | nil => rfl
  | cons t' ts ih => exact ih _

theorem DenoteAll.eq_nil {ts : List Tree} {ps : List Piece} (h : DenoteAll ts ps) (hts : ts = []) :
    ps = [] := by
  cases h with
  | nil => rfl
  | concat => exact absurd hts (List.append_ne_nil_of_right_ne_nil _ (List.cons_ne_nil _ _))

/-- Parts joined from the left. -/
theorem DenoteAll.join {l : List Tree} {ps : List Piece} (h : DenoteAll l ps) {t : Tree}
    {ts : List Tree} (hl : l = t :: ts) : Denotes (joinParts t ts) ps := by
  induction h generalizing ts with
  | nil => cases hl
  | @concat l u ps qs h hu ih =>
    cases l with
    | nil =>
      obtain ⟨rfl, rfl⟩ := List.cons.inj hl
      rw [h.eq_nil rfl]
      exact hu
    | cons t' l =>
      obtain ⟨rfl, rfl⟩ := List.cons.inj hl
      exact joinParts_concat t' l u ▸ .join rfl (ih rfl) hu

/-! ### The variables of the loop -/

/-- The text between the quotes. -/
def inner (text : Bytes) : Bytes := text.tail.take (text.length - 2)

/-- The variables before the loop. -/
def Parts.start (token : Token) : Parts :=
  let line := token.line - newlines token.text
  { cursor := inner token.text, cursorLine := line, literalLine := line }

/-- What one time round the loop does: bytes are put into the literal, or the literal is closed and the
value of a variable put behind it. -/
inductive Grows (p : Parts) : Parts → Prop
  | text {q : Parts} {bs : Bytes}
    (hcursor : reference p.cursor = (reference q.cursor).map (bs.map .byte ++ ·))
    (hparts : q.parts = p.parts) (hliteral : q.literal = p.literal ++ bs)
    (hroom : bs.length + q.cursor.length ≤ p.cursor.length) : Grows p q
  | value {q : Parts} {t : Tree} {piece : Piece}
    (hcursor : reference p.cursor = (reference q.cursor).map (piece :: ·))
    (hparts : q.parts = p.flush.parts ++ [t]) (hliteral : q.literal = []) (ht : Denotes t [piece])
    (hfew : p.parts.length ≤ 509) (hroom : q.cursor.length ≤ p.cursor.length) : Grows p q

/-! ### A step -/

/-- The lexer and the current token stay. -/
def still : Contract Fault Parser where
  pre _ := True
  rel s t := t.lexer = s.lexer ∧ t.current = s.current
  fault _ _ _ := True
  refl _ := ⟨rfl, rfl⟩
  trans h h' := ⟨h'.1.trans h.1, h'.2.trans h.2⟩
  keeps _ _ := trivial
  late _ _ := trivial

section Still

variable {α : Type} {n : ℕ} {s : Parser} {p : ParserM α} {Q : α → Parser → Prop}

/-- A run that ends well is the run that there is. -/
theorem meets_run (h : still.Meets p s Q) : still.Meets p s fun a t => Q a t ∧ p s = (.ok a, t) := by
  intro hs
  have hrun := h hs
  unfold Ends at hrun ⊢
  split at hrun
  · next heq => exact ⟨hrun.1, hrun.2, heq⟩
  · trivial

theorem error_still (message : Bytes) : still.Meets (error message) s fun _ _ => True := by
  refine .modify fun _ => ⟨?_, trivial⟩
  unfold Parser.errorAt
  split <;> exact ⟨rfl, rfl⟩

theorem modify_still {f : Parser → Parser}
    (h : ∀ s, (f s).lexer = s.lexer ∧ (f s).current = s.current) :
    still.Meets (modify f) s fun _ _ => True := .modify fun _ => ⟨h s, trivial⟩

theorem enter_still {R : α → Prop} (h : still.Meets p s.openCall fun a _ => R a) :
    still.Meets (enter p) s fun a _ => R a := by
  refine Contract.Meets.bind (P := fun _ t => t = s.openCall) (.modify fun _ => ⟨⟨rfl, rfl⟩, rfl⟩) ?_
  rintro _ _ - - rfl
  refine h.bind fun a _ _ _ ha => ?_
  exact (modify_still (f := Parser.closeCall) fun _ => ⟨rfl, rfl⟩).bind fun _ _ _ _ _ => .pure ha

/-- A parse of another text is one of another parser. -/
theorem onText_still (source : Bytes) : still.Meets (onText source p) s fun _ _ => True := by
  intro _
  unfold Ends onText
  generalize p (s.openText source) = result
  obtain ⟨_ | _, u⟩ := result
  · trivial
  · exact ⟨⟨rfl, rfl⟩, trivial⟩

theorem parseAlignmentWidth_still (r : Calls) (source : Bytes) :
    still.Meets (parseAlignmentWidth r source) s fun _ _ => True := by
  refine enter_still <| Contract.Meets.bind (P := fun _ _ => True) ?_ fun _ _ _ _ _ =>
    .ite (fun _ => (error_still _).bind fun _ _ _ _ _ => .pure trivial) fun _ => .pure trivial
  refine (modify_still (f := Parser.openNested) fun _ => ⟨rfl, rfl⟩).bind fun _ _ _ _ _ => ?_
  refine (onText_still source).bind fun _ _ _ _ _ => ?_
  exact (modify_still (f := Parser.closeNested) fun _ => ⟨rfl, rfl⟩).bind
    fun _ _ _ _ _ => .pure trivial

/-- An alignment, if there is one, is a width and a name behind it. -/
inductive Aligns (p : Parts) : Tree × Parts → Prop
  | none {w : Tree × Parts} (hpeek : peek p.cursor ≠ chr '[') (hwidth : w.1.isMissing = true)
    (hparts : w.2 = p) : Aligns p w
  | width {w : Tree × Parts} {source rest : Bytes} {line : ℤ} (hpeek : peek p.cursor = chr '[')
    (hsplit : splitWidth 1 p.cursor.tail = some (source, rest)) (hwidth : WidthOf source w.1)
    (hparts : w.2 = { p with cursor := rest, cursorLine := line }) : Aligns p w

theorem alignment_still (n : ℕ) (p : Parts) (s : Parser) :
    still.Meets (alignment (calls n) p) s fun o _ => ∀ w, o = some w → Aligns p w := by
  have hnone : ∀ {s message}, still.Meets (do
      error message
      return Option.none) s fun o _ => ∀ w, o = some w → Aligns p w :=
    (error_still _).bind fun _ _ _ _ _ => .pure nofun
  unfold alignment
  split
  · next c cs hcursor =>
    have hpeek : peek p.cursor = c := by rw [hcursor]; rfl
    refine .ite (fun hc => ?_) fun hc => .pure ?_
    · split
      · exact hnone
      · next source rest hsplit =>
        refine .ite (fun _ => hnone) fun _ => ?_
        refine (meets_run (parseAlignmentWidth_still (calls n) source)).bind
          fun width t _ _ hwidth => ?_
        refine .ite (fun _ => .pure nofun) fun hm => .ite (fun _ => hnone) fun _ => .pure ?_
        rintro _ ⟨⟩
        refine .width (hpeek.trans hc) (by rw [hcursor]; exact hsplit) ?_ rfl
        exact ⟨n, s, t, hwidth.2, Bool.eq_false_iff.2 hm⟩
    · rintro _ ⟨⟩
      exact .none (hpeek ▸ hc) rfl rfl
  · next hcursor =>
    refine .pure ?_
    rintro _ ⟨⟩
    exact .none (by rw [hcursor]; decide) rfl rfl

/-- The pieces of a text that begins with a variable. -/
theorem reference_variable {cs : Bytes} (hne : cs ≠ []) (hname : isName (peek cs) = true) :
    reference (chr '$' :: cs) =
      (variableAt cs).bind fun v => (reference v.2).map (v.1 :: ·) := by
  rw [reference, if_neg (by rintro ⟨h, -⟩; exact absurd h (by decide)),
    if_neg (by rintro ⟨h, -⟩; exact absurd h (by decide)), if_pos ⟨rfl, hne, hname⟩]
  split
  · next h => simp only [h, Option.bind_none]
  · next piece rest h => simp only [h, Option.bind_some]

theorem stringVariable_still (n : ℕ) {p : Parts} {cs : Bytes} (hcursor : p.cursor = chr '$' :: cs)
    (hne : cs ≠ []) (hname : isName (peek cs) = true) (hfew : p.parts.length ≤ 509) (s : Parser) :
    still.Meets (stringVariable (calls n) { p.flush with cursor := cs }) s fun o _ =>
      ∀ q, o = some q → Grows p q := by
  have hliteral : p.flush.literal = [] := by
    unfold Parts.flush
    split
    · assumption
    · rfl
  refine (alignment_still n { p.flush with cursor := cs } s).bind fun o _ _ _ ho => ?_
  split
  · exact .pure nofun
  · next width p' =>
    refine .pure ?_
    rintro _ ⟨⟩
    have hroom : ∀ rest : Bytes, rest.length ≤ cs.length →
        (rest.dropWhile isName).length ≤ p.cursor.length := by
      intro rest hrest
      have := (List.dropWhile_sublist (p := isName) (l := rest)).length_le
      rw [hcursor, List.length_cons]
      omega
    have href := reference_variable hne hname
    unfold variableAt at href
    rw [← hcursor] at href
    cases ho (width, p') rfl with
    | none hpeek hwidth hparts =>
      cases hparts
      rw [if_neg hpeek] at href
      exact .value href (congrArg (fun t => p.flush.parts ++ [t]) (if_pos hwidth)) hliteral
        (.scalar _ _) hfew (hroom cs le_rfl)
    | @width source rest line hpeek hsplit hwidth hparts =>
      cases hparts
      rw [if_pos hpeek, hsplit] at href
      have hlen := splitWidth_length hsplit
      have hmissing : width.isMissing = false := hwidth.choose_spec.choose_spec.choose_spec.2
      have hwide : ¬ width.isMissing = true := by rw [hmissing]; exact Bool.false_ne_true
      refine .value href (congrArg (fun t => p.flush.parts ++ [t]) (if_neg hwide)) hliteral
        (.align _ _ _ hwidth) hfew (hroom rest ?_)
      simp only [List.length_tail] at hlen
      omega

/-- What one time round the loop does. -/
theorem part_still (n : ℕ) {p : Parts} (hne : p.cursor ≠ []) (s : Parser) :
    still.Meets (part (calls n) p) s fun o _ => ∀ q, o = some q → Grows p q := by
  have hnone : ∀ {s message}, still.Meets (do
      error message
      return Option.none) s fun o _ => ∀ q, o = some q → Grows p q :=
    (error_still _).bind fun _ _ _ _ _ => .pure nofun
  refine .ite (fun _ => hnone) fun hfew => ?_
  obtain ⟨cursor, cursorLine, literalLine, literal, parts⟩ := p
  cases cursor with
  | nil => exact absurd rfl hne
  | cons c cs =>
    refine .ite (fun hesc => .pure ?_) fun hesc => .ite (fun hjoin => .pure ?_) fun hjoin =>
      .ite (fun _ => hnone) fun hplus => .ite (fun hvar => ?_) fun hvar => .pure ?_
    · rintro _ ⟨⟩
      refine @Grows.text _ _ [unescape (peek cs)] ?_ rfl rfl ?_
      · rw [reference, if_pos hesc]
        rfl
      · obtain ⟨d, cs, rfl⟩ := List.exists_cons_of_ne_nil hesc.2
        show 1 + cs.length ≤ cs.length + 1 + 1
        omega
    · rintro _ ⟨⟩
      refine @Grows.text _ _ [] ?_ rfl (List.append_nil _).symm ?_
      · rw [reference, if_neg hesc, if_pos hjoin]
        simp
      · simp only [List.length_nil, List.length_drop, List.length_cons]
        omega
    · obtain ⟨rfl, hne', hname⟩ := hvar
      exact stringVariable_still n rfl hne' hname (Nat.le_of_lt_succ (Nat.lt_of_not_le hfew)) s
    · rintro _ ⟨⟩
      refine @Grows.text _ _ [c] ?_ rfl rfl ?_
      · have hvar' : ¬(c = chr '$' ∧ cs ≠ [] ∧ isName (peek cs) = true) := hvar
        rw [reference, if_neg hesc, if_neg hjoin, if_neg hvar']
        rfl
      · show 1 + cs.length ≤ cs.length + 1
        omega

end Still

/-! ### The loop -/

/-- One time round the loop, in some state of the parser. -/
def Round (p q : Parts) : Prop := p.cursor ≠ [] ∧ ∃ n s t, part (calls n) p s = (.ok (some q), t)

/-- Some times round the loop. -/
def Rounds : Parts → Parts → Prop := Relation.ReflTransGen Round

theorem Round.grows {p q : Parts} (h : Round p q) : Grows p q := by
  obtain ⟨hne, n, s, t, hrun⟩ := h
  have hpart := part_still n hne s trivial
  unfold Ends at hpart
  rw [hrun] at hpart
  exact hpart.2 q rfl

/-- The loop goes round up to the end of the text. -/
theorem partsLoop_still (n : ℕ) (p : Parts) (s : Parser) :
    still.Meets ((calls n).partsLoop p) s fun o _ => ∀ q, o = some q → Rounds p q ∧ q.cursor = [] := by
  induction n generalizing p s with
  | zero => exact fun _ => trivial
  | succ n ih =>
    refine .ite (fun hnil => .pure ?_) fun hne => ?_
    · rintro _ ⟨⟩
      exact ⟨.refl, hnil⟩
    · refine (meets_run (part_still n hne s)).bind fun o t _ _ ho => ?_
      cases o with
      | none => exact .pure nofun
      | some p' =>
        refine (ih p' t).mono fun o _ _ hq q heq => ?_
        obtain ⟨hrounds, hend⟩ := hq q heq
        exact ⟨.head ⟨hne, n, s, t, ho.2⟩ hrounds, hend⟩

/-- The array of 512 parts and the buffer of as many bytes as the text has are not overrun. -/
def Fits (token : Token) : Prop :=
  ∀ p, Rounds (Parts.start token) p →
    p.flush.parts.length ≤ 512 ∧ p.literal.length ≤ (inner token.text).length

theorem length_flush (p : Parts) : p.flush.parts.length ≤ p.parts.length + 1 := by
  unfold Parts.flush
  split <;> simp

/-- **The array of the parts and the buffer of the literal are never overrun.** -/
theorem rounds_fit (token : Token) : Fits token := by
  intro p hp
  have hinv : p.parts.length ≤ 511 ∧
      p.literal.length + p.cursor.length ≤ (inner token.text).length := by
    induction hp with
    | refl => exact ⟨Nat.zero_le _, by simp [Parts.start]⟩
    | @tail p q _ hround ih =>
      obtain ⟨hparts, hliteral⟩ := ih
      cases hround.grows with
      | text _ hq hq' hroom =>
        rw [hq, hq', List.length_append]
        exact ⟨hparts, by omega⟩
      | value _ hq hq' _ hfew hroom =>
        have hflush := length_flush p
        rw [hq, hq', List.length_append, List.length_singleton, List.length_nil]
        exact ⟨by omega, by omega⟩
  have hflush := length_flush p
  exact ⟨by omega, by omega⟩

/-- The literal is closed at the end of the text. -/
theorem denoteAll_flush {p : Parts} {ps : List Piece} (h : DenoteAll p.parts ps) :
    DenoteAll p.flush.parts (ps ++ p.literal.map .byte) := by
  unfold Parts.flush
  split
  · next hnil => simpa [hnil] using h
  · exact .concat h (.string _ _)

/-- The pieces of the parts, of the literal and of the rest of the text are those of the text. -/
theorem Rounds.reference {token : Token} {p : Parts} (h : Rounds (Parts.start token) p) :
    ∃ ps, DenoteAll p.parts ps ∧ Parse.reference (inner token.text) =
      (Parse.reference p.cursor).map (ps ++ p.literal.map .byte ++ ·) := by
  induction h with
  | refl => exact ⟨[], .nil, by simp [Parts.start]⟩
  | @tail p q _ hround ih =>
    obtain ⟨ps, hps, href⟩ := ih
    cases hround.grows with
    | text hcursor hparts hliteral =>
      refine ⟨ps, hparts ▸ hps, ?_⟩
      rw [href, hcursor, hliteral, Option.map_map]
      congr 1
      funext rest
      simp
    | value hcursor hparts hliteral ht =>
      refine ⟨_, hparts ▸ (denoteAll_flush hps).concat ht, ?_⟩
      rw [href, hcursor, hliteral, Option.map_map]
      congr 1
      funext rest
      simp

/-! ### A literal -/

/-- **A text that is accepted gives a tree of the pieces it stands for.** -/
theorem parseDoubleQuotedString_spec (n : ℕ) (token : Token) (s : Parser) :
    still.Meets (parseDoubleQuotedString (calls n) token) s fun tree _ =>
      tree.isMissing = false → ∃ ps, reference (inner token.text) = some ps ∧ Denotes tree ps := by
  refine enter_still <| .ite (fun hshort => nodeLine_bind <| .pure fun _ =>
    ⟨[], ?_, .string _ []⟩) fun _ => ?_
  · have hinner : inner token.text = [] := by
      unfold inner
      rw [Nat.sub_eq_zero_of_le hshort.le, List.take_zero]
    rw [hinner, reference]
  · refine (partsLoop_still n (Parts.start token) _).bind fun o t _ _ ho => ?_
    cases o with
    | none => exact .pure fun h => by cases h
    | some p =>
      obtain ⟨hrounds, hend⟩ := ho p rfl
      obtain ⟨ps, hps, href⟩ := hrounds.reference
      rw [hend, reference, Option.map_some, List.append_nil] at href
      have hall := denoteAll_flush hps
      dsimp only
      split
      · next hnil =>
        rw [hall.eq_nil hnil] at href
        exact nodeLine_bind <| .pure fun _ => ⟨[], href, .string _ []⟩
      · next hcons => exact .pure fun _ => ⟨_, href, hall.join hcons⟩

/-- What a quoted literal stands for. -/
def decoded (token : Token) : Option (List Piece) :=
  if token.type = .string then reference (inner token.text)
  else some ((copyUnquotedLexeme token.text).map .byte)

/-- A literal that is accepted gives a tree of the pieces it stands for. -/
theorem stringVal_spec (n : ℕ) (s : Parser) :
    still.Meets (stringVal (calls n)) s fun tree _ =>
      tree.isMissing = false → ∃ ps, decoded s.previous = some ps ∧ Denotes tree ps := by
  refine enter_still <| .get_bind <| .ite (fun htype => ?_) fun htype => nodeLine_bind <| .pure ?_
  · have hdecoded : decoded s.previous = reference (inner s.previous.text) := if_pos htype
    rw [hdecoded]
    exact parseDoubleQuotedString_spec n s.previous s.openCall
  · exact fun _ => ⟨_, if_neg htype, .string _ _⟩

end Slp.Parse
