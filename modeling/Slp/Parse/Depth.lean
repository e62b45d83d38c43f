import Mathlib.Data.List.TakeWhile
import Mathlib.Tactic.Ring
import Slp.Parse.Robust

/-!
# How deep the parser goes

`maxDepth` bounds the recursion and the height of the tree where the loops of the expressions go
round a bounded number of times and the bridges and alignment widths nest to a bounded depth
(`depth_bounded`).  Neither is counted by the parser: `$x++++…` grows a tree of any height out of
one loop (`not_height_bounded`).
-/

namespace Slp.Parse

open Program

/-- The depth of a run and the height of its tree are bounded through `maxDepth`, by factors that
depend on `k` alone. -/
structure Bounded (k : ℕ) (source : Bytes) : Prop where
  deepest : (parse source).2.trail.deepest ≤ 25 * (k + 1) * maxDepth
  height : ∀ a, (parse source).1 = .ok a → a.height ≤ 2 * (k + 531) * (k + 1) * maxDepth

/-- **In a run whose loops and bridges stay within `k`, the recursion and the tree are bounded.** -/
theorem depth_bounded (k : ℕ) (source : Bytes) (h : (parse source).2.trail.Within k) :
    Bounded k source := by
  have hdeep : 5 + levelCalls * (maxDepth + (maxDepth + 1) * k) ≤ 25 * (k + 1) * maxDepth := by
    simp only [levelCalls, maxDepth]
    omega
  have hheight : 2 + levelHeight k * (maxDepth + (maxDepth + 1) * k) ≤
      2 * (k + 531) * (k + 1) * maxDepth := by
    have hroom : maxDepth + (maxDepth + 1) * k ≤ 2 * (k + 1) * maxDepth := by
      simp only [maxDepth]
      omega
    have hone : 2 ≤ 2 * (k + 1) * maxDepth := by
      simp only [maxDepth]
      omega
    calc 2 + levelHeight k * (maxDepth + (maxDepth + 1) * k)
        ≤ 2 * (k + 1) * maxDepth + (k + 530) * (2 * (k + 1) * maxDepth) :=
          Nat.add_le_add hone (Nat.mul_le_mul_left _ hroom)
      _ = 2 * (k + 531) * (k + 1) * maxDepth := by ring
  rcases parse_cases k source with ⟨a, ha, hret⟩ | ⟨e, he, hfail⟩
  · refine ⟨(hret.deepest h).trans hdeep, fun b hb => ?_⟩
    rw [ha] at hb
    cases hb
    exact (hret.height h).trans hheight
  · refine ⟨(hfail.deepest h).trans hdeep, fun b hb => ?_⟩
    rw [he] at hb
    cases hb

theorem depth_bounded_two : Bounded 2 (ascii "$x + 1;") :=
  depth_bounded 2 _ ⟨by decide +kernel, by decide +kernel⟩

/-! ### A tree of any height -/

/-- The text of `n` increments. -/
def increments : ℕ → Bytes
  | 0 => []
  | n + 1 => chr '+' :: chr '+' :: increments n

/-- The state at a token before `m` more increments. -/
structure Reads (type : TokenType) (m d : ℕ) (s : Parser) : Prop where
  current : s.current.type = type
  rest : s.lexer.current = increments m
  hadError : s.hadError = false
  depth : s.depth ≤ d

section Reads

variable {type : TokenType} {m d : ℕ} {s t : Parser} {a : Tree} {β : Type}
  {Q : Tree → Parser → Prop} {R : β → Parser → Prop} {E : Fault → Parser → Prop}

/-- The trail does not matter. -/
theorem Reads.note {f : Trail → Trail} (h : Reads type m d s) : Reads type m d (s.note f) :=
  ⟨h.current, h.rest, h.hadError, h.depth⟩

theorem advance_of_scan {token : Token} {lexer : Lexer}
    (h : scanToken s.lexer = .ok (token, lexer)) (hne : token.type ≠ .error) :
    Ends advance s (fun _ t => t = { s.passOver with lexer, current := token }) fun _ _ => False := by
  unfold advance
  rw [ends_bind, ends_modify, ends_get_bind, advanceLoop, ends_bind]
  refine (scan_ends s.passOver).mono (fun a t h' => ?_) fun e t h' => ?_
  · obtain ⟨lexer', hscan, ht⟩ := h'
    cases h.symm.trans hscan
    subst ht
    rw [ends_bind, ends_modify, if_neg hne, ends_pure]
  · have he : scanToken s.lexer = .error .overrun := scanToken_eq_error.2 ⟨h'.1, rfl⟩
    cases he.symm.trans h

/-- The next token of a run of increments. -/
theorem scan_increments {lexer : Lexer} (h : lexer.current = increments m) :
    ∃ token lexer', scanToken lexer = .ok (token, lexer') ∧
      token.type = (if m = 0 then .eof else .inc) ∧ lexer'.current = increments (m - 1) := by
  cases m with
  | zero =>
    have hskip : skipWhitespace false lexer.current 0 = ([], 0) := by rw [h]; rfl
    unfold scanToken
    rw [hskip]
    exact ⟨_, _, rfl, rfl, rfl⟩
  | succ m =>
    have hskip : skipWhitespace false lexer.current 0 = (increments (m + 1), 0) := by rw [h]; rfl
    have hscan : scanFrom (chr '+') (chr '+' :: increments m) =
        .ok { type := .inc, rest := increments m } := rfl
    unfold scanToken
    rw [hskip]
    dsimp only [increments]
    rw [hscan]
    exact ⟨_, _, rfl, rfl, rfl⟩

/-- The token after an increment, or after the variable before them. -/
theorem Reads.advance (h : Reads type m d s) :
    Ends advance s (fun _ t => t.previous = s.current ∧
      Reads (if m = 0 then .eof else .inc) (m - 1) d t) fun _ _ => False := by
  obtain ⟨token, lexer, hscan, htype, hrest⟩ := scan_increments h.rest
  refine (advance_of_scan hscan ?_).mono (fun _ t ht => ?_) fun _ _ h => h
  · rw [htype]
    split <;> decide
  · subst ht
    exact ⟨rfl, htype, hrest, h.hadError, h.depth⟩

theorem postfixOp_ends :
    Ends (postfixOp a) t Q E ↔
      Q (.unaryop t.previous.line t.previous a true) t.openCall.closeCall := Iff.rfl

/-- The loop ends at the end of the source. -/
theorem precedenceStep_eof {r : Calls} {j : ℕ} (h : Reads .eof m d s) (hQ : Q a s) :
    Ends (precedenceStep r 1 j a) s Q E := by
  unfold precedenceStep
  have hstop : ¬ (!s.hadError && decide (1 ≤ (rules s.current.type).precedence)) = true := by
    rw [h.hadError, h.current]
    decide
  rwa [ends_get_bind, if_neg hstop, ends_pure]

/-- The loop puts a node around the operand for each increment. -/
theorem precedenceLoop_increments {n j : ℕ} (hn : m + 2 ≤ n) (h : Reads .inc m d s) :
    Ends ((calls n).precedenceLoop 1 j a) s
      (fun b t => b.height = a.height + m + 1 ∧ Reads .eof 0 d t) fun _ _ => False := by
  induction n generalizing m j a s with
  | zero => omega
  | succ n ih =>
    show Ends (precedenceStep (calls n) 1 j a) s _ _
    unfold precedenceStep
    have hgo : (!s.hadError && decide (1 ≤ (rules s.current.type).precedence)) = true := by
      rw [h.hadError, h.current]
      rfl
    rw [ends_get_bind, if_pos hgo, ends_bind]
    refine h.advance.mono (fun _ t ⟨hprev, ht⟩ => ?_) fun _ _ h => h
    rw [ends_get_bind, hprev, h.current]
    show Ends (postfixOp a >>= _) t _ _
    rw [ends_bind, postfixOp_ends, ends_bind, ends_modify]
    cases m with
    | zero =>
      obtain ⟨n, rfl⟩ : ∃ n', n = n' + 1 := ⟨n - 1, by omega⟩
      exact precedenceStep_eof (m := 0) ht.note.note.note ⟨rfl, ht.note.note.note⟩
    | succ m =>
      have hread : Reads .inc m d (t.openCall.closeCall.note fun t =>
          { t with rounds := max t.rounds (j + 1) }) := ht.note.note.note
      refine (ih (m := m) (by omega) hread).mono (fun b u ⟨hb, hu⟩ => ⟨?_, hu⟩) fun _ _ h => h
      rw [hb]
      show a.height + 1 + m + 1 = _
      omega

/-- A token that is not the one looked for. -/
theorem matchToken_ne {f : Bool → ParserM β} (h : s.current.type ≠ type)
    (hf : Ends (f false) s R E) : Ends (matchToken type >>= f) s R E := by
  unfold matchToken
  rw [ends_bind, ends_get_bind, if_neg h, ends_pure]
  exact hf

theorem check_ne {f : Bool → ParserM β} (h : s.current.type ≠ type)
    (hf : Ends (f false) s R E) : Ends (check type >>= f) s R E := by
  have hcheck : (s.current.type == type) = false := beq_eq_false_iff_ne.2 h
  show Ends (f (s.current.type == type)) s R E
  rwa [hcheck]

theorem ends_enter {p : ParserM β} :
    Ends (enter p) s R E ↔ Ends p s.openCall (fun b t => R b t.closeCall) E := by
  unfold enter
  rw [ends_bind, ends_modify, ends_bind]
  rfl

/-- A guarded call above the limit of the depth. -/
theorem guarded_ends {message : String} {p : ParserM Tree} {type' : TokenType} {m' : ℕ}
    {P : Tree → Prop} (hd : d < maxDepth) (h : Reads type m d s)
    (hp : ∀ t, Reads type m (d + 1) t →
      Ends p t (fun a u => P a ∧ Reads type' m' (d + 1) u) fun _ _ => False) :
    Ends (guarded message p) s (fun a t => P a ∧ Reads type' m' d t) fun _ _ => False := by
  have hdepth : s.openCall.depth ≤ d := h.depth
  unfold guarded
  rw [ends_enter, ends_get_bind, if_neg (by omega), ends_bind, ends_modify, ends_bind]
  have hdeeper : Reads type m (d + 1) { s.openCall with depth := s.openCall.depth + 1 } :=
    ⟨h.current, h.rest, h.hadError, Nat.succ_le_succ hdepth⟩
  refine (hp _ hdeeper).mono (fun a t ⟨ha, ht⟩ => ?_) fun _ _ h => h
  rw [ends_bind, ends_modify, ends_pure]
  exact ⟨ha, ht.current, ht.rest, ht.hadError, Nat.sub_le_of_le_add ht.depth⟩

theorem expression_increments {n : ℕ} (hn : m + 3 ≤ n) (hd : d < maxDepth)
    (h : Reads .scalar (m + 1) d s) :
    Ends (expression (calls n)) s (fun b t => b.height = m + 2 ∧ Reads .eof 0 d t)
      fun _ _ => False := by
  obtain ⟨n, rfl⟩ : ∃ n', n = n' + 1 := ⟨n - 1, by omega⟩
  unfold expression
  rw [ends_enter]
  refine (guarded_ends (P := fun b => b.height = m + 2) hd h.note fun t ht => ?_).mono
    (fun b u ⟨hb, hu⟩ => ⟨hb, hu.note⟩) fun _ _ h => h
  unfold parsePrecedenceInner
  rw [ends_enter, ends_bind]
  refine ht.note.advance.mono (fun _ u ⟨hprev, hu⟩ => ?_) fun _ _ h => h
  have htype : u.previous.type = .scalar := by rw [hprev]; exact ht.current
  rw [ends_get_bind, htype]
  show Ends ((calls n).precedenceLoop 1 0 (.scalar u.previous.line u.previous.text.tail))
    u.openCall.closeCall _ _
  refine (precedenceLoop_increments (m := m) (by omega) hu.note.note).mono
    (fun b v ⟨hb, hv⟩ => ⟨?_, hv.note⟩) fun _ _ h => h
  rw [hb]
  show 1 + m + 1 = m + 2
  omega

theorem statement_increments {n : ℕ} (hn : m + 4 ≤ n) (h : Reads .scalar (m + 1) 0 s) :
    Ends (calls n).statement s (fun b t => b.height = m + 2 ∧ Reads .eof 0 0 t)
      fun _ _ => False := by
  obtain ⟨n, rfl⟩ : ∃ n', n = n' + 1 := ⟨n - 1, by omega⟩
  refine guarded_ends (P := fun b => b.height = m + 2) (by decide) h fun t ht => ?_
  have hne : ∀ {type}, type ≠ .scalar → t.openCall.current.type ≠ type := fun hne heq =>
    hne (heq.symm.trans ht.current)
  unfold statementInner
  rw [ends_enter]
  refine matchToken_ne (hne (by decide)) (matchToken_ne (hne (by decide)) ?_)
  refine matchToken_ne (hne (by decide)) (matchToken_ne (hne (by decide)) ?_)
  refine matchToken_ne (hne (by decide)) (matchToken_ne (hne (by decide)) ?_)
  refine check_ne (hne (by decide)) ?_
  show Ends (expressionStatement (calls n)) t.openCall _ _
  unfold expressionStatement
  rw [ends_enter, ends_bind]
  refine (expression_increments (by omega) (by decide) ht.note.note).mono
    (fun b u ⟨hb, hu⟩ => ?_) fun _ _ h => h
  refine matchToken_ne (by rw [hu.current]; decide) ?_
  show Ends (get >>= _) u _ _
  rw [ends_get_bind, if_pos (.inr (.inl hu.current)), ends_pure]
  exact ⟨hb, hu.note.note⟩

theorem declaration_increments {n : ℕ} (hn : m + 5 ≤ n) (h : Reads .scalar (m + 1) 0 s) :
    Ends (calls n).declaration s (fun b t => b.height = m + 2 ∧ Reads .eof 0 0 t)
      fun _ _ => False := by
  obtain ⟨n, rfl⟩ : ∃ n', n = n' + 1 := ⟨n - 1, by omega⟩
  have hne : ∀ {type}, type ≠ .scalar → s.openCall.current.type ≠ type := fun hne heq =>
    hne (heq.symm.trans h.current)
  show Ends (declaration (calls n)) s _ _
  unfold declaration
  rw [ends_enter]
  refine matchToken_ne (hne (by decide)) (check_ne (hne (by decide)) ?_)
  refine matchToken_ne (hne (by decide)) (check_ne (hne (by decide)) ?_)
  exact (statement_increments (by omega) h.note).mono (fun _ _ ⟨hb, hu⟩ => ⟨hb, hu.note⟩)
    fun _ _ h => h

theorem scriptLoop_increments {n : ℕ} (hn : m + 6 ≤ n) (h : Reads .scalar (m + 1) 0 s) :
    Ends ((calls n).scriptLoop []) s (fun as _ => m + 2 ≤ Tree.heights as) fun _ _ => False := by
  obtain ⟨n, rfl⟩ : ∃ n', n = n' + 1 := ⟨n - 1, by omega⟩
  show Ends (scriptStep (calls n) []) s _ _
  unfold scriptStep
  refine matchToken_ne (by rw [h.current]; decide) ?_
  show Ends (get >>= _) s _ _
  rw [ends_get_bind, if_neg (by rw [h.hadError]; decide)]
  unfold iteration
  rw [ends_bind, ends_get_bind, ends_bind]
  refine (declaration_increments (by omega) h).mono (fun b t ⟨hb, ht⟩ => ?_) fun _ _ h => h
  rw [ends_bind, ends_modify, ends_pure]
  obtain ⟨n, rfl⟩ : ∃ n', n = n' + 1 := ⟨n - 1, by omega⟩
  show Ends (scriptStep (calls n) (addStatement [] b)) _ _ _
  unfold scriptStep matchToken
  rw [ends_bind, ends_get_bind, if_pos (show (t.closeIteration _).current.type = .eof from ht.current), ends_bind]
  refine ht.note.advance.mono (fun _ u _ => ?_) fun _ _ h => h
  rw [ends_pure]
  show m + 2 ≤ Tree.heights (addStatement [] b)
  have hstmt : addStatement [] b = [b] := by
    unfold addStatement
    rw [if_neg]
    · rfl
    · cases b <;> first | (intro h; cases h; done) | cases hb
  rw [hstmt, Tree.heights, hb]
  exact Nat.le_max_left _ _

end Reads

/-- A variable with increments after it. -/
def incremented (m : ℕ) : Bytes := chr '$' :: chr 'x' :: increments (m + 1)

theorem length_increments (m : ℕ) : (increments m).length = 2 * m := by
  induction m with
  | zero => rfl
  | succ m ih =>
    simp only [increments, List.length_cons, ih]
    omega

theorem increments_ne_zero {m : ℕ} {c : UInt8} (h : c ∈ increments m) : c ≠ 0 := by
  induction m with
  | zero => exact absurd h List.not_mem_nil
  | succ m ih =>
    rcases List.mem_cons.1 h with rfl | h
    · decide
    · rcases List.mem_cons.1 h with rfl | h
      · decide
      · exact ih h

/-- The source is read to its end. -/
theorem rest_incremented (m : ℕ) :
    (Parser.init (incremented m)).lexer.current = incremented m := by
  refine List.takeWhile_eq_self_iff.2 fun c hc => ?_
  rw [decide_eq_true_eq]
  rcases List.mem_cons.1 hc with rfl | hc
  · decide
  · rcases List.mem_cons.1 hc with rfl | hc
    · decide
    · exact increments_ne_zero hc

theorem height_incremented (m : ℕ) :
    ∃ a, (parse (incremented m)).1 = .ok a ∧ m + 2 ≤ a.height := by
  have h : Ends (parseScript (calls (levels (incremented m).length))) (Parser.init (incremented m))
      (fun a _ => m + 2 ≤ a.height) fun _ _ => False := by
    unfold parseScript
    rw [ends_enter, ends_bind]
    have hskip : skipWhitespace false (Parser.init (incremented m)).lexer.current 0 =
        (incremented m, 0) := by
      rw [rest_incremented]
      rfl
    have hscan : ∃ token lexer, scanToken (Parser.init (incremented m)).lexer = .ok (token, lexer) ∧
        token.type = .scalar ∧ lexer.current = increments (m + 1) := by
      unfold scanToken
      rw [hskip]
      exact ⟨_, _, rfl, rfl, rfl⟩
    obtain ⟨token, lexer, hscan, htype, hrest⟩ := hscan
    have hne : token.type ≠ .error := by rw [htype]; decide
    refine (advance_of_scan (s := (Parser.init (incremented m)).openCall) hscan hne).mono
      (fun _ t ht => ?_) fun _ _ h => h
    have hread : Reads .scalar (m + 1) 0 t := by
      subst ht
      exact ⟨htype, hrest, rfl, le_rfl⟩
    refine matchToken_ne (by rw [hread.current]; decide) ?_
    show Ends ((calls (levels (incremented m).length)).scriptLoop [] >>= _) t _ _
    rw [ends_bind]
    refine (scriptLoop_increments ?_ hread).mono (fun as u has => ?_) fun _ _ h => h
    · have hlen := length_increments (m + 1)
      simp only [incremented, List.length_cons, levels]
      omega
    · show m + 2 ≤ Tree.heights as + 1
      omega
  unfold Ends at h
  rw [parse]
  split at h
  · next a t hrun => rw [hrun]; exact ⟨a, rfl, h⟩
  · exact h.elim

/-- **No bound of the height holds for every source.** -/
theorem not_depth_bounded : ¬ ∃ c h, ∀ source,
    (parse source).2.trail.deepest ≤ c * maxDepth ∧
      ∀ a, (parse source).1 = .ok a → a.height ≤ h := by
  rintro ⟨c, h, hbound⟩
  obtain ⟨a, ha, hheight⟩ := height_incremented h
  have := (hbound (incremented h)).2 a ha
  omega

end Slp.Parse
