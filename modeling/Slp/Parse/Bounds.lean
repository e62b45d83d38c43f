import Mathlib.Order.Nat
import Slp.Program.Contract
import Slp.Parse.Parser

/-!
# How far the parser goes

What every parse function keeps to, as a contract: the source left shrinks, the counters come back
as they were, every error is recorded, no loop stalls, and the calls below a function and the tree
it returns are bounded by the room that is left to it (`Parser.room`): the levels of `depth`, and
the levels of bridges and alignment widths, which `depth` does not count.

The bounds hold for runs whose expression loops go round at most `k` times and whose bridges and
widths nest at most `k` deep (`Trail.Within`).
-/

namespace Slp.Parse

open Program

/-! ### Heights -/

namespace Tree

mutual

/-- The nodes on the longest path from the root. -/
def height : Tree → ℕ
  | missing => 0
  | boolean .. | null .. | long .. | number .. | string .. | scalar .. | array .. | hashtable ..
  | identifier .. | classLiteral .. | backtick .. | address .. | importStmt .. | nop .. => 1
  | script _ ts | block _ ts | lvalueTuple _ ts => heights ts + 1
  | align _ a b | arg _ a b | assignment _ _ a b | binop _ _ _ a b | whileStmt _ a b
  | foreachStmt _ _ _ a b | assignLoop _ _ a b | index _ a b | tryCatch _ a _ b
  | command _ _ a b => max a.height b.height + 1
  | unaryop _ _ a _ | envBridge _ _ _ _ a => a.height + 1
  | call _ a ts => max a.height (heights ts) + 1
  | ifStmt _ a b c => max a.height (max b.height c.height) + 1
  | forStmt _ ts a us b => max (max (heights ts) a.height) (max (heights us) b.height) + 1
  | objExpr _ a b ts => max (max a.height b.height) (heights ts) + 1

/-- The height of the tallest tree of a list. -/
def heights : List Tree → ℕ
  | [] => 0
  | t :: ts => max t.height (heights ts)

end

theorem heights_le {ts : List Tree} {h : ℕ} : heights ts ≤ h ↔ ∀ t ∈ ts, t.height ≤ h := by
  induction ts with
  | nil => simp [heights]
  | cons t ts ih => rw [heights, Nat.max_le, ih, List.forall_mem_cons]

end Tree

/-! ### Measures -/

namespace Parser

/-- What is left of the source, the current token included. -/
def measure (s : Parser) : ℕ :=
  s.lexer.current.length + if s.current.type = .eof then 0 else max 1 s.current.text.length

/-- The levels that are left: of the depth, and for each level of a bridge or a width a whole depth
more. -/
def room (k : ℕ) (s : Parser) : ℕ :=
  (maxDepth - s.depth) + (maxDepth + 1) * (k - s.trail.nested)

/-- The state between two tokens. -/
structure Sound (s : Parser) : Prop where
  current : s.current.type ≠ .error
  panic : s.panicMode = true → s.hadError = true

end Parser

/-- No loop of an expression went round more than `k` times, and no bridges or widths were nested
deeper. -/
def Trail.Within (k : ℕ) (t : Trail) : Prop := t.rounds ≤ k ∧ t.deepestNested ≤ k

/-- The calls that one level takes. -/
def levelCalls : ℕ := 24

/-- The height that one level adds to a tree. -/
def levelHeight (k : ℕ) : ℕ := k + 530

/-- The calls of a function that takes `w` of them on its own level. -/
def callsWithin (k w : ℕ) (s : Parser) : ℕ := s.trail.calls + w + levelCalls * s.room k

/-- How the state changes from the start of a parse function to its end. -/
structure Moves (k w : ℕ) (s t : Parser) : Prop where
  sound : t.Sound
  measure : t.measure ≤ s.measure
  scanned : s.trail.scanned.length ≤ t.trail.scanned.length
  hadError : s.hadError = true → t.hadError = true
  depth : t.depth = s.depth
  calls : t.trail.calls = s.trail.calls
  nested : t.trail.nested = s.trail.nested
  stalled : t.trail.stalled = s.trail.stalled
  emptyGroup : t.trail.emptyGroup = s.trail.emptyGroup
  openEscape : t.trail.openEscape = s.trail.openEscape
  rounds : s.trail.rounds ≤ t.trail.rounds
  deepestNested : s.trail.deepestNested ≤ t.trail.deepestNested
  deepest : t.trail.Within k → t.trail.deepest ≤ max s.trail.deepest (callsWithin k w s)

/-- How the state changes from the start of a parse function to a fault. -/
structure Breaks (k w : ℕ) (s : Parser) (e : Fault) (t : Parser) : Prop where
  ne_fuel : e ≠ .fuel
  overrun : e = .overrun → t.trail.openEscape = true
  nullDeref : e = .nullDeref → t.trail.emptyGroup = true
  stalled : t.trail.stalled = s.trail.stalled
  deepest : t.trail.Within k → s.trail.Within k ∧
    t.trail.deepest ≤ max s.trail.deepest (callsWithin k w s)

theorem Moves.within {k w : ℕ} {s t : Parser} (h : Moves k w s t) (ht : t.trail.Within k) :
    s.trail.Within k :=
  ⟨h.rounds.trans ht.1, h.deepestNested.trans ht.2⟩

theorem Moves.room {k w : ℕ} {s t : Parser} (h : Moves k w s t) : t.room k = s.room k := by
  rw [Parser.room, Parser.room, h.depth, h.nested]

theorem Moves.callsWithin {k w : ℕ} {s t : Parser} (h : Moves k w s t) (w' : ℕ) :
    callsWithin k w' t = Parse.callsWithin k w' s := by
  rw [Parse.callsWithin, Parse.callsWithin, h.calls, h.room]

/-- What every parse function keeps to that begins with `c` levels over those that the source left
takes. -/
def contract (n c k w : ℕ) : Contract Fault Parser where
  pre s := s.Sound ∧ 8 * s.measure + c ≤ n
  rel := Moves k w
  fault := Breaks k w
  refl := fun hs => ⟨hs.1, le_rfl, le_rfl, id, rfl, rfl, rfl, rfl, rfl, rfl, le_rfl, le_rfl,
    fun _ => le_max_left _ _⟩
  trans := fun {s t u} hst htu => by
    refine ⟨htu.sound, htu.measure.trans hst.measure, hst.scanned.trans htu.scanned,
      htu.hadError ∘ hst.hadError, htu.depth.trans hst.depth, htu.calls.trans hst.calls,
      htu.nested.trans hst.nested, htu.stalled.trans hst.stalled,
      htu.emptyGroup.trans hst.emptyGroup, htu.openEscape.trans hst.openEscape,
      hst.rounds.trans htu.rounds, hst.deepestNested.trans htu.deepestNested, fun hu => ?_⟩
    have h₁ := htu.deepest hu
    have h₂ := hst.deepest (htu.within hu)
    rw [hst.callsWithin] at h₁
    omega
  keeps := fun hs hst => ⟨hst.sound, by have := hst.measure; omega⟩
  late := fun {s t e u} hst htu => by
    refine ⟨htu.ne_fuel, htu.overrun, htu.nullDeref, htu.stalled.trans hst.stalled, fun hu => ?_⟩
    obtain ⟨ht, h₁⟩ := htu.deepest hu
    have h₂ := hst.deepest ht
    rw [hst.callsWithin] at h₁
    exact ⟨hst.within ht, by omega⟩

variable {n c k w : ℕ} {s t u : Parser}

/-- A state reached from another one with a token passed over. -/
def Consumed (s t : Parser) : Prop :=
  t.measure < s.measure ∧ s.trail.scanned.length < t.trail.scanned.length

/-- A state reached from another one with an error or with a token passed over. -/
def Progress (s t : Parser) : Prop := t.hadError = true ∨ Consumed s t

theorem Consumed.moves {w' : ℕ} (h : Consumed s t) (htu : Moves k w' t u) : Consumed s u :=
  ⟨htu.measure.trans_lt h.1, h.2.trans_le htu.scanned⟩

theorem Consumed.of_moves {w' : ℕ} (hst : Moves k w' s t) (h : Consumed t u) : Consumed s u :=
  ⟨h.1.trans_le hst.measure, hst.scanned.trans_lt h.2⟩

theorem Progress.moves {w' : ℕ} (h : Progress s t) (htu : Moves k w' t u) : Progress s u := by
  rcases h with h | h
  · exact .inl (htu.hadError h)
  · exact .inr (h.moves htu)

theorem Progress.of_moves {w' : ℕ} (hst : Moves k w' s t) (h : Progress t u) : Progress s u := by
  rcases h with h | h
  · exact .inl h
  · exact .inr (h.of_moves hst)

/-- A tree of a height within the room, with `i` nodes over it. -/
def Low (k i : ℕ) (a : Tree) (t : Parser) : Prop :=
  t.trail.Within k → a.height ≤ i + levelHeight k * t.room k

/-- A tree that is low, and missing only after an error. -/
structure Result (k i : ℕ) (a : Tree) (t : Parser) : Prop where
  missing : a.isMissing = true → t.hadError = true
  low : Low k i a t

theorem Low.moves {i w' : ℕ} {a : Tree} (h : Low k i a t) (htu : Moves k w' t u) : Low k i a u := by
  intro hu
  rw [htu.room]
  exact h (htu.within hu)

theorem Low.mono {i j : ℕ} {a : Tree} (h : Low k i a t) (hij : i ≤ j) : Low k j a t :=
  fun ht => (h ht).trans (by omega)

theorem Result.moves {i w' : ℕ} {a : Tree} (h : Result k i a t) (htu : Moves k w' t u) :
    Result k i a u :=
  ⟨htu.hadError ∘ h.missing, h.low.moves htu⟩

theorem Result.mono {i j : ℕ} {a : Tree} (h : Result k i a t) (hij : i ≤ j) : Result k j a t :=
  ⟨h.missing, h.low.mono hij⟩

/-- Trees that are all low. -/
def Lows (k i : ℕ) (as : List Tree) (t : Parser) : Prop := ∀ a ∈ as, Low k i a t

theorem Lows.moves {i w' : ℕ} {as : List Tree} (h : Lows k i as t) (htu : Moves k w' t u) :
    Lows k i as u :=
  fun a ha => (h a ha).moves htu

theorem Lows.mono {i j : ℕ} {as : List Tree} (h : Lows k i as t) (hij : i ≤ j) : Lows k j as t :=
  fun a ha => (h a ha).mono hij

theorem Lows.append {i : ℕ} {as : List Tree} {a : Tree} (h : Lows k i as t) (ha : Low k i a t) :
    Lows k i (as ++ [a]) t := by
  intro b hb
  rcases List.mem_append.1 hb with hb | hb
  · exact h b hb
  · rw [List.mem_singleton.1 hb]; exact ha

theorem Lows.heights {i : ℕ} {as : List Tree} (h : Lows k i as t) (ht : t.trail.Within k) :
    Tree.heights as ≤ i + levelHeight k * t.room k :=
  Tree.heights_le.2 fun a ha => h a ha ht

/-! ### Scanning -/

theorem scan_ends (s : Parser) :
    Ends scan s
      (fun a t => ∃ lexer, scanToken s.lexer = .ok (a, lexer) ∧ t = { s with lexer })
      fun e t => s.lexer.opensEscape = true ∧ e = .overrun ∧
        t = s.note fun r => { r with openEscape := true } := by
  unfold scan
  rw [ends_get_bind, ends_bind, ends_modify, Ends]
  cases h : scanToken s.lexer with
  | ok r =>
    have hnot : s.lexer.opensEscape = false := Bool.eq_false_iff.2 fun hopen => by
      rw [scanToken_eq_error.2 ⟨hopen, rfl⟩] at h
      cases h
    refine ⟨r.2, rfl, ?_⟩
    rw [hnot]
    show ({ s with lexer := r.2, trail := { s.trail with openEscape := s.trail.openEscape || false } }
      : Parser) = _
    rw [Bool.or_false]
  | error e =>
    obtain ⟨hopen, rfl⟩ := scanToken_eq_error.1 h
    refine ⟨hopen, rfl, ?_⟩
    simp only [hopen, Bool.or_true]

/-- What recording an error leaves as it was. -/
structure SameButError (s t : Parser) : Prop where
  lexer : t.lexer = s.lexer
  previous : t.previous = s.previous
  current : t.current = s.current
  depth : t.depth = s.depth
  trail : t.trail = s.trail

theorem errorAt_same (s : Parser) (token : Token) (message : Bytes) :
    SameButError s (s.errorAt token message) := by
  unfold Parser.errorAt
  split
  · exact ⟨rfl, rfl, rfl, rfl, rfl⟩
  · exact ⟨rfl, rfl, rfl, rfl, rfl⟩

theorem errorAt_hadError (s : Parser) (token : Token) (message : Bytes)
    (h : s.panicMode = true → s.hadError = true) : (s.errorAt token message).hadError = true := by
  unfold Parser.errorAt
  split
  · exact h ‹_›
  · rfl

/-- What `advance` changes beside the trail: the lexer and the current token, and the record of an
error. -/
structure Advanced (s t : Parser) : Prop where
  current : t.current.type ≠ .error
  measure : t.measure ≤ s.lexer.current.length
  panic : t.panicMode = true → t.hadError = true
  hadError : s.hadError = true → t.hadError = true
  depth : t.depth = s.depth
  previous : t.previous = s.previous
  trail : t.trail = s.trail

/-- Error tokens are passed over until a token is found: each of them shortens the source. -/
theorem advanceLoop_ends (n : ℕ) (s : Parser) (hn : s.lexer.current.length < n)
    (hp : s.panicMode = true → s.hadError = true) :
    Ends (advanceLoop n) s (fun _ t => Advanced s t) fun e t =>
      e = .overrun ∧ t.trail = { s.trail with openEscape := true } := by
  induction n generalizing s with
  | zero => omega
  | succ n ih =>
    rw [advanceLoop, ends_bind]
    refine (scan_ends s).mono (fun a t ⟨lexer, hscan, ht⟩ => ?_)
      fun e t ⟨_, he, ht⟩ => ⟨he, by rw [ht]; rfl⟩
    subst ht
    have ha := scanToken_spec hscan
    rw [ends_bind, ends_modify]
    by_cases hta : a.type = .error
    · -- the error is recorded, and the loop goes on over a shorter source
      have hlen := ha.length (by rw [hta]; decide)
      rw [if_pos hta, ends_bind, errorAtCurrent, ends_modify]
      set u : Parser := { s with lexer, current := a } with hu
      have hsame := errorAt_same u u.current a.text
      have herr := errorAt_hadError u u.current a.text hp
      refine (ih _ (by rw [hsame.lexer]; show lexer.current.length < n; omega) fun _ => herr).mono
        (fun _ t ht => ?_) fun e t ⟨he, ht⟩ => ⟨he, by rw [ht, hsame.trail]⟩
      have hm := ht.measure
      rw [hsame.lexer] at hm
      exact ⟨ht.current, hm.trans hlen.le, ht.panic, fun _ => ht.hadError herr,
        ht.depth.trans hsame.depth, ht.previous.trans hsame.previous, ht.trail.trans hsame.trail⟩
    · rw [if_neg hta, ends_pure]
      refine ⟨hta, ?_, hp, id, rfl, rfl, rfl⟩
      show lexer.current.length + (if a.type = .eof then 0 else max 1 a.text.length) ≤ _
      split
      · exact ha.suffix.length_le
      · next he =>
        have h₁ := ha.length he
        have h₂ := ha.text hta
        omega

/-- A token is passed over: the state after `advance`. -/
structure PassedOver (s t : Parser) : Prop where
  advanced : Advanced s { t with previous := s.previous, trail := s.trail }
  previous : t.previous = s.current
  trail : t.trail = s.passOver.trail

theorem advance_ends (s : Parser) (hp : s.panicMode = true → s.hadError = true) :
    Ends advance s (fun _ t => PassedOver s t) fun e t =>
      e = .overrun ∧ t.trail = { s.passOver.trail with openEscape := true } := by
  unfold advance
  rw [ends_bind, ends_modify, ends_get_bind]
  refine (advanceLoop_ends _ s.passOver (Nat.lt_succ_self _) hp).mono (fun _ t ht => ?_)
    fun _ _ h => h
  exact ⟨⟨ht.current, ht.measure, ht.panic, ht.hadError, ht.depth, rfl, rfl⟩, ht.previous, ht.trail⟩

variable {n c : ℕ}

/-- A token that is neither an error nor the end is taken off the source and put on the trail. -/
theorem PassedOver.strict (h : PassedOver s t) (he : s.current.type ≠ .error)
    (heof : s.current.type ≠ .eof) :
    t.measure + max 1 s.current.text.length ≤ s.measure ∧
      t.trail.scanned = s.trail.scanned ++ [s.current] := by
  have hm : t.measure ≤ s.lexer.current.length := h.advanced.measure
  constructor
  · have hs : s.measure = s.lexer.current.length + max 1 s.current.text.length := by
      rw [Parser.measure, if_neg heof]
    omega
  · rw [h.trail, Parser.passOver]
    simp [he, heof]

theorem PassedOver.moves (h : PassedOver s t) : Moves k w s t := by
  have hm : t.measure ≤ s.lexer.current.length := h.advanced.measure
  refine ⟨⟨h.advanced.current, h.advanced.panic⟩, ?_, ?_, h.advanced.hadError, h.advanced.depth,
    ?_, ?_, ?_, ?_, ?_, ?_, ?_, fun _ => ?_⟩
  · exact hm.trans (Nat.le_add_right _ _)
  · rw [h.trail, Parser.passOver]
    dsimp only
    split
    · exact le_rfl
    · rw [List.length_append]; exact Nat.le_add_right _ _
  all_goals rw [h.trail, Parser.passOver]
  exact Nat.le_max_left _ _

theorem advance_meets : (contract n c k w).Meets advance s fun _ t => PassedOver s t := by
  intro hs
  refine (advance_ends s hs.1.panic).mono (fun _ t ht => ⟨ht.moves, ht⟩) fun e t ⟨he, ht⟩ => ?_
  subst he
  refine ⟨by decide, fun _ => by rw [ht], nofun, by rw [ht]; rfl, fun hw => ?_⟩
  rw [ht] at hw ⊢
  exact ⟨hw, Nat.le_max_left _ _⟩

/-- From one number of levels and calls to another that leaves no less of the levels and asks for no
more of the calls. -/
theorem relax {α : Type} {p : ParserM α} {Q : α → Parser → Prop} {n' c' w' : ℕ}
    (h : (contract n c k w).Meets p s Q) (hw : w ≤ w')
    (hn : 8 * s.measure + c' ≤ n' → 8 * s.measure + c ≤ n) :
    (contract n' c' k w').Meets p s Q := by
  have hle : callsWithin k w s ≤ callsWithin k w' s := by unfold callsWithin; omega
  refine h.weaken (fun hs => ⟨hs.1, hn hs.2⟩) (fun t ht => { ht with deepest := fun hw => ?_ })
    fun e t ht => { ht with deepest := fun hw => ?_ }
  · have := ht.deepest hw; omega
  · obtain ⟨h₁, h₂⟩ := ht.deepest hw
    exact ⟨h₁, by omega⟩

/-! ### The core -/

theorem error_meets (message : Bytes) :
    (contract n c k w).Meets (error message) s fun _ t => t.hadError = true := by
  refine Contract.Meets.modify fun hs => ?_
  have h := errorAt_same s s.previous message
  have he := errorAt_hadError s s.previous message hs.1.panic
  have hm : (s.errorAt s.previous message).measure = s.measure := by
    rw [Parser.measure, Parser.measure, h.lexer, h.current]
  refine ⟨⟨⟨by rw [h.current]; exact hs.1.current, fun _ => he⟩, hm.le, ?_, fun _ => he, h.depth, ?_,
    ?_, ?_, ?_, ?_, ?_, ?_, fun _ => ?_⟩, he⟩
  all_goals rw [h.trail]
  exact Nat.le_max_left _ _

theorem errorAtCurrent_meets (message : Bytes) :
    (contract n c k w).Meets (errorAtCurrent message) s fun _ t => t.hadError = true := by
  refine Contract.Meets.modify fun hs => ?_
  have h := errorAt_same s s.current message
  have he := errorAt_hadError s s.current message hs.1.panic
  have hm : (s.errorAt s.current message).measure = s.measure := by
    rw [Parser.measure, Parser.measure, h.lexer, h.current]
  refine ⟨⟨⟨by rw [h.current]; exact hs.1.current, fun _ => he⟩, hm.le, ?_, fun _ => he, h.depth, ?_,
    ?_, ?_, ?_, ?_, ?_, ?_, fun _ => ?_⟩, he⟩
  all_goals rw [h.trail]
  exact Nat.le_max_left _ _

/-- A note that leaves all but two fields of the trail as they were. -/
theorem Moves.note (hs : s.Sound) {f : Trail → Trail}
    (hf : f s.trail = { s.trail with
      skipped := (f s.trail).skipped, rounds := (f s.trail).rounds })
    (hr : s.trail.rounds ≤ (f s.trail).rounds) : Moves k w s (s.note f) := by
  have ht : (s.note f).trail = f s.trail := rfl
  rw [hf] at ht
  refine ⟨⟨hs.current, hs.panic⟩, le_rfl, ?_, id, rfl, ?_, ?_, ?_, ?_, ?_, hr, ?_, fun _ => ?_⟩
  all_goals rw [ht]
  exact Nat.le_max_left _ _

theorem noteSkipped_meets (b : Bool) :
    (contract n c k w).Meets (noteSkipped b) s fun _ t =>
      t.current = s.current ∧ t.previous = s.previous :=
  Contract.Meets.modify fun hs => ⟨.note hs.1 rfl le_rfl, rfl, rfl⟩

/-- A token other than the end is consumed. -/
theorem PassedOver.consumed (h : PassedOver s t) (hs : s.Sound) (heof : s.current.type ≠ .eof) :
    Consumed s t := by
  obtain ⟨hm, hl⟩ := h.strict hs.current heof
  refine ⟨by omega, ?_⟩
  rw [hl, List.length_append]
  exact Nat.lt_succ_self _

theorem matchToken_meets {type : TokenType} (ht : type ≠ .eof) :
    (contract n c k w).Meets (matchToken type) s fun b t =>
      if b then s.current.type = type ∧ PassedOver s t ∧ Consumed s t
      else s.current.type ≠ type ∧ t = s := by
  refine .of_pre fun hs => Contract.Meets.get_bind ?_
  split
  · next h =>
    refine advance_meets.bind fun _ t _ _ hpass => .pure ?_
    exact ⟨h, hpass, hpass.consumed hs.1 (h ▸ ht)⟩
  · next h => exact .pure ⟨h, rfl⟩

theorem consume_meets {type : TokenType} (ht : type ≠ .eof) (message : String) :
    (contract n c k w).Meets (consume type message) s fun _ t => Progress s t := by
  refine .of_pre fun hs => Contract.Meets.get_bind ?_
  split
  · next h => exact advance_meets.mono fun _ t _ hpass => .inr (hpass.consumed hs.1 (h ▸ ht))
  · exact (errorAtCurrent_meets _).mono fun _ t _ h => .inl h

/-- A look at the next token leaves the lexer where it was. -/
theorem lookahead_meets {restore : Lexer → Lexer → Lexer}
    (hr : ∀ saved lexer, (restore saved lexer).current = saved.current) :
    (contract n c k w).Meets (lookahead restore) s fun _ t =>
      t.current = s.current ∧ t.previous = s.previous ∧ t.hadError = s.hadError ∧
        t.measure = s.measure := by
  intro hs
  unfold lookahead
  rw [ends_get_bind, ends_bind]
  refine (scan_ends s).mono (fun a t ⟨lexer, _, ht⟩ => ?_) fun e t ⟨_, he, ht⟩ => ?_
  · subst ht
    rw [ends_bind, ends_modify, ends_bind, ends_modify, ends_pure]
    have hm : ({ s with lexer := restore s.lexer lexer } : Parser).measure = s.measure := by
      rw [Parser.measure, Parser.measure, hr]
    exact ⟨⟨⟨hs.1.current, hs.1.panic⟩, hm.le, le_rfl, id, rfl, rfl, rfl, rfl, rfl, rfl, le_rfl,
      le_rfl, fun _ => Nat.le_max_left _ _⟩, rfl, rfl, rfl, hm⟩
  · subst he ht
    exact ⟨by decide, fun _ => rfl, nofun, rfl, fun hw => ⟨hw, Nat.le_max_left _ _⟩⟩

section Calls

variable {α : Type} {p : ParserM α} {Q : α → Parser → Prop}

/-- A call takes one more than its body. -/
theorem enter_meets (hp : (contract n c k w).Meets p s.openCall Q)
    (hQ : ∀ a t, Q a t → Q a t.closeCall) : (contract n c k (w + 1)).Meets (enter p) s Q := by
  intro hs
  unfold enter
  rw [ends_bind, ends_modify, ends_bind]
  have hcalls : callsWithin k w s.openCall = callsWithin k (w + 1) s := by
    show s.trail.calls + 1 + w + levelCalls * s.room k = s.trail.calls + (w + 1) + _
    omega
  have hdeep : s.openCall.trail.deepest = max s.trail.deepest (s.trail.calls + 1) := rfl
  have hone : s.trail.calls + 1 ≤ callsWithin k (w + 1) s := by unfold callsWithin; omega
  refine (hp ⟨⟨hs.1.current, hs.1.panic⟩, hs.2⟩).mono (fun a t ⟨ht, ha⟩ => ?_) fun e t ht => ?_
  · rw [ends_bind, ends_modify, ends_pure]
    refine ⟨{ ht with
      sound := ⟨ht.sound.current, ht.sound.panic⟩, calls := ?_, deepest := fun hw => ?_ }, hQ a t ha⟩
    · show t.trail.calls - 1 = _
      rw [ht.calls]
      rfl
    · have := ht.deepest hw
      rw [hcalls, hdeep] at this
      show t.trail.deepest ≤ _
      omega
  · refine { ht with deepest := fun hw => ?_ }
    obtain ⟨h₁, h₂⟩ := ht.deepest hw
    rw [hcalls, hdeep] at h₂
    exact ⟨h₁, by omega⟩

/-- A time round a loop that makes progress does not stall. -/
theorem iteration_meets (hp : (contract n c k w).Meets p s fun a t => Q a t ∧ Progress s t)
    (hQ : ∀ a t m, Q a t → Q a (t.closeIteration m)) :
    (contract n c k w).Meets (iteration p) s fun a t => Q a t ∧ Progress s t := by
  refine Contract.Meets.get_bind (hp.bind fun a t hpre ht ⟨ha, hprog⟩ => ?_)
  have hstalled : (t.closeIteration s.trail.scanned.length).trail.stalled = t.trail.stalled := by
    show (t.trail.stalled || (t.trail.scanned.length == s.trail.scanned.length && !t.hadError)) = _
    rcases hprog with h | ⟨-, h⟩
    · simp [h]
    · have : (t.trail.scanned.length == s.trail.scanned.length) = false := by
        rw [beq_eq_false_iff_ne]; omega
      simp [this]
  refine (Contract.Meets.modify (Q := fun _ u => Q a u ∧ Progress s u) fun _ => ?_).bind
    fun _ u _ _ hu => .pure hu
  exact ⟨⟨⟨hpre.1.current, hpre.1.panic⟩, le_rfl, le_rfl, id, rfl, rfl, rfl, hstalled, rfl, rfl,
    le_rfl, le_rfl, fun _ => Nat.le_max_left _ _⟩, hQ a t _ ha, hprog⟩

end Calls

/-! ### Levels -/

section Levels

variable {α : Type}

/-- One level of the depth is one of the room. -/
theorem room_deeper (h : s.depth < maxDepth) :
    ({ s with depth := s.depth + 1 } : Parser).room k + 1 = s.room k := by
  show maxDepth - (s.depth + 1) + (maxDepth + 1) * (k - s.trail.nested) + 1 =
    maxDepth - s.depth + (maxDepth + 1) * (k - s.trail.nested)
  omega

/-- What a guarded function does one level down. -/
theorem deeper_meets {p : ParserM Tree} (h : s.depth < maxDepth)
    (hp : (contract n c k levelCalls).Meets p { s with depth := s.depth + 1 } fun a t =>
      Result k (levelHeight k) a t ∧ Progress s t) :
    (contract n c k 0).Meets (do
        modify fun s => { s with depth := s.depth + 1 }
        let node ← p
        modify fun s => { s with depth := s.depth - 1 }
        return node) s fun a t => Result k 0 a t ∧ Progress s t := by
  intro hs
  rw [ends_bind, ends_modify, ends_bind]
  have hroom := room_deeper (k := k) h
  have hcalls : callsWithin k levelCalls { s with depth := s.depth + 1 } = callsWithin k 0 s := by
    unfold callsWithin
    rw [← hroom, Nat.mul_succ]
    show s.trail.calls + _ + _ = _
    omega
  refine (hp ⟨⟨hs.1.current, hs.1.panic⟩, hs.2⟩).mono (fun a t ⟨ht, hres, hprog⟩ => ?_)
    fun e t ht => ?_
  · rw [ends_bind, ends_modify, ends_pure]
    have hdepth : t.depth = s.depth + 1 := ht.depth
    have hback : ({ t with depth := t.depth - 1 } : Parser).room k = t.room k + 1 := by
      have hr : t.room k = ({ s with depth := s.depth + 1 } : Parser).room k := ht.room
      rw [hr, hroom, Parser.room, Parser.room, hdepth]
      show maxDepth - (s.depth + 1 - 1) + (maxDepth + 1) * (k - t.trail.nested) = _
      rw [ht.nested]
      rfl
    refine ⟨{ ht with
      sound := ⟨ht.sound.current, ht.sound.panic⟩
      depth := by show t.depth - 1 = _; omega
      deepest := fun hw => ?_ }, ⟨hres.missing, fun hw => ?_⟩, hprog⟩
    · have := ht.deepest hw
      rwa [hcalls] at this
    · have := hres.low hw
      rw [hback, Nat.mul_succ]
      omega
  · refine { ht with deepest := fun hw => ?_ }
    have := ht.deepest hw
    rwa [hcalls] at this

theorem guarded_meets {message : String} {p : ParserM Tree}
    (hp : s.depth < maxDepth → (contract n c k levelCalls).Meets p
      { s.openCall with depth := s.depth + 1 } fun a t =>
        Result k (levelHeight k) a t ∧ Progress s t) :
    (contract n c k 1).Meets (guarded message p) s fun a t => Result k 0 a t ∧ Progress s t := by
  refine enter_meets (w := 0) (Contract.Meets.get_bind ?_) fun _ _ h => ⟨⟨h.1.1, h.1.2⟩, h.2⟩
  split
  · refine (error_meets _).bind fun _ t _ _ he => .pure ⟨⟨fun _ => he, fun _ => ?_⟩, .inl he⟩
    exact Nat.zero_le _
  · next h => exact deeper_meets (s := s.openCall) (Nat.lt_of_not_le h) (hp (Nat.lt_of_not_le h))

/-- A level that the depth does not count is more than one of the room, where it is within. -/
theorem room_openNested {t : Parser} (hn : t.trail.nested = s.trail.nested + 1)
    (hk : t.trail.nested ≤ k) : t.room k + 1 ≤ s.room k := by
  unfold Parser.room
  have : k - s.trail.nested = k - t.trail.nested + 1 := by omega
  rw [this, Nat.mul_succ]
  omega

theorem callsWithin_openNested {t : Parser} (hc : t.trail.calls = s.trail.calls)
    (hn : t.trail.nested = s.trail.nested + 1) (hk : t.trail.nested ≤ k) :
    callsWithin k levelCalls t ≤ callsWithin k 0 s := by
  have := Nat.mul_le_mul_left levelCalls (room_openNested hn hk)
  rw [Nat.mul_succ] at this
  unfold callsWithin
  omega

/-- A run that stays within the bound has a level left for the one it opens. -/
theorem nested_le_of_within {t : Parser} (h : s.openNested.trail.deepestNested ≤ t.trail.deepestNested)
    (ht : t.trail.Within k) : s.trail.nested + 1 ≤ k := by
  have h₁ : s.trail.nested + 1 ≤ s.openNested.trail.deepestNested := Nat.le_max_right _ _
  exact h₁.trans (h.trans ht.2)

/-- What a bridge does one level down. -/
theorem enterNested_meets {p : ParserM Tree} {Q : Parser → Prop}
    (hp : (contract n c k levelCalls).Meets p s.openNested fun a t =>
      Result k (levelHeight k) a t ∧ Q t) (hQ : ∀ t, Q t → Q t.closeNested) :
    (contract n c k 0).Meets (enterNested p) s fun a t => Result k 0 a t ∧ Q t := by
  intro hs
  unfold enterNested
  rw [ends_bind, ends_modify, ends_bind]
  refine (hp ⟨⟨hs.1.current, hs.1.panic⟩, hs.2⟩).mono (fun a t ⟨ht, hres, hq⟩ => ?_)
    fun e t ht => ?_
  · rw [ends_bind, ends_modify, ends_pure]
    have hnested : t.trail.nested = s.trail.nested + 1 := ht.nested
    have hback : t.closeNested.trail.nested = s.trail.nested := by
      show t.trail.nested - 1 = _
      omega
    refine ⟨{ ht with
      sound := ⟨ht.sound.current, ht.sound.panic⟩
      nested := hback
      deepestNested := (Nat.le_max_left _ _).trans ht.deepestNested
      deepest := fun hw => ?_ }, ⟨hres.missing, fun hw => ?_⟩, hQ t hq⟩
    · have h₁ := ht.deepest hw
      have h₂ : callsWithin k levelCalls s.openNested ≤ callsWithin k 0 s :=
        callsWithin_openNested rfl rfl (nested_le_of_within ht.deepestNested hw)
      have h₃ : s.openNested.trail.deepest = s.trail.deepest := rfl
      show t.trail.deepest ≤ _
      omega
    · have h₁ := hres.low hw
      have hroom := room_openNested (k := k) (s := t.closeNested) (t := t) (by rw [hback, hnested])
        (by rw [hnested]; exact nested_le_of_within ht.deepestNested hw)
      have := Nat.mul_le_mul_left (levelHeight k) hroom
      rw [Nat.mul_succ] at this
      omega
  · refine { ht with deepest := fun hw => ?_ }
    obtain ⟨h₁, h₂⟩ := ht.deepest hw
    have h₃ : callsWithin k levelCalls s.openNested ≤ callsWithin k 0 s :=
      callsWithin_openNested rfl rfl (nested_le_of_within le_rfl h₁)
    have h₄ : s.openNested.trail.deepest = s.trail.deepest := rfl
    exact ⟨⟨h₁.1, (Nat.le_max_left _ _).trans h₁.2⟩, by omega⟩

end Levels

/-! ### Another text -/

theorem ends_onText {α : Type} {p : ParserM α} {source : Bytes} {Q : α × Parser → Parser → Prop}
    {E : Fault → Parser → Prop}
    (h : Ends p (s.openText source) (fun a u => Q (a, u) (s.closeText u))
      fun e u => E e (s.closeText u)) : Ends (onText source p) s Q E := by
  unfold Ends at h ⊢
  unfold onText
  generalize p (s.openText source) = result at h ⊢
  obtain ⟨_ | _, u⟩ := result <;> exact h

/-- What is read of a text is no longer than the text. -/
theorem measure_openText {source : Bytes} (h : PassedOver (s.openText source) t) :
    t.measure ≤ source.length := by
  have hlen : t.measure ≤ (source.takeWhile (· ≠ 0)).length := h.advanced.measure
  exact hlen.trans (List.takeWhile_sublist _).length_le

/-- A parse of another text, one level down: the parser around it changes nothing but the trail. -/
theorem nestedText_meets {p : ParserM Tree} {source : Bytes} {m c' : ℕ}
    (hp : ∀ t, t.measure ≤ source.length → (contract m c' k levelCalls).Meets p t fun a u =>
      Result k (levelHeight k) a u)
    (hm : 8 * source.length + c' ≤ m) :
    (contract n c k 0).Meets (enterNested (onText source do advance; p)) s
      fun a t => Low k 0 a.1 t := by
  intro hs
  unfold enterNested
  rw [ends_bind, ends_modify, ends_bind]
  refine ends_onText ?_
  rw [ends_bind]
  refine (advance_ends _ fun h => absurd h Bool.false_ne_true).mono (fun _ t ht => ?_)
    fun e t ⟨he, ht⟩ => ?_
  · have hnested : t.trail.nested = s.trail.nested + 1 := by rw [ht.trail]; rfl
    have hcalls : t.trail.calls = s.trail.calls := by rw [ht.trail]; rfl
    have hdeep : t.trail.deepest = s.trail.deepest := by rw [ht.trail]; rfl
    have hstalled : t.trail.stalled = s.trail.stalled := by rw [ht.trail]; rfl
    have hrounds : t.trail.rounds = s.trail.rounds := by rw [ht.trail]; rfl
    have hopen : t.trail.deepestNested = s.openNested.trail.deepestNested := by rw [ht.trail]; rfl
    have hwithin : ∀ {u : Parser}, t.trail.deepestNested ≤ u.trail.deepestNested →
        u.trail.Within k → t.trail.nested ≤ k := fun h hw =>
      hnested ▸ nested_le_of_within (hopen ▸ h) hw
    have hsound : t.Sound := ⟨ht.advanced.current, ht.advanced.panic⟩
    have hlen := measure_openText ht
    refine (hp t hlen ⟨hsound, by omega⟩).mono (fun a u ⟨hu, hres⟩ => ?_) fun e u hu => ?_
    · rw [ends_bind, ends_modify, ends_pure]
      have hun : u.trail.nested = t.trail.nested := hu.nested
      refine ⟨⟨⟨hs.1.current, hs.1.panic⟩, le_rfl, le_rfl, id, rfl, hu.calls.trans hcalls, ?_,
        hu.stalled.trans hstalled, hu.emptyGroup.trans (by rw [ht.trail]; rfl),
        hu.openEscape.trans (by rw [ht.trail]; rfl), hrounds ▸ hu.rounds,
        (Nat.le_max_left _ _).trans (hopen ▸ hu.deepestNested), fun hw => ?_⟩, fun hw => ?_⟩
      · show u.trail.nested - 1 = s.trail.nested
        omega
      · have h₁ := hu.deepest hw
        have h₂ := callsWithin_openNested hcalls hnested (hwithin hu.deepestNested hw)
        show u.trail.deepest ≤ _
        omega
      · have h₁ := hres.low hw
        have hback : (s.openNested.closeText u).closeNested.trail.nested + 1 = u.trail.nested := by
          show u.trail.nested - 1 + 1 = u.trail.nested
          omega
        have := Nat.mul_le_mul_left (levelHeight k)
          (room_openNested (k := k) hback.symm (hun ▸ hwithin hu.deepestNested hw))
        rw [Nat.mul_succ] at this
        show a.height ≤ 0 + _
        omega
    · refine ⟨hu.ne_fuel, hu.overrun, hu.nullDeref, hu.stalled.trans hstalled, fun hw => ?_⟩
      obtain ⟨h₁, h₂⟩ := hu.deepest hw
      have h₃ := callsWithin_openNested hcalls hnested (hwithin le_rfl h₁)
      refine ⟨⟨hrounds ▸ h₁.1, (Nat.le_max_left _ _).trans (hopen ▸ h₁.2)⟩, ?_⟩
      show u.trail.deepest ≤ _
      omega
  · subst he
    have htrail : (s.openNested.closeText t).trail =
        { s.openNested.trail with openEscape := true } := by
      unfold Parser.closeText
      rw [ht]
      rfl
    refine ⟨by decide, fun _ => by rw [htrail], nofun, by rw [htrail]; rfl, fun hw => ?_⟩
    rw [htrail] at hw ⊢
    exact ⟨⟨hw.1, (Nat.le_max_left _ _).trans hw.2⟩, Nat.le_max_left _ _⟩

end Slp.Parse
