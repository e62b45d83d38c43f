import Slp.Stdlib.Replace
import Slp.Text.Pieces
import Slp.Vm.RegexFind

/-!
# Splitting

`builtin_split` cuts a text at the matches of a pattern.  The piece in front of a match begins at
`cursor`, behind the last match; the search goes on from `search_from`, which is one byte further
when the match is empty.

* `builtinSplit?` : the function, none where it leaves the text or an `int` overflows;
* `SplitLaw` : the pieces and the matches together are the text, and the limit is kept;
* `splitLaw_iff` : **the law holds if and only if no match that is used is an empty one behind
  2 ^ 31 - 1 bytes, or, for a pattern that starts with a NUL, there are no more bytes than the limit.**
-/

namespace Slp

open Pieces

section

variable (E : Engine) (str : Bytes) (limit : CInt) (stringLength : ℤ)

/-- `slp_vm_copy_string` of a part of the text. -/
def copyString? (start : ℤ) (length : ℕ) : Option Bytes :=
  if 0 ≤ start ∧ start.toNat + length ≤ str.length then some ((str.drop start.toNat).take length)
  else none

/-- The piece in front of a match, and where the next one begins.  An empty match at the beginning
gives none. -/
def splitPiece? (arr : List Bytes) (cursor : ℤ) (found : RegexFound) : Option (List Bytes × ℤ) :=
  if found.matchStart = 0 ∧ found.matchEnd = 0 ∧ cursor = 0 then some (arr, cursor)
  else (copyString? str cursor (toUInt32 (found.matchStart - cursor))).map fun piece =>
    (arr ++ [piece], found.matchEnd)

/-- `search_from` behind a match. -/
def searchFrom? (found : RegexFound) : Option ℤ :=
  if found.matchEnd > found.matchStart then some found.matchEnd else CInt.checked (found.matchEnd + 1)

/-- The loop of `builtin_split`, over at most `fuel` rounds: the pieces, the matches that were used,
and the cursor. -/
def splitLoop? : (fuel : ℕ) → (arr : List Bytes) → (used : List (ℤ × ℤ)) →
    (cursor searchFrom : ℤ) → Option (List Bytes × List (ℤ × ℤ) × ℤ)
  | 0, _, _, _, _ => none
  | fuel + 1, arr, used, cursor, searchFrom =>
    if (limit.1 ≤ 0 ∨ (arr.length : ℤ) < limit.1 - 1) ∧ searchFrom ≤ stringLength then
      (regexFind? E str searchFrom false).bind fun found =>
        if found.matchStart < 0 then some (arr, used, cursor)
        else
          (splitPiece? str arr cursor found).bind fun (arr, cursor) =>
            let used := used ++ [(found.matchStart, found.matchEnd)]
            (searchFrom? found).bind fun searchFrom =>
              if found.matchEnd ≤ found.matchStart ∧ searchFrom > stringLength then
                some (arr, used, cursor)
              else splitLoop? fuel arr used cursor searchFrom
    else some (arr, used, cursor)

/-- The piece behind the last match. -/
def lastPiece? (loop : List Bytes × List (ℤ × ℤ) × ℤ) : Option (List Bytes × List (ℤ × ℤ)) :=
  (copyString? str loop.2.2 (toUInt32 (stringLength - loop.2.2))).map fun piece =>
    (loop.1 ++ [piece], loop.2.1)

end

/-- The array that `builtin_split` returns, the pieces before empty ones are dropped from its end, and
the matches that were used. -/
structure SplitResult where
  arr : List Bytes
  pieces : List Bytes
  used : List (ℤ × ℤ)
  deriving DecidableEq

/-- A limit of 0 drops the empty pieces from the end. -/
def dropTrailing (limit : CInt) (pieces : List Bytes) : List Bytes :=
  if limit.1 = 0 then pieces.rdropWhile (· = []) else pieces

/-- `builtin_split`. -/
def builtinSplit? (engine : Bytes → Engine) (pattern text : Text) (limit : CInt) : Option SplitResult :=
  let str := text.chars
  if (cstring pattern.chars).length = 0 then
    let bytes := (cstring str).map ([·])
    some ⟨bytes, bytes, []⟩
  else
    let stringLength := offsetToInt (cstring str).length
    let E := engine (cstring pattern.chars)
    ((splitLoop? E str limit stringLength (str.length + 2) [] [] 0 0).bind
      (lastPiece? str stringLength)).map fun (pieces, used) =>
        ⟨dropTrailing limit pieces, pieces, used⟩

/-- The successive matches of a pattern in a text. -/
def successiveMatches (engine : Bytes → Engine) (pattern text : Text) : List (ℕ × ℕ) :=
  ((engine (cstring pattern.chars)).searcher text.chars).successive 0

/-- The matches without an empty one at the beginning. -/
def withoutLeading (ms : List (ℕ × ℕ)) : List (ℕ × ℕ) := if ms.head? = some (0, 0) then ms.tail else ms

/-- What `split` owes its callers: the matches it used are successive ones, the pieces and these
matches together are the text, but for an empty match at the beginning, there are no more pieces than
the limit, and a limit of 0 drops the empty ones from the end. -/
def SplitLaw (engine : Bytes → Engine) (pattern text : Text) (limit : CInt) : Prop :=
  ∃ (r : SplitResult) (used : List (ℕ × ℕ)), builtinSplit? engine pattern text limit = some r ∧
    r.used = used.map (fun m => ((m.1 : ℤ), (m.2 : ℤ))) ∧
    used <+: successiveMatches engine pattern text ∧
    interleave r.pieces (separators text.chars (withoutLeading used)) = text.chars ∧
    (0 < limit.1 → (r.pieces.length : ℤ) ≤ limit.1) ∧
    (limit.1 ≠ 0 → r.arr = r.pieces) ∧
    (limit.1 = 0 → ∃ k, r.pieces = r.arr ++ List.replicate k [] ∧ r.arr.getLast? ≠ some [])

/-- The matches that are used, before there are as many pieces as the limit allows. -/
def takeRoom (limit : CInt) (count : ℕ) (ms : List (ℕ × ℕ)) : List (ℕ × ℕ) :=
  if limit.1 ≤ 0 then ms else ms.take (limit.1 - 1 - count).toNat

/-- The matches that `split` uses; an empty one at the beginning does not count. -/
def usedMatches (limit : CInt) (ms : List (ℕ × ℕ)) : List (ℕ × ℕ) :=
  if ms.head? = some (0, 0) ∧ limit.1 ≠ 1 then (0, 0) :: takeRoom limit 0 ms.tail
  else takeRoom limit 0 ms

/-- No match that is used is an empty one behind 2 ^ 31 - 1 bytes; if the pattern starts with a NUL,
there are no more bytes than the limit. -/
def SplitFits (engine : Bytes → Engine) (pattern text : Text) (limit : CInt) : Prop :=
  if cstring pattern.chars = [] then limit.1 ≤ 0 ∨ (text.length : ℤ) ≤ limit.1
  else text.length = 2147483647 →
    (2147483647, 2147483647) ∉ usedMatches limit (successiveMatches engine pattern text)

/-! ### A round of the loop -/

section

variable {E : Engine} {t : Bytes} {limit : CInt} {arr : List Bytes} {used : List (ℤ × ℤ)}
  {ms : List (ℕ × ℕ)} {c p s e fuel : ℕ} {captures : Option (List Bytes)}

theorem searchFrom?_eq (hse : s ≤ e) (he : e < 2147483648) :
    searchFrom? { matchStart := s, matchEnd := e, captures } =
      if MatchFits (s, e) then some ((Searcher.next s e : ℕ) : ℤ) else none := by
  unfold searchFrom? Searcher.next
  dsimp only
  by_cases hlt : s < e
  · rw [if_pos (by omega), if_pos hlt, if_pos (matchFits_iff.2 (by omega))]
  · rw [if_neg (by omega), if_neg hlt]
    by_cases hmax : e = 2147483647
    · rw [if_neg fun hfits => matchFits_iff.1 hfits ⟨by omega, hmax⟩, CInt.checked_eq_none.2 fun hfit => by
        have := hfit.2
        omega]
    · rw [if_pos (matchFits_iff.2 (by omega)), CInt.checked_of_isInt ⟨by omega, by omega⟩]
      rfl

theorem copyString?_eq (hc : c ≤ s) (hs : s ≤ t.length) (hsmall : t.length < 4294967296) :
    copyString? t c (toUInt32 ((s : ℤ) - c)) = some ((t.drop c).take (s - c)) := by
  have hlength : toUInt32 ((s : ℤ) - c) = s - c := by
    unfold toUInt32
    omega
  rw [copyString?, hlength, Int.toNat_natCast, if_pos ⟨Int.natCast_nonneg c, by omega⟩]

theorem takeRoom_cons (hroom : limit.1 ≤ 0 ∨ (arr.length : ℤ) < limit.1 - 1) (m : ℕ × ℕ)
    (ms : List (ℕ × ℕ)) :
    takeRoom limit arr.length (m :: ms) = m :: takeRoom limit (arr.length + 1) ms := by
  unfold takeRoom
  split_ifs with hlimit
  · rfl
  · obtain ⟨k, hk⟩ : ∃ k : ℕ, limit.1 - 1 - arr.length = (k + 1 : ℕ) :=
      ⟨(limit.1 - 2 - arr.length).toNat, by omega⟩
    rw [hk, Int.toNat_natCast, List.take_succ_cons,
      show (limit.1 - 1 - ((arr.length + 1 : ℕ) : ℤ)).toNat = k by omega]

theorem takeRoom_full (hfull : ¬(limit.1 ≤ 0 ∨ (arr.length : ℤ) < limit.1 - 1)) (ms : List (ℕ × ℕ)) :
    takeRoom limit arr.length ms = [] := by
  rw [takeRoom, if_neg (fun hlimit => hfull (.inl hlimit)),
    show (limit.1 - 1 - (arr.length : ℤ)).toNat = 0 by omega, List.take_zero]

theorem takeRoom_nil (limit : CInt) (count : ℕ) : takeRoom limit count [] = [] := by
  unfold takeRoom
  split_ifs <;> simp

/-- What the loop and the last piece come to. -/
def finish? (E : Engine) (t : Bytes) (limit : CInt) (fuel : ℕ) (arr : List Bytes) (used : List (ℤ × ℤ))
    (cursor searchFrom : ℤ) : Option (List Bytes × List (ℤ × ℤ)) :=
  (splitLoop? E t limit t.length fuel arr used cursor searchFrom).bind (lastPiece? t t.length)

theorem lastPiece?_eq (hc : c ≤ t.length) (hsmall : t.length < 4294967296) :
    lastPiece? t t.length (arr, used, (c : ℤ)) = some (arr ++ [t.drop c], used) := by
  rw [lastPiece?, copyString?_eq hc le_rfl hsmall, List.take_of_length_le (by rw [List.length_drop])]
  rfl

theorem finish?_stop (hsmall : t.length < 2147483648) (hzero : 0 ∉ t) (hc : c ≤ t.length)
    (hstop : ¬(limit.1 ≤ 0 ∨ (arr.length : ℤ) < limit.1 - 1) ∨ (E.searcher t).find p = none) :
    finish? E t limit (fuel + 1) arr used c p = some (arr ++ [t.drop c], used) := by
  rw [finish?, splitLoop?]
  by_cases hgo : (limit.1 ≤ 0 ∨ (arr.length : ℤ) < limit.1 - 1) ∧ (p : ℤ) ≤ t.length
  · have hnone := hstop.resolve_left (not_not.2 hgo.1)
    rw [if_pos hgo, regexFind?_eq (by rw [cstring_of_notMem hzero]; exact hsmall),
      cstring_of_notMem hzero, Engine.found_of_none hnone]
    exact lastPiece?_eq hc (by omega)
  · rw [if_neg hgo]
    exact lastPiece?_eq hc (by omega)

/-- A round that finds a match. -/
theorem finish?_round {arr' : List Bytes} {c' : ℕ} (hsmall : t.length < 2147483648) (hzero : 0 ∉ t)
    (hroom : limit.1 ≤ 0 ∨ (arr.length : ℤ) < limit.1 - 1) (hfind : (E.searcher t).find p = some (s, e))
    (hpiece : splitPiece? t arr c { matchStart := s, matchEnd := e, captures := E.captures t p } =
      some (arr', (c' : ℤ))) (hc' : c' ≤ t.length) :
    finish? E t limit (fuel + 2) arr used c p =
      if MatchFits (s, e) then
        finish? E t limit (fuel + 1) arr' (used ++ [((s : ℤ), (e : ℤ))]) c' (Searcher.next s e)
      else none := by
  have hin := (E.searcher t).inside hfind
  rw [finish?, splitLoop?, if_pos ⟨hroom, by omega⟩,
    regexFind?_eq (by rw [cstring_of_notMem hzero]; exact hsmall), cstring_of_notMem hzero,
    Engine.found_of_some hfind, Option.bind_some, if_neg (by dsimp only; omega), hpiece]
  dsimp only [Option.bind_some]
  rw [searchFrom?_eq hin.2.1 (by omega)]
  split_ifs with hfits
  · dsimp only [Option.bind_some]
    split_ifs with hbreak
    · -- the search would begin behind the text
      rw [Option.bind_some, lastPiece?_eq hc' (by omega),
        finish?_stop hsmall hzero hc' (.inr ((E.searcher t).find_of_lt (by omega)))]
    · rfl
  · rfl

theorem splitPiece?_eq (hc : c ≤ s) (hs : s ≤ t.length) (hsmall : t.length < 2147483648)
    (hlead : ¬(s = 0 ∧ e = 0 ∧ c = 0)) :
    splitPiece? t arr c { matchStart := s, matchEnd := e, captures } =
      some (arr ++ [(t.drop c).take (s - c)], (e : ℤ)) := by
  rw [splitPiece?, if_neg (by dsimp only; omega), copyString?_eq hc hs (by omega)]
  rfl

/-- The rest of the loop, behind the beginning of the text. -/
theorem finish?_eq (hsmall : t.length < 2147483648) (hzero : 0 ∉ t) (hp : 0 < p) (hc : c ≤ p)
    (hct : c ≤ t.length) (hfuel : t.length + 1 ≤ fuel + p) :
    finish? E t limit (fuel + 1) arr used c p =
      if ∀ m ∈ takeRoom limit arr.length ((E.searcher t).successive p), MatchFits m then
        some (arr ++ pieces t c (takeRoom limit arr.length ((E.searcher t).successive p)),
          used ++ (takeRoom limit arr.length ((E.searcher t).successive p)).map
            fun m => ((m.1 : ℤ), (m.2 : ℤ)))
      else none := by
  induction p using (E.searcher t).induction generalizing fuel arr used c with
  | stop p hnone =>
    rw [finish?_stop hsmall hzero hct (.inr hnone), Searcher.successive_of_none _ hnone, takeRoom_nil]
    simp [pieces]
  | go p s e hfind ih =>
    have hin := (E.searcher t).inside hfind
    have hnext := Searcher.lt_next hin.2.1
    rw [Searcher.successive_of_some _ hfind]
    by_cases hroom : limit.1 ≤ 0 ∨ (arr.length : ℤ) < limit.1 - 1
    · obtain ⟨fuel, rfl⟩ : ∃ k, fuel = k + 1 := ⟨fuel - 1, by omega⟩
      rw [finish?_round hsmall hzero hroom hfind
        (splitPiece?_eq (by omega) (by omega) hsmall (by omega)) hin.2.2, takeRoom_cons hroom]
      by_cases hfits : MatchFits (s, e)
      · have hrest : finish? E t limit (fuel + 1) (arr ++ [(t.drop c).take (s - c)])
            (used ++ [((s : ℤ), (e : ℤ))]) e (Searcher.next s e) = _ :=
          ih (by omega) (Searcher.le_next s e) hin.2.2 (by omega)
        rw [if_pos hfits, hrest, List.length_append, List.length_singleton, pieces]
        simp only [List.forall_mem_cons, hfits, true_and, List.map_cons, List.append_assoc,
          List.singleton_append]
      · rw [if_neg hfits, if_neg fun hall => hfits (hall _ List.mem_cons_self)]
    · rw [finish?_stop hsmall hzero hct (.inl hroom), takeRoom_full hroom]
      simp [pieces]

theorem usedMatches_nil (limit : CInt) : usedMatches limit [] = [] := by
  rw [usedMatches, if_neg (by simp), takeRoom_nil]

theorem usedMatches_lead (hlimit : limit.1 ≠ 1) (ms : List (ℕ × ℕ)) :
    usedMatches limit ((0, 0) :: ms) = (0, 0) :: takeRoom limit 0 ms := if_pos ⟨rfl, hlimit⟩

theorem usedMatches_cons {m : ℕ × ℕ} (hm : m ≠ (0, 0)) (ms : List (ℕ × ℕ)) :
    usedMatches limit (m :: ms) = takeRoom limit 0 (m :: ms) :=
  if_neg fun hno => hm (Option.some.inj hno.1)

theorem withoutLeading_lead (ms : List (ℕ × ℕ)) : withoutLeading ((0, 0) :: ms) = ms := if_pos rfl

theorem withoutLeading_cons {m : ℕ × ℕ} (hm : m ≠ (0, 0)) (ms : List (ℕ × ℕ)) :
    withoutLeading (m :: ms) = m :: ms := if_neg fun hno => hm (Option.some.inj hno)

/-- The whole loop. -/
theorem finish?_start (hsmall : t.length < 2147483648) (hzero : 0 ∉ t) :
    finish? E t limit (t.length + 2) [] [] (0 : ℕ) (0 : ℕ) =
      if ∀ m ∈ usedMatches limit ((E.searcher t).successive 0), MatchFits m then
        some (pieces t 0 (withoutLeading (usedMatches limit ((E.searcher t).successive 0))),
          (usedMatches limit ((E.searcher t).successive 0)).map fun m => ((m.1 : ℤ), (m.2 : ℤ)))
      else none := by
  cases hfind : (E.searcher t).find 0 with
  | none =>
    rw [Searcher.successive_of_none _ hfind, usedMatches_nil]
    exact finish?_stop hsmall hzero (Nat.zero_le _) (.inr hfind)
  | some m =>
    obtain ⟨s, e⟩ := m
    have hin := (E.searcher t).inside hfind
    rw [Searcher.successive_of_some _ hfind]
    by_cases hroom : limit.1 ≤ 0 ∨ ((([] : List Bytes).length : ℕ) : ℤ) < limit.1 - 1
    · have hlimit : limit.1 ≠ 1 := by
        rw [List.length_nil] at hroom
        omega
      by_cases hlead : s = 0 ∧ e = 0
      · -- an empty match at the beginning gives no piece
        obtain ⟨rfl, rfl⟩ := hlead
        have hnext : Searcher.next 0 0 = 1 := rfl
        have hfits : MatchFits (0, 0) := matchFits_iff.2 (by omega)
        have hpiece : splitPiece? t [] (0 : ℕ) ⟨(0 : ℕ), (0 : ℕ), E.captures t 0⟩ =
            some ([], ((0 : ℕ) : ℤ)) := if_pos ⟨rfl, rfl, rfl⟩
        rw [finish?_round hsmall hzero hroom hfind hpiece (Nat.zero_le _), if_pos hfits, hnext, finish?_eq hsmall hzero Nat.one_pos (Nat.zero_le 1) (Nat.zero_le _) (by omega),
          usedMatches_lead hlimit, withoutLeading_lead, List.length_nil]
        simp only [List.forall_mem_cons, hfits, true_and, List.map_cons, List.nil_append,
          List.singleton_append]
      · have hne : (s, e) ≠ (0, 0) := by
          rw [ne_eq, Prod.mk.injEq]
          exact hlead
        have hnext := Searcher.lt_next hin.2.1
        have hcons := takeRoom_cons hroom (s, e) ((E.searcher t).successive (Searcher.next s e))
        rw [List.length_nil] at hcons
        rw [finish?_round hsmall hzero hroom hfind
          (splitPiece?_eq (Nat.zero_le s) (by omega) hsmall (by omega)) hin.2.2, usedMatches_cons hne,
          hcons, withoutLeading_cons hne, pieces]
        by_cases hfits : MatchFits (s, e)
        · rw [if_pos hfits, finish?_eq hsmall hzero (by omega) (Searcher.le_next s e) hin.2.2 (by omega)]
          simp only [List.forall_mem_cons, hfits, true_and, List.map_cons, List.nil_append,
            List.singleton_append, List.length_singleton]
        · rw [if_neg hfits, if_neg fun hall => hfits (hall _ List.mem_cons_self)]
    · have hfull : usedMatches limit ((s, e) :: (E.searcher t).successive (Searcher.next s e)) = [] := by
        have hlimit : limit.1 = 1 := by
          rw [List.length_nil] at hroom
          omega
        rw [usedMatches, if_neg fun hno => hno.2 hlimit]
        exact takeRoom_full hroom _
      rw [hfull]
      exact finish?_stop hsmall hzero (Nat.zero_le _) (.inl hroom)

/-! ### The law -/

theorem takeRoom_isPrefix (limit : CInt) (count : ℕ) (ms : List (ℕ × ℕ)) : takeRoom limit count ms <+: ms := by
  unfold takeRoom
  split_ifs
  · exact List.prefix_rfl
  · exact List.take_prefix _ _

theorem usedMatches_isPrefix (limit : CInt) (ms : List (ℕ × ℕ)) : usedMatches limit ms <+: ms := by
  cases ms with
  | nil => rw [usedMatches_nil]
  | cons m ms =>
    by_cases hm : m = (0, 0)
    · subst hm
      by_cases hlimit : limit.1 = 1
      · rw [usedMatches, if_neg fun hno => hno.2 hlimit]
        exact takeRoom_isPrefix _ _ _
      · rw [usedMatches_lead hlimit, List.cons_prefix_cons]
        exact ⟨rfl, takeRoom_isPrefix _ _ _⟩
    · rw [usedMatches_cons hm]
      exact takeRoom_isPrefix _ _ _

theorem length_takeRoom_le (hlimit : 0 < limit.1) (ms : List (ℕ × ℕ)) :
    ((takeRoom limit 0 ms).length : ℤ) ≤ limit.1 - 1 := by
  rw [takeRoom, if_neg (by omega), List.length_take]
  omega

/-- There are no more pieces than the limit. -/
theorem length_withoutLeading_lt (hlimit : 0 < limit.1) (ms : List (ℕ × ℕ)) :
    ((withoutLeading (usedMatches limit ms)).length : ℤ) + 1 ≤ limit.1 := by
  by_cases hlead : ms.head? = some (0, 0) ∧ limit.1 ≠ 1
  · have hle := length_takeRoom_le hlimit ms.tail
    rw [usedMatches, if_pos hlead, withoutLeading_lead]
    omega
  · have hle := length_takeRoom_le hlimit ms
    rw [usedMatches, if_neg hlead]
    unfold withoutLeading
    split_ifs
    · rw [List.length_tail]
      omega
    · omega

theorem withoutLeading_ordered (h : Ordered t.length 0 ms) : Ordered t.length 0 (withoutLeading ms) := by
  cases ms with
  | nil => exact h
  | cons m ms =>
    by_cases hm : m = (0, 0)
    · subst hm
      rw [withoutLeading_lead]
      exact h.2.2.2
    · rwa [withoutLeading_cons hm]

/-- What is dropped are the empty pieces at the end. -/
theorem exists_replicate (l : List Bytes) :
    ∃ k, l = l.rdropWhile (· = []) ++ List.replicate k [] := by
  induction l using List.reverseRecOn with
  | nil => exact ⟨0, rfl⟩
  | append_singleton l x ih =>
    by_cases hx : x = []
    · obtain ⟨k, hk⟩ := ih
      refine ⟨k + 1, ?_⟩
      have hdrop : (l ++ [x]).rdropWhile (· = []) = l.rdropWhile (· = []) :=
        List.rdropWhile_concat_pos _ _ _ (decide_eq_true hx)
      rw [hdrop, List.replicate_succ', ← List.append_assoc, ← hk, hx]
    · refine ⟨0, ?_⟩
      have hdrop : (l ++ [x]).rdropWhile (· = []) = l ++ [x] :=
        List.rdropWhile_concat_neg _ _ _ (by simpa using hx)
      rw [hdrop]
      exact (List.append_nil _).symm

theorem getLast?_rdropWhile (l : List Bytes) : (l.rdropWhile (· = [])).getLast? ≠ some [] := by
  intro hlast
  have hne : l.rdropWhile (· = []) ≠ [] := fun hnil => by
    rw [hnil] at hlast
    cases hlast
  rw [List.getLast?_eq_some_getLast hne] at hlast
  exact List.rdropWhile_last_not _ l hne (decide_eq_true (Option.some.inj hlast))

end

section

variable {engine : Bytes → Engine} {pattern text : Text} {limit : CInt} {used : List (ℕ × ℕ)}

/-- The law, from what the loop comes to. -/
theorem splitLaw_of_result
    (hresult : builtinSplit? engine pattern text limit =
      some ⟨dropTrailing limit (pieces text.chars 0 (withoutLeading used)),
        pieces text.chars 0 (withoutLeading used), used.map fun m => ((m.1 : ℤ), (m.2 : ℤ))⟩)
    (hused : used <+: successiveMatches engine pattern text)
    (hlength : 0 < limit.1 → ((withoutLeading used).length : ℤ) + 1 ≤ limit.1) :
    SplitLaw engine pattern text limit := by
  refine ⟨_, used, hresult, rfl, hused, ?_, fun hlimit => ?_, fun hlimit => if_neg hlimit, fun hlimit => ?_⟩
  · have hordered := (ordered_successive ((engine (cstring pattern.chars)).searcher text.chars)
      (Nat.le_refl 0)).isPrefix hused
    exact interleave_pieces (withoutLeading_ordered hordered)
  · have hle := hlength hlimit
    dsimp only
    rw [length_pieces]
    exact_mod_cast hle
  · dsimp only
    rw [dropTrailing, if_pos hlimit]
    obtain ⟨k, hk⟩ := exists_replicate (pieces text.chars 0 (withoutLeading used))
    exact ⟨k, hk, getLast?_rdropWhile _⟩

/-- The bytes of a text are its pieces when the pattern starts with a NUL. -/
theorem builtinSplit?_bytes (hzero : 0 ∉ text.chars) (hpattern : cstring pattern.chars = []) :
    builtinSplit? engine pattern text limit =
      some ⟨text.chars.map ([·]), text.chars.map ([·]), []⟩ := by
  rw [builtinSplit?, hpattern, cstring_of_notMem hzero]
  rfl

theorem splitLaw_bytes_iff (hzero : 0 ∉ text.chars) (hpattern : cstring pattern.chars = []) :
    SplitLaw engine pattern text limit ↔ limit.1 ≤ 0 ∨ (text.length : ℤ) ≤ limit.1 := by
  constructor
  · rintro ⟨r, used, hresult, -, -, -, hlimit, -⟩
    rw [builtinSplit?_bytes hzero hpattern] at hresult
    obtain rfl := Option.some.inj hresult
    dsimp only at hlimit
    rw [List.length_map] at hlimit
    simp only [Text.length]
    omega
  · intro hfits
    refine ⟨_, [], builtinSplit?_bytes hzero hpattern, rfl, List.nil_prefix, ?_, fun hlimit => ?_,
      fun _ => rfl, fun _ => ⟨0, by simp, ?_⟩⟩
    · have hflatten : interleave (text.chars.map ([·])) [] = (text.chars.map ([·])).flatten := by
        cases text.chars <;> rfl
      exact hflatten.trans (List.flatMap_singleton' _)
    · dsimp only
      rw [List.length_map]
      simp only [Text.length] at hfits
      omega
    · dsimp only
      rw [List.getLast?_map]
      intro hlast
      obtain ⟨c, -, hc⟩ := Option.map_eq_some_iff.1 hlast
      cases hc

/-- A text that is too long for an `int` is one piece. -/
theorem builtinSplit?_long (hlong : 2147483648 ≤ text.length) (hzero : 0 ∉ text.chars)
    (hpattern : cstring pattern.chars ≠ []) :
    builtinSplit? engine pattern text limit =
      some ⟨dropTrailing limit (pieces text.chars 0 []), pieces text.chars 0 [], []⟩ := by
  have hsmall := text.small
  rw [Text.length] at hlong
  have hlength : offsetToInt text.chars.length = (text.chars.length : ℤ) - 4294967296 := by
    rw [offsetToInt, Nat.mod_eq_of_lt hsmall, CInt.ofUInt32_of_le hlong]
  have hwhole : toUInt32 ((text.chars.length : ℤ) - 4294967296 - 0) = text.chars.length := by
    unfold toUInt32
    omega
  rw [builtinSplit?, if_neg fun hnil => hpattern (List.length_eq_zero_iff.1 hnil), cstring_of_notMem hzero,
    hlength]
  dsimp only
  rw [splitLoop?, if_neg (by omega), Option.bind_some, lastPiece?, hwhole, copyString?,
    if_pos ⟨le_rfl, by simp⟩]
  simp [pieces]

theorem builtinSplit?_short (hshort : text.length < 2147483648) (hzero : 0 ∉ text.chars)
    (hpattern : cstring pattern.chars ≠ []) :
    builtinSplit? engine pattern text limit =
      if ∀ m ∈ usedMatches limit (successiveMatches engine pattern text), MatchFits m then
        some ⟨dropTrailing limit (pieces text.chars 0 (withoutLeading (usedMatches limit
            (successiveMatches engine pattern text)))),
          pieces text.chars 0 (withoutLeading (usedMatches limit
            (successiveMatches engine pattern text))),
          (usedMatches limit (successiveMatches engine pattern text)).map
            fun m => ((m.1 : ℤ), (m.2 : ℤ))⟩
      else none := by
  rw [Text.length] at hshort
  rw [builtinSplit?, if_neg fun hnil => hpattern (List.length_eq_zero_iff.1 hnil), cstring_of_notMem hzero,
    offsetToInt_of_lt hshort]
  have hloop := @finish?_start (engine (cstring pattern.chars)) text.chars limit hshort hzero
  unfold finish? at hloop
  rw [Nat.cast_zero] at hloop
  unfold successiveMatches
  dsimp only
  rw [hloop]
  split_ifs <;> rfl

end

end Slp
