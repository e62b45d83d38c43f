import Slp.Stdlib.Split
import Slp.Vm.HasMatch

/-!
# The scanners of a pattern

`matches`, `split` and repeated calls of `hasmatch` go through the matches of a pattern in a text, each
in a loop of its own.  `matches` searches on behind a match that is empty only if that is where it has
searched from.

* `matchesLoop?`, `builtinMatches?`, `hasmatchLoop?` : the loops;
* `ScannersAgree` : all of them find the successive matches;
* `scannersAgree_iff` : **they do if and only if a search finds no empty match again that another one
  has found further on, the positions are of type `int`, and the bytes of a text are what an empty
  pattern cuts it into.**
-/

namespace Slp

open Pieces MatchStates

/-- The position of what is found. -/
def RegexFound.position (found : RegexFound) : ℤ × ℤ := (found.matchStart, found.matchEnd)

section

variable (E : Engine) (text : Bytes) (firstMatch lastMatch textLength : ℤ)

/-- Where `matches` searches on. -/
def renext? (found : RegexFound) (offset : ℤ) : Option ℤ :=
  if found.matchEnd > offset then some found.matchEnd else CInt.checked (found.matchStart + 1)

/-- The loop of `builtin_matches`, over at most `fuel` rounds: the matches whose captures it takes. -/
def matchesLoop? : (fuel : ℕ) → (ordinal offset : ℤ) → Option (List RegexFound)
  | 0, _, _ => none
  | fuel + 1, ordinal, offset =>
    if offset ≤ textLength then
      (regexFind? E text offset false).bind fun found =>
        if found.matchStart < 0 then some []
        else
          let taken := if firstMatch < 0 ∨ ordinal ≥ firstMatch ∧ ordinal ≤ lastMatch then [found] else []
          if firstMatch ≥ 0 ∧ ordinal ≥ lastMatch then some taken
          else
            (CInt.checked (ordinal + 1)).bind fun ordinal =>
              (renext? found offset).bind fun offset =>
                (matchesLoop? fuel ordinal offset).map fun rest => taken ++ rest
    else some []

end

section

variable (engine : Bytes → Engine) (pattern text : Text)

/-- The matches that `builtin_matches` takes; all of them without an ordinal, or with a negative one. -/
def matchesTaken? (firstMatch lastMatch : ℤ) : Option (List RegexFound) :=
  matchesLoop? (engine (cstring pattern.chars)) text.chars firstMatch lastMatch
    (offsetToInt text.length) (text.length + 2) 0 0

/-- `builtin_matches`: the captures of these. -/
def builtinMatches? (firstMatch lastMatch : ℤ) : Option (List Bytes) :=
  (matchesTaken? engine pattern text firstMatch lastMatch).map
    fun taken => taken.flatMap fun found => found.captures.getD []

/-- Calls of `hasmatch` until one answers `false`, at most `fuel` of them. -/
def hasmatchLoop? : (fuel : ℕ) → MatchStates → Option (List RegexFound)
  | 0, _ => none
  | fuel + 1, σ =>
    (regexHasmatch? engine σ ⟨text, pattern⟩).bind fun (found, σ) =>
      if found.matchStart < 0 then some [] else (hasmatchLoop? fuel σ).map (found :: ·)

end

/-- Matches at positions of the text, as positions of type `int`. -/
def positions (ms : List (ℕ × ℕ)) : List (ℤ × ℤ) := ms.map fun m => (m.1, m.2)

/-- The scanners find the successive matches. -/
structure ScannersAgree (engine : Bytes → Engine) (pattern text : Text) : Prop where
  all : (matchesTaken? engine pattern text (-1) (-1)).map (·.map (·.position)) =
    some (positions (successiveMatches engine pattern text))
  ordinal : ∀ k : ℕ, CInt.IsInt k → (matchesTaken? engine pattern text k k).map (·.map (·.position)) =
    some (positions (successiveMatches engine pattern text)[k]?.toList)
  split : pattern.chars ≠ [] → ∃ r, builtinSplit? engine pattern text ⟨0, by decide⟩ = some r ∧
    r.used = positions (successiveMatches engine pattern text)
  /-- For an empty pattern `split` does not search. -/
  bytes : pattern.chars = [] → ∃ r, builtinSplit? engine pattern text ⟨0, by decide⟩ = some r ∧
    r.arr = dropTrailing ⟨0, by decide⟩
      (pieces text.chars 0 (withoutLeading (successiveMatches engine pattern text)))
  hasmatch : ∀ σ : MatchStates, ⟨text, pattern⟩ ∉ σ.keys → (∀ state ∈ σ.states, 0 ≤ state.nextOffset) →
    (hasmatchLoop? engine pattern text (text.length + 2) σ).map (·.map (·.position)) =
      some (positions (successiveMatches engine pattern text))

/-- When the scanners agree. -/
structure ScannersFit (engine : Bytes → Engine) (pattern text : Text) : Prop where
  long : 2147483648 ≤ text.length → successiveMatches engine pattern text = []
  fits : ∀ m ∈ successiveMatches engine pattern text, MatchFits m
  once : text.length < 2147483648 → ((engine (cstring pattern.chars)).searcher text.chars).FindsOnce
  bytes : pattern.chars = [] → dropTrailing ⟨0, by decide⟩
    (pieces text.chars 0 (withoutLeading (successiveMatches engine pattern text))) =
      text.chars.map ([·])

/-! ### The loop of `matches` -/

section

variable {E : Engine} {t : Bytes} {p s e fuel o k : ℕ} {firstMatch lastMatch : ℤ}
  {captures : Option (List Bytes)}

theorem renext?_eq (hin : p ≤ s ∧ s ≤ e) (he : e < 2147483648) (hfits : MatchFits (s, e)) :
    renext? { matchStart := s, matchEnd := e, captures } p = some ((Searcher.renext p s e : ℕ) : ℤ) := by
  rw [matchFits_iff] at hfits
  unfold renext? Searcher.renext
  dsimp only
  by_cases hlt : p < e
  · rw [if_pos (by omega), if_pos hlt]
  · rw [if_neg (by omega), if_neg hlt, CInt.checked_of_isInt ⟨by omega, by omega⟩]
    rfl

theorem eq_of_renext? {q : ℤ}
    (hq : renext? { matchStart := s, matchEnd := e, captures } p = some q) :
    q = (Searcher.renext p s e : ℕ) := by
  unfold renext? at hq
  unfold Searcher.renext
  dsimp only at hq
  split_ifs at hq ⊢
  · exact (Option.some.inj hq).symm
  · omega
  · omega
  · exact (CInt.checked_eq_some.1 hq).2.symm

theorem matchesLoop?_stop (hsmall : t.length < 2147483648) (hzero : 0 ∉ t) (o : ℤ)
    (hfind : (E.searcher t).find p = none) :
    matchesLoop? E t firstMatch lastMatch t.length (fuel + 1) o p = some [] := by
  rw [matchesLoop?]
  by_cases hp : (p : ℤ) ≤ t.length
  · rw [if_pos hp, regexFind?_eq (by rw [cstring_of_notMem hzero]; exact hsmall), cstring_of_notMem hzero,
      Engine.found_of_none hfind]
    rfl
  · rw [if_neg hp]

/-- A round that finds a match. -/
theorem matchesLoop?_round (hsmall : t.length < 2147483648) (hzero : 0 ∉ t) (o : ℤ)
    (hfind : (E.searcher t).find p = some (s, e)) :
    matchesLoop? E t firstMatch lastMatch t.length (fuel + 1) o p =
      let taken := if firstMatch < 0 ∨ o ≥ firstMatch ∧ o ≤ lastMatch then [E.found t p] else []
      if firstMatch ≥ 0 ∧ o ≥ lastMatch then some taken
      else
        (CInt.checked (o + 1)).bind fun o =>
          (renext? (E.found t p) p).bind fun offset =>
            (matchesLoop? E t firstMatch lastMatch t.length fuel o offset).map fun rest => taken ++ rest := by
  have hin := (E.searcher t).inside hfind
  rw [matchesLoop?, if_pos (by omega), regexFind?_eq (by rw [cstring_of_notMem hzero]; exact hsmall),
    cstring_of_notMem hzero, Option.bind_some, if_neg]
  rw [Engine.found_of_some hfind]
  dsimp only
  omega

theorem position_found (hfind : (E.searcher t).find p = some (s, e)) :
    (E.found t p).position = ((s : ℤ), (e : ℤ)) := by rw [Engine.found_of_some hfind, RegexFound.position]

/-- Without an ordinal the loop takes what is found on the way. -/
theorem matchesLoop?_all (hsmall : t.length < 2147483648) (hzero : 0 ∉ t)
    (hfits : ∀ m ∈ (E.searcher t).rescanned p, MatchFits m)
    (hcount : o + ((E.searcher t).rescanned p).length ≤ 2147483647) (hfuel : t.length + 2 ≤ fuel + p)
    (hpos : 0 < fuel) :
    (matchesLoop? E t (-1) (-1) t.length fuel o p).map (·.map (·.position)) =
      some (positions ((E.searcher t).rescanned p)) := by
  induction p using (E.searcher t).reinduction generalizing fuel o with
  | stop p hfind =>
    obtain ⟨fuel, rfl⟩ : ∃ k, fuel = k + 1 := ⟨fuel - 1, by omega⟩
    rw [matchesLoop?_stop hsmall hzero o hfind, Searcher.rescanned_of_none _ hfind]
    rfl
  | go p s e hfind ih =>
    have hin := (E.searcher t).inside hfind
    have hlt := Searcher.lt_renext (e := e) hin.1
    rw [Searcher.rescanned_of_some _ hfind] at hfits hcount ⊢
    rw [List.length_cons] at hcount
    obtain ⟨fuel, rfl⟩ : ∃ k, fuel = k + 1 := ⟨fuel - 1, by omega⟩
    have hrest : (matchesLoop? E t (-1) (-1) t.length fuel (o + 1 : ℕ) (Searcher.renext p s e : ℕ)).map
        (·.map (·.position)) = _ :=
      ih (fun m hm => hfits m (List.mem_cons_of_mem _ hm)) (by omega) (by omega) (by omega)
    have hnext : renext? (E.found t p) p = some ((Searcher.renext p s e : ℕ) : ℤ) := by
      rw [Engine.found_of_some hfind]
      exact renext?_eq ⟨hin.1, hin.2.1⟩ (by omega) (hfits _ List.mem_cons_self)
    rw [Nat.cast_succ] at hrest
    rw [matchesLoop?_round hsmall hzero o hfind]
    dsimp only
    rw [if_neg (show ¬((-1 : ℤ) ≥ 0 ∧ (o : ℤ) ≥ -1) by omega), if_pos (.inl (by decide)),
      CInt.checked_of_isInt ⟨by omega, by omega⟩, Option.bind_some, hnext, Option.bind_some]
    obtain ⟨rest, hloop, hrest⟩ := Option.map_eq_some_iff.1 hrest
    rw [hloop, Option.map_some, Option.map_some, List.map_append, hrest, List.map_singleton,
      position_found hfind]
    rfl

/-- What the loop takes without an ordinal is what is found on the way. -/
theorem eq_of_matchesLoop? (hsmall : t.length < 2147483648) (hzero : 0 ∉ t) {o : ℤ}
    {taken : List RegexFound} (hloop : matchesLoop? E t (-1) (-1) t.length fuel o p = some taken) :
    taken.map (·.position) = positions ((E.searcher t).rescanned p) := by
  induction p using (E.searcher t).reinduction generalizing fuel o taken with
  | stop p hfind =>
    cases fuel with
    | zero => cases hloop
    | succ fuel =>
      rw [matchesLoop?_stop hsmall hzero o hfind] at hloop
      rw [Searcher.rescanned_of_none _ hfind, ← Option.some.inj hloop]
      rfl
  | go p s e hfind ih =>
    cases fuel with
    | zero => cases hloop
    | succ fuel =>
      rw [matchesLoop?_round hsmall hzero o hfind] at hloop
      dsimp only at hloop
      rw [if_neg (show ¬((-1 : ℤ) ≥ 0 ∧ o ≥ -1) by omega), if_pos (.inl (by decide))] at hloop
      obtain ⟨o', -, hloop⟩ := Option.bind_eq_some_iff.1 hloop
      obtain ⟨q, hq, hloop⟩ := Option.bind_eq_some_iff.1 hloop
      obtain ⟨rest, hrest, rfl⟩ := Option.map_eq_some_iff.1 hloop
      rw [Engine.found_of_some hfind] at hq
      rw [eq_of_renext? hq] at hrest
      rw [Searcher.rescanned_of_some _ hfind, List.map_append, ih hrest, List.map_singleton,
        position_found hfind]
      rfl

/-- With an ordinal it takes the match with that number. -/
theorem matchesLoop?_ordinal (hsmall : t.length < 2147483648) (hzero : 0 ∉ t)
    (hfits : ∀ m ∈ (E.searcher t).rescanned p, MatchFits m) (hk : k ≤ 2147483647) (hok : o ≤ k)
    (hfuel : t.length + 2 ≤ fuel + p) (hpos : 0 < fuel) :
    (matchesLoop? E t k k t.length fuel o p).map (·.map (·.position)) =
      some (positions ((E.searcher t).rescanned p)[k - o]?.toList) := by
  induction p using (E.searcher t).reinduction generalizing fuel o with
  | stop p hfind =>
    obtain ⟨fuel, rfl⟩ : ∃ k, fuel = k + 1 := ⟨fuel - 1, by omega⟩
    rw [matchesLoop?_stop hsmall hzero o hfind, Searcher.rescanned_of_none _ hfind, List.getElem?_nil]
    rfl
  | go p s e hfind ih =>
    have hin := (E.searcher t).inside hfind
    have hlt := Searcher.lt_renext (e := e) hin.1
    rw [Searcher.rescanned_of_some _ hfind] at hfits ⊢
    obtain ⟨fuel, rfl⟩ : ∃ k, fuel = k + 1 := ⟨fuel - 1, by omega⟩
    rw [matchesLoop?_round hsmall hzero o hfind]
    dsimp only
    by_cases hlast : o = k
    · subst hlast
      rw [if_pos (show (o : ℤ) ≥ 0 ∧ (o : ℤ) ≥ o from ⟨Int.natCast_nonneg o, le_rfl⟩),
        if_pos (.inr ⟨le_rfl, le_rfl⟩), Nat.sub_self,
        Option.map_some, List.map_singleton, position_found hfind]
      rfl
    · have hrest : (matchesLoop? E t k k t.length fuel (o + 1 : ℕ) (Searcher.renext p s e : ℕ)).map
          (·.map (·.position)) = _ :=
        ih (fun m hm => hfits m (List.mem_cons_of_mem _ hm)) (by omega) (by omega) (by omega)
      have hnext : renext? (E.found t p) p = some ((Searcher.renext p s e : ℕ) : ℤ) := by
        rw [Engine.found_of_some hfind]
        exact renext?_eq ⟨hin.1, hin.2.1⟩ (by omega) (hfits _ List.mem_cons_self)
      rw [Nat.cast_succ] at hrest
      rw [if_neg (show ¬((k : ℤ) ≥ 0 ∧ (o : ℤ) ≥ k) by omega), if_neg (by omega),
        CInt.checked_of_isInt ⟨by omega, by omega⟩, Option.bind_some, hnext, Option.bind_some, show k - o = (k - (o + 1)) + 1 by omega,
        List.getElem?_cons_succ, ← hrest]
      simp only [List.nil_append, Option.map_id']

end

/-! ### Repeated calls of `hasmatch` -/

section

variable {engine : Bytes → Engine} {pattern text : Text} {key : RegexKey} {σ σ' : MatchStates}
  {base : List MatchState} {offset : ℤ} {p n fuel : ℕ}

/-- The next call for a key searches on from `p`. -/
structure Ready (σ : MatchStates) (key : RegexKey) (p : ℕ) : Prop where
  nonneg : ∀ state ∈ σ.states, 0 ≤ state.nextOffset
  place : key ∉ σ.keys ∧ p = 0 ∨
    ∃ base n, σ.states.Perm (⟨key, p, n⟩ :: base) ∧ key ∉ base.map (·.key)

theorem Ready.prepared (hready : Ready σ key p) (hprepared : Prepared σ.states key base offset) :
    offset = p ∧ key ∉ base.map (·.key) := by
  have hfresh : (∀ state ∈ σ.states, state.key ≠ key) → p = 0 := by
    intro hnew
    rcases hready.place with ⟨-, hp⟩ | ⟨others, n, hplace, -⟩
    · exact hp
    · exact absurd rfl (hnew _ (hplace.mem_iff.2 List.mem_cons_self))
  have hothers : (∀ state ∈ σ.states, state.key ≠ key) → key ∉ base.map (·.key) := by
    intro hnew hmem
    obtain ⟨state, hstate, hkey⟩ := List.mem_map.1 hmem
    exact hnew state (hprepared.subset hstate) hkey
  cases hprepared with
  | @own state _ hkey hperm =>
    have hstate : state ∈ σ.states := hperm.mem_iff.2 List.mem_cons_self
    rcases hready.place with ⟨habsent, -⟩ | ⟨others, n, hplace, hnone⟩
    · exact absurd (List.mem_map.2 ⟨state, hstate, hkey⟩) habsent
    · rcases List.mem_cons.1 (hplace.mem_iff.1 hstate) with rfl | hmem
      · exact ⟨rfl, fun hmem => hnone (((hperm.symm.trans hplace).cons_inv.map _).mem_iff.1 hmem)⟩
      · exact absurd (List.mem_map.2 ⟨state, hmem, hkey⟩) hnone
  | room hnew => exact ⟨by rw [hfresh hnew]; rfl, hothers hnew⟩
  | evict hnew => exact ⟨by rw [hfresh hnew]; rfl, hothers hnew⟩

/-- One call for a key, and what the next one finds. -/
theorem Ready.call (hready : Ready σ ⟨text, pattern⟩ p) (hpattern : 0 ∉ pattern.chars)
    (hfind : regexFind? (engine pattern.chars) text.chars p false =
      some ((engine pattern.chars).found text.chars p))
    (hsmall : ∀ s e, ((engine pattern.chars).searcher text.chars).find p = some (s, e) → e < 2147483648) :
    (((engine pattern.chars).searcher text.chars).find p = none →
      ∃ σ', regexHasmatch? engine σ ⟨text, pattern⟩ = some ({}, σ')) ∧
    ∀ s e, ((engine pattern.chars).searcher text.chars).find p = some (s, e) →
      (MatchFits (s, e) → ∃ σ', regexHasmatch? engine σ ⟨text, pattern⟩ =
        some ((engine pattern.chars).found text.chars p, σ') ∧
          Ready σ' ⟨text, pattern⟩ (Searcher.next s e)) ∧
      (¬MatchFits (s, e) → regexHasmatch? engine σ ⟨text, pattern⟩ = none) := by
  obtain ⟨base, state, hprepared, hkey, htaken⟩ := takeState_spec σ ⟨text, pattern⟩
  obtain ⟨hp, hothers⟩ := hready.prepared hprepared
  obtain ⟨left, moved, -, hmoved, hcall⟩ := regexHasmatch?_eq htaken hkey hp hpattern hfind hsmall
  unfold RegexKey.searcher at hcall
  dsimp only at hcall
  refine ⟨fun hnone => ?_, fun s e hsome => ⟨fun hfits => ?_, fun hfits => ?_⟩⟩
  · rw [hnone, Engine.found_of_none hnone] at hcall
    exact ⟨_, hcall⟩
  · rw [hsome] at hcall
    dsimp only at hcall
    rw [if_pos hfits] at hcall
    refine ⟨_, hcall, fun state hstate => ?_, .inr ⟨base, _, hmoved _, hothers⟩⟩
    rcases List.mem_cons.1 ((hmoved _).mem_iff.1 hstate) with rfl | hmem
    · exact Int.natCast_nonneg _
    · exact hready.nonneg state (hprepared.subset hmem)
  · rw [hsome] at hcall
    dsimp only at hcall
    rwa [if_neg hfits] at hcall

/-- The calls find the successive matches, and none overflows exactly if all of them fit. -/
theorem hasmatchLoop?_eq (htext : 0 ∉ text.chars) (hpattern : 0 ∉ pattern.chars)
    (hshort : text.chars.length < 2147483648) (hready : Ready σ ⟨text, pattern⟩ p)
    (hfuel : text.chars.length + 2 ≤ fuel + p) (hpos : 0 < fuel) :
    (hasmatchLoop? engine pattern text fuel σ).map (·.map (·.position)) =
      if ∀ m ∈ ((engine pattern.chars).searcher text.chars).successive p, MatchFits m then
        some (positions (((engine pattern.chars).searcher text.chars).successive p))
      else none := by
  induction p using ((engine pattern.chars).searcher text.chars).induction generalizing fuel σ with
  | stop p hnone =>
    obtain ⟨fuel, rfl⟩ : ∃ k, fuel = k + 1 := ⟨fuel - 1, by omega⟩
    have hfind := @regexFind?_eq (engine pattern.chars) text.chars
      (by rw [cstring_of_notMem htext]; exact hshort) p
    rw [cstring_of_notMem htext] at hfind
    obtain ⟨σ', hcall⟩ := (hready.call hpattern hfind fun s e hsome => by
      rw [hnone] at hsome
      cases hsome).1 hnone
    rw [hasmatchLoop?, hcall, Searcher.successive_of_none _ hnone]
    simp [positions]
  | go p s e hsome ih =>
    obtain ⟨fuel, rfl⟩ : ∃ k, fuel = k + 1 := ⟨fuel - 1, by omega⟩
    have hin := Searcher.inside _ hsome
    have hlt := Searcher.lt_next hin.2.1
    have hfind := @regexFind?_eq (engine pattern.chars) text.chars
      (by rw [cstring_of_notMem htext]; exact hshort) p
    rw [cstring_of_notMem htext] at hfind
    have hcalls := (@Ready.call engine pattern text σ p hready hpattern hfind fun s' e' hsome' => by
      have hin' := Searcher.inside _ hsome'
      omega).2 s e hsome
    rw [Searcher.successive_of_some _ hsome, hasmatchLoop?]
    by_cases hfits : MatchFits (s, e)
    · obtain ⟨σ', hcall, hready'⟩ := hcalls.1 hfits
      have hrest : (hasmatchLoop? engine pattern text fuel σ').map (·.map (·.position)) = _ :=
        ih hready' (by omega) (by omega)
      have hposition := position_found hsome
      rw [hcall, Option.bind_some]
      dsimp only
      rw [if_neg (by rw [Engine.found_of_some hsome]; dsimp only; omega), Option.map_map]
      have hcomp : ((fun taken : List RegexFound => taken.map (·.position)) ∘
          fun rest => (engine pattern.chars).found text.chars p :: rest) =
          (fun places => ((s : ℤ), (e : ℤ)) :: places) ∘ fun taken => taken.map (·.position) := by
        funext taken
        rw [Function.comp_apply, List.map_cons, hposition, Function.comp_apply]
      rw [hcomp, ← Option.map_map, hrest]
      simp only [List.forall_mem_cons, hfits, true_and]
      split_ifs <;> rfl
    · rw [hcalls.2 hfits, if_neg fun hall => hfits (hall _ List.mem_cons_self)]
      rfl

end

/-! ### The law -/

section

variable {engine : Bytes → Engine} {pattern text : Text}

theorem positions_injective {ms ms' : List (ℕ × ℕ)} (h : positions ms = positions ms') : ms = ms' := by
  refine List.map_injective_iff.2 (fun m m' hm => ?_) h
  obtain ⟨hs, he⟩ := Prod.mk.inj hm
  exact Prod.ext (Nat.cast_injective hs) (Nat.cast_injective he)

/-- Without a limit all matches are used. -/
theorem usedMatches_of_nonpos {limit : CInt} (hlimit : limit.1 ≤ 0) (ms : List (ℕ × ℕ)) :
    usedMatches limit ms = ms := by
  unfold usedMatches takeRoom
  rw [if_pos hlimit, if_pos hlimit]
  cases ms with
  | nil => rfl
  | cons m ms =>
    split_ifs with hlead
    · rw [← Option.some.inj hlead.1, List.tail_cons]
    · rfl

/-- In a text that is too long for an `int` `matches` does not search. -/
theorem matchesTaken?_long (hlong : 2147483648 ≤ text.length) (firstMatch lastMatch : ℤ) :
    matchesTaken? engine pattern text firstMatch lastMatch = some [] := by
  have hsmall := text.small
  rw [Text.length] at hlong
  rw [matchesTaken?, matchesLoop?, if_neg]
  rw [Text.length, offsetToInt, Nat.mod_eq_of_lt hsmall, CInt.ofUInt32_of_le hlong]
  omega

theorem ScannersAgree.fit (htext : 0 ∉ text.chars) (hpattern : 0 ∉ pattern.chars)
    (hagree : ScannersAgree engine pattern text) : ScannersFit engine pattern text := by
  have hlong : 2147483648 ≤ text.length → successiveMatches engine pattern text = [] := by
    intro hlong
    have hall := hagree.all
    rw [matchesTaken?_long hlong] at hall
    exact (positions_injective (show positions [] = _ from Option.some.inj hall)).symm
  refine ⟨hlong, fun m hm => ?_, fun hshort => ?_, fun hempty => ?_⟩
  · by_cases hshort : text.length < 2147483648
    · have hcalls := hagree.hasmatch {} (by simp [keys]) (by simp)
      have hready : Ready {} ⟨text, pattern⟩ 0 := ⟨by simp, .inl ⟨by simp [keys], rfl⟩⟩
      have hloop := @hasmatchLoop?_eq engine pattern text {} 0 (text.length + 2) htext hpattern hshort hready
        le_rfl (by omega)
      rw [hloop] at hcalls
      rw [successiveMatches, cstring_of_notMem hpattern] at hm
      by_contra hno
      rw [if_neg fun hall => hno (hall m hm)] at hcalls
      cases hcalls
    · rw [hlong (Nat.not_lt.1 hshort)] at hm
      cases hm
  · obtain ⟨taken, htaken, hpositions⟩ := Option.map_eq_some_iff.1 hagree.all
    rw [matchesTaken?, offsetToInt_of_lt hshort] at htaken
    rw [eq_of_matchesLoop? (p := 0) hshort htext htaken] at hpositions
    exact (Searcher.rescanned_eq_iff _).1 (positions_injective hpositions)
  · obtain ⟨r, hsplit, harr⟩ := hagree.bytes hempty
    rw [builtinSplit?_bytes htext (by rw [hempty]; rfl)] at hsplit
    rw [← harr, ← Option.some.inj hsplit]

/-- The number of a match is an `int`. -/
theorem ScannersFit.length_le (hfit : ScannersFit engine pattern text) (hshort : text.length < 2147483648) :
    (successiveMatches engine pattern text).length ≤ 2147483647 := by
  have hle : (successiveMatches engine pattern text).length ≤ text.chars.length + 1 - 0 :=
    Searcher.length_successive_le _ 0
  rw [Text.length] at hshort
  by_cases hmax : text.chars.length = 2147483647
  · have hend : (text.chars.length, text.chars.length) ∉ successiveMatches engine pattern text :=
      fun hmem => hfit.fits _ hmem (by rw [hmax])
    have hcount : (successiveMatches engine pattern text).length + 0 ≤ text.chars.length :=
      Searcher.length_successive_add_le _ (Nat.zero_le _) hend
    omega
  · omega

theorem ScannersFit.agree (htext : 0 ∉ text.chars) (hpattern : 0 ∉ pattern.chars)
    (hfit : ScannersFit engine pattern text) : ScannersAgree engine pattern text := by
  have hbytes : pattern.chars = [] → ∃ r, builtinSplit? engine pattern text ⟨0, by decide⟩ = some r ∧
      r.arr = dropTrailing ⟨0, by decide⟩
        (pieces text.chars 0 (withoutLeading (successiveMatches engine pattern text))) := fun hempty =>
    ⟨_, builtinSplit?_bytes htext (by rw [hempty]; rfl), (hfit.bytes hempty).symm⟩
  have hcstring : pattern.chars ≠ [] → cstring pattern.chars ≠ [] := fun hne => by
    rwa [cstring_of_notMem hpattern]
  by_cases hshort : text.length < 2147483648
  · have hrescanned : ((engine (cstring pattern.chars)).searcher text.chars).rescanned 0 =
        successiveMatches engine pattern text := (Searcher.rescanned_eq_iff _).2 (hfit.once hshort)
    have hlength := hfit.length_le hshort
    have hfits := hfit.fits
    rw [← hrescanned] at hlength hfits
    refine ⟨?_, fun k hk => ?_, fun hne => ?_, hbytes, fun σ hnew hoffsets => ?_⟩
    · rw [← hrescanned, matchesTaken?, offsetToInt_of_lt hshort]
      exact matchesLoop?_all (o := 0) hshort htext hfits (by rwa [Nat.zero_add]) le_rfl (by omega)
    · have hkint := hk.2
      rw [← hrescanned, matchesTaken?, offsetToInt_of_lt hshort]
      exact matchesLoop?_ordinal (o := 0) hshort htext hfits (by omega) (Nat.zero_le k)
        le_rfl (by omega)
    · have hused : usedMatches ⟨0, by decide⟩ (successiveMatches engine pattern text) =
          successiveMatches engine pattern text := usedMatches_of_nonpos (Int.le_refl 0) _
      refine ⟨_, (builtinSplit?_short hshort htext (hcstring hne)).trans (if_pos ?_), ?_⟩
      · rw [hused]
        exact hfit.fits
      · dsimp only
        rw [hused]
        rfl
    · have hcalls := @hasmatchLoop?_eq engine pattern text σ 0 (text.length + 2) htext hpattern hshort
        ⟨hoffsets, .inl ⟨hnew, rfl⟩⟩ le_rfl (by omega)
      have hfits := hfit.fits
      unfold successiveMatches at hfits ⊢
      rw [cstring_of_notMem hpattern] at hfits ⊢
      rwa [if_pos hfits] at hcalls
  · have hlong := Nat.not_lt.1 hshort
    have hnil := hfit.long hlong
    have hnone : ((engine pattern.chars).searcher text.chars).find 0 = none := by
      have hhead := Searcher.head?_successive ((engine pattern.chars).searcher text.chars) 0
      rw [successiveMatches, cstring_of_notMem hpattern] at hnil
      rw [← hhead, hnil, List.head?_nil]
    refine ⟨?_, fun k _ => ?_, fun hne => ?_, hbytes, fun σ hnew hoffsets => ?_⟩
    · rw [matchesTaken?_long hlong, hnil]
      rfl
    · rw [matchesTaken?_long hlong, hnil]
      rfl
    · exact ⟨_, builtinSplit?_long hlong htext (hcstring hne), by rw [hnil]; rfl⟩
    · have hready : Ready σ ⟨text, pattern⟩ 0 := ⟨hoffsets, .inl ⟨hnew, rfl⟩⟩
      have hfind : regexFind? (engine pattern.chars) text.chars (0 : ℕ) false =
          some ((engine pattern.chars).found text.chars 0) := by
        rw [Engine.found_of_none hnone]
        exact regexFind?_of_none (by rwa [cstring_of_notMem htext])
      obtain ⟨σ', hcall⟩ := (hready.call hpattern hfind fun s e hsome => by
        rw [hnone] at hsome
        cases hsome).1 hnone
      rw [hasmatchLoop?, hcall, hnil]
      rfl

/-- The engine for a pattern that matches at the end only, such as `$`. -/
def endEngine : Engine where
  exec rest _ := some ⟨rest.length, rest.length, []⟩
  inside := by
    rintro rest notBol m ⟨⟩
    exact ⟨Nat.le_refl _, Nat.le_refl _⟩

end

end Slp
