import Slp.Number.CInt
import Slp.Text.CString
import Slp.Text.Scan

/-!
# Finding a regular expression

`slp_vm_regex_find` searches in what is left of a text for a compiled pattern, and turns the offsets
that the engine reports into positions of the text.

* `Engine` : what a compiled pattern finds in a text, at its beginning or not;
* `regexFind?` : `slp_vm_regex_find`, none where an `int` overflows;
* `Engine.searcher` : the positions of the text that it finds;
* `regexFind?_eq` : **in a text that has fewer than 2 ^ 31 bytes it finds these.**

A pattern that does not compile finds nothing.  Texts and patterns are C strings: the engine sees what
is before the first NUL.  The offsets of the engine have 64 bits.
-/

namespace Slp

/-- The offsets that the engine reports: of the match, and of the groups that take part in it. -/
structure EngineMatch where
  so : ℕ
  eo : ℕ
  groups : List (Option (ℕ × ℕ))
  deriving DecidableEq, Repr

/-- `SLP_REGEX_EXECUTE` for a compiled pattern, on what is left of a text, with `REG_NOTBOL` or
not.  A match is inside what is left. -/
structure Engine where
  exec : (rest : Bytes) → (notBol : Bool) → Option EngineMatch
  inside : ∀ {rest notBol m}, exec rest notBol = some m → m.so ≤ m.eo ∧ m.eo ≤ rest.length

/-- The conversion of an offset to `int`. -/
def offsetToInt (n : ℕ) : ℤ := CInt.ofUInt32 (n % 4294967296)

/-- What `slp_vm_regex_find` returns, stores in `match_end`, and keeps as the last matches. -/
structure RegexFound where
  matchStart : ℤ := -1
  matchEnd : ℤ := -1
  captures : Option (List Bytes) := none
  deriving DecidableEq, Repr

/-- The text of a group; that of one without a match is empty. -/
def captureText (rest : Bytes) : Option (ℕ × ℕ) → Bytes
  | some (so, eo) => (rest.drop so).take (eo - so)
  | none => []

/-- `slp_vm_regex_find`. -/
def regexFind? (E : Engine) (text : Bytes) (start : ℤ) (fullMatch : Bool) : Option RegexFound :=
  let text := cstring text
  let start := if start < 0 then 0 else start.toNat
  if start > text.length then some {}
  else
    let rest := text.drop start
    match E.exec rest (start > 0) with
    | none => some {}
    | some m => do
      let absoluteStart ← CInt.checked (start + offsetToInt m.so)
      let absoluteEnd ← CInt.checked (start + offsetToInt m.eo)
      if fullMatch ∧ (absoluteStart ≠ 0 ∨ absoluteEnd ≠ text.length) then return {}
      -- there is room for 15 groups
      let captures := (m.groups.take 15).map (captureText rest)
      return { matchStart := absoluteStart, matchEnd := absoluteEnd, captures := some captures }

/-- The position behind a match is an `int`, if it is an empty one. -/
def MatchFits (m : ℕ × ℕ) : Prop := m ≠ (2147483647, 2147483647)

instance (m : ℕ × ℕ) : Decidable (MatchFits m) := inferInstanceAs (Decidable (_ ≠ _))

namespace Engine

variable (E : Engine)

/-- The positions of the matches of a text. -/
def searcher (t : Bytes) : Searcher t.length where
  find p := if p ≤ t.length then
      (E.exec (t.drop p) (p > 0)).map fun m => (p + m.so, p + m.eo)
    else none
  inside := by
    intro p s e hp
    split_ifs at hp with hle
    obtain ⟨m, hm, hpair⟩ := Option.map_eq_some_iff.1 hp
    obtain ⟨rfl, rfl⟩ := Prod.mk.inj hpair
    have hin := E.inside hm
    rw [List.length_drop] at hin
    omega

/-- The captures of the match that is found from a position on. -/
def captures (t : Bytes) (p : ℕ) : Option (List Bytes) :=
  (E.exec (t.drop p) (p > 0)).map fun m => (m.groups.take 15).map (captureText (t.drop p))

/-- The result of a search, from what is found. -/
def found (t : Bytes) (p : ℕ) : RegexFound :=
  match (E.searcher t).find p with
  | none => {}
  | some (s, e) => { matchStart := s, matchEnd := e, captures := E.captures t p }

variable {E} {t : Bytes} {p s e : ℕ}

theorem found_of_none (hp : (E.searcher t).find p = none) : E.found t p = {} := by rw [found, hp]

theorem found_of_some (hp : (E.searcher t).find p = some (s, e)) :
    E.found t p = { matchStart := s, matchEnd := e, captures := E.captures t p } := by rw [found, hp]

end Engine

section

variable {E : Engine} {text : Bytes} {p n : ℕ}

theorem matchFits_iff {s e : ℕ} : MatchFits (s, e) ↔ ¬(s = 2147483647 ∧ e = 2147483647) := by
  unfold MatchFits
  rw [ne_eq, Prod.mk.injEq]

theorem offsetToInt_of_lt (hn : n < 2147483648) : offsetToInt n = n := by
  rw [offsetToInt, Nat.mod_eq_of_lt (by omega), CInt.ofUInt32_of_lt hn]

theorem regexFind?_of_none (hp : (E.searcher (cstring text)).find p = none) :
    regexFind? E text p false = some {} := by
  have hstart : (if (p : ℤ) < 0 then 0 else (p : ℤ).toNat) = p := by rw [if_neg (by omega), Int.toNat_natCast]
  rw [regexFind?]
  dsimp only
  rw [hstart]
  split_ifs with hlt
  · rfl
  · rw [Engine.searcher] at hp
    dsimp only at hp
    rw [if_pos (Nat.not_lt.1 hlt), Option.map_eq_none_iff] at hp
    rw [hp]

/-- **In a text that has fewer than 2 ^ 31 bytes the positions are those that the engine finds.** -/
theorem regexFind?_eq (hsmall : (cstring text).length < 2147483648) (p : ℕ) :
    regexFind? E text p false = some (E.found (cstring text) p) := by
  have hstart : (if (p : ℤ) < 0 then 0 else (p : ℤ).toNat) = p := by rw [if_neg (by omega), Int.toNat_natCast]
  rw [regexFind?]
  dsimp only
  rw [hstart]
  by_cases hp : p ≤ (cstring text).length
  · rw [if_neg (by omega), Engine.found, Engine.searcher, Engine.captures]
    dsimp only
    rw [if_pos hp]
    cases hexec : E.exec ((cstring text).drop p) (p > 0) with
    | none => rfl
    | some m =>
      have hin := E.inside hexec
      rw [List.length_drop] at hin
      dsimp only [Option.map_some]
      rw [offsetToInt_of_lt (by omega), offsetToInt_of_lt (by omega),
        CInt.checked_of_isInt ⟨by omega, by omega⟩, CInt.checked_of_isInt ⟨by omega, by omega⟩]
      simp
  · rw [if_pos (by omega), Engine.found_of_none]
    exact (E.searcher _).find_of_lt (by omega)

end

/-- The engine for a pattern without special characters. -/
def literalEngine (pattern : Bytes) : Engine where
  exec rest _ := (Occurrence.first? pattern rest).map fun i => ⟨i, i + pattern.length, []⟩
  inside := by
    intro rest notBol m hm
    obtain ⟨i, hi, rfl⟩ := Option.map_eq_some_iff.1 hm
    have hle := (Occurrence.first?_eq_some.1 hi).1.length_le
    dsimp only
    omega

end Slp
