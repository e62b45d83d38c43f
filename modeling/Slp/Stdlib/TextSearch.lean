import Slp.Stdlib.Replace

/-!
# Searching for a text

`indexOf`, the predicates `isin` and `in`, and `replace` search with `strstr`; `lindexOf` compares
counted bytes.

* `indexOf?`, `lindexOf?`, `isin` : the searches, none where there is no defined behaviour;
* `SearchLaw` : the positions are the least and the greatest occurrence from the start on, and all
  searches agree whether there is one;
* `searchLaw_iff` : **the law holds if and only if the lengths add up to an `int`, the needle does not
  start with a NUL, what C takes the needle for occurs only where the needle does, and no
  occurrence is behind a NUL.**
-/

namespace Slp

open Occurrence

/-- `normalize_string_index`. -/
def normalizeStringIndex? (index length : ℤ) : Option ℤ :=
  if index < 0 then CInt.checked (index + length) else some index

/-- The result of a search: a position, or null. -/
abbrev Found := Option ℤ

section

variable (haystack needle : Text)

/-- `builtin_indexOf`. -/
def indexOf? (start : Option CInt) : Option Found := do
  let length := CInt.ofUInt32 haystack.length
  let first ← normalizeStringIndex? ((start.map Subtype.val).getD 0) length
  if needle.length = 0 then return some first
  if first < 0 ∨ first ≥ length then return none
  return (strstr (haystack.chars.drop first.toNat) needle.chars).map fun i => (first.toNat + i : ℕ)

/-- `memcmp` of the bytes from `i` on with the needle; none if there are not enough of them, the
terminating NUL included. -/
def sameAt? (i : ℕ) : Option Bool :=
  if i + needle.length ≤ haystack.length + 1 then
    some (((haystack.chars ++ [0]).drop i).take needle.length = needle.chars)
  else none

/-- The loop of `builtin_lindexOf`, from `i` down. -/
def lindexLoop? : (i : ℕ) → Option Found
  | 0 => (sameAt? haystack needle 0).map fun same => if same then some 0 else none
  | i + 1 => do
    let same ← sameAt? haystack needle (i + 1)
    if same then return some (i + 1 : ℕ)
    lindexLoop? i

/-- Where `builtin_lindexOf` starts: at the end by default. -/
def lindexStart? (start : Option CInt) (length : ℤ) : Option ℤ :=
  match start with
  | some start => normalizeStringIndex? start length
  | none => some length

/-- `last_start` of `builtin_lindexOf`: the needle has to end in the text. -/
def lastStart? (start length needleLength : ℤ) : Option ℤ := do
  let stop ← CInt.checked (start + needleLength)
  if stop > length then CInt.checked (length - needleLength) else some start

/-- `builtin_lindexOf`. -/
def lindexOf? (start : Option CInt) : Option Found := do
  let length := CInt.ofUInt32 haystack.length
  let start := min (← lindexStart? start length) length
  if start < 0 then return none
  if needle.length = 0 then return some start
  let lastStart ← lastStart? start length (CInt.ofUInt32 needle.length)
  if lastStart < 0 then return none
  lindexLoop? haystack needle lastStart.toNat

/-- The predicate `isin` on strings, and `in` on a string. -/
def isin : Bool := (strstr haystack.chars needle.chars).isSome

/-- `replace` finds something to replace. -/
def replaces : Prop :=
  ∃ places, copyLoop? needle.chars [] haystack.chars 0 = some places ∧ places.2 ≠ []

end

/-- The position that a start stands for, when it is not in front of the text: a negative one counts
from the end. -/
def startPosition (length : ℕ) (start : ℤ) : ℤ := if start < 0 then start + length else start

/-- The least and the greatest position of a set, or null. -/
def IsLeastOr (P : ℤ → Prop) : Found → Prop
  | some i => P i ∧ ∀ j, P j → i ≤ j
  | none => ∀ j, ¬P j

def IsGreatestOr (P : ℤ → Prop) : Found → Prop
  | some i => P i ∧ ∀ j, P j → j ≤ i
  | none => ∀ j, ¬P j

/-- The needle occurs at a position. -/
def Occurs (haystack needle : Text) (i : ℤ) : Prop :=
  ∃ k : ℕ, i = k ∧ OccursAt needle.chars haystack.chars k

/-- For every start that is not in front of the text, `indexOf` gives the least occurrence from there
on and `lindexOf` the greatest up to there; and all searches agree whether there is one. -/
structure SearchLaw (haystack needle : Text) : Prop where
  indexOf : ∀ start : CInt, 0 ≤ startPosition haystack.length start →
    ∃ found, indexOf? haystack needle (some start) = some found ∧
      IsLeastOr (fun i => Occurs haystack needle i ∧ startPosition haystack.length start ≤ i) found
  lindexOf : ∀ start : CInt, 0 ≤ startPosition haystack.length start →
    ∃ found, lindexOf? haystack needle (some start) = some found ∧
      IsGreatestOr (fun i => Occurs haystack needle i ∧ i ≤ startPosition haystack.length start) found
  indexOf_default : ∃ found, indexOf? haystack needle none = some found ∧
    IsLeastOr (Occurs haystack needle) found ∧ (found.isSome ↔ ∃ i, Occurs haystack needle i)
  lindexOf_default : ∃ found, lindexOf? haystack needle none = some found ∧
    IsGreatestOr (Occurs haystack needle) found
  isin : Slp.isin haystack needle = true ↔ ∃ i, Occurs haystack needle i
  replaces : Slp.replaces haystack needle ↔ ∃ i, Occurs haystack needle i

/-- C sees of the text and the needle what there is to see. -/
structure Searchable (haystack needle : Text) : Prop where
  fits : haystack.length + needle.length < 2147483648
  starts : cstring needle.chars ≠ []
  only : ∀ i, OccursAt (cstring needle.chars) haystack.chars i →
    OccursAt needle.chars haystack.chars i
  before : ∀ i, OccursAt needle.chars haystack.chars i → 0 ∉ haystack.chars.take i

/-! ### What the searches do -/

section

variable {haystack needle : Text} {i k : ℕ} {t : Bytes}

theorem Searched.drop {n h t : Bytes} (ht : Searched n h t) : ∃ p ≤ h.length, t = h.drop p := by
  induction ht with
  | start => exact ⟨0, Nat.zero_le _, rfl⟩
  | @next h t i hi _ ih =>
    obtain ⟨p, hp, rfl⟩ := ih
    have hle := (first?_eq_some.1 hi).1.length_le
    rw [List.length_drop] at hp
    exact ⟨i + n.length + p, by omega, by rw [List.drop_drop]⟩

/-- From every position C sees the next occurrence. -/
theorem Searchable.seen (hs : Searchable haystack needle) {p : ℕ} (hp : p ≤ haystack.chars.length) :
    Seen needle.chars (haystack.chars.drop p) := by
  unfold Seen
  cases hfirst : first? needle.chars (haystack.chars.drop p) with
  | none =>
    intro j hj
    exact absurd ((occursAt_drop hp).2 (hs.only _ ((occursAt_drop hp).1 hj))) (first?_eq_none.1 hfirst j)
  | some i =>
    obtain ⟨hi, hleast⟩ := first?_eq_some.1 hfirst
    refine ⟨fun hzero => hs.before _ ((occursAt_drop hp).1 hi) ?_, fun j hj hno => hleast j hj ?_⟩
    · rw [List.take_drop] at hzero
      exact List.mem_of_mem_drop hzero
    · exact (occursAt_drop hp).2 (hs.only _ ((occursAt_drop hp).1 hno))

theorem Searchable.strstr_drop (hs : Searchable haystack needle) {p : ℕ}
    (hp : p ≤ haystack.chars.length) :
    strstr (haystack.chars.drop p) needle.chars = first? needle.chars (haystack.chars.drop p) :=
  seen_iff.1 (hs.seen hp)

theorem Searchable.ne_nil (hs : Searchable haystack needle) : needle.chars ≠ [] := fun hnil =>
  hs.starts (by rw [hnil]; rfl)

theorem occurs_natCast : Occurs haystack needle k ↔ OccursAt needle.chars haystack.chars k := by
  constructor
  · rintro ⟨j, hj, hocc⟩
    rwa [Nat.cast_injective hj]
  · exact fun hocc => ⟨k, rfl, hocc⟩

/-- An occurrence starts in the text. -/
theorem Occurs.lt (hne : needle.chars ≠ []) {i : ℤ} (hi : Occurs haystack needle i) :
    0 ≤ i ∧ i + needle.length ≤ haystack.length ∧ i < haystack.length := by
  obtain ⟨k, rfl, hocc⟩ := hi
  have hle := hocc.length_le
  have hpos := List.length_pos_iff.2 hne
  simp only [Text.length]
  omega

theorem sameAt?_eq (hi : i + needle.length ≤ haystack.length) :
    sameAt? haystack needle i = some (decide (OccursAt needle.chars haystack.chars i)) := by
  rw [sameAt?, if_pos (by omega)]
  simp only [Text.length] at hi
  have hbuffer : ((haystack.chars ++ [0]).drop i).take needle.length =
      (haystack.chars.drop i).take needle.length := by
    rw [List.drop_append_of_le_length (by omega), List.take_append_of_le_length]
    rw [List.length_drop, Text.length]
    omega
  rw [hbuffer, Option.some.injEq, decide_eq_decide]
  constructor
  · intro heq
    exact ⟨by omega, List.prefix_iff_eq_take.2 heq.symm⟩
  · intro hocc
    exact (List.prefix_iff_eq_take.1 hocc.2).symm

/-- The loop finds the last occurrence up to where it starts. -/
theorem lindexLoop?_spec (hi : i + needle.length ≤ haystack.length) :
    ∃ found, lindexLoop? haystack needle i = some found ∧
      IsGreatestOr (fun j => Occurs haystack needle j ∧ j ≤ i) found := by
  induction i with
  | zero =>
    rw [lindexLoop?, sameAt?_eq hi, Option.map_some]
    refine ⟨_, rfl, ?_⟩
    by_cases hocc : OccursAt needle.chars haystack.chars 0
    · rw [if_pos (decide_eq_true hocc)]
      exact ⟨⟨⟨0, rfl, hocc⟩, Int.le_refl _⟩, fun j hj => hj.2⟩
    · rw [if_neg (by simpa using hocc)]
      rintro j ⟨⟨k, rfl, hk⟩, hle⟩
      obtain rfl : k = 0 := by omega
      exact hocc hk
  | succ i ih =>
    obtain ⟨found, hloop, hgreatest⟩ := ih (by omega)
    rw [lindexLoop?, sameAt?_eq hi, Option.bind_eq_bind, Option.bind_some]
    by_cases hocc : OccursAt needle.chars haystack.chars (i + 1)
    · rw [if_pos (decide_eq_true hocc)]
      exact ⟨_, rfl, ⟨⟨i + 1, rfl, hocc⟩, Int.le_refl _⟩, fun j hj => hj.2⟩
    · rw [if_neg (by simpa using hocc), hloop]
      refine ⟨found, rfl, ?_⟩
      -- the position where it started is no occurrence
      have hrest : ∀ j : ℤ, Occurs haystack needle j ∧ j ≤ (i + 1 : ℕ) ↔
          Occurs haystack needle j ∧ j ≤ i := by
        intro j
        refine and_congr_right fun hj => ⟨fun hle => ?_, fun hle => by omega⟩
        obtain ⟨k, rfl, hk⟩ := hj
        have hne : k ≠ i + 1 := fun heq => hocc (heq ▸ hk)
        omega
      simpa only [hrest] using hgreatest

/-! ### The law -/

/-- A start that counts from the end is counted without an overflow. -/
theorem normalizeStringIndex?_eq (start : CInt) {length : ℕ} (hlength : length < 2147483648) :
    normalizeStringIndex? start length = some (startPosition length start) := by
  have hfit := start.2
  unfold CInt.IsInt at hfit
  unfold normalizeStringIndex? startPosition
  split_ifs
  · exact CInt.checked_of_isInt ⟨by omega, by omega⟩
  · rfl

/-- From a position on `strstr` finds the least occurrence. -/
theorem isLeastOr_strstr (hs : Searchable haystack needle) {p : ℕ}
    (hp : p ≤ haystack.chars.length) :
    IsLeastOr (fun i => Occurs haystack needle i ∧ p ≤ i)
      ((strstr (haystack.chars.drop p) needle.chars).map fun i => ((p + i : ℕ) : ℤ)) := by
  -- an occurrence from `p` on is one in what is left
  have hleft : ∀ j : ℤ, Occurs haystack needle j ∧ p ≤ j →
      ∃ k : ℕ, j = (p + k : ℕ) ∧ OccursAt needle.chars (haystack.chars.drop p) k := by
    rintro j ⟨⟨k, rfl, hk⟩, hle⟩
    obtain ⟨m, rfl⟩ := Nat.exists_eq_add_of_le (Int.ofNat_le.1 hle)
    exact ⟨m, rfl, (occursAt_drop hp).2 hk⟩
  rw [hs.strstr_drop hp]
  cases hfirst : first? needle.chars (haystack.chars.drop p) with
  | none =>
    intro j hj
    obtain ⟨k, -, hk⟩ := hleft j hj
    exact first?_eq_none.1 hfirst k hk
  | some i =>
    obtain ⟨hi, hleast⟩ := first?_eq_some.1 hfirst
    refine ⟨⟨⟨p + i, rfl, (occursAt_drop hp).1 hi⟩, by push_cast; omega⟩, fun j hj => ?_⟩
    obtain ⟨k, rfl, hk⟩ := hleft j hj
    have hle : i ≤ k := Nat.le_of_not_lt fun hlt => hleast k hlt hk
    exact Int.ofNat_le.2 (Nat.add_le_add_left hle p)

/-- `indexOf` from a position that is not in front of the text. -/
theorem isLeastOr_indexFrom (hs : Searchable haystack needle) {first : ℤ} (hfirst : 0 ≤ first) :
    IsLeastOr (fun i => Occurs haystack needle i ∧ first ≤ i)
      (if first < 0 ∨ first ≥ haystack.length then none
        else (strstr (haystack.chars.drop first.toNat) needle.chars).map
          fun i => ((first.toNat + i : ℕ) : ℤ)) := by
  split_ifs with hout
  · rintro j ⟨hocc, hle⟩
    have hlt := hocc.lt hs.ne_nil
    omega
  · have hleast := isLeastOr_strstr hs (p := first.toNat) (by simp only [Text.length] at hout; omega)
    rwa [Int.toNat_of_nonneg hfirst] at hleast

/-- `indexOf` is the search from its start. -/
theorem indexOf?_eq (hfits : haystack.length + needle.length < 2147483648) (hne : needle.chars ≠ [])
    {start : Option CInt} {first : ℤ}
    (hstart : normalizeStringIndex? ((start.map Subtype.val).getD 0) haystack.length = some first) :
    indexOf? haystack needle start =
      some (if first < 0 ∨ first ≥ haystack.length then none
        else (strstr (haystack.chars.drop first.toNat) needle.chars).map
          fun i => ((first.toNat + i : ℕ) : ℤ)) := by
  have hpos := List.length_pos_iff.2 hne
  rw [indexOf?, CInt.ofUInt32_of_lt (by omega), hstart]
  dsimp only [Option.bind_eq_bind, Option.bind_some]
  rw [if_neg (by simp only [Text.length]; omega)]
  split_ifs <;> rfl

/-- The last position at which the needle ends in the text. -/
theorem lastStart?_eq {start length needleLength : ℕ} (hlength : length < 2147483648)
    (hfits : start + needleLength < 2147483648) (hstart : start ≤ length) :
    lastStart? start length needleLength = some (min (start : ℤ) (length - needleLength)) := by
  rw [lastStart?, CInt.checked_of_isInt ⟨by omega, by omega⟩]
  dsimp only [Option.bind_eq_bind, Option.bind_some, Option.pure_def]
  split_ifs with hover
  · rw [CInt.checked_of_isInt ⟨by omega, by omega⟩, min_eq_right (by omega)]
  · rw [min_eq_left (by omega)]

/-- `lindexOf` is the search down from its start. -/
theorem isGreatestOr_lindexFrom (hne : needle.chars ≠ []) (hsmall : haystack.length < 2147483648)
    {start : Option CInt} {last : ℤ} (hlast : 0 ≤ last)
    (hfits : min last haystack.length + needle.length < 2147483648)
    (hstart : lindexStart? start haystack.length = some last) :
    ∃ found, lindexOf? haystack needle start = some found ∧
      IsGreatestOr (fun i => Occurs haystack needle i ∧ i ≤ last) found := by
  have hpos : 0 < needle.length := List.length_pos_iff.2 hne
  obtain ⟨begin, hbegin⟩ : ∃ begin : ℕ, min last haystack.length = begin :=
    ⟨(min last haystack.length).toNat, by omega⟩
  rw [lindexOf?, CInt.ofUInt32_of_lt hsmall,
    CInt.ofUInt32_of_lt (show needle.length < 2147483648 by omega), hstart]
  dsimp only [Option.bind_eq_bind, Option.bind_some]
  rw [hbegin, if_neg (by omega), if_neg (by omega), lastStart?_eq hsmall (by omega) (by omega),
    Option.bind_some]
  -- an occurrence ends in the text
  have hside : ∀ j : ℤ, Occurs haystack needle j ∧ j ≤ last ↔
      Occurs haystack needle j ∧ j ≤ min (begin : ℤ) (haystack.length - needle.length) :=
    fun j => and_congr_right fun hocc => by
      have hlt := hocc.lt hne
      omega
  simp only [hside]
  split_ifs with hneg
  · refine ⟨none, rfl, ?_⟩
    rintro j ⟨hocc, hle⟩
    have hlt := hocc.lt hne
    omega
  · have hloop := @lindexLoop?_spec haystack needle
      (min (begin : ℤ) (haystack.length - needle.length)).toNat (by omega)
    rwa [Int.toNat_of_nonneg (by omega)] at hloop

theorem Searchable.isin_iff (hs : Searchable haystack needle) :
    isin haystack needle = true ↔ ∃ i, Occurs haystack needle i := by
  have hfirst := hs.strstr_drop (Nat.zero_le haystack.chars.length)
  rw [List.drop_zero] at hfirst
  rw [isin, hfirst, isSome_first?]
  exact ⟨fun ⟨i, hi⟩ => ⟨i, i, rfl, hi⟩, fun ⟨_, i, _, hi⟩ => ⟨i, hi⟩⟩

theorem Searchable.replaces_iff (hs : Searchable haystack needle) :
    replaces haystack needle ↔ ∃ i, Occurs haystack needle i := by
  have hcopy : copyLoop? needle.chars [] haystack.chars 0 = _ :=
    copyLoop?_of_seen hs.ne_nil (fun t ht => by
      obtain ⟨p, hp, rfl⟩ := Searched.drop ht
      exact hs.seen hp) 0
  rw [replaces, hcopy]
  constructor
  · rintro ⟨_, ⟨⟩, hne⟩
    cases hfirst : first? needle.chars haystack.chars with
    | none => exact absurd (leftmost_of_none hfirst 0) hne
    | some i => exact ⟨i, i, rfl, (first?_eq_some.1 hfirst).1⟩
  · rintro ⟨_, i, -, hi⟩
    refine ⟨_, rfl, ?_⟩
    cases hfirst : first? needle.chars haystack.chars with
    | none => exact absurd hi (first?_eq_none.1 hfirst i)
    | some j =>
      rw [leftmost_of_some hs.ne_nil hfirst]
      exact List.cons_ne_nil _ _

theorem Searchable.searchLaw (hs : Searchable haystack needle) : SearchLaw haystack needle := by
  have hfits := hs.fits
  have hsmall : haystack.length < 2147483648 := by omega
  obtain ⟨found, hfound, hdefault⟩ : ∃ found, indexOf? haystack needle none = some found ∧
      IsLeastOr (fun i => Occurs haystack needle i ∧ 0 ≤ i) found :=
    ⟨_, indexOf?_eq hfits hs.ne_nil rfl, isLeastOr_indexFrom hs (Int.le_refl 0)⟩
  have hnonneg : ∀ i, Occurs haystack needle i ∧ 0 ≤ i ↔ Occurs haystack needle i := fun i =>
    and_iff_left_of_imp fun hocc => (hocc.lt hs.ne_nil).1
  simp only [hnonneg] at hdefault
  refine ⟨fun start hstart => ?_, fun start hstart => ?_, ⟨found, hfound, hdefault, ?_⟩, ?_,
    hs.isin_iff, hs.replaces_iff⟩
  · exact ⟨_, indexOf?_eq hfits hs.ne_nil (normalizeStringIndex?_eq start hsmall), isLeastOr_indexFrom hs hstart⟩
  · exact isGreatestOr_lindexFrom hs.ne_nil hsmall hstart (by omega) (normalizeStringIndex?_eq start hsmall)
  · cases found with
    | none => exact ⟨fun hno => absurd hno (by simp), fun ⟨i, hi⟩ => absurd hi (hdefault i)⟩
    | some i => exact ⟨fun _ => ⟨i, hdefault.1⟩, fun _ => rfl⟩
  · have hend : lindexStart? none haystack.length = some (haystack.length : ℤ) := rfl
    obtain ⟨found, hfound, hgreatest⟩ := isGreatestOr_lindexFrom hs.ne_nil hsmall (by omega) (by omega) hend
    refine ⟨found, hfound, ?_⟩
    have hinside : ∀ i, Occurs haystack needle i ∧ i ≤ haystack.length ↔ Occurs haystack needle i :=
      fun i => and_iff_left_of_imp fun hocc => (hocc.lt hs.ne_nil).2.2.le
    simpa only [hinside] using hgreatest

/-- Where C takes the needle for one that occurs, `indexOf` finds it. -/
theorem strstr_zero (hocc : OccursAt (cstring needle.chars) t 0) : strstr t needle.chars = some 0 :=
  strstr_eq_some.2 ⟨⟨hocc, by simp⟩, fun j hj => absurd hj (Nat.not_lt_zero j)⟩

/-- Nothing is found from a NUL on. -/
theorem strstr_nul (hstarts : cstring needle.chars ≠ []) : strstr (0 :: t) needle.chars = none := by
  rw [strstr_eq_none]
  intro j hj
  cases j with
  | zero =>
    -- the needle does not start with a NUL
    obtain ⟨c, rest, heq⟩ := List.exists_cons_of_ne_nil hstarts
    rw [heq, occursAt_zero, List.cons_prefix_cons] at hj
    exact absurd (hj.1 ▸ heq ▸ List.mem_cons_self) (zero_notMem_cstring needle.chars)
  | succ j => exact List.mem_cons_self

theorem copyLoop?_of_starts (hstarts : cstring needle.chars = []) (p : ℕ) :
    copyLoop? needle.chars [] t p = none := by
  induction hlength : t.length using Nat.strong_induction_on generalizing t p with
  | _ k ih =>
    subst hlength
    rw [copyLoop?_some (strstr_zero (by rw [hstarts]; exact occursAt_zero.2 (List.nil_prefix)))]
    split_ifs with hin
    · have hpos := List.length_pos_iff.2 hin.1
      rw [ih _ (by rw [List.length_drop]; omega) _ rfl]
      rfl
    · rfl

/-- The loop reads past the end of the text. -/
theorem lindexLoop?_out (hi : haystack.length + 1 < i + needle.length) :
    lindexLoop? haystack needle i = none := by
  have hout : sameAt? haystack needle i = none := if_neg (by omega)
  cases i with
  | zero => rw [lindexLoop?, hout, Option.map_none]
  | succ i =>
    rw [lindexLoop?, hout]
    rfl

theorem SearchLaw.fits (hlaw : SearchLaw haystack needle) :
    haystack.length + needle.length < 2147483648 := by
  have hsmall : haystack.length < 4294967296 ∧ needle.length < 4294967296 :=
    ⟨haystack.small, needle.small⟩
  by_contra hno
  by_cases hlong : haystack.length < 2147483648
  · obtain ⟨found, hfound, -⟩ := hlaw.lindexOf_default
    rw [lindexOf?, lindexStart?, CInt.ofUInt32_of_lt hlong] at hfound
    dsimp only [Option.bind_eq_bind, Option.bind_some] at hfound
    rw [min_self, if_neg (by omega), if_neg (by omega)] at hfound
    by_cases hneedle : needle.length < 2147483648
    · rw [CInt.ofUInt32_of_lt hneedle, lastStart?, CInt.checked_eq_none.2 fun hfit => hno (by
        have := hfit.2
        omega)] at hfound
      cases hfound
    · -- the length of the needle has wrapped around: the loop begins at the end
      have hlast : lastStart? haystack.length haystack.length (CInt.ofUInt32 needle.length) =
          some (haystack.length : ℤ) := by
        rw [lastStart?, CInt.ofUInt32_of_le (by omega), CInt.checked_of_isInt ⟨by omega, by omega⟩]
        exact if_neg (by omega)
      rw [hlast, Option.bind_some, if_neg (by omega), Int.toNat_natCast, lindexLoop?_out (by omega)]
        at hfound
      cases hfound
  · -- from the least `int` on
    obtain ⟨found, hfound, -⟩ := hlaw.indexOf ⟨-2147483648, by decide⟩ (by
      rw [startPosition, if_pos (by decide)]
      change (0 : ℤ) ≤ -2147483648 + haystack.length
      omega)
    have hover : normalizeStringIndex? (-2147483648) (CInt.ofUInt32 haystack.length) = none := by
      rw [normalizeStringIndex?, if_pos (by decide), CInt.ofUInt32_of_le (by omega)]
      exact CInt.checked_eq_none.2 fun hfit => by
        have := hfit.1
        omega
    rw [indexOf?, Option.map_some, Option.getD_some, hover] at hfound
    cases hfound

theorem SearchLaw.starts (hlaw : SearchLaw haystack needle) : cstring needle.chars ≠ [] := by
  intro hstarts
  have hzero : ∀ t, strstr t needle.chars = some 0 := fun t =>
    strstr_zero (by rw [hstarts]; exact occursAt_zero.2 List.nil_prefix)
  have hisin : Slp.isin haystack needle = true := by rw [Slp.isin, hzero]; rfl
  obtain ⟨places, hcopy, -⟩ := hlaw.replaces.2 (hlaw.isin.1 hisin)
  rw [copyLoop?_of_starts hstarts] at hcopy
  cases hcopy

theorem startPosition_natCast (length p : ℕ) : startPosition length p = p := if_neg (by omega)

/-- `indexOf` from a position in the text. -/
theorem indexOf?_natCast (hfits : haystack.length + needle.length < 2147483648)
    (hne : needle.chars ≠ []) {p : ℕ} (hp : p < haystack.chars.length) (hint : CInt.IsInt p) :
    indexOf? haystack needle (some ⟨p, hint⟩) =
      some ((strstr (haystack.chars.drop p) needle.chars).map fun i => ((p + i : ℕ) : ℤ)) := by
  have hsmall : haystack.length < 2147483648 := by omega
  rw [indexOf?_eq hfits hne (normalizeStringIndex?_eq _ hsmall), startPosition_natCast,
    if_neg (by simp only [Text.length]; omega), Int.toNat_natCast]

/-- What `indexOf` has to find from a position in the text. -/
theorem SearchLaw.isLeastOr (hlaw : SearchLaw haystack needle) {p : ℕ}
    (hp : p < haystack.chars.length) :
    IsLeastOr (fun i => Occurs haystack needle i ∧ p ≤ i)
      ((strstr (haystack.chars.drop p) needle.chars).map fun i => ((p + i : ℕ) : ℤ)) := by
  have hfits := hlaw.fits
  have hne : needle.chars ≠ [] := fun hnil => hlaw.starts (by rw [hnil]; rfl)
  have hint : CInt.IsInt p := by
    simp only [Text.length] at hfits
    exact ⟨by omega, by omega⟩
  obtain ⟨found, hfound, hleast⟩ := hlaw.indexOf ⟨p, hint⟩ (by rw [startPosition_natCast]; omega)
  rw [indexOf?_natCast hfits hne hp] at hfound
  obtain rfl := Option.some.inj hfound
  simpa only [startPosition_natCast] using hleast

theorem SearchLaw.searchable (hlaw : SearchLaw haystack needle) : Searchable haystack needle := by
  refine ⟨hlaw.fits, hlaw.starts, fun i hi => ?_, fun i hi hzero => ?_⟩
  · have hle := hi.length_le
    have hpos := List.length_pos_iff.2 hlaw.starts
    have hleast := hlaw.isLeastOr (p := i) (by omega)
    rw [strstr_zero ((occursAt_drop hi.1).2 hi)] at hleast
    exact occurs_natCast.1 hleast.1.1
  · -- from the NUL on there is nothing to find
    obtain ⟨p, hp, hnul⟩ := List.getElem_of_mem hzero
    rw [List.length_take] at hp
    have hin : p < haystack.chars.length := by omega
    have hleast := hlaw.isLeastOr hin
    rw [List.drop_eq_getElem_cons hin, show haystack.chars[p] = 0 by rwa [List.getElem_take] at hnul,
      strstr_nul hlaw.starts] at hleast
    exact hleast i ⟨occurs_natCast.2 hi, by omega⟩

/-- **The searches find what occurs, and agree on it, if and only if C sees of the text and the
needle what there is to see.** -/
theorem searchLaw_iff (haystack needle : Text) : SearchLaw haystack needle ↔ Searchable haystack needle :=
  ⟨SearchLaw.searchable, Searchable.searchLaw⟩

/-- Behind a NUL `lindexOf` finds what `isin` does not. -/
theorem not_searchLaw_nul : ¬∀ haystack needle : Text, needle.chars ≠ [] → SearchLaw haystack needle := by
  intro hall
  have hlaw := hall ⟨[0, 97], by decide⟩ ⟨ascii "a", by decide⟩ (by decide)
  have hisin := hlaw.isin.2 ⟨1, 1, rfl, by decide⟩
  exact absurd hisin (by decide)

end

end Slp
