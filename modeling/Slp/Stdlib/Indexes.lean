import Slp.Stdlib.Split
import Slp.Stdlib.TextSearch
import Slp.Text.Slice

/-!
# Parts of a string by their indexes

`substr`, `left`, `right`, `mid`, `charAt`, `replaceAt` and `lindexOf`.  Indexes and lengths are of
type `int`, and an index below zero counts from the end.  There is no result where a sum overflows,
or where bytes are copied that are not there.

* `substring?`, `replaceAt?` and the functions that call `sleep_substring`;
* `StringLaw` : the result is the slice, the byte, the splice or the last occurrence;
* `StringFits` : the sums that are computed are `int`s, an index from the end and a length do not
  reach over the end, and the string is not so long that its length is no `int`;
* `stringLaw_iff` : the one holds if and only if the other does.
-/

namespace Slp

open Occurrence Slice CInt

/-- The result of `sleep_substring`: the bytes, or null, with a warning if the start is behind the
end. -/
inductive Substring where
  | illegal (message : Bytes)
  | null
  | chars (bs : Bytes)
  deriving DecidableEq

/-- What is returned. -/
def Substring.value : Substring → Option Bytes
  | .chars bs => some bs
  | _ => none

section

/-- A number, as `%d` writes it. -/
def decimal (n : ℤ) : Bytes := ascii (toString n)

/-- The warning of `sleep_substring`, in a buffer of the size that is allocated for it. -/
def illegalSubstring (functionName : String) (string : Text) (originalStart start originalEnd stop : ℤ) :
    Bytes :=
  (ascii functionName ++ ascii ": illegal substring('" ++ cstring string.chars ++ ascii "', " ++
    decimal originalStart ++ ascii " -> " ++ decimal start ++ ascii ", " ++
    decimal originalEnd ++ ascii " -> " ++ decimal stop ++ ascii ") indices").take
    (functionName.length + string.length + 127)

variable (string : Text)

/-- `sleep_substring`. -/
def substring? (start stop : ℤ) (functionName : String) : Option Substring := do
  let length := ofUInt32 string.length
  let first ← normalizeStringIndex? start length
  let last ← normalizeStringIndex? stop length
  let last := min last length
  if first > last then return .illegal (illegalSubstring functionName string start first stop last)
  if first < 0 ∨ first > length ∨ last < 0 then return .null
  (copyString? string.chars first (toUInt32 (last - first))).map .chars

/-- `builtin_substr`; what is no number is none. -/
def substr? (start stop : Option ℤ) : Option Substring :=
  substring? string (start.getD 0) (stop.getD (ofUInt32 string.length)) "&substr"

/-- `builtin_left`. -/
def left? (n : ℤ) : Option Substring := substring? string 0 n "&left"

/-- `builtin_right`. -/
def right? (n : ℤ) : Option Substring := do
  let start ← checked (-n)
  substring? string start (ofUInt32 string.length) "&right"

/-- `len` of `builtin_mid`: what is left of the string by default. -/
def midLength? (start : ℤ) : (len : Option ℤ) → Option ℤ
  | some len => some len
  | none => checked (ofUInt32 string.length - start)

/-- `builtin_mid`. -/
def mid? (start : ℤ) (len : Option ℤ) : Option Substring := do
  let len ← midLength? string start len
  let stop ← checked (start + len)
  substring? string start stop "&mid"

/-- `builtin_charAt`: a byte, or null. -/
def charAt? (idx : ℤ) : Option (Option Bytes) := do
  let length := ofUInt32 string.length
  let idx ← normalizeStringIndex? idx length
  if idx < 0 ∨ idx ≥ length then return none
  (copyString? string.chars idx 1).map some

/-- How many bytes `builtin_replaceAt` removes, and how many elements `builtin_splice`: as many as
there are. -/
def removed? (length idx removed : ℤ) : Option ℤ := do
  let stop ← checked (idx + removed)
  if stop > length then checked (length - idx) else some removed

/-- The copies of `builtin_replaceAt` into its buffer, and of that into the result. -/
def assemble? (rep : Text) (idx removed : ℤ) : Option Bytes := do
  let newLength := toUInt32 (string.length - removed + rep.length)
  let first ← copyString? string.chars 0 idx.toNat
  let rest ← copyString? string.chars (idx + removed) (toUInt32 (string.length - idx - removed))
  let buf := first ++ rep.chars ++ rest
  if buf.length ≤ newLength + 1 then some (buf.take newLength) else none

/-- `builtin_replaceAt`. -/
def replaceAt? (rep : Text) (idx : ℤ) (removed : Option ℤ) : Option Bytes := do
  let length := ofUInt32 string.length
  let idx ← normalizeStringIndex? idx length
  let removed := removed.getD (ofUInt32 rep.length)
  if idx < 0 ∨ idx > length ∨ removed < 0 then return string.chars
  let removed ← removed? length idx removed
  assemble? string rep idx removed

end

/-- A call of one of the functions; an argument that is no number is none. -/
inductive StringCall where
  | substr (start stop : Option CInt)
  | left (n : CInt)
  | right (n : CInt)
  | mid (start : CInt) (len : Option CInt)
  | charAt (idx : CInt)
  | replaceAt (rep : Text) (idx : CInt) (removed : Option CInt)
  | lindexOf (needle : Text) (start : Option CInt)

/-- The number that an argument is. -/
def argument (arg : Option CInt) : Option ℤ := arg.map Subtype.val

section

variable (string : Text)

/-- The bytes from an index on, so many as asked for, or all; a length below zero gives the index
where they end. -/
def midSlice (start : ℤ) : (len : Option ℤ) → Option Bytes
  | some len =>
    if 0 ≤ len then Slice.segment string.chars start len.toNat
    else slice string.chars start (start + len)
  | none => slice string.chars start string.length

/-- The string with the other one in the place of so many bytes from an index on, if it is one of the
string. -/
def replacedAt (rep : Text) (idx count : ℤ) : Bytes :=
  let first := position string.length idx
  if 0 ≤ first ∧ first ≤ string.length ∧ 0 ≤ count then
    splice string.chars rep.chars first.toNat count.toNat
  else string.chars

/-- A call has the result that its indexes ask for. -/
def StringLaw : StringCall → Prop
  | .substr start stop => (substr? string (argument start) (argument stop)).map Substring.value =
      some (slice string.chars ((argument start).getD 0) ((argument stop).getD string.length))
  | .left n => (left? string n).map Substring.value = some (slice string.chars 0 n)
  | .right n => (right? string n).map Substring.value = some (slice string.chars (-n) string.length)
  | .mid start len =>
    (mid? string start (argument len)).map Substring.value = some (midSlice string start (argument len))
  | .charAt idx =>
    charAt? string idx = some (if 0 ≤ position string.length idx ∧ position string.length idx < string.length
      then Slice.segment string.chars idx 1 else none)
  | .replaceAt rep idx removed => replaceAt? string rep idx (argument removed) =
      some (replacedAt string rep idx ((argument removed).getD rep.length))
  | .lindexOf needle start => ∃ found, lindexOf? string needle start = some found ∧
      IsGreatestOr (fun i => Occurs string needle i ∧
        i ≤ position string.length ((argument start).getD string.length)) found

/-- The length is added to an index below zero without an overflow. -/
def Normalises (i : ℤ) : Prop := i < 0 → IsInt (i + ofUInt32 string.length)

/-- The length is an `int`, or the slice is illegal anyway. -/
def SubstringFits (start : ℤ) (stop : Option ℤ) : Prop :=
  string.length < 2147483648 ∨
    Normalises string start ∧ Normalises string (stop.getD (ofUInt32 string.length)) ∧
      min (position string.length (stop.getD string.length)) string.length <
        position string.length start

/-- What `mid` computes fits: the end of the part, and it is not counted from the other end than its
beginning. -/
def MidFits (start : ℤ) : (len : Option ℤ) → Prop
  | some len => IsInt (start + len) ∧ SubstringFits string start (some (start + len)) ∧
      ¬Crosses string.length start len
  | none => IsInt (ofUInt32 string.length - start) ∧ SubstringFits string start none

/-- The end of what is replaced is an `int`, and the length of the result an unsigned one.  If the
length of the string is no `int`, nothing must change. -/
def ReplaceFits (rep : Text) (idx count : ℤ) : Prop :=
  let first := position string.length idx
  if string.length < 2147483648 then
    0 ≤ first ∧ first ≤ string.length ∧ 0 ≤ count →
      IsInt (first + count) ∧ (replacedAt string rep idx count).length < 4294967296
  else Normalises string idx ∧ (0 ≤ count → (string.chars.drop first.toNat).take count.toNat = rep.chars)

/-- The end of the first comparison is an `int`, or the comparison fails on the terminating NUL.  If
the length of the string is no `int`, the needle must not occur. -/
def LindexFits (needle : Text) (start : Option ℤ) : Prop :=
  let last := min (position string.length (start.getD string.length)) string.length
  if string.length < 2147483648 then
    0 ≤ last → needle.chars ≠ [] → last + needle.length < 2147483648 ∨
      last = 0 ∧ needle.length = string.length + 1 ∧ string.chars ++ [0] ≠ needle.chars
  else Normalises string (start.getD 0) ∧ ∀ i, ¬(Occurs string needle i ∧ i ≤ last)

/-- What is computed in a call fits. -/
def StringFits : StringCall → Prop
  | .substr start stop => SubstringFits string ((argument start).getD 0) (argument stop)
  | .left n => SubstringFits string 0 (some n)
  | .right n => IsInt (-n) ∧ SubstringFits string (-n) none
  | .mid start len => MidFits string start (argument len)
  | .charAt _ => string.length < 2147483648
  | .replaceAt rep idx removed => ReplaceFits string rep idx ((argument removed).getD rep.length)
  | .lindexOf needle start => LindexFits string needle (argument start)

end

/-! ### Slices -/

section

variable {string needle : Text} {start stop : ℤ}

theorem normalizeStringIndex?_of_lt (hshort : string.length < 2147483648) (hstart : IsInt start) :
    normalizeStringIndex? start (ofUInt32 string.length) = some (position string.length start) := by
  rw [ofUInt32_of_lt hshort]
  exact normalizeStringIndex?_eq ⟨start, hstart⟩ hshort

theorem normalises_iff :
    Normalises string start ↔ (normalizeStringIndex? start (ofUInt32 string.length)).isSome := by
  unfold Normalises normalizeStringIndex? checked
  split_ifs with hneg hfit
  · exact iff_of_true (fun _ => hfit) rfl
  · exact iff_of_false (fun hall => hfit (hall hneg)) Bool.false_ne_true
  · exact iff_of_true (fun hlt => absurd hlt hneg) rfl

theorem normalizeStringIndex?_eq_none (hno : ¬Normalises string start) :
    normalizeStringIndex? start (ofUInt32 string.length) = none := by
  rwa [normalises_iff, Option.not_isSome_iff_eq_none] at hno

theorem isInt_ofUInt32 (string : Text) : IsInt (ofUInt32 string.length) := by
  have hsmall : string.length < 4294967296 := string.small
  unfold IsInt ofUInt32
  split_ifs <;> omega

theorem ofUInt32_neg (hlong : 2147483648 ≤ string.length) : ofUInt32 string.length < 0 := by
  have hsmall : string.length < 4294967296 := string.small
  rw [ofUInt32_of_le hlong]
  omega

theorem position_nonneg (hlong : 2147483648 ≤ string.length) (hstart : IsInt start) :
    0 ≤ position string.length start ∧ position string.length start < string.length := by
  have hleast := hstart.1
  have hgreatest := hstart.2
  unfold position
  split_ifs <;> omega

/-- `sleep_substring` of a string whose length is an `int`. -/
theorem substring?_of_lt (hshort : string.length < 2147483648) (hstart : IsInt start)
    (hstop : IsInt stop) (functionName : String) :
    (substring? string start stop functionName).map Substring.value =
      some (slice string.chars start stop) := by
  rw [substring?, normalizeStringIndex?_of_lt hshort hstart, normalizeStringIndex?_of_lt hshort hstop,
    ofUInt32_of_lt hshort]
  dsimp only [Option.bind_eq_bind, Option.bind_some]
  by_cases hle : position string.length start ≤ min (position string.length stop) string.length
  · rw [if_neg (by omega)]
    by_cases hfirst : 0 ≤ position string.length start
    · -- the part is in the string
      obtain ⟨c, hc⟩ := Int.eq_ofNat_of_zero_le hfirst
      obtain ⟨s, hs⟩ := Int.eq_ofNat_of_zero_le (hfirst.trans hle)
      rw [slice_of_le hfirst hle]
      change _ = some (some ((string.chars.drop (position string.length start).toNat).take
        ((min (position string.length stop) string.length).toNat - (position string.length start).toNat)))
      rw [hc, hs] at hle ⊢
      have hin : s ≤ string.length := by omega
      rw [if_neg (by omega), copyString?_eq (Int.ofNat_le.1 hle) hin string.small]
      rfl
    · rw [if_pos (.inl (by omega)), slice_eq_none.2 (.inl (show position string.length start < 0 by omega))]
      rfl
  · rw [if_pos (by omega), slice_eq_none.2 (.inr (not_le.1 hle))]
    rfl

/-- `sleep_substring` of a string whose length is no `int`: null, if anything. -/
theorem substring?_of_le (hlong : 2147483648 ≤ string.length) (functionName : String) (v : Option Bytes) :
    (substring? string start stop functionName).map Substring.value = some v ↔
      Normalises string start ∧ Normalises string stop ∧ v = none := by
  rw [substring?]
  by_cases hstart : Normalises string start
  · obtain ⟨first, hfirst⟩ := Option.isSome_iff_exists.1 (normalises_iff.1 hstart)
    rw [hfirst]
    by_cases hstop : Normalises string stop
    · obtain ⟨last, hlast⟩ := Option.isSome_iff_exists.1 (normalises_iff.1 hstop)
      rw [hlast]
      simp only [hstart, hstop, true_and]
      dsimp only [Option.bind_eq_bind, Option.bind_some]
      split_ifs with hle hin
      · exact ⟨fun heq => (Option.some.inj heq).symm, fun heq => congrArg some heq.symm⟩
      · exact ⟨fun heq => (Option.some.inj heq).symm, fun heq => congrArg some heq.symm⟩
      · -- the end is cut below zero
        exact absurd (.inr (.inr (min_lt_of_right_lt (ofUInt32_neg hlong)))) hin
    · rw [normalizeStringIndex?_eq_none hstop]
      exact iff_of_false (by simp) fun hand => hstop hand.2.1
  · rw [normalizeStringIndex?_eq_none hstart]
    exact iff_of_false (by simp) fun hand => hstart hand.1

theorem substring?_iff (hstart : IsInt start) (stop : Option ℤ) (hstop : ∀ n, stop = some n → IsInt n)
    (functionName : String) :
    (substring? string start (stop.getD (ofUInt32 string.length)) functionName).map Substring.value =
        some (slice string.chars start (stop.getD string.length)) ↔
      SubstringFits string start stop := by
  by_cases hshort : string.length < 2147483648
  · refine iff_of_true ?_ (.inl hshort)
    rw [ofUInt32_of_lt hshort]
    refine substring?_of_lt hshort hstart ?_ functionName
    cases stop with
    | none => exact ⟨show (-2147483648 : ℤ) ≤ (string.length : ℤ) by omega,
        show (string.length : ℤ) ≤ 2147483647 by omega⟩
    | some n => exact hstop n rfl
  · have hlong := Nat.le_of_not_lt hshort
    have hnonneg := (position_nonneg hlong hstart).1
    rw [substring?_of_le hlong, slice_eq_none, SubstringFits, or_iff_right hshort]
    refine and_congr_right' (and_congr_right' (or_iff_right ?_))
    exact not_lt.2 hnonneg

theorem substr?_iff (first last : Option CInt) :
    (substr? string (argument first) (argument last)).map Substring.value =
        some (slice string.chars ((argument first).getD 0) ((argument last).getD string.length)) ↔
      SubstringFits string ((argument first).getD 0) (argument last) := by
  refine substring?_iff ?_ (argument last) (fun k hk => ?_) "&substr"
  · cases first with
    | none => decide
    | some n => exact n.2
  · obtain ⟨n, -, rfl⟩ := Option.map_eq_some_iff.1 hk
    exact n.2

theorem left?_iff (n : CInt) :
    (left? string n).map Substring.value = some (slice string.chars 0 n) ↔
      SubstringFits string 0 (some n) :=
  substring?_iff (by decide) (some n.1) (fun k hk => by cases hk; exact n.2) "&left"

theorem right?_iff (n : ℤ) :
    (right? string n).map Substring.value = some (slice string.chars (-n) string.length) ↔
      IsInt (-n) ∧ SubstringFits string (-n) none := by
  unfold right?
  by_cases hfit : IsInt (-n)
  · rw [checked_of_isInt hfit, and_iff_right hfit]
    exact substring?_iff hfit none (fun k hk => by cases hk) "&right"
  · rw [checked_eq_none.2 hfit]
    exact iff_of_false (by simp) fun hand => hfit hand.1

/-- Where the end is counted from the other end, `mid` gives something else than what was asked for. -/
theorem substring?_of_crosses (hstart : IsInt start) {count : ℕ} (hstop : IsInt (start + count))
    (hcross : Crosses string.length start count) (functionName : String) :
    (substring? string start (start + count) functionName).map Substring.value ≠
      some (Slice.segment string.chars start count) := by
  intro heq
  by_cases hshort : string.length < 2147483648
  · rw [substring?_of_lt hshort hstart hstop] at heq
    exact mt segment_eq_slice_iff.1 (not_not.2 hcross) (Option.some.inj heq).symm
  · exact hcross.segment_ne_none count ((substring?_of_le (Nat.le_of_not_lt hshort) _ _).1 heq).2.2

/-- A length that is given. -/
theorem mid?_iff_some (hstart : IsInt start) (len : ℤ) :
    (mid? string start (some len)).map Substring.value = some (midSlice string start (some len)) ↔
      MidFits string start (some len) := by
  rw [mid?, midLength?, Option.bind_eq_bind, Option.bind_some, MidFits]
  by_cases hfit : IsInt (start + len)
  · rw [checked_of_isInt hfit, and_iff_right hfit, Option.bind_some, midSlice]
    have hiff := @substring?_iff string start hstart (some (start + len))
      (fun k hk => by cases hk; exact hfit) "&mid"
    rw [Option.getD_some, Option.getD_some] at hiff
    rw [← hiff]
    split_ifs with hlen
    · obtain ⟨count, rfl⟩ := Int.eq_ofNat_of_zero_le hlen
      rw [Int.toNat_natCast]
      by_cases hcross : Crosses string.length start count
      · exact iff_of_false (substring?_of_crosses hstart hfit hcross "&mid") fun hand => hand.2 hcross
      · rw [segment_eq_slice_iff.2 hcross, and_iff_left hcross]
    · refine (and_iff_left fun hcross => ?_).symm
      unfold Crosses at hcross
      omega
  · rw [checked_eq_none.2 hfit]
    exact iff_of_false (by simp) fun hand => hfit hand.1

theorem mid?_iff_none (hstart : IsInt start) :
    (mid? string start none).map Substring.value = some (midSlice string start none) ↔
      MidFits string start none := by
  rw [mid?, midLength?, MidFits, midSlice]
  by_cases hfit : IsInt (ofUInt32 string.length - start)
  · rw [checked_of_isInt hfit, and_iff_right hfit, Option.bind_eq_bind, Option.bind_some,
      add_sub_cancel, checked_of_isInt (isInt_ofUInt32 string)]
    exact substring?_iff hstart none (fun k hk => by cases hk) "&mid"
  · rw [checked_eq_none.2 hfit]
    exact iff_of_false (by simp) fun hand => hfit hand.1

theorem charAt?_iff (hstart : IsInt start) :
    charAt? string start =
        some (if 0 ≤ position string.length start ∧ position string.length start < string.length
          then Slice.segment string.chars start 1 else none) ↔
      string.length < 2147483648 := by
  rw [charAt?]
  by_cases hshort : string.length < 2147483648
  · refine iff_of_true ?_ hshort
    rw [normalizeStringIndex?_of_lt hshort hstart, ofUInt32_of_lt hshort]
    dsimp only [Option.bind_eq_bind, Option.bind_some]
    by_cases hin : 0 ≤ position string.length start ∧ position string.length start < string.length
    · rw [if_neg (by omega), if_pos hin, Slice.segment, copyString?]
      rw [Text.length] at hin ⊢
      rw [if_pos ⟨hin.1, by omega⟩, if_pos ⟨hin.1, hin.2.le⟩]
      rfl
    · rw [if_pos (by omega), if_neg hin]
      rfl
  · -- there is a byte, but what is returned is null
    have hlong := Nat.le_of_not_lt hshort
    have hin := position_nonneg hlong hstart
    refine iff_of_false (fun heq => ?_) hshort
    have hsegment : Slice.segment string.chars start 1 =
        some ((string.chars.drop (position string.length start).toNat).take 1) :=
      if_pos ⟨hin.1, hin.2.le⟩
    rw [if_pos hin, hsegment] at heq
    have hneg := ofUInt32_neg hlong
    by_cases hnorm : Normalises string start
    · obtain ⟨first, hfirst⟩ := Option.isSome_iff_exists.1 (normalises_iff.1 hnorm)
      rw [hfirst] at heq
      dsimp only [Option.bind_eq_bind, Option.bind_some] at heq
      rw [if_pos (by omega)] at heq
      cases heq
    · rw [normalizeStringIndex?_eq_none hnorm] at heq
      cases heq

/-! ### Replacements -/

variable {rep : Text} {first count : ℕ}

theorem removed?_eq {length : ℕ} (hlength : length < 2147483648) (hfirst : first ≤ length)
    (hfit : IsInt (first + count)) :
    removed? length first count = some ((min count (length - first) : ℕ) : ℤ) := by
  rw [removed?, checked_of_isInt hfit]
  dsimp only [Option.bind_eq_bind, Option.bind_some]
  split_ifs with hover
  · rw [checked_of_isInt ⟨by omega, by omega⟩, Option.some.injEq]
    omega
  · rw [Option.some.injEq]
    omega

theorem removed?_eq_none {length idx removed : ℤ} (hno : ¬IsInt (idx + removed)) :
    removed? length idx removed = none := by
  rw [removed?, checked_eq_none.2 hno]
  rfl

/-- The buffer has room for the result if that has room at all. -/
theorem assemble?_eq (hin : first + count ≤ string.length) :
    assemble? string rep first count =
      if (splice string.chars rep.chars first count).length < 4294967296 then
        some (splice string.chars rep.chars first count)
      else none := by
  have hsmall : string.chars.length < 4294967296 := string.small
  have hfirst : first ≤ string.chars.length := (Nat.le_add_right _ _).trans hin
  have hlength := @length_splice _ string.chars rep.chars first count hfirst
  have hcopy : copyString? string.chars 0 first = some (string.chars.take first) := by
    have hcopy := copyString?_eq (Nat.zero_le first) hfirst hsmall
    rwa [Int.ofNat_zero, sub_zero, show toUInt32 first = first by unfold toUInt32; omega] at hcopy
  have hrest : copyString? string.chars (first + count) (toUInt32 (string.length - first - count)) =
      some (string.chars.drop (first + count)) := by
    have hrest := copyString?_eq hin (Nat.le_refl _) hsmall
    rw [← Nat.cast_add, sub_sub, ← Nat.cast_add]
    exact hrest.trans (congrArg some (List.take_of_length_le (by rw [List.length_drop]; rfl)))
  have hnew : toUInt32 (string.length - count + rep.length) =
      (splice string.chars rep.chars first count).length % 4294967296 := by
    rw [hlength]
    simp only [Text.length] at hin ⊢
    unfold toUInt32
    omega
  rw [assemble?, Int.toNat_natCast, hcopy, hrest, hnew]
  dsimp only [Option.bind_eq_bind, Option.bind_some]
  change (if (splice string.chars rep.chars first count).length ≤ _ then
    some ((splice string.chars rep.chars first count).take _) else none) = _
  split_ifs with hroom hfits hfits
  · rw [List.take_of_length_le (by omega)]
  · omega
  · omega
  · rfl

variable {idx : ℤ}

/-- `replaceAt` in a string whose length is an `int`. -/
theorem replaceAt?_of_lt (hshort : string.length < 2147483648) (hidx : IsInt idx)
    (removed : Option CInt) :
    replaceAt? string rep idx (argument removed) =
        some (replacedAt string rep idx ((argument removed).getD rep.length)) ↔
      (0 ≤ position string.length idx ∧ position string.length idx ≤ string.length ∧
          0 ≤ (argument removed).getD rep.length →
        IsInt (position string.length idx + (argument removed).getD rep.length) ∧
          (replacedAt string rep idx ((argument removed).getD rep.length)).length < 4294967296) := by
  have hsmall : rep.length < 4294967296 := rep.small
  -- the number of bytes to remove, unless that is the length of a string that is too long
  have hcount : (argument removed).getD (ofUInt32 rep.length) = (argument removed).getD rep.length ∨
      (argument removed).getD (ofUInt32 rep.length) < 0 ∧ (argument removed).getD rep.length = rep.length ∧
        2147483648 ≤ rep.length := by
    cases removed with
    | some n => exact .inl rfl
    | none =>
      by_cases hrep : rep.length < 2147483648
      · exact .inl (ofUInt32_of_lt hrep)
      · exact .inr ⟨ofUInt32_neg (Nat.le_of_not_lt hrep), rfl, Nat.le_of_not_lt hrep⟩
  rw [replaceAt?, normalizeStringIndex?_of_lt hshort hidx, ofUInt32_of_lt hshort]
  dsimp only [Option.bind_eq_bind, Option.bind_some]
  generalize (argument removed).getD (ofUInt32 rep.length) = taken at hcount ⊢
  generalize (argument removed).getD (rep.length : ℤ) = asked at hcount ⊢
  by_cases hin : 0 ≤ position string.length idx ∧ position string.length idx ≤ string.length ∧ 0 ≤ asked
  · simp only [hin, true_and, forall_const]
    obtain ⟨first, hfirst⟩ := Int.eq_ofNat_of_zero_le hin.1
    obtain ⟨count, rfl⟩ := Int.eq_ofNat_of_zero_le hin.2.2
    have hspliced : replacedAt string rep idx count = splice string.chars rep.chars first count := by
      rw [replacedAt, if_pos hin, hfirst, Int.toNat_natCast, Int.toNat_natCast]
    rw [hspliced, hfirst] at *
    have hle : first ≤ string.length := by omega
    rcases hcount with rfl | ⟨hneg, hasked, hlong⟩
    · rw [if_neg (by omega)]
      by_cases hfit : IsInt (first + count)
      · rw [removed?_eq hshort hle hfit, Option.bind_some, assemble?_eq (by omega),
          show string.length = string.chars.length from rfl, splice_min hle]
        split_ifs with hroom
        · exact iff_of_true rfl ⟨hfit, hroom⟩
        · exact iff_of_false (by simp) fun hand => hroom hand.2
      · rw [removed?_eq_none hfit]
        exact iff_of_false (by simp) fun hand => hfit hand.1
    · -- nothing is replaced, but the replacement is longer than the string
      rw [if_pos (.inr (.inr hneg))]
      refine iff_of_false (fun heq => ?_) fun hand => ?_
      · have hlength := congrArg List.length (Option.some.inj heq)
        rw [length_splice hle] at hlength
        simp only [Text.length] at hshort hlong
        omega
      · have hgreatest := hand.1.2
        omega
  · have hsame : replacedAt string rep idx asked = string.chars := if_neg hin
    rw [if_pos (by omega), hsame]
    exact iff_of_true rfl fun hall => absurd hall hin

/-- `replaceAt` in a string whose length is no `int`: the string, if anything. -/
theorem replaceAt?_of_le (hlong : 2147483648 ≤ string.length) (hidx : IsInt idx)
    (removed : Option ℤ) (count : ℤ) :
    replaceAt? string rep idx removed = some (replacedAt string rep idx count) ↔
      Normalises string idx ∧ (0 ≤ count →
        (string.chars.drop (position string.length idx).toNat).take count.toNat = rep.chars) := by
  have hin := position_nonneg hlong hidx
  have hneg := ofUInt32_neg hlong
  rw [replaceAt?]
  by_cases hnorm : Normalises string idx
  · obtain ⟨first, hfirst⟩ := Option.isSome_iff_exists.1 (normalises_iff.1 hnorm)
    rw [hfirst, and_iff_right hnorm]
    dsimp only [Option.bind_eq_bind, Option.bind_some]
    rw [if_pos (by omega), replacedAt]
    by_cases hcount : 0 ≤ count
    · rw [if_pos ⟨hin.1, hin.2.le, hcount⟩, ← splice_eq_self_iff]
      exact ⟨fun heq _ => (Option.some.inj heq).symm, fun hself => congrArg some (hself hcount).symm⟩
    · rw [if_neg fun hand => hcount hand.2.2]
      exact iff_of_true rfl fun hle => absurd hle hcount
  · rw [normalizeStringIndex?_eq_none hnorm]
    exact iff_of_false (by simp) fun hand => hnorm hand.1

theorem replaceAt?_iff (hidx : IsInt idx) (removed : Option CInt) :
    replaceAt? string rep idx (argument removed) =
        some (replacedAt string rep idx ((argument removed).getD rep.length)) ↔
      ReplaceFits string rep idx ((argument removed).getD rep.length) := by
  unfold ReplaceFits
  by_cases hshort : string.length < 2147483648
  · rw [if_pos hshort]
    exact replaceAt?_of_lt hshort hidx removed
  · rw [if_neg hshort]
    exact replaceAt?_of_le (Nat.le_of_not_lt hshort) hidx _ _

/-! ### The last occurrence -/

theorem Occurs.inside {i : ℤ} (hi : Occurs string needle i) :
    0 ≤ i ∧ i + needle.length ≤ string.length := by
  obtain ⟨k, rfl, hocc⟩ := hi
  have hle := hocc.length_le
  simp only [Text.length]
  omega

theorem lindexStart?_of_lt (hshort : string.length < 2147483648) (start : Option CInt) :
    lindexStart? start string.length =
      some (position string.length ((argument start).getD string.length)) := by
  cases start with
  | none => exact congrArg some (position_length string.length).symm
  | some n => exact normalizeStringIndex?_eq n hshort

/-- Where the first comparison does not fit, it leaves the string and the NUL behind it, or it is the
only one, of all of that. -/
theorem lindexOf?_of_not_fits (hshort : string.length < 2147483648) (hne : needle.chars ≠ [])
    {start : Option CInt} {last : ℕ} (hlast : last ≤ string.length)
    (hstart : (lindexStart? start string.length).map (min · (string.length : ℤ)) = some (last : ℤ))
    (hover : 2147483648 ≤ last + needle.length) :
    lindexOf? string needle start =
      if last = 0 ∧ needle.length = string.length + 1 then
        some (if string.chars ++ [0] = needle.chars then some 0 else none)
      else none := by
  have hsmall : needle.length < 4294967296 := needle.small
  have hpos : 0 < needle.length := List.length_pos_iff.2 hne
  obtain ⟨begin, hbegin, hmin⟩ := Option.map_eq_some_iff.1 hstart
  rw [lindexOf?, ofUInt32_of_lt hshort, hbegin]
  dsimp only [Option.bind_eq_bind, Option.bind_some]
  rw [hmin, if_neg (by omega), if_neg (by omega)]
  by_cases hneedle : needle.length < 2147483648
  · rw [ofUInt32_of_lt hneedle, lastStart?, checked_eq_none.2 fun hfit => by
      have hgreatest := hfit.2
      omega]
    rw [if_neg (by omega)]
    rfl
  · -- the length of the needle has wrapped around
    have hlaststart : lastStart? last string.length (ofUInt32 needle.length) = some (last : ℤ) := by
      rw [lastStart?, ofUInt32_of_le (by omega), checked_of_isInt ⟨by omega, by omega⟩]
      exact if_neg (by omega)
    rw [hlaststart, Option.bind_some, if_neg (by omega), Int.toNat_natCast]
    split_ifs with hall hsame
    · rw [hall.1, lindexLoop?, sameAt?, if_pos (by omega), List.drop_zero, List.take_of_length_le,
        hsame, decide_eq_true rfl]
      · rfl
      · rw [hall.2, List.length_append]
        rfl
    · rw [hall.1, lindexLoop?, sameAt?, if_pos (by omega), List.drop_zero, List.take_of_length_le,
        decide_eq_false hsame]
      · rfl
      · rw [hall.2, List.length_append]
        rfl
    · exact lindexLoop?_out (by omega)

/-- `lindexOf` in a string whose length is an `int`. -/
theorem lindexOf?_of_lt (hshort : string.length < 2147483648) (start : Option CInt) {p : ℤ}
    (hstart : lindexStart? start string.length = some p) :
    (∃ found, lindexOf? string needle start = some found ∧
        IsGreatestOr (fun i => Occurs string needle i ∧ i ≤ p) found) ↔
      (0 ≤ min p string.length → needle.chars ≠ [] →
        min p string.length + needle.length < 2147483648 ∨
          min p string.length = 0 ∧ needle.length = string.length + 1 ∧
            string.chars ++ [0] ≠ needle.chars) := by
  by_cases hlast : 0 ≤ min p string.length
  · obtain ⟨last, hmin⟩ := Int.eq_ofNat_of_zero_le hlast
    by_cases hne : needle.chars = []
    · -- the empty needle is everywhere
      refine iff_of_true ⟨some (min p string.length), ?_, ⟨⟨last, hmin, ?_⟩, min_le_left _ _⟩,
        fun j hj => le_min hj.2 ?_⟩ fun _ hcontra => absurd hne hcontra
      · rw [lindexOf?, ofUInt32_of_lt hshort, hstart]
        dsimp only [Option.bind_eq_bind, Option.bind_some]
        rw [if_neg (by omega), if_pos (by rw [Text.length, hne]; rfl)]
        rfl
      · rw [hne]
        exact ⟨show last ≤ string.length by omega, List.nil_prefix⟩
      · have hin := hj.1.inside
        omega
    · by_cases hfits : min p string.length + needle.length < 2147483648
      · exact iff_of_true (isGreatestOr_lindexFrom hne hshort (by omega) hfits hstart)
          fun _ _ => .inl hfits
      · rw [hmin] at hfits ⊢
        rw [lindexOf?_of_not_fits hshort hne (show last ≤ string.length by omega)
          (by rw [hstart, ← hmin]; rfl) (by omega)]
        split_ifs with hall hsame
        · -- the needle is longer than the string
          refine iff_of_false ?_ fun hcontra => ?_
          · rintro ⟨found, hfound, hgreatest⟩
            obtain rfl := Option.some.inj hfound
            have hin := hgreatest.1.1.inside
            omega
          · obtain hlt | hand := hcontra (by omega) hne
            · exact hfits hlt
            · exact hand.2.2 hsame
        · refine iff_of_true ⟨none, rfl, fun j hj => ?_⟩ fun _ _ => .inr ⟨by omega, hall.2, hsame⟩
          have hin := hj.1.inside
          omega
        · refine iff_of_false (by rintro ⟨found, ⟨⟩, -⟩) fun hcontra => ?_
          obtain hlt | hand := hcontra (by omega) hne
          · exact hfits hlt
          · exact hall ⟨by omega, hand.2.1⟩
  · refine iff_of_true ⟨none, ?_, fun j hj => ?_⟩ fun hcontra => absurd hcontra hlast
    · rw [lindexOf?, ofUInt32_of_lt hshort, hstart]
      dsimp only [Option.bind_eq_bind, Option.bind_some]
      rw [if_pos (by omega)]
      rfl
    · have hin := hj.1.inside
      omega

/-- `lindexOf` in a string whose length is no `int`: null, if anything. -/
theorem lindexOf?_of_le (hlong : 2147483648 ≤ string.length) (start : Option CInt) (found : Found) :
    lindexOf? string needle start = some found ↔
      Normalises string ((argument start).getD 0) ∧ found = none := by
  have hneg := ofUInt32_neg hlong
  rw [lindexOf?]
  have hout : ∀ p : ℤ, min p (ofUInt32 string.length) < 0 := fun p => min_lt_of_right_lt hneg
  cases start with
  | none =>
    have hnorm : Normalises string ((argument none).getD 0) := fun hlt => absurd hlt (by decide)
    dsimp only [lindexStart?, Option.bind_eq_bind, Option.bind_some]
    rw [if_pos (hout _), and_iff_right hnorm]
    exact ⟨fun heq => (Option.some.inj heq).symm, fun heq => congrArg some heq.symm⟩
  | some n =>
    rw [lindexStart?, argument, Option.map_some, Option.getD_some]
    by_cases hnorm : Normalises string n
    · obtain ⟨first, hfirst⟩ := Option.isSome_iff_exists.1 (normalises_iff.1 hnorm)
      rw [hfirst, and_iff_right hnorm]
      dsimp only [Option.bind_eq_bind, Option.bind_some]
      rw [if_pos (hout _)]
      exact ⟨fun heq => (Option.some.inj heq).symm, fun heq => congrArg some heq.symm⟩
    · rw [normalizeStringIndex?_eq_none hnorm]
      exact iff_of_false (by simp) fun hand => hnorm hand.1

theorem lindexOf?_iff (start : Option CInt) :
    (∃ found, lindexOf? string needle start = some found ∧
        IsGreatestOr (fun i => Occurs string needle i ∧
          i ≤ position string.length ((argument start).getD string.length)) found) ↔
      LindexFits string needle (argument start) := by
  unfold LindexFits
  by_cases hshort : string.length < 2147483648
  · rw [if_pos hshort]
    exact lindexOf?_of_lt hshort start (lindexStart?_of_lt hshort start)
  · simp only [if_neg hshort, lindexOf?_of_le (Nat.le_of_not_lt hshort)]
    constructor
    · rintro ⟨_, ⟨hnorm, rfl⟩, hnone⟩
      exact ⟨hnorm, fun i hi => hnone i ⟨hi.1, hi.2.trans (min_le_left _ _)⟩⟩
    · rintro ⟨hnorm, hnone⟩
      refine ⟨none, ⟨hnorm, rfl⟩, fun i hi => hnone i ⟨hi.1, le_min hi.2 ?_⟩⟩
      have hin := hi.1.inside
      omega

/-- **A call has the result that its indexes ask for if and only if what it computes fits.** -/
theorem stringLaw_iff (string : Text) (call : StringCall) :
    StringLaw string call ↔ StringFits string call := by
  cases call with
  | substr start stop => exact substr?_iff start stop
  | left n => exact left?_iff n
  | right n => exact right?_iff n
  | mid start len =>
    cases len with
    | none => exact mid?_iff_none start.2
    | some len => exact mid?_iff_some start.2 len
  | charAt idx => exact charAt?_iff idx.2
  | replaceAt rep idx removed => exact replaceAt?_iff idx.2 removed
  | lindexOf needle start => exact lindexOf?_iff start

end

end Slp
