import Mathlib.Tactic.Linarith
import Slp.Number.CInt
import Slp.Text.CString
import Slp.Text.Replacement

/-!
# Replacing

`builtin_replace` counts the occurrences with `strstr`, and then copies the text with each of them
replaced, again with `strstr`; both passes skip an occurrence by its counted length.

* `builtinReplace?` : the function, none where it has no defined behaviour;
* `ReplaceLaw` : it replaces the leftmost occurrences that do not overlap;
* `replaceLaw_iff` : **it does if and only if C sees the next occurrence wherever the text is
  searched, and the count and the size of the buffer fit.**
-/

namespace Slp

open Occurrence

/-- A string of the interpreter, whose length is a `uint32_t`. -/
structure Text where
  chars : Bytes
  small : chars.length < 4294967296

namespace Text

/-- `length`. -/
def length (s : Text) : ℕ := s.chars.length

end Text

/-! ### The two passes -/

section

variable (old rep : Bytes)

/-- The counting pass over what is left of the source, with the count so far. -/
def countLoop? (s : Bytes) (count : ℤ) : Option ℤ :=
  match strstr s old with
  | none => some count
  | some i =>
    -- behind the end there is nothing to search
    if _h : old ≠ [] ∧ i + old.length ≤ s.length then
      (CInt.checked (count + 1)).bind fun count => countLoop? (s.drop (i + old.length)) count
    else none
termination_by s.length
decreasing_by
  have hpos := List.length_pos_iff.2 _h.1
  rw [List.length_drop]
  omega

/-- The copying pass over what is left of the source, from the distance `p`: what is written, and
where the parts began that are replaced. -/
def copyLoop? (s : Bytes) (p : ℕ) : Option (Bytes × List ℕ) :=
  match strstr s old with
  | none => some (s, [])
  | some i =>
    if _h : old ≠ [] ∧ i + old.length ≤ s.length then
      (copyLoop? (s.drop (i + old.length)) (p + i + old.length)).map fun (out, places) =>
        (s.take i ++ rep ++ out, (p + i) :: places)
    else none
termination_by s.length
decreasing_by
  have hpos := List.length_pos_iff.2 _h.1
  rw [List.length_drop]
  omega

end

/-- The number of a `uint32_t`. -/
def toUInt32 (n : ℤ) : ℕ := (n % 4294967296).toNat

/-- `builtin_replace` on strings: the result, and where the parts began that were replaced.  There
is none if it leaves the source or its buffer, or if the count overflows. -/
def builtinReplace? (src old rep : Text) : Option (Bytes × List ℕ) :=
  if old.length = 0 then some (src.chars, [])
  else do
    let count ← countLoop? old.chars src.chars 0
    if count = 0 then return (src.chars, [])
    let newLen := toUInt32 (src.length + count * ((rep.length : ℤ) - old.length))
    let size := toUInt32 (newLen + 1)
    let (out, places) ← copyLoop? old.chars rep.chars src.chars 0
    if out.length + 1 ≤ size ∧ out.length = newLen then return (out, places)
    none

/-- What is replaced is the leftmost occurrences that do not overlap. -/
def ReplaceLaw (src old rep : Text) : Prop :=
  builtinReplace? src old rep =
    some (replaceAll old.chars rep.chars src.chars, leftmost old.chars src.chars 0)

/-- C sees the next occurrence of `old` in `s`: there is no NUL in front of it, and what C takes `old`
for does not occur before it. -/
def Seen (old s : Bytes) : Prop :=
  match first? old s with
  | some i => 0 ∉ s.take i ∧ ∀ j < i, ¬OccursAt (cstring old) s j
  | none => ∀ j, OccursAt (cstring old) s j → 0 ∈ s.take j

section

variable {old rep s : Bytes} {i p : ℕ} {count : ℤ}

theorem strstr_eq_some : strstr s old = some i ↔
    (OccursAt (cstring old) s i ∧ 0 ∉ s.take i) ∧
      ∀ j < i, ¬(OccursAt (cstring old) s j ∧ 0 ∉ s.take j) := by
  have hsees : ∀ j, OccursAt (cstring old) (cstring s) j ↔ OccursAt (cstring old) s j ∧ 0 ∉ s.take j := fun j =>
    occursAt_cstring (zero_notMem_cstring old)
  rw [strstr, first?_eq_some]
  simp only [hsees]

theorem strstr_eq_none : strstr s old = none ↔ ∀ j, OccursAt (cstring old) s j → 0 ∈ s.take j := by
  have hsees : ∀ j, OccursAt (cstring old) (cstring s) j ↔ OccursAt (cstring old) s j ∧ 0 ∉ s.take j := fun j =>
    occursAt_cstring (zero_notMem_cstring old)
  rw [strstr, first?_eq_none]
  refine forall_congr' fun j => ?_
  rw [hsees, not_and, not_not]

/-- The next occurrence is seen when C finds it. -/
theorem seen_iff : Seen old s ↔ strstr s old = first? old s := by
  unfold Seen
  cases hfirst : first? old s with
  | none => exact strstr_eq_none.symm
  | some i =>
    rw [strstr_eq_some]
    dsimp only
    have hocc : OccursAt (cstring old) s i := (first?_eq_some.1 hfirst).1.of_isPrefix (cstring_isPrefix old)
    constructor
    · rintro ⟨hzero, hleast⟩
      exact ⟨⟨hocc, hzero⟩, fun j hj hno => hleast j hj hno.1⟩
    · rintro ⟨⟨-, hzero⟩, hleast⟩
      refine ⟨hzero, fun j hj hno => hleast j hj ⟨hno, fun hmem => hzero ?_⟩⟩
      exact (List.take_subset_take_left s hj.le) hmem

/-! ### The loops -/

theorem countLoop?_none (hi : strstr s old = none) (count : ℤ) : countLoop? old s count = some count := by
  rw [countLoop?]
  split
  · rfl
  · rename_i hsome
    rw [hi] at hsome
    cases hsome

theorem countLoop?_some (hi : strstr s old = some i) (count : ℤ) :
    countLoop? old s count = if old ≠ [] ∧ i + old.length ≤ s.length then
      (CInt.checked (count + 1)).bind fun count => countLoop? old (s.drop (i + old.length)) count
    else none := by
  rw [countLoop?]
  split
  · rename_i hnone
    rw [hi] at hnone
    cases hnone
  · rename_i k hk
    obtain rfl := Option.some.inj (hi.symm.trans hk)
    split_ifs <;> rfl

theorem copyLoop?_none (hi : strstr s old = none) (p : ℕ) : copyLoop? old rep s p = some (s, []) := by
  rw [copyLoop?]
  split
  · rfl
  · rename_i hsome
    rw [hi] at hsome
    cases hsome

theorem copyLoop?_some (hi : strstr s old = some i) (p : ℕ) :
    copyLoop? old rep s p = if old ≠ [] ∧ i + old.length ≤ s.length then
      (copyLoop? old rep (s.drop (i + old.length)) (p + i + old.length)).map fun (out, places) =>
        (s.take i ++ rep ++ out, (p + i) :: places)
    else none := by
  rw [copyLoop?]
  split
  · rename_i hnone
    rw [hi] at hnone
    cases hnone
  · rename_i k hk
    obtain rfl := Option.some.inj (hi.symm.trans hk)
    split_ifs <;> rfl

/-- The next occurrence is where C finds it. -/
theorem Seen.first (hseen : Seen old s) (hi : strstr s old = some i) : first? old s = some i :=
  (seen_iff.1 hseen).symm.trans hi

/-- When C sees every occurrence, both passes meet the leftmost ones. -/
theorem copyLoop?_of_seen (hold : old ≠ []) (hseen : ∀ t, Searched old s t → Seen old t) (p : ℕ) :
    copyLoop? old rep s p = some (replaceAll old rep s, leftmost old s p) := by
  induction hlength : s.length using Nat.strong_induction_on generalizing s p with
  | _ k ih =>
    subst hlength
    have hfirst := seen_iff.1 (hseen s .start)
    cases hi : strstr s old with
    | none =>
      rw [hi] at hfirst
      rw [copyLoop?_none hi, replaceAll_of_none hfirst.symm, leftmost_of_none hfirst.symm]
    | some i =>
      rw [hi] at hfirst
      have hrest := ih _ (length_drop_lt hold hfirst.symm)
        (fun t ht => hseen t (.next hfirst.symm ht)) (p + i + old.length) rfl
      rw [copyLoop?_some hi, if_pos ⟨hold, (first?_eq_some.1 hfirst.symm).1.length_le⟩, hrest,
        replaceAll_of_some hold hfirst.symm, leftmost_of_some hold hfirst.symm]
      rfl

/-- The copying pass meets the leftmost occurrences only when C sees all of them. -/
theorem seen_of_copyLoop? (hold : old ≠ []) {out : Bytes}
    (hloop : copyLoop? old rep s p = some (out, leftmost old s p)) {t : Bytes}
    (ht : Searched old s t) : Seen old t := by
  induction ht generalizing p out with
  | @start s =>
    rw [seen_iff]
    cases hi : strstr s old with
    | none =>
      rw [copyLoop?_none hi] at hloop
      cases hfirst : first? old s with
      | none => rfl
      | some j =>
        rw [leftmost_of_some hold hfirst] at hloop
        simp at hloop
    | some i =>
      rw [copyLoop?_some hi] at hloop
      split_ifs at hloop
      obtain ⟨⟨out', places⟩, -, hpair⟩ := Option.map_eq_some_iff.1 hloop
      cases hfirst : first? old s with
      | none =>
        rw [leftmost_of_none hfirst] at hpair
        simp at hpair
      | some j =>
        rw [leftmost_of_some hold hfirst] at hpair
        have hplace := (List.cons.inj (Prod.mk.inj hpair).2).1
        rw [show i = j by omega]
  | @next s t j hfirst _ ih =>
    rw [leftmost_of_some hold hfirst] at hloop
    cases hi : strstr s old with
    | none =>
      rw [copyLoop?_none hi] at hloop
      simp at hloop
    | some i =>
      rw [copyLoop?_some hi] at hloop
      split_ifs at hloop
      obtain ⟨⟨out', places⟩, hrest, hpair⟩ := Option.map_eq_some_iff.1 hloop
      obtain ⟨hplace, hplaces⟩ := List.cons.inj (Prod.mk.inj hpair).2
      obtain rfl : i = j := by omega
      obtain rfl : places = _ := hplaces
      exact ih hrest

/-- The counting pass counts what the copying pass replaces, if the count fits. -/
theorem countLoop?_of_copyLoop? {out : Bytes} {places : List ℕ}
    (hloop : copyLoop? old rep s p = some (out, places)) (count : ℕ) (hcount : count ≤ 2147483647) :
    countLoop? old s count =
      if count + places.length ≤ 2147483647 then some ((count + places.length : ℕ) : ℤ) else none := by
  induction hlength : s.length using Nat.strong_induction_on generalizing s p out places count with
  | _ k ih =>
    subst hlength
    cases hi : strstr s old with
    | none =>
      rw [copyLoop?_none hi] at hloop
      cases hloop
      rw [countLoop?_none hi, List.length_nil, Nat.add_zero, if_pos hcount]
    | some i =>
      rw [copyLoop?_some hi] at hloop
      split_ifs at hloop with hin
      obtain ⟨⟨out', places'⟩, hrest, hpair⟩ := Option.map_eq_some_iff.1 hloop
      obtain ⟨-, rfl⟩ := Prod.mk.inj hpair
      have hshorter : (s.drop (i + old.length)).length < s.length := by
        have hpos := List.length_pos_iff.2 hin.1
        rw [List.length_drop]
        omega
      rw [countLoop?_some hi, if_pos hin, List.length_cons]
      by_cases hnext : count + 1 ≤ 2147483647
      · have hchecked : CInt.checked ((count : ℤ) + 1) = some ((count + 1 : ℕ) : ℤ) := by
          rw [CInt.checked_of_isInt ⟨by omega, by omega⟩]
          push_cast
          rfl
        rw [hchecked, Option.bind_some, ih _ hshorter hrest (count + 1) hnext rfl, Nat.add_assoc,
          Nat.add_comm 1]
      · rw [CInt.checked_eq_none.2 fun hno => hnext (by have := hno.2; omega), Option.bind_none,
          if_neg (by omega)]

/-- Where the counting pass ends, so does the copying pass. -/
theorem copyLoop?_of_countLoop? {m : ℤ} (hloop : countLoop? old s count = some m) (p : ℕ) :
    ∃ out places, copyLoop? old rep s p = some (out, places) ∧ m = count + places.length := by
  induction hlength : s.length using Nat.strong_induction_on generalizing s p count with
  | _ k ih =>
    subst hlength
    cases hi : strstr s old with
    | none =>
      rw [countLoop?_none hi] at hloop
      exact ⟨s, [], copyLoop?_none hi p, by simpa using (Option.some.inj hloop).symm⟩
    | some i =>
      rw [countLoop?_some hi] at hloop
      split_ifs at hloop with hin
      obtain ⟨next, hnext, hrest⟩ := Option.bind_eq_some_iff.1 hloop
      obtain ⟨-, rfl⟩ := CInt.checked_eq_some.1 hnext
      have hshorter : (s.drop (i + old.length)).length < s.length := by
        have hpos := List.length_pos_iff.2 hin.1
        rw [List.length_drop]
        omega
      obtain ⟨out, places, hcopy, hm⟩ := ih _ hshorter hrest (p + i + old.length) rfl
      refine ⟨s.take i ++ rep ++ out, (p + i) :: places, ?_, ?_⟩
      · rw [copyLoop?_some hi, if_pos hin, hcopy]
        rfl
      · rw [hm, List.length_cons]
        push_cast
        omega

/-- Without a match the copying pass copies. -/
theorem eq_of_copyLoop?_nil {out : Bytes} (hloop : copyLoop? old rep s p = some (out, [])) : out = s := by
  cases hi : strstr s old with
  | none =>
    rw [copyLoop?_none hi] at hloop
    exact (Prod.mk.inj (Option.some.inj hloop)).1.symm
  | some i =>
    rw [copyLoop?_some hi] at hloop
    split_ifs at hloop
    obtain ⟨_, -, hpair⟩ := Option.map_eq_some_iff.1 hloop
    simp at hpair

end

/-! ### The law -/

section

variable {src old rep : Text} {out : Bytes} {places : List ℕ}

theorem toUInt32_of_lt {n : ℕ} (hn : n < 4294967296) : toUInt32 n = n := by
  unfold toUInt32
  omega

/-- The bytes of a `uint32_t` sum are one too few for the NUL exactly at the largest length. -/
theorem size_iff {n : ℕ} (hn : n < 4294967296) : n + 1 ≤ toUInt32 (n + 1) ↔ n ≠ 4294967295 := by
  unfold toUInt32
  omega

/-- What the function returns, from what its passes do. -/
theorem builtinReplace?_of_copyLoop? (hold : old.chars ≠ [])
    (hcopy : copyLoop? old.chars rep.chars src.chars 0 = some (out, places))
    (hlength : out.length + places.length * old.length = src.length + places.length * rep.length)
    (hsmall : out.length < 4294967296) :
    builtinReplace? src old rep =
      if places.length ≤ 2147483647 ∧ (places = [] ∨ out.length ≠ 4294967295) then some (out, places)
      else none := by
  have hcount : countLoop? old.chars src.chars 0 =
      if places.length ≤ 2147483647 then some (places.length : ℤ) else none := by
    simpa only [Nat.cast_zero, Nat.zero_add] using countLoop?_of_copyLoop? hcopy 0 (by omega)
  have hlen : old.length ≠ 0 := fun hzero => hold (List.length_eq_zero_iff.1 hzero)
  rw [builtinReplace?, if_neg hlen, hcount]
  by_cases hfit : places.length ≤ 2147483647
  · rw [if_pos hfit]
    dsimp only [Option.bind_eq_bind, Option.bind_some]
    by_cases hnil : places = []
    · subst hnil
      have hzero : (([] : List ℕ).length : ℤ) = 0 := rfl
      rw [if_pos hzero, if_pos ⟨hfit, .inl rfl⟩, eq_of_copyLoop?_nil hcopy]
      rfl
    · have hne : (places.length : ℤ) ≠ 0 := by
        have hpos := List.length_pos_iff.2 hnil
        omega
      have hsum : (src.length : ℤ) + places.length * ((rep.length : ℤ) - old.length) = out.length := by
        have hcast := congrArg (fun n : ℕ => (n : ℤ)) hlength
        push_cast at hcast
        rw [mul_sub]
        linarith
      rw [if_neg hne, hsum, toUInt32_of_lt hsmall, hcopy]
      dsimp only [Option.bind_some]
      have hsize := size_iff hsmall
      by_cases hmax : out.length ≠ 4294967295
      · rw [if_pos ⟨hsize.2 hmax, rfl⟩, if_pos ⟨hfit, .inr hmax⟩]
        rfl
      · rw [if_neg fun hno => hmax (hsize.1 hno.1), if_neg fun hno => hno.2.elim hnil hmax]
  · rw [if_neg hfit, if_neg fun hno => hfit hno.1]
    rfl

/-- A result has been copied. -/
theorem copyLoop?_of_builtinReplace? (hold : old.chars ≠ [])
    (hreplace : builtinReplace? src old rep = some (out, places)) :
    copyLoop? old.chars rep.chars src.chars 0 = some (out, places) := by
  have hlen : old.length ≠ 0 := fun hzero => hold (List.length_eq_zero_iff.1 hzero)
  rw [builtinReplace?, if_neg hlen] at hreplace
  obtain ⟨count, hcount, hreplace⟩ := Option.bind_eq_some_iff.1 hreplace
  by_cases hzero : count = 0
  · subst hzero
    rw [if_pos rfl] at hreplace
    cases hreplace
    obtain ⟨out, places, hcopy, hm⟩ := @copyLoop?_of_countLoop? old.chars rep.chars _ _ _ hcount 0
    have hnil : places = [] := List.length_eq_zero_iff.1 (by omega)
    subst hnil
    rw [hcopy, eq_of_copyLoop?_nil hcopy]
  · rw [if_neg hzero] at hreplace
    obtain ⟨⟨out', places'⟩, hcopy, hreplace⟩ := Option.bind_eq_some_iff.1 hreplace
    dsimp only at hreplace
    split_ifs at hreplace
    cases hreplace
    exact hcopy

/-- **What is replaced is the leftmost occurrences that do not overlap if and only if C sees the next
occurrence wherever the text is searched, and the count and the size of the buffer fit.** -/
theorem replaceLaw_iff (src old rep : Text) (hold : old.chars ≠ [])
    (hsmall : (replaceAll old.chars rep.chars src.chars).length < 4294967296) :
    ReplaceLaw src old rep ↔
      (∀ t, Searched old.chars src.chars t → Seen old.chars t) ∧
        (leftmost old.chars src.chars 0).length ≤ 2147483647 ∧
        (leftmost old.chars src.chars 0 = [] ∨
          (replaceAll old.chars rep.chars src.chars).length ≠ 4294967295) := by
  have hlength := length_replaceAll hold rep.chars src.chars 0
  constructor
  · intro hlaw
    have hcopy := copyLoop?_of_builtinReplace? hold hlaw
    refine ⟨fun t ht => seen_of_copyLoop? hold hcopy ht, ?_⟩
    have hreplace := builtinReplace?_of_copyLoop? hold hcopy hlength hsmall
    rw [hlaw] at hreplace
    split_ifs at hreplace with hfit
    exact hfit
  · rintro ⟨hseen, hfit⟩
    have hcopy := @copyLoop?_of_seen old.chars rep.chars _ hold hseen 0
    rw [ReplaceLaw, builtinReplace?_of_copyLoop? hold hcopy hlength hsmall, if_pos hfit]

/-- `replace("a,b", ",", ";")`. -/
theorem replaceLaw_iff_comma :
    let src : Text := ⟨ascii "a,b", by decide⟩
    let old : Text := ⟨ascii ",", by decide⟩
    let rep : Text := ⟨ascii ";", by decide⟩
    ReplaceLaw src old rep ↔
      (∀ t, Searched old.chars src.chars t → Seen old.chars t) ∧
        (leftmost old.chars src.chars 0).length ≤ 2147483647 ∧
        (leftmost old.chars src.chars 0 = [] ∨
          (replaceAll old.chars rep.chars src.chars).length ≠ 4294967295) := by
  intro src old rep
  have hlength := length_replaceAll (show old.chars ≠ [] by decide) rep.chars src.chars 0
  have hone : old.chars.length = 1 ∧ rep.chars.length = 1 ∧ src.chars.length = 3 := by decide
  exact replaceLaw_iff src old rep (by decide) (by
    rw [hone.1, hone.2.1, hone.2.2] at hlength
    omega)

/-- Behind a NUL nothing is replaced. -/
theorem not_replaceLaw_nul :
    ¬∀ src old rep : Text, old.chars ≠ [] →
      (replaceAll old.chars rep.chars src.chars).length < 4294967296 → ReplaceLaw src old rep := by
  intro hall
  have hold : (ascii "a") ≠ [] := by decide
  have hfirst : first? (ascii "a") [0, 97] = some 1 := by decide
  have hnone : first? (ascii "a") [] = none := by decide
  have hresult : replaceAll (ascii "a") (ascii "b") [0, 97] = [0, 98] := by
    rw [replaceAll_of_some hold hfirst, show ([0, 97] : Bytes).drop (1 + (ascii "a").length) = [] by
      decide, replaceAll_of_none hnone]
    decide
  have hlaw := hall ⟨[0, 97], by decide⟩ ⟨ascii "a", by decide⟩ ⟨ascii "b", by decide⟩ hold
    (by rw [hresult]; decide)
  have hcopy := copyLoop?_of_builtinReplace? hold hlaw
  rw [copyLoop?_none (by decide), hresult] at hcopy
  exact absurd (Prod.mk.inj (Option.some.inj hcopy)).1 (by decide)

end

end Slp
