import Mathlib.Computability.Language
import Slp.Text.CString

/-!
# Wildcards

`matchWildcard` is the matcher behind the predicate `iswm`.  After a run of stars it tries the rest
of the pattern on every suffix of the subject but the empty one, which the rest never matches
because it starts with no star (`nil_notMem_language`).

* `language` : the language of a pattern, the product of those of its bytes;
* `iswm_iff` : **a subject matches if and only if it is in the language of the pattern.**
-/

namespace Slp

namespace Wildcard

/-- The byte `*`. -/
def star : UInt8 := 42

/-- The byte `?`. -/
def question : UInt8 := 63

/-- What a byte of a pattern stands for: any run of bytes, any byte, or itself. -/
def item (c : UInt8) : Language UInt8 := {s | c = star ∨ ∃ d, s = [d] ∧ (c = question ∨ c = d)}

/-- The language of a pattern. -/
def language (pattern : Bytes) : Language UInt8 := (pattern.map item).prod

/-! ### The matcher -/

/-- The loop over the suffixes of the subject that are not empty. -/
def anySuffix (test : Bytes → Bool) : Bytes → Bool
  | [] => false
  | c :: str => test (c :: str) || anySuffix test str

theorem length_dropWhile_lt (c : UInt8) (pattern : Bytes) :
    (pattern.dropWhile (· = star)).length < (c :: pattern).length :=
  Nat.lt_succ_of_le (List.dropWhile_suffix _).length_le

/-- `match_wildcard`, on the bytes of the pattern and of the subject that are left. -/
def matchWildcard (pattern str : Bytes) : Bool :=
  match pattern with
  | [] => str.isEmpty
  | c :: pattern =>
    if c = star then
      let rest := pattern.dropWhile (· = star)
      if rest.isEmpty then true else anySuffix (fun str => matchWildcard rest str) str
    else
      match str with
      | [] => false
      | d :: str =>
        if c = question then matchWildcard pattern str
        else if c ≠ d then false
        else matchWildcard pattern str
termination_by pattern.length
decreasing_by
  · exact length_dropWhile_lt c pattern
  · exact Nat.lt_succ_self _
  · exact Nat.lt_succ_self _

/-- The predicate `iswm` on strings. -/
def iswm (subject pattern : Bytes) : Bool :=
  matchWildcard (CString.ofBytes pattern).bytes (CString.ofBytes subject).bytes

/-! ### Languages -/

variable {c d : UInt8} {pattern str : Bytes}

theorem language_cons (c : UInt8) (pattern : Bytes) :
    language (c :: pattern) = item c * language pattern := List.prod_cons

theorem mem_language_nil : str ∈ language [] ↔ str = [] := Language.mem_one str

/-- A run of bytes in front does not matter behind a star. -/
theorem mem_language_star :
    str ∈ language (star :: pattern) ↔ ∃ s ∈ language pattern, s <:+ str := by
  rw [language_cons, Language.mem_mul]
  constructor
  · rintro ⟨run, -, s, hs, rfl⟩
    exact ⟨s, hs, List.suffix_append run s⟩
  · rintro ⟨s, hs, run, rfl⟩
    exact ⟨run, .inl rfl, s, hs, rfl⟩

theorem mem_item (x : Bytes) : x ∈ item c ↔ c = star ∨ ∃ d, x = [d] ∧ (c = question ∨ c = d) :=
  Iff.rfl

theorem mem_language_cons (hc : c ≠ star) :
    str ∈ language (c :: pattern) ↔
      ∃ d s, str = d :: s ∧ (c = question ∨ c = d) ∧ s ∈ language pattern := by
  rw [language_cons, Language.mem_mul]
  constructor
  · rintro ⟨x, hx, s, hs, rfl⟩
    obtain ⟨d, rfl, hd⟩ := ((mem_item x).1 hx).resolve_left hc
    exact ⟨d, s, rfl, hd, hs⟩
  · rintro ⟨d, s, rfl, hd, hs⟩
    exact ⟨[d], (mem_item [d]).2 (.inr ⟨d, rfl, hd⟩), s, hs, rfl⟩

/-- A run of stars is as good as one. -/
theorem mem_language_stars :
    str ∈ language (star :: pattern) ↔
      ∃ s ∈ language (pattern.dropWhile (· = star)), s <:+ str := by
  induction pattern with
  | nil => exact mem_language_star
  | cons c pattern ih =>
    by_cases hc : c = star
    · rw [hc, List.dropWhile_cons_of_pos (by simp), ← ih, mem_language_star, mem_language_star]
      constructor
      · rintro ⟨s, hs, hsuffix⟩
        obtain ⟨s', hs', hsuffix'⟩ := mem_language_star.1 hs
        exact ⟨s', hs', hsuffix'.trans hsuffix⟩
      · rintro ⟨s, hs, hsuffix⟩
        exact ⟨s, mem_language_star.2 ⟨s, hs, List.suffix_rfl⟩, hsuffix⟩
    · rw [List.dropWhile_cons_of_neg (by simpa using hc)]
      exact mem_language_star

/-- The empty string does not match what does not start with a star. -/
theorem nil_notMem_language (hc : c ≠ star) : [] ∉ language (c :: pattern) := by
  rw [mem_language_cons hc]
  rintro ⟨d, s, hnil, -⟩
  cases hnil

theorem anySuffix_iff (test : Bytes → Bool) (str : Bytes) :
    anySuffix test str = true ↔ ∃ s, s <:+ str ∧ s ≠ [] ∧ test s = true := by
  induction str with
  | nil =>
    rw [anySuffix]
    refine iff_of_false Bool.false_ne_true ?_
    rintro ⟨s, hs, hne, -⟩
    exact hne (List.suffix_nil.1 hs)
  | cons c str ih =>
    rw [anySuffix, Bool.or_eq_true, ih]
    constructor
    · rintro (htest | ⟨s, hs, hne, htest⟩)
      · exact ⟨c :: str, List.suffix_rfl, List.cons_ne_nil c str, htest⟩
      · exact ⟨s, hs.trans (List.suffix_cons c str), hne, htest⟩
    · rintro ⟨s, hs, hne, htest⟩
      rcases List.suffix_cons_iff.1 hs with rfl | hs
      · exact .inl htest
      · exact .inr ⟨s, hs, hne, htest⟩

/-- What is left of a pattern after a run of stars does not start with one. -/
theorem head_dropWhile_star {rest : Bytes} (h : pattern.dropWhile (· = star) = c :: rest) :
    c ≠ star := by
  have hhead := List.head?_dropWhile_not (· = star) pattern
  rw [h] at hhead
  simpa using hhead

theorem matchWildcard_iff (pattern str : Bytes) :
    matchWildcard pattern str = true ↔ str ∈ language pattern := by
  fun_induction matchWildcard pattern str with
  | case1 str => rw [mem_language_nil, List.isEmpty_iff]
  | case2 str pattern rest hrest =>
    -- nothing is left behind the stars
    refine iff_of_true rfl (mem_language_stars.2 ⟨[], ?_, List.nil_suffix⟩)
    rw [show pattern.dropWhile (· = star) = [] from List.isEmpty_iff.1 hrest]
    exact mem_language_nil.2 rfl
  | case3 str pattern rest hrest ih =>
    rw [anySuffix_iff, mem_language_stars]
    constructor
    · rintro ⟨s, hs, -, hmatch⟩
      exact ⟨s, (ih s).1 hmatch, hs⟩
    · rintro ⟨s, hs, hsuffix⟩
      refine ⟨s, hsuffix, ?_, (ih s).2 hs⟩
      -- the loop leaves out the empty suffix, which the rest does not match
      rintro rfl
      obtain ⟨c, tail, hcons⟩ := List.exists_cons_of_ne_nil
        (show pattern.dropWhile (· = star) ≠ [] from fun hnil => hrest (List.isEmpty_iff.2 hnil))
      rw [hcons] at hs
      exact nil_notMem_language (head_dropWhile_star hcons) hs
  | case4 c pattern hc => exact iff_of_false Bool.false_ne_true (nil_notMem_language hc)
  | case5 pattern d str hc ih =>
    rw [ih, mem_language_cons hc]
    constructor
    · exact fun hs => ⟨d, str, rfl, .inl rfl, hs⟩
    · rintro ⟨d', s, heq, -, hs⟩
      cases heq
      exact hs
  | case6 c pattern hc d str hquestion hd =>
    refine iff_of_false Bool.false_ne_true ?_
    rw [mem_language_cons hc]
    rintro ⟨d', s, heq, hd', -⟩
    cases heq
    exact hd (hd'.resolve_left hquestion)
  | case7 c pattern hc d str hquestion hd ih =>
    rw [ih, mem_language_cons hc]
    constructor
    · exact fun hs => ⟨d, str, rfl, .inr (not_not.1 hd), hs⟩
    · rintro ⟨d', s, heq, -, hs⟩
      cases heq
      exact hs

/-- **A subject matches a pattern if and only if it is in its language.** -/
theorem iswm_iff (subject pattern : CString) :
    iswm subject.bytes pattern.bytes = true ↔ subject.bytes ∈ language pattern.bytes := by
  rw [iswm, CString.ofBytes_bytes, CString.ofBytes_bytes]
  exact matchWildcard_iff pattern.bytes subject.bytes

end Wildcard

end Slp
