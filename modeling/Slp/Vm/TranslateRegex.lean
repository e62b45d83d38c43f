import Slp.Regex.Java

/-!
# The translation of patterns

`translate_sleep_regex` writes a pattern of Java as an extended regular expression of POSIX, in one
pass that knows the previous byte, how many brackets are open, and whether a hyphen is to come at the
end of the class.

* `translateSleepRegex?`: the translation;
* `length_translateSleepRegex_le`: it fits into the buffer.
-/

namespace Slp

namespace Regex

open Parse (chr)

/-- What an escape is replaced by, in a class or not. -/
def classReplacement (inClass : Bool) (escaped : UInt8) : Option Bytes :=
  if escaped = chr 's' then some (if inClass then ascii "[:space:]" else ascii "[[:space:]]")
  else if escaped = chr 'S' then if inClass then none else some (ascii "[^[:space:]]")
  else if escaped = chr 'd' then some (if inClass then ascii "[:digit:]" else ascii "[[:digit:]]")
  else if escaped = chr 'D' then if inClass then none else some (ascii "[^[:digit:]]")
  else if escaped = chr 'w' then some (if inClass then ascii "[:alnum:]_" else ascii "[[:alnum:]_]")
  else if escaped = chr 'W' then if inClass then none else some (ascii "[^[:alnum:]_]")
  else none

/-- The punctuation that loses its backslash in a class. -/
def bareInClass : Bytes := ascii "[.:|`^\x7b\x7d"

/-- What is written for a backslash and the byte behind it.  In a class `]` was written at the
beginning, and `-` is written at the end. -/
def escapedText (inClass : Bool) (escaped : UInt8) : Bytes :=
  match classReplacement inClass escaped with
  | some replacement => replacement
  | none =>
    if inClass ∧ (escaped = chr ']' ∨ escaped = chr '-') then []
    else if inClass ∧ escaped ∈ bareInClass then [escaped]
    else [chr '\\', escaped]

/-- The loop that looks for an escaped `]` up to the end of a class. -/
def hasLiteralClosingBracket : (lookDepth : ℕ) → Bytes → Bool
  | 0, _ => false
  | _, [] => false
  | lookDepth + 1, c :: rest =>
    if c = chr '\\' then
      match rest with
      | escaped :: rest => escaped == chr ']' || hasLiteralClosingBracket (lookDepth + 1) rest
      | [] => false
    else if c = chr '[' then hasLiteralClosingBracket (lookDepth + 2) rest
    else if c = chr ']' then hasLiteralClosingBracket lookDepth rest
    else hasLiteralClosingBracket (lookDepth + 1) rest

/-- A `+` or a `?` behind one of these is taken for a suffix. -/
def isQuantifier (prev : Option UInt8) : Bool :=
  prev == some (chr '+') || prev == some (chr '*') || prev == some (chr '?')

/-- The loop of `translate_sleep_regex`: what it writes for the rest of the pattern. -/
def translateLoop : (prev : Option UInt8) → (classDepth : ℕ) → (deferredClassHyphen : Bool) →
    Bytes → Bytes
  | _, _, _, [] => []
  | prev, classDepth, deferred, c :: rest =>
    if c = chr '\\' then
      match rest with
      | escaped :: rest =>
        escapedText (0 < classDepth) escaped ++ translateLoop (some escaped) classDepth
          (deferred || 0 < classDepth && escaped == chr '-') rest
      | [] => [c]
    else if c = chr '[' then
      if classDepth = 0 then
        chr '[' :: flag (hasLiteralClosingBracket 1 rest) (chr ']') ++ translateLoop (some c) 1 false rest
      else translateLoop (some c) (classDepth + 1) deferred rest
    else if c = chr ']' ∧ 0 < classDepth then
      if classDepth = 1 then flag deferred (chr '-') ++ chr ']' :: translateLoop (some c) 0 false rest
      else translateLoop (some c) (classDepth - 1) deferred rest
    else if classDepth = 0 ∧ (c = chr '+' ∨ c = chr '?') ∧ isQuantifier prev then
      translateLoop (some c) classDepth deferred rest
    else c :: translateLoop (some c) classDepth deferred rest

/-- The loop from the beginning: the flag `(?s)` is left out. -/
def translateSleepRegex (pattern : Bytes) : Bytes :=
  if ascii "(?s)" <+: pattern then translateLoop (some (chr ')')) 0 false (pattern.drop 4)
  else translateLoop none 0 false pattern

/-- The greatest `size_t`. -/
def sizeMax : ℕ := 18446744073709551615

/-- `translate_sleep_regex`: the bytes that are written, up to the terminating NUL. -/
def translateSleepRegex? (pattern : Bytes) : Option Bytes :=
  if pattern.length > (sizeMax - 1) / 16 then none else some (translateSleepRegex pattern ++ [0])

/-! ### The size -/

section

variable {prev : Option UInt8} {classDepth : ℕ} {deferred : Bool} {c : UInt8} {pattern rest : Bytes}

theorem translateSleepRegex?_eq (hlength : pattern.length ≤ (sizeMax - 1) / 16) :
    translateSleepRegex? pattern = some (translateSleepRegex pattern ++ [0]) := if_neg (Nat.not_lt.2 hlength)

theorem length_flag_le (b : Bool) (c : UInt8) : (flag b c).length ≤ 1 := by
  cases b
  · exact Nat.zero_le 1
  · exact Nat.le_refl 1

theorem length_escapedText_le (inClass : Bool) (escaped : UInt8) : (escapedText inClass escaped).length ≤ 13 := by
  have hreplacement : ∀ replacement ∈ classReplacement inClass escaped, replacement.length ≤ 13 := by
    intro replacement hr
    unfold classReplacement at hr
    split_ifs at hr <;> cases hr <;> decide
  unfold escapedText
  split
  · rename_i replacement hr
    exact hreplacement replacement hr
  · split_ifs
    · exact Nat.zero_le _
    · exact Nat.succ_le_succ (Nat.zero_le _)
    · exact Nat.succ_le_succ (Nat.succ_le_succ (Nat.zero_le _))

/-- At most 16 bytes are written for each byte that is read. -/
theorem length_translateLoop_le (prev : Option UInt8) (classDepth : ℕ) (deferred : Bool) (pattern : Bytes) :
    (translateLoop prev classDepth deferred pattern).length ≤ 16 * pattern.length := by
  fun_induction translateLoop prev classDepth deferred pattern with
  | case1 => exact Nat.zero_le _
  | case2 prev classDepth deferred escaped rest ih =>
    have hescaped := length_escapedText_le (0 < classDepth) escaped
    rw [List.length_append, List.length_cons, List.length_cons]
    omega
  | case3 => exact Nat.succ_le_of_lt (by decide)
  | case4 prev deferred rest hne ih =>
    have hflag := length_flag_le (hasLiteralClosingBracket 1 rest) (chr ']')
    rw [List.length_append, List.length_cons, List.length_cons]
    omega
  | case6 prev deferred c rest hne hne' hclose ih =>
    have hflag := length_flag_le deferred (chr '-')
    rw [List.length_append, List.length_cons, List.length_cons]
    omega
  | case9 => simp only [List.length_cons]; omega
  | _ => rw [List.length_cons]; omega

theorem length_translateSleepRegex_le (pattern : Bytes) :
    (translateSleepRegex pattern).length ≤ 16 * pattern.length := by
  unfold translateSleepRegex
  split_ifs
  · have hle := length_translateLoop_le (some (chr ')')) 0 false (pattern.drop 4)
    rw [List.length_drop] at hle
    omega
  · exact length_translateLoop_le none 0 false pattern

/-! ### The end -/

theorem zero_not_mem_escapedText (inClass : Bool) {escaped : UInt8} (hescaped : 0 ≠ escaped) :
    0 ∉ escapedText inClass escaped := by
  have hreplacement : ∀ replacement ∈ classReplacement inClass escaped, 0 ∉ replacement := by
    intro replacement hr
    unfold classReplacement at hr
    split_ifs at hr <;> cases hr <;> decide
  unfold escapedText
  split
  · rename_i replacement hr
    exact hreplacement replacement hr
  · split_ifs
    · exact List.not_mem_nil
    · exact List.not_mem_cons_of_ne_of_not_mem hescaped List.not_mem_nil
    · exact List.not_mem_cons_of_ne_of_not_mem (by decide)
        (List.not_mem_cons_of_ne_of_not_mem hescaped List.not_mem_nil)

/-- Where there is no NUL, none is written before the end. -/
theorem zero_not_mem_translateLoop (hpattern : 0 ∉ pattern) (prev : Option UInt8) (classDepth : ℕ)
    (deferred : Bool) : 0 ∉ translateLoop prev classDepth deferred pattern := by
  have hflag : ∀ (b : Bool) {c : UInt8}, 0 ≠ c → 0 ∉ flag b c := fun b c hc => by
    cases b
    · exact List.not_mem_nil
    · exact List.not_mem_cons_of_ne_of_not_mem hc List.not_mem_nil
  fun_induction translateLoop prev classDepth deferred pattern with
  | case1 => exact hpattern
  | case2 prev classDepth deferred escaped rest ih =>
    have hrest := List.not_mem_of_not_mem_cons hpattern
    exact List.not_mem_append (zero_not_mem_escapedText _ (List.ne_of_not_mem_cons hrest))
      (ih (List.not_mem_of_not_mem_cons hrest))
  | case3 => exact hpattern
  | case4 prev deferred rest hne ih =>
    exact List.not_mem_append (List.not_mem_cons_of_ne_of_not_mem (by decide) (hflag _ (by decide)))
      (ih (List.not_mem_of_not_mem_cons hpattern))
  | case6 prev deferred c rest hne hne' hclose ih =>
    exact List.not_mem_append (hflag _ (by decide))
      (List.not_mem_cons_of_ne_of_not_mem (by decide) (ih (List.not_mem_of_not_mem_cons hpattern)))
  | case9 prev classDepth deferred c rest hslash hopen hclose hquantifier ih =>
    exact List.not_mem_cons_of_ne_of_not_mem (List.ne_of_not_mem_cons hpattern)
      (ih (List.not_mem_of_not_mem_cons hpattern))
  | _ =>
    rename_i ih
    exact ih (List.not_mem_of_not_mem_cons hpattern)

theorem zero_not_mem_translateSleepRegex (hpattern : 0 ∉ pattern) : 0 ∉ translateSleepRegex pattern := by
  unfold translateSleepRegex
  split_ifs
  · exact zero_not_mem_translateLoop (fun hmem => hpattern (List.mem_of_mem_drop hmem)) _ _ _
  · exact zero_not_mem_translateLoop hpattern _ _ _

end

end Regex

end Slp
