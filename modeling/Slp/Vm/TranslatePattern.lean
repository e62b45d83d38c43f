import Slp.Vm.TranslateClass

/-!
# The translation denotes the same strings

* `Pattern.ere`: what is written for a pattern;
* `TranslationLaw`: what is written denotes the strings that the pattern matches;
* `Pattern.Translatable`: the pattern does not use what the translation gets wrong;
* `translateLoop_text`: the loop writes the text of such a pattern, and goes on behind it;
* `Pattern.Translatable.ere`: this text denotes the language of the pattern.
-/

namespace Slp

namespace Regex

open Parse (chr)

/-- The previous byte behind a text. -/
def previous (prev : Option UInt8) (s : Bytes) : Option UInt8 := s.foldl (fun _ c => some c) prev

/-- A `+` or a `?` stays. -/
def Kept (prev : Option UInt8) : Quantifier → Prop
  | .plus | .opt => isQuantifier prev = false
  | _ => True

/-- The suffix is left out. -/
def Dropped : Quantifier → Suffix → Prop
  | .star, _ | .plus, _ | .opt, _ => True
  | _, suffix => suffix = .greedy

namespace Pattern

/-- What is written for a pattern. -/
def ere : {l : Level} → Pattern l → Bytes
  | _, char c _ => [c]
  | _, dot => [chr '.']
  | _, shorthand k => escapedText false k.letter
  | _, quoted c _ => [chr '\\', c]
  | _, cls negated first last items _ => chr '[' :: classEre negated first last items ++ [chr ']']
  | _, group r => chr '(' :: r.ere ++ [chr ')']
  | _, once a => a.ere
  | _, repeated a q _ => a.ere ++ q.text
  | _, empty => []
  | _, cat b p => b.ere ++ p.ere
  | _, branch b => b.ere
  | _, alt r b => r.ere ++ chr '|' :: b.ere

/-- Escaped punctuation is no anchor, classes fit, quantifiers stay and are within the bounds, and
suffixes go. -/
def Translatable : {l : Level} → Pattern l → Prop
  | _, quoted c _ => c ∉ anchors
  | _, cls negated first last items _ => ClassFits negated first last items
  | _, group r => r.Translatable
  | _, once a => a.Translatable
  | _, repeated a q suffix =>
    a.Translatable ∧ Kept (previous none a.text) q ∧ Dropped q suffix ∧ q.bound ≤ dupMax
  | _, cat b p => b.Translatable ∧ p.Translatable
  | _, branch b => b.Translatable
  | _, alt r b => r.Translatable ∧ b.Translatable
  | _, _ => True

end Pattern

/-- What is written denotes the strings that the pattern matches. -/
def TranslationLaw (dotall : Bool) (r : Pattern .regex) : Prop :=
  ∃ out L, translateSleepRegex? (r.source dotall) = some (out ++ [0]) ∧ Ere .regex out L ∧
    ∀ s, s ∈ L ↔ r.Accepts dotall s

/-! ### Outside of classes -/

section

variable {prev : Option UInt8} {c : UInt8} {s t rest : Bytes} {l : Level} {p : Pattern l}

@[simp] theorem previous_nil (prev : Option UInt8) : previous prev [] = prev := rfl

@[simp] theorem previous_cons (prev : Option UInt8) (c : UInt8) (s : Bytes) :
    previous prev (c :: s) = previous (some c) s := rfl

@[simp] theorem previous_append (prev : Option UInt8) (s t : Bytes) :
    previous prev (s ++ t) = previous (previous prev s) t := List.foldl_append

/-- Behind a byte it does not matter what came before. -/
theorem previous_eq (hs : s ≠ []) (prev : Option UInt8) : previous prev s = previous none s := by
  cases s with
  | nil => exact absurd rfl hs
  | cons c s => rfl

/-- The bytes that are written as they are, whatever the previous one is. -/
def isCopied (c : UInt8) : Bool := !(ascii "\\[+?").contains c

theorem translateLoop_copied (hc : isCopied c = true) (prev : Option UInt8) (rest : Bytes) :
    translateLoop prev 0 false (c :: rest) = c :: translateLoop (some c) 0 false rest := by
  have hne : ∀ d, isCopied d = false → c ≠ d := by
    rintro d hd rfl
    rw [hd] at hc
    cases hc
  have hquantifier : ¬((0 : ℕ) = 0 ∧ (c = chr '+' ∨ c = chr '?') ∧ isQuantifier prev = true) := by
    rintro ⟨-, rfl | rfl, -⟩
    · exact hne _ (by decide) rfl
    · exact hne _ (by decide) rfl
  rw [translateLoop.eq_def]
  dsimp only
  rw [if_neg (hne _ (by decide)), if_neg (hne _ (by decide)), if_neg fun hand => Nat.lt_irrefl 0 hand.2,
    if_neg hquantifier]

theorem translateLoop_copy (hs : ∀ c ∈ s, isCopied c = true) (prev : Option UInt8) (rest : Bytes) :
    translateLoop prev 0 false (s ++ rest) = s ++ translateLoop (previous prev s) 0 false rest := by
  induction s generalizing prev with
  | nil => rfl
  | cons c s ih =>
    obtain ⟨hc, hs⟩ := List.forall_mem_cons.1 hs
    rw [List.cons_append, translateLoop_copied hc, ih hs]
    rfl

/-- A `+` or a `?` behind something else is a quantifier. -/
theorem translateLoop_kept (hc : c = chr '+' ∨ c = chr '?') (hprev : isQuantifier prev = false)
    (rest : Bytes) :
    translateLoop prev 0 false (c :: rest) = c :: translateLoop (some c) 0 false rest := by
  have hnot : ¬((0 : ℕ) = 0 ∧ (c = chr '+' ∨ c = chr '?') ∧ isQuantifier prev = true) := by
    rw [hprev]
    exact fun hand => nomatch hand.2.2
  rw [translateLoop.eq_def]
  dsimp only
  rw [if_neg (by rcases hc with rfl | rfl <;> decide), if_neg (by rcases hc with rfl | rfl <;> decide),
    if_neg fun hand => Nat.lt_irrefl 0 hand.2, if_neg hnot]

/-- A `+` or a `?` behind a quantifier is left out. -/
theorem translateLoop_dropped (hc : c = chr '+' ∨ c = chr '?') (hprev : isQuantifier prev = true)
    (rest : Bytes) : translateLoop prev 0 false (c :: rest) = translateLoop (some c) 0 false rest := by
  rw [translateLoop.eq_def]
  dsimp only
  rw [if_neg (by rcases hc with rfl | rfl <;> decide), if_neg (by rcases hc with rfl | rfl <;> decide),
    if_neg fun hand => Nat.lt_irrefl 0 hand.2, if_pos ⟨rfl, hc, hprev⟩]

theorem translateLoop_escape (prev : Option UInt8) (c : UInt8) (rest : Bytes) :
    translateLoop prev 0 false (chr '\\' :: c :: rest) =
      escapedText false c ++ translateLoop (some c) 0 false rest := by
  rw [translateLoop.eq_def]
  rfl

/-- Escaped punctuation keeps its backslash. -/
theorem escapedText_punctuation (hc : isPunctuation c = true) : escapedText false c = [chr '\\', c] := by
  have hne : ∀ d, isPunctuation d = false → c ≠ d := by
    rintro d hd rfl
    rw [hd] at hc
    cases hc
  have hnone : classReplacement false c = none := by
    unfold classReplacement
    rw [if_neg (hne _ (by decide)), if_neg (hne _ (by decide)), if_neg (hne _ (by decide)),
      if_neg (hne _ (by decide)), if_neg (hne _ (by decide)), if_neg (hne _ (by decide))]
  rw [escapedText, hnone]
  rfl

theorem isCopied_literal (hc : isLiteral c = true) : isCopied c = true := by
  have hsub : ((ascii "\\[+?").all fun d => specials.contains d) = true := by decide
  rw [isLiteral, Bool.and_eq_true, Bool.not_eq_true', List.contains_eq_mem, decide_eq_false_iff_not] at hc
  rw [isCopied, Bool.not_eq_true', List.contains_eq_mem, decide_eq_false_iff_not]
  exact fun hmem => hc.1 (List.contains_iff_mem.1 (List.all_eq_true.1 hsub c hmem))

/-- The digits of a number. -/
theorem isCopied_number (n : ℕ) : ∀ c ∈ number n, isCopied c = true := by
  have hdigit : ∀ m < 58, 48 ≤ m → isCopied (UInt8.ofNat m) = true := by decide
  intro c hc
  obtain ⟨x, hx, rfl⟩ := List.mem_map.1 hc
  rw [show toString n = n.repr from rfl, Nat.toList_repr] at hx
  have hisDigit := Nat.isDigit_of_mem_toDigits (by omega) (by omega) hx
  rw [Char.isDigit, Bool.and_eq_true, decide_eq_true_iff, decide_eq_true_iff] at hisDigit
  exact hdigit x.toNat (Nat.lt_succ_of_le (UInt32.le_iff_toNat_le.1 hisDigit.2))
    (UInt32.le_iff_toNat_le.1 hisDigit.1)

/-! ### The text of a pattern -/

theorem Quantifier.isCopied_text {q : Quantifier} (hplus : q ≠ .plus) (hopt : q ≠ .opt) :
    ∀ c ∈ q.text, isCopied c = true := by
  have hopen : ∀ m, ∀ c ∈ chr '{' :: number m, isCopied c = true := fun m =>
    List.forall_mem_cons.2 ⟨rfl, isCopied_number m⟩
  have hend : ∀ c ∈ [chr '}'], isCopied c = true := List.forall_mem_singleton.2 rfl
  cases q with
  | star => exact List.forall_mem_singleton.2 rfl
  | plus => exact absurd rfl hplus
  | opt => exact absurd rfl hopt
  | count m => exact List.forall_mem_append.2 ⟨hopen m, hend⟩
  | atLeast m => exact List.forall_mem_append.2 ⟨hopen m, List.forall_mem_cons.2 ⟨rfl, hend⟩⟩
  | range m n hle =>
    have hcomma : ∀ c ∈ chr ',' :: number n, isCopied c = true :=
      List.forall_mem_cons.2 ⟨rfl, isCopied_number n⟩
    exact List.forall_mem_append.2 ⟨List.forall_mem_append.2 ⟨hopen m, hcomma⟩, hend⟩

/-- A suffix behind a quantifier of one byte. -/
theorem translateLoop_suffix (hprev : isQuantifier prev = true) (suffix : Suffix) (rest : Bytes) :
    translateLoop prev 0 false (suffix.text ++ rest) =
      translateLoop (previous prev suffix.text) 0 false rest := by
  cases suffix with
  | greedy => rfl
  | reluctant => exact translateLoop_dropped (.inr rfl) hprev rest
  | possessive => exact translateLoop_dropped (.inl rfl) hprev rest

/-- A quantifier is written, its suffix is not. -/
theorem translateLoop_quantifier {q : Quantifier} {suffix : Suffix} (hkept : Kept prev q)
    (hdropped : Dropped q suffix) (rest : Bytes) :
    translateLoop prev 0 false (q.text ++ (suffix.text ++ rest)) =
      q.text ++ translateLoop (previous prev (q.text ++ suffix.text)) 0 false rest := by
  have hgreedy : ∀ {q : Quantifier}, q ≠ .plus → q ≠ .opt → suffix = .greedy →
      translateLoop prev 0 false (q.text ++ (suffix.text ++ rest)) =
        q.text ++ translateLoop (previous prev (q.text ++ suffix.text)) 0 false rest := by
    rintro q hplus hopt rfl
    rw [translateLoop_copy (Quantifier.isCopied_text hplus hopt), previous_append]
    rfl
  cases q with
  | star =>
    rw [Quantifier.text, List.singleton_append, translateLoop_copied (by decide),
      translateLoop_suffix (by decide)]
    rfl
  | plus =>
    rw [Quantifier.text, List.singleton_append, translateLoop_kept (.inl rfl) hkept,
      translateLoop_suffix (by decide)]
    rfl
  | opt =>
    rw [Quantifier.text, List.singleton_append, translateLoop_kept (.inr rfl) hkept,
      translateLoop_suffix (by decide)]
    rfl
  | count m => exact hgreedy nofun nofun hdropped
  | atLeast m => exact hgreedy nofun nofun hdropped
  | range m n hle => exact hgreedy nofun nofun hdropped

theorem Pattern.text_ne_nil (a : Pattern .atom) : a.text ≠ [] := by
  cases a <;> exact List.cons_ne_nil _ _

/-- The loop writes the text of a pattern, and goes on behind it. -/
theorem translateLoop_text (hp : p.Translatable) (prev : Option UInt8) (rest : Bytes) :
    translateLoop prev 0 false (p.text ++ rest) =
      p.ere ++ translateLoop (previous prev p.text) 0 false rest := by
  induction p generalizing prev rest with
  | char c hc => exact translateLoop_copied (isCopied_literal hc) prev rest
  | dot => exact translateLoop_copied (by decide) prev rest
  | shorthand k => exact translateLoop_escape prev k.letter rest
  | quoted c hc =>
    rw [Pattern.text, List.cons_append, List.singleton_append, translateLoop_escape,
      escapedText_punctuation hc]
    rfl
  | cls negated first last items hlegal =>
    rw [Pattern.text, translateLoop_cls hp.translatable, previous_append]
    rfl
  | group r ih =>
    rw [Pattern.text, List.append_assoc, List.cons_append, translateLoop_copied (by decide), ih hp,
      List.singleton_append, translateLoop_copied (by decide), previous_append, Pattern.ere]
    simp only [List.append_assoc, List.cons_append, List.nil_append]
    rfl
  | once a ih => exact ih hp prev rest
  | repeated a q suffix ih =>
    obtain ⟨ha, hkept, hdropped, -⟩ := hp
    rw [← previous_eq a.text_ne_nil prev] at hkept
    rw [Pattern.text, List.append_assoc, List.append_assoc, ih ha, translateLoop_quantifier hkept hdropped,
      Pattern.ere, List.append_assoc, List.append_assoc, previous_append prev a.text]
  | empty => rfl
  | cat b p ihb ihp =>
    rw [Pattern.text, List.append_assoc, ihb hp.1, ihp hp.2, Pattern.ere, List.append_assoc, previous_append]
  | branch b ih => exact ih hp prev rest
  | alt r b ihr ihb =>
    rw [Pattern.text, List.append_assoc, ihr hp.1, List.cons_append, translateLoop_copied (by decide),
      ihb hp.2, Pattern.ere, List.append_assoc, List.cons_append, previous_append, previous_cons]

/-! ### The beginning -/

/-- What holds of every text that starts with an atom or a bar holds in front of a rest of which it
holds. -/
theorem Pattern.text_append_induction {P : Bytes → Prop} (hatom : ∀ (a : Pattern .atom) t, P (a.text ++ t))
    (hbar : ∀ t, P (chr '|' :: t)) (p : Pattern l) (ht : P t) : P (p.text ++ t) := by
  induction p generalizing t with
  | once a ih => exact ih ht
  | repeated a q suffix ih =>
    rw [text, List.append_assoc, List.append_assoc]
    exact hatom a _
  | empty => exact ht
  | cat b p ihb ihp =>
    rw [text, List.append_assoc]
    exact ihb (ihp ht)
  | branch b ih => exact ih ht
  | alt r b ihr ihb =>
    rw [text, List.append_assoc]
    exact ihr (hbar _)
  | char c hc => exact hatom (.char c hc) t
  | dot => exact hatom .dot t
  | shorthand k => exact hatom (.shorthand k) t
  | quoted c hc => exact hatom (.quoted c hc) t
  | cls negated first last items hlegal => exact hatom (.cls negated first last items hlegal) t
  | group r => exact hatom (.group r) t

/-- No pattern starts with a question mark. -/
theorem Pattern.head_ne_question (p : Pattern l) (ht : t.head? ≠ some (chr '?')) :
    (p.text ++ t).head? ≠ some (chr '?') := by
  have hne : ∀ {c}, c ≠ chr '?' → some c ≠ some (chr '?') := fun hc heq => hc (Option.some.inj heq)
  have hatom : ∀ (a : Pattern .atom) (t : Bytes), (a.text ++ t).head? ≠ some (chr '?') := fun a t => by
    cases a with
    | char c hc => exact hne (by rintro rfl; revert hc; decide)
    | _ => exact hne (show _ ≠ chr '?' by decide)
  have hbar : ∀ t : Bytes, (chr '|' :: t).head? ≠ some (chr '?') := fun t => hne (by decide)
  exact @text_append_induction _ _ (fun s => s.head? ≠ some (chr '?')) hatom hbar p ht

/-- No pattern starts with a flag. -/
theorem Pattern.not_flag (r : Pattern .regex) : ¬ascii "(?s)" <+: r.text := by
  have hcons : ∀ {c t}, c ≠ chr '(' → ¬ascii "(?s)" <+: c :: t := fun hc hprefix =>
    hc (List.cons_prefix_cons.1 hprefix).1.symm
  have hatom : ∀ (a : Pattern .atom) (t : Bytes), ¬ascii "(?s)" <+: a.text ++ t := fun a t => by
    cases a with
    | char c hc => exact hcons (by rintro rfl; revert hc; decide)
    | group r =>
      -- the first byte in parentheses is no question mark
      rw [text, List.append_assoc, show ascii "(?s)" = chr '(' :: [chr '?', chr 's', chr ')'] by decide]
      intro hprefix
      obtain ⟨u, hu⟩ := (List.cons_prefix_cons.1 hprefix).2
      have hhead : ([chr ')'] ++ t).head? ≠ some (chr '?') := fun heq =>
        absurd (Option.some.inj heq) (by decide)
      exact r.head_ne_question hhead (congrArg List.head? hu).symm
    | _ => exact hcons (show _ ≠ chr '(' by decide)
  have hbar : ∀ t : Bytes, ¬ascii "(?s)" <+: chr '|' :: t := fun t => hcons (by decide)
  rw [← List.append_nil r.text]
  exact @text_append_induction _ _ (fun s => ¬ascii "(?s)" <+: s) hatom hbar r (by decide)

/-- What is written for a pattern in either mode. -/
theorem translateSleepRegex_source {r : Pattern .regex} (hr : r.Translatable) (dotall : Bool) :
    translateSleepRegex (r.source dotall) = r.ere := by
  have hloop : ∀ prev, translateLoop prev 0 false r.text = r.ere := fun prev => by
    have htext := translateLoop_text hr prev []
    rwa [List.append_nil, translateLoop, List.append_nil] at htext
  cases dotall with
  | false =>
    rw [Pattern.source, if_neg (by decide), translateSleepRegex, if_neg r.not_flag, hloop]
  | true =>
    rw [Pattern.source, if_pos rfl, translateSleepRegex, if_pos (List.prefix_append _ _)]
    exact hloop _

/-! ### What is written denotes the language -/

/-- The level of the grammar of what is written. -/
def Level.ere : Level → EreLevel
  | .atom | .piece => .atom
  | .branch => .branch
  | .regex => .regex

/-- A shorthand is written as a class of its own. -/
theorem ere_shorthand (k : Shorthand) : Ere .atom (escapedText false k.letter) (letters {c | k.has c = true}) := by
  have hclass : ∀ (negated : Bool) (j : Shorthand), (j = .space ∨ j = .digit ∨ j = .word) →
      Ere .atom (chr '[' :: classEre negated false false (.shorthand j) ++ [chr ']'])
        (letters {c | Pattern.classHas negated false false (.shorthand j) c = true}) := by
    intro negated j hj
    refine .bracket (ClassFits.bracket_classEre ⟨hj, ?_, nofun, nofun, fun _ _ _ => ?_⟩)
    · rcases hj with rfl | rfl | rfl
      · exact ⟨nofun, trivial⟩
      · exact ⟨nofun, trivial⟩
      · exact ⟨nofun, (fun hends => absurd hends (show chr '_' ≠ chr '[' by decide)), trivial⟩
    · rcases hj with rfl | rfl | rfl <;> decide
  have hhas : ∀ (negated : Bool) (j : Shorthand), (∀ c, k.has c = (negated != j.has c)) →
      {c | k.has c = true} = {c | Pattern.classHas negated false false (.shorthand j) c = true} :=
    fun negated j heq => Set.ext fun c => by
      rw [Set.mem_ofPred_eq, Set.mem_ofPred_eq, heq, Pattern.classHas, Bool.or_false, Bool.false_and,
        Bool.or_false]
      rfl
  cases k with
  | space =>
    rw [hhas false .space fun c => (Bool.false_bne _).symm]
    exact hclass false .space (.inl rfl)
  | notSpace =>
    rw [hhas true .space fun c => (Bool.true_bne _).symm]
    exact hclass true .space (.inl rfl)
  | digit =>
    rw [hhas false .digit fun c => (Bool.false_bne _).symm]
    exact hclass false .digit (.inr (.inl rfl))
  | notDigit =>
    rw [hhas true .digit fun c => (Bool.true_bne _).symm]
    exact hclass true .digit (.inr (.inl rfl))
  | word =>
    rw [hhas false .word fun c => (Bool.false_bne _).symm]
    exact hclass false .word (.inr (.inr rfl))
  | notWord =>
    rw [hhas true .word fun c => (Bool.true_bne _).symm]
    exact hclass true .word (.inr (.inr rfl))

/-- What is written for a pattern denotes its language. -/
theorem Pattern.Translatable.ere (hp : p.Translatable) : Ere l.ere p.ere p.language := by
  induction p with
  | char c hc =>
    refine .char c fun hmem => ?_
    rw [isLiteral, List.contains_eq_mem, decide_eq_true hmem] at hc
    cases hc
  | dot => exact .any
  | shorthand k => exact ere_shorthand k
  | quoted c hc => exact .quoted c hc hp
  | cls negated first last items hlegal => exact .bracket (ClassFits.bracket_classEre hp)
  | group r ih => exact .group (ih hp)
  | once a ih => exact ih hp
  | repeated a q suffix ih => exact .dup (ih hp.1) q hp.2.2.2
  | empty => exact .empty
  | cat b p ihb ihp => exact .cat (ihb hp.1) (ihp hp.2)
  | branch b ih => exact .branch (ih hp)
  | alt r b ihr ihb => exact .alt (ihr hp.1) (ihb hp.2)

/-! ### The law -/

/-- What is written fits, and it denotes the strings that the pattern matches if nothing is used that
the translation gets wrong, and nothing depends on what possessive quantifiers do not give back and
dots do not match. -/
theorem translateSleepRegex_law (pattern : Bytes) (dotall : Bool) (r : Pattern .regex) :
    (∀ written ∈ translateSleepRegex? pattern, written.length ≤ 16 * pattern.length + 1 ∧
      ∃ out, written = out ++ [0] ∧ (0 ∉ pattern → 0 ∉ out)) ∧
    ((r.source dotall).length ≤ (sizeMax - 1) / 16 → r.Translatable → r.Indifferent dotall →
      TranslationLaw dotall r) := by
  constructor
  · intro written hwritten
    rw [translateSleepRegex?] at hwritten
    split_ifs at hwritten
    · cases hwritten
    · obtain rfl := Option.some.inj hwritten
      refine ⟨?_, _, rfl, zero_not_mem_translateSleepRegex⟩
      rw [List.length_append, List.length_singleton]
      exact Nat.add_le_add_right (length_translateSleepRegex_le pattern) 1
  · intro hlength hr hindifferent
    refine ⟨r.ere, r.language, ?_, hr.ere, fun s => ?_⟩
    · rw [translateSleepRegex?_eq hlength, translateSleepRegex_source hr]
    · exact (r.giveBack_accepts s).symm.trans (hindifferent s).symm

/-- A short pattern is translated. -/
theorem le_sizeMax {n : ℕ} (hn : n ≤ 16) : n ≤ (sizeMax - 1) / 16 := by
  unfold sizeMax
  omega

theorem translateSleepRegex_law_digits :
    let r : Pattern .regex :=
      .branch (.cat .empty (.repeated (.cls true false false (.shorthand .digit) rfl) .plus .reluctant))
    0 ∉ translateSleepRegex (r.source false) ∧ TranslationLaw false r := by
  intro r
  obtain ⟨hsize, hlaw⟩ := translateSleepRegex_law (r.source false) false r
  obtain ⟨-, out, heq, hzero⟩ := hsize _ (translateSleepRegex?_eq (le_sizeMax (by decide)))
  refine ⟨?_, hlaw (le_sizeMax (by decide)) ?_ ?_⟩
  · rw [List.append_cancel_right heq]
    exact hzero (by decide)
  · exact ⟨trivial, ⟨.inr (.inl rfl), ⟨nofun, trivial⟩, nofun, nofun, nofun⟩, rfl, trivial, by decide⟩
  · exact Pattern.Regular.indifferent ⟨trivial, trivial, nofun⟩

theorem Quantifier.text_ne_nil (q : Quantifier) : q.text ≠ [] := by
  cases q <;> exact List.cons_ne_nil _ _

/-- A backslash alone is no atom. -/
theorem Ere.ne_backslash {e : EreLevel} {x : Bytes} {L : Language UInt8} (hx : Ere e x L)
    (he : e = .atom) : x ≠ [chr '\\'] := by
  cases hx with
  | char c hc =>
    intro heq
    rw [(List.cons.inj heq).1] at hc
    exact hc (by decide)
  | quoted c => exact fun heq => nomatch (List.cons.inj heq).2
  | any => decide
  | bracket => exact fun heq => absurd (List.cons.inj heq).1 (by decide)
  | group => exact fun heq => absurd (List.cons.inj heq).1 (by decide)
  | dup hx q =>
    obtain ⟨c, t, rfl, -⟩ := hx.exists_cons rfl
    exact fun heq => q.text_ne_nil (List.append_eq_nil_iff.1 (List.cons.inj heq).2).2
  | _ => cases he

/-- As an atom, an escaped plus denotes a plus. -/
theorem Ere.eq_plus {e : EreLevel} {x : Bytes} {L : Language UInt8} (hx : Ere e x L) (he : e = .atom)
    (heq : x = [chr '\\', chr '+']) : L = letters {chr '+'} := by
  cases hx with
  | char c => exact absurd (List.cons.inj heq).2 (List.cons_ne_nil _ _).symm
  | quoted c =>
    rw [(List.cons.inj (List.cons.inj heq).2).1]
  | any => exact absurd heq (by decide)
  | bracket => exact absurd (List.cons.inj heq).1 (by decide)
  | group => exact absurd (List.cons.inj heq).1 (by decide)
  | dup hx q =>
    -- the quantifier would be the plus, behind a backslash
    obtain ⟨c, t, rfl, -⟩ := hx.exists_cons rfl
    obtain ⟨rfl, hrest⟩ := List.cons.inj heq
    cases t with
    | nil => exact absurd rfl (hx.ne_backslash rfl)
    | cons d t => exact absurd (List.append_eq_nil_iff.1 (List.cons.inj hrest).2).2 q.text_ne_nil
  | _ => cases he

/-- As an expression, too. -/
theorem Ere.eq_plus_of_regex {L : Language UInt8} (hx : Ere .regex [chr '\\', chr '+'] L) :
    L = letters {chr '+'} := by
  have hempty : ∀ {x K}, Ere .branch x K → x = [] → K = 1 := by
    intro x K hx heq
    cases hx with
    | empty => rfl
    | cat hx hy =>
      obtain ⟨d, t, rfl, -⟩ := hy.exists_cons rfl
      exact absurd (List.append_eq_nil_iff.1 heq).2 (List.cons_ne_nil d t)
  have hbranch : ∀ {x K}, Ere .branch x K → x = [chr '\\', chr '+'] → K = letters {chr '+'} := by
    intro x K hx heq
    cases hx with
    | empty => cases heq
    | @cat x y L K hx hy =>
      obtain ⟨d, t, rfl, hd⟩ := hy.exists_cons rfl
      match x, heq with
      | [], heq => rw [hempty hx rfl, hy.eq_plus rfl heq, one_mul]
      | [c], heq =>
        rw [(List.cons.inj (List.cons.inj heq).2).1] at hd
        exact absurd (show chr '+' ∈ followers by decide) hd
      | c :: c' :: x, heq =>
        exact absurd (List.append_eq_nil_iff.1 (List.cons.inj (List.cons.inj heq).2).2).2 (List.cons_ne_nil d t)
  generalize heq : [chr '\\', chr '+'] = x at hx
  cases hx with
  | branch hx => exact hbranch hx heq.symm
  | alt hx hy =>
    have hbar : chr '|' ∈ [chr '\\', chr '+'] := heq ▸ List.mem_append_right _ List.mem_cons_self
    exact absurd hbar (by decide)

/-- In `\++` the quantifier is left out, and `++` is not matched any more. -/
theorem not_translationLaw :
    ¬TranslationLaw false (.branch (.cat .empty (.repeated (.quoted (chr '+') rfl) .plus .greedy))) := by
  rintro ⟨out, L, hout, hL, hlaw⟩
  rw [translateSleepRegex?_eq (le_sizeMax (by decide))] at hout
  obtain rfl := List.append_cancel_right (Option.some.inj hout)
  rw [Ere.eq_plus_of_regex hL] at hlaw
  have haccepts := (hlaw (ascii "++")).2 (by unfold Pattern.Accepts; decide)
  obtain ⟨c, -, heq⟩ := haccepts
  cases heq

end

end Regex

end Slp
