import Slp.Parse.Lexer

/-!
# What a scan passes over

`Skips p cs rest`: from `cs` on, bytes of the class `p` are passed over up to `rest`.  Every scan but
that of a quoted text passes over `plain` bytes alone, which open neither a comment nor a quoted text
and end no line (`scanFrom_plain`).
-/

namespace Slp.Parse

/-- Bytes of a class are passed over, up to a rest. -/
def Skips (p : UInt8 → Bool) (cs rest : Bytes) : Prop := ∃ u, cs = u ++ rest ∧ ∀ c ∈ u, p c = true

/-- Whether a byte opens a comment or a quoted text. -/
def opens (c : UInt8) : Bool := c == chr '#' || isQuote c

/-- Whether a byte opens nothing and ends no line. -/
def plain (c : UInt8) : Bool := !opens c && c != chr '\n'

theorem opens_iff {c : UInt8} :
    opens c = true ↔ c = chr '#' ∨ c = chr '"' ∨ c = chr '\'' ∨ c = chr '`' := by
  simp only [opens, isQuote, Bool.or_eq_true, beq_iff_eq, or_assoc]

theorem plain_iff {c : UInt8} : plain c = true ↔ opens c = false ∧ c ≠ chr '\n' := by
  simp only [plain, Bool.and_eq_true, Bool.not_eq_true', bne_iff_ne]

section

variable {p : UInt8 → Bool} {cs cs' rest : Bytes}

theorem Skips.refl (cs : Bytes) : Skips p cs cs := ⟨[], rfl, fun _ h => absurd h List.not_mem_nil⟩

theorem Skips.trans (h : Skips p cs cs') (h' : Skips p cs' rest) : Skips p cs rest := by
  obtain ⟨u, rfl, hu⟩ := h
  obtain ⟨v, rfl, hv⟩ := h'
  exact ⟨u ++ v, (List.append_assoc u v rest).symm, List.forall_mem_append.2 ⟨hu, hv⟩⟩

theorem Skips.cons {c : UInt8} (hc : p c = true) (h : Skips p cs rest) : Skips p (c :: cs) rest := by
  obtain ⟨u, rfl, hu⟩ := h
  exact ⟨c :: u, rfl, List.forall_mem_cons.2 ⟨hc, hu⟩⟩

theorem skips_tail (h : p (peek cs) = true) : Skips p cs cs.tail := by
  cases cs with
  | nil => exact .refl []
  | cons c cs => exact .cons h (.refl cs)

theorem skips_dropWhile {q : UInt8 → Bool} (hq : ∀ c, q c = true → p c = true) (cs : Bytes) :
    Skips p cs (cs.dropWhile q) := by
  induction cs with
  | nil => exact .refl []
  | cons c cs ih =>
    rw [List.dropWhile_cons]
    split
    · next hc => exact ih.cons (hq c hc)
    · exact .refl _

end

/-! ### Tokens that are no quoted text -/

/-- A scan that passes over plain bytes and counts no line. -/
structure Scan.Plain (cs : Bytes) (s : Scan) : Prop where
  skips : Skips plain cs s.rest
  newlines : s.newlines = 0

section

variable {cs cs' : Bytes} {c : UInt8} {s : Scan}

theorem Scan.Plain.after (h : s.Plain cs') (hskips : Skips plain cs cs') : s.Plain cs :=
  ⟨hskips.trans h.skips, h.newlines⟩

/-- A class of bytes without the five that are not plain. -/
theorem plain_of_class {q : UInt8 → Bool}
    (h : (q (chr '#') || q (chr '"') || q (chr '\'') || q (chr '`') || q (chr '\n')) = false) (c : UInt8)
    (hc : q c = true) : plain c = true := by
  simp only [Bool.or_eq_false_iff] at h
  obtain ⟨⟨⟨⟨h₁, h₂⟩, h₃⟩, h₄⟩, h₅⟩ := h
  refine plain_iff.2 ⟨Bool.eq_false_iff.2 fun hopen => ?_, ?_⟩
  · rcases opens_iff.1 hopen with rfl | rfl | rfl | rfl <;> exact Bool.eq_false_iff.1 ‹_› hc
  · rintro rfl
    exact Bool.eq_false_iff.1 h₅ hc

theorem plain_peek {d : Char} (h : peek cs = chr d) (hd : plain (chr d) = true) :
    plain (peek cs) = true := h ▸ hd

theorem skips_word (cs : Bytes) : Skips plain cs (cs.dropWhile isWord) :=
  skips_dropWhile (plain_of_class (by decide)) cs

theorem skips_digits (cs : Bytes) : Skips plain cs (cs.dropWhile isDigit) :=
  skips_dropWhile (plain_of_class (by decide)) cs

theorem scanIdentifier_plain (c : UInt8) (cs : Bytes) : (scanIdentifier c cs).Plain cs :=
  ⟨skips_dropWhile (plain_of_class (by decide)) cs, rfl⟩

theorem scanLongMark_plain (cs : Bytes) : (scanLongMark cs).Plain cs := by
  unfold scanLongMark
  split
  · next h => exact ⟨skips_tail (h.elim (plain_peek · (by decide)) (plain_peek · (by decide))), rfl⟩
  · exact ⟨.refl cs, rfl⟩

theorem scanExponent_plain (hasDot : Bool) (cs : Bytes) : (scanExponent hasDot cs).Plain cs := by
  unfold scanExponent
  dsimp only
  split
  · next h =>
    have htail : Skips plain cs cs.tail :=
      skips_tail (h.1.elim (plain_peek · (by decide)) (plain_peek · (by decide)))
    refine ⟨Skips.trans ?_ (skips_digits _), rfl⟩
    split
    · next hsign =>
      rw [Bool.or_eq_true, beq_iff_eq, beq_iff_eq] at hsign
      exact htail.trans
        (skips_tail (hsign.elim (plain_peek · (by decide)) (plain_peek · (by decide))))
    · exact htail
  · split
    · exact ⟨.refl cs, rfl⟩
    · exact scanLongMark_plain cs

theorem scanNumber_plain (c : UInt8) (cs : Bytes) : (scanNumber c cs).Plain cs := by
  unfold scanNumber
  split
  · next h =>
    have htail : Skips plain cs cs.tail :=
      skips_tail (h.2.elim (plain_peek · (by decide)) (plain_peek · (by decide)))
    exact (scanLongMark_plain _).after (htail.trans (skips_dropWhile (plain_of_class (by decide)) _))
  · dsimp only
    split
    · next h =>
      exact (scanExponent_plain true _).after
        (((skips_digits cs).trans (skips_tail (plain_peek h.1 (by decide)))).trans (skips_digits _))
    · exact (scanExponent_plain false _).after (skips_digits cs)

theorem skipClassName_skips (cs : Bytes) : Skips plain cs (skipClassName cs) := by
  induction cs with
  | nil => exact .refl []
  | cons c cs ih =>
    rw [skipClassName]
    split
    · next h =>
      rw [Bool.and_eq_true] at h
      exact ih.cons
        (plain_of_class (q := fun c => isWord c || c == chr '$' || c == chr '.') (by decide) c h.1)
    · exact .refl _

theorem matchAll_skips {expected : Bytes} (h : ∀ e ∈ expected, plain e = true) (cs : Bytes) :
    Skips plain cs (matchAll expected cs).2 := by
  fun_induction matchAll expected cs with
  | case2 es e cs ih =>
    exact (ih fun e he => h e (List.mem_cons_of_mem _ he)).cons (h e List.mem_cons_self)
  | _ => exact .refl _

theorem extend_plain {options : List (Char × TokenType)} {type : TokenType}
    (ho : ∀ o ∈ options, plain (chr o.1) = true) : (extend cs options type).Plain cs := by
  unfold extend
  split
  · next o h =>
    have hpeek := List.find?_some h
    exact ⟨skips_tail (plain_peek (of_decide_eq_true hpeek) (ho o (List.mem_of_find?_eq_some h))), rfl⟩
  · exact ⟨.refl cs, rfl⟩

theorem scanSymbol_plain {c : Char} (hc : opens (chr c) = false) (h : scanSymbol c cs = .ok s) :
    s.Plain cs := by
  have hpass : ∀ {d : Char} {cs : Bytes}, peek cs = chr d → plain (chr d) = true →
      Skips plain cs cs.tail := fun h hd => skips_tail (plain_peek h hd)
  have hsigil : ∀ {cs : Bytes}, peek cs = chr '$' ∨ peek cs = chr '@' ∨ peek cs = chr '%' →
      Skips plain cs (cs.tail.dropWhile isWord) := by
    intro cs h
    refine Skips.trans ?_ (skips_word _)
    rcases h with h | h | h <;> exact hpass h (by decide)
  unfold scanSymbol at h
  split at h
  case h_25 | h_26 | h_27 => exact absurd hc (by decide)
  case h_28 =>
    have hnull : ∀ e ∈ ascii "null", plain e = true := List.all_eq_true.1 (by decide)
    have hm := matchAll_skips hnull cs
    split at h
    · next rest he => rw [he] at hm; cases h; exact ⟨hm, rfl⟩
    · next rest he =>
      rw [he] at hm
      split at h
      · next hplus => cases h; exact ⟨hm.trans (hpass hplus (by decide)), rfl⟩
      · cases h; exact ⟨hm.trans (skips_word rest), rfl⟩
  -- the others leave what follows a name or an operator of two or three characters
  all_goals try dsimp only at h
  all_goals repeat' split at h
  all_goals cases h
  all_goals first
    | exact ⟨.refl cs, rfl⟩
    | exact ⟨skips_word cs, rfl⟩
    | exact ⟨skipClassName_skips cs, rfl⟩
    | exact extend_plain (by decide)
    | exact ⟨hsigil ‹_›, rfl⟩
    | exact ⟨hpass ‹_› (by decide), rfl⟩
    | exact ⟨(hpass ‹_› (by decide)).trans (skips_word _), rfl⟩
    | exact (extend_plain (by decide)).after (hpass ‹_› (by decide))
    | exact ⟨(hpass ‹_› (by decide)).trans (hsigil ‹_›), rfl⟩

/-- A scan of anything but a comment or a quoted text is plain. -/
theorem scanFrom_plain (hc : opens c = false) (h : scanFrom c cs = .ok s) : s.Plain cs := by
  unfold scanFrom at h
  split at h
  · cases h
    exact scanIdentifier_plain c cs
  · split at h
    · cases h
      exact scanNumber_plain c cs
    · exact scanSymbol_plain ((chr_ofNat c).symm ▸ hc) h

end

end Slp.Parse
