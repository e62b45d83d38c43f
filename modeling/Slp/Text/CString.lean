import Mathlib.Data.List.TakeWhile
import Mathlib.Order.Compare
import Slp.Object.Basic
import Slp.Text.Occurrence

/-!
# C strings

The routines of C that take a text see its bytes before the first NUL.

* `strcmp`, `strstr` : the routines on the buffers of two byte strings;
* `compare_cstring` : what C sees of two byte strings is ordered as they are, unless it is the same.
-/

namespace Slp

/-- The part of a C string that counts. -/
def cstring (s : Bytes) : Bytes := s.takeWhile fun c => c ≠ 0

/-- A text as C has it: there is no NUL in it. -/
structure CString where
  bytes : Bytes
  noNul : 0 ∉ bytes

section

variable {s t n h x y : Bytes} {i : ℕ}

theorem zero_notMem_cstring (s : Bytes) : 0 ∉ cstring s := by
  intro hzero
  simpa using List.mem_takeWhile_imp hzero

theorem cstring_of_notMem (hs : 0 ∉ s) : cstring s = s :=
  List.takeWhile_eq_self_iff.2 fun c hc => by
    simpa using fun hzero : c = 0 => hs (hzero ▸ hc)

theorem cstring_append (hx : 0 ∉ x) (y : Bytes) : cstring (x ++ y) = x ++ cstring y :=
  List.takeWhile_append_of_pos fun c hc => by
    simpa using fun hzero : c = 0 => hx (hzero ▸ hc)

theorem cstring_isPrefix (s : Bytes) : cstring s <+: s := List.takeWhile_prefix _

/-- What C sees of a byte string. -/
def CString.ofBytes (s : Bytes) : CString := ⟨cstring s, zero_notMem_cstring s⟩

theorem CString.ofBytes_bytes (s : CString) : (CString.ofBytes s.bytes).bytes = s.bytes :=
  cstring_of_notMem s.noNul

/-! ### Comparing -/

/-- `strcmp` on C strings, which end at the first zero. -/
def strcmp : Bytes → Bytes → Ordering
  | [], [] => .eq
  | [], d :: _ => if d = 0 then .eq else .lt
  | c :: _, [] => if c = 0 then .eq else .gt
  | c :: cs, d :: ds => if c ≠ d then compare c d else if c = 0 then .eq else strcmp cs ds

theorem zero_compare {d : UInt8} (hd : d ≠ 0) : compare 0 d = .lt := by
  have hpos : (0 : UInt8) < d := by
    rw [UInt8.lt_iff_toNat_lt]
    exact Nat.pos_of_ne_zero fun hzero => hd (UInt8.toNat_inj.1 hzero)
  show compareOfLessAndEq 0 d = .lt
  rw [compareOfLessAndEq, if_pos hpos]

theorem compare_zero {c : UInt8} (hc : c ≠ 0) : compare c 0 = .gt := by
  have hswap : compare c 0 = (compare 0 c).swap := Std.OrientedCmp.eq_swap
  rw [hswap, zero_compare hc]
  rfl

theorem strcmp_eq (s t : Bytes) : strcmp s t = List.compareLex compare (cstring s) (cstring t) := by
  induction s generalizing t with
  | nil => cases t with
    | nil => rfl
    | cons d ds =>
      by_cases hd : d = 0
      · simp [strcmp, cstring, hd, List.compareLex_nil_nil]
      · simp [strcmp, cstring, hd, List.compareLex_nil_cons]
  | cons c cs ih => cases t with
    | nil =>
      by_cases hc : c = 0
      · simp [strcmp, cstring, hc, List.compareLex_nil_nil]
      · simp [strcmp, cstring, hc, List.compareLex_cons_nil]
    | cons d ds =>
      rw [strcmp, ih]
      by_cases hcd : c = d
      · subst hcd
        by_cases hc : c = 0
        · simp [cstring, hc, List.compareLex_nil_nil]
        · simp [cstring, hc, List.compareLex_cons_cons]
      · -- of two characters that differ at most one is the end
        rw [if_pos hcd]
        by_cases hc : c = 0
        · subst hc
          have hd : d ≠ 0 := fun hd => hcd hd.symm
          simp [cstring, hd, zero_compare hd, List.compareLex_nil_cons]
        · by_cases hd : d = 0
          · subst hd
            simp [cstring, hc, compare_zero hc, List.compareLex_cons_nil]
          · have hne : compare c d ≠ .eq := fun heq => hcd (Std.LawfulEqOrd.eq_of_compare heq)
            simp only [cstring, List.takeWhile_cons, ne_eq, hc, hd, not_false_eq_true, decide_true,
              if_true, List.compareLex_cons_cons]
            cases hcmp : compare c d with
            | eq => exact absurd hcmp hne
            | lt => rfl
            | gt => rfl

/-- What C sees of two byte strings is ordered as they are, unless it is the same. -/
theorem compare_cstring (hne : cstring s ≠ cstring t) :
    compare (cstring s) (cstring t) = compare s t := by
  induction s generalizing t with
  | nil =>
    cases t with
    | nil => exact absurd rfl hne
    | cons d t =>
      by_cases hd : d = 0
      · simp [cstring, hd] at hne
      · simp [cstring, hd]
  | cons c s ih =>
    cases t with
    | nil =>
      by_cases hc : c = 0
      · simp [cstring, hc] at hne
      · simp [cstring, hc]
    | cons d t =>
      rw [List.compare_cons_cons]
      by_cases hc : c = 0
      · by_cases hd : d = 0
        · simp [cstring, hc, hd] at hne
        · -- the first one ends here, and NUL is the least byte
          rw [hc, zero_compare hd]
          simp [cstring, hd]
      · by_cases hd : d = 0
        · rw [hd, compare_zero hc]
          simp [cstring, hc]
        · have hcons : ∀ {c : UInt8} {s : Bytes}, c ≠ 0 → cstring (c :: s) = c :: cstring s :=
            fun hc => List.takeWhile_cons_of_pos (by simpa using hc)
          rw [hcons hc, hcons hd] at hne ⊢
          rw [List.compare_cons_cons]
          cases hcd : compare c d with
          | lt => rfl
          | gt => rfl
          | eq =>
            obtain rfl := Std.LawfulEqOrd.compare_eq_iff_eq.1 hcd
            exact ih fun heq => hne (by rw [heq])

/-! ### Searching -/

open Occurrence

/-- `strstr`, as the distance to the match. -/
def strstr (h n : Bytes) : Option ℕ := first? (cstring n) (cstring h)

/-- C sees the occurrences before the first NUL. -/
theorem occursAt_cstring (hn : 0 ∉ n) : OccursAt n (cstring h) i ↔ OccursAt n h i ∧ 0 ∉ h.take i := by
  constructor
  · intro hi
    obtain ⟨x, y, hxy, rfl⟩ := occursAt_iff.1 hi
    obtain ⟨z, hz⟩ := cstring_isPrefix h
    have hx : 0 ∉ x := fun hzero => zero_notMem_cstring h (hxy ▸ List.mem_append_left _ hzero)
    rw [hxy, List.append_assoc, List.append_assoc] at hz
    rw [← hz, List.take_left]
    exact ⟨occursAt_append x n (y ++ z), hx⟩
  · rintro ⟨hi, hzero⟩
    obtain ⟨x, y, rfl, rfl⟩ := occursAt_iff.1 hi
    rw [List.take_left] at hzero
    rw [cstring_append hzero, cstring_append hn]
    exact occursAt_append x n (cstring y)

end

end Slp
