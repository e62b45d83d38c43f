import Mathlib.Data.List.Infix
import Mathlib.Data.Nat.Find

/-!
# Occurrences of one list in another

* `OccursAt` : a list occurs at a position of another one;
* `first?` : the first position at which it occurs.
-/

namespace Slp

namespace Occurrence

variable {α : Type*} {n h x y : List α} {i j : ℕ} {c : α}

/-- The list `n` occurs in `h` at `i`. -/
def OccursAt (n h : List α) (i : ℕ) : Prop := i ≤ h.length ∧ n <+: h.drop i

instance [DecidableEq α] (n h : List α) (i : ℕ) : Decidable (OccursAt n h i) :=
  inferInstanceAs (Decidable (_ ∧ _))

theorem occursAt_iff : OccursAt n h i ↔ ∃ x y, h = x ++ (n ++ y) ∧ x.length = i := by
  constructor
  · rintro ⟨hi, y, hy⟩
    exact ⟨h.take i, y, by rw [hy, List.take_append_drop], List.length_take_of_le hi⟩
  · rintro ⟨x, y, rfl, rfl⟩
    refine ⟨by simp, ?_⟩
    rw [List.drop_left]
    exact List.prefix_append n y

theorem occursAt_append (x n y : List α) : OccursAt n (x ++ (n ++ y)) x.length :=
  occursAt_iff.2 ⟨x, y, rfl, rfl⟩

theorem OccursAt.length_le (hi : OccursAt n h i) : i + n.length ≤ h.length := by
  obtain ⟨x, y, rfl, rfl⟩ := occursAt_iff.1 hi
  simp only [List.length_append]
  omega

theorem not_occursAt_nil (hn : n ≠ []) (i : ℕ) : ¬OccursAt n [] i := by
  intro hi
  have hle := hi.length_le
  have hpos := List.length_pos_iff.2 hn
  simp only [List.length_nil] at hle
  omega

@[simp]
theorem occursAt_zero : OccursAt n h 0 ↔ n <+: h := by simp [OccursAt]

@[simp]
theorem occursAt_cons_succ : OccursAt n (c :: h) (i + 1) ↔ OccursAt n h i := by
  simp [OccursAt]

/-- What occurs behind the first `j` items. -/
theorem occursAt_drop (hj : j ≤ h.length) : OccursAt n (h.drop j) i ↔ OccursAt n h (j + i) := by
  simp only [OccursAt, List.length_drop, List.drop_drop]
  refine and_congr_left fun _ => ?_
  omega

/-- A part in front of an occurrence occurs there, too. -/
theorem OccursAt.of_isPrefix {m : List α} (hi : OccursAt n h i) (hm : m <+: n) : OccursAt m h i :=
  ⟨hi.1, hm.trans hi.2⟩

section

variable [DecidableEq α]

/-- The first position at which `n` occurs. -/
def first? (n : List α) : List α → Option ℕ
  | [] => if n.isEmpty then some 0 else none
  | c :: h => if n.isPrefixOf (c :: h) then some 0 else (first? n h).map (· + 1)

theorem first?_cons_of_isPrefix (hn : n <+: c :: h) : first? n (c :: h) = some 0 := by
  rw [first?, if_pos (List.isPrefixOf_iff_prefix.2 hn)]

theorem first?_cons_of_not (hn : ¬n <+: c :: h) : first? n (c :: h) = (first? n h).map (· + 1) := by
  rw [first?, if_neg fun hno => hn (List.isPrefixOf_iff_prefix.1 hno)]

theorem first?_eq_some : first? n h = some i ↔ OccursAt n h i ∧ ∀ j < i, ¬OccursAt n h j := by
  induction h generalizing i with
  | nil =>
    rw [first?]
    cases n with
    | nil =>
      simp only [List.isEmpty_nil, ↓reduceIte, Option.some.injEq]
      constructor
      · rintro rfl
        exact ⟨occursAt_zero.2 List.prefix_rfl, fun j hj => absurd hj (Nat.not_lt_zero j)⟩
      · rintro ⟨⟨hi, -⟩, -⟩
        exact (Nat.le_zero.1 hi).symm
    | cons c n =>
      refine iff_of_false (by simp) fun hi => not_occursAt_nil (by simp) i hi.1
  | cons c h ih =>
    by_cases hn : n <+: c :: h
    · rw [first?_cons_of_isPrefix hn]
      constructor
      · rintro ⟨⟩
        exact ⟨occursAt_zero.2 hn, fun j hj => absurd hj (Nat.not_lt_zero j)⟩
      · rintro ⟨-, hleast⟩
        rcases Nat.eq_zero_or_pos i with rfl | hpos
        · rfl
        · exact absurd (occursAt_zero.2 hn) (hleast 0 hpos)
    · rw [first?_cons_of_not hn, Option.map_eq_some_iff]
      constructor
      · rintro ⟨k, hk, rfl⟩
        obtain ⟨hocc, hleast⟩ := ih.1 hk
        refine ⟨occursAt_cons_succ.2 hocc, fun j hj => ?_⟩
        cases j with
        | zero => exact fun hno => hn (occursAt_zero.1 hno)
        | succ j => exact fun hno => hleast j (Nat.lt_of_succ_lt_succ hj) (occursAt_cons_succ.1 hno)
      · rintro ⟨hocc, hleast⟩
        cases i with
        | zero => exact absurd (occursAt_zero.1 hocc) hn
        | succ i =>
          refine ⟨i, ih.2 ⟨occursAt_cons_succ.1 hocc, fun j hj => ?_⟩, rfl⟩
          exact fun hno => hleast (j + 1) (Nat.succ_lt_succ hj) (occursAt_cons_succ.2 hno)

theorem first?_eq_none : first? n h = none ↔ ∀ i, ¬OccursAt n h i := by
  constructor
  · intro hnone i hi
    -- there is a least occurrence
    classical
    have hex : ∃ i, OccursAt n h i := ⟨i, hi⟩
    have hsome : first? n h = some (Nat.find hex) :=
      first?_eq_some.2 ⟨Nat.find_spec hex, fun j hj => Nat.find_min hex hj⟩
    rw [hnone] at hsome
    cases hsome
  · intro hno
    rw [Option.eq_none_iff_forall_ne_some]
    intro i hi
    exact hno i (first?_eq_some.1 hi).1

theorem isSome_first? : (first? n h).isSome ↔ ∃ i, OccursAt n h i := by
  rw [← Option.ne_none_iff_isSome, ne_eq, first?_eq_none]
  push Not
  rfl

end

end Occurrence

end Slp
