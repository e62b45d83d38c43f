import Slp.Text.Occurrence

/-!
# The leftmost occurrences that do not overlap

* `leftmost` : where they are;
* `replaceAll` : each of them replaced by another list.
-/

namespace Slp

namespace Occurrence

variable {α : Type*} [DecidableEq α] {n r h : List α} {i : ℕ}

theorem length_drop_lt (hn : n ≠ []) (hi : first? n h = some i) :
    (h.drop (i + n.length)).length < h.length := by
  have hle := (first?_eq_some.1 hi).1.length_le
  have hpos := List.length_pos_iff.2 hn
  rw [List.length_drop]
  omega

/-- The positions of the leftmost occurrences of `n` that do not overlap, with `p` added. -/
def leftmost (n h : List α) (p : ℕ) : List ℕ :=
  if _hn : n = [] then []
  else
    match _hi : first? n h with
    | none => []
    | some i => (p + i) :: leftmost n (h.drop (i + n.length)) (p + i + n.length)
termination_by h.length
decreasing_by exact length_drop_lt _hn _hi

/-- These occurrences replaced by `r`. -/
def replaceAll (n r h : List α) : List α :=
  if _hn : n = [] then h
  else
    match _hi : first? n h with
    | none => h
    | some i => h.take i ++ r ++ replaceAll n r (h.drop (i + n.length))
termination_by h.length
decreasing_by exact length_drop_lt _hn _hi

theorem leftmost_of_none (hi : first? n h = none) (p : ℕ) : leftmost n h p = [] := by
  rw [leftmost]
  split
  · rfl
  · split
    · rfl
    · rename_i hsome
      rw [hi] at hsome
      cases hsome

theorem leftmost_of_some (hn : n ≠ []) (hi : first? n h = some i) (p : ℕ) :
    leftmost n h p = (p + i) :: leftmost n (h.drop (i + n.length)) (p + i + n.length) := by
  rw [leftmost, dif_neg hn]
  split
  · rename_i hnone
    rw [hi] at hnone
    cases hnone
  · rename_i k hk
    obtain rfl := Option.some.inj (hi.symm.trans hk)
    rfl

theorem replaceAll_of_none (hi : first? n h = none) (r : List α) : replaceAll n r h = h := by
  rw [replaceAll]
  split
  · rfl
  · split
    · rfl
    · rename_i hsome
      rw [hi] at hsome
      cases hsome

theorem replaceAll_of_some (hn : n ≠ []) (hi : first? n h = some i) (r : List α) :
    replaceAll n r h = h.take i ++ r ++ replaceAll n r (h.drop (i + n.length)) := by
  rw [replaceAll, dif_neg hn]
  split
  · rename_i hnone
    rw [hi] at hnone
    cases hnone
  · rename_i k hk
    obtain rfl := Option.some.inj (hi.symm.trans hk)
    rfl

/-- What is searched for `n` on the way through `h`: the whole list, and what is left behind each
occurrence that was found. -/
inductive Searched (n : List α) : List α → List α → Prop where
  | start {h : List α} : Searched n h h
  | next {h t : List α} {i : ℕ} (hi : first? n h = some i)
      (hrest : Searched n (h.drop (i + n.length)) t) : Searched n h t

/-- Each replaced occurrence changes the length by as much. -/
theorem length_replaceAll (hn : n ≠ []) (r h : List α) (p : ℕ) :
    (replaceAll n r h).length + (leftmost n h p).length * n.length =
      h.length + (leftmost n h p).length * r.length := by
  induction hlength : h.length using Nat.strong_induction_on generalizing h p with
  | _ k ih =>
    subst hlength
    cases hi : first? n h with
    | none => rw [replaceAll_of_none hi, leftmost_of_none hi, List.length_nil, Nat.zero_mul,
        Nat.zero_mul]
    | some i =>
      have hrest := ih _ (length_drop_lt hn hi) (h.drop (i + n.length)) (p + i + n.length) rfl
      have hle := (first?_eq_some.1 hi).1.length_le
      rw [replaceAll_of_some hn hi, leftmost_of_some hn hi, List.length_append, List.length_append,
        List.length_take_of_le (by omega), List.length_cons, Nat.succ_mul, Nat.succ_mul]
      rw [List.length_drop] at hrest
      omega

end Occurrence

end Slp
