import Mathlib.Data.List.DropRight
import Slp.Text.Scan

/-!
# Pieces between separators

Separators that lie in a list one behind the other cut it into pieces.

* `Ordered` : separators from a position on, in order;
* `pieces` : what is between them, in front of them and behind them;
* `interleave_pieces` : put together again they are the list.
-/

namespace Slp

namespace Pieces

variable {α : Type*} {t : List α} {n c p : ℕ} {ms ms' : List (ℕ × ℕ)}

/-- Separators in a list of length `n` from a position on, in order. -/
def Ordered (n : ℕ) : (c : ℕ) → List (ℕ × ℕ) → Prop
  | _, [] => True
  | c, (s, e) :: ms => c ≤ s ∧ s ≤ e ∧ e ≤ n ∧ Ordered n e ms

theorem Ordered.isPrefix (h : Ordered n c ms) (hms : ms' <+: ms) : Ordered n c ms' := by
  induction ms' generalizing c ms with
  | nil => trivial
  | cons m ms' ih =>
    obtain ⟨rest, rfl⟩ := hms
    obtain ⟨hc, hse, hn, hrest⟩ := h
    exact ⟨hc, hse, hn, ih hrest (List.prefix_append ms' rest)⟩

/-- The successive matches of a search are in order. -/
theorem ordered_successive (S : Searcher n) (hc : c ≤ p) : Ordered n c (S.successive p) := by
  induction p using S.induction generalizing c with
  | stop p hp =>
    rw [S.successive_of_none hp]
    trivial
  | go p s e hp ih =>
    have hin := S.inside hp
    rw [S.successive_of_some hp]
    exact ⟨hc.trans hin.1, hin.2.1, hin.2.2, ih (Searcher.le_next s e)⟩

/-- The pieces of what is behind a position. -/
def pieces (t : List α) : (c : ℕ) → List (ℕ × ℕ) → List (List α)
  | c, [] => [t.drop c]
  | c, (s, e) :: ms => (t.drop c).take (s - c) :: pieces t e ms

/-- The separators themselves. -/
def separators (t : List α) (ms : List (ℕ × ℕ)) : List (List α) :=
  ms.map fun m => (t.drop m.1).take (m.2 - m.1)

/-- A list from each of two by turns; what is left over of one comes at the end. -/
def interleave : List (List α) → List (List α) → List α
  | [], ys => ys.flatten
  | x :: xs, [] => x ++ xs.flatten
  | x :: xs, y :: ys => x ++ y ++ interleave xs ys

theorem length_pieces (t : List α) (c : ℕ) (ms : List (ℕ × ℕ)) :
    (pieces t c ms).length = ms.length + 1 := by
  induction ms generalizing c with
  | nil => rfl
  | cons m ms ih => rw [pieces, List.length_cons, List.length_cons, ih]

/-- **The pieces and the separators together are the list.** -/
theorem interleave_pieces (h : Ordered t.length c ms) :
    interleave (pieces t c ms) (separators t ms) = t.drop c := by
  induction ms generalizing c with
  | nil => exact List.append_nil _
  | cons m ms ih =>
    obtain ⟨s, e⟩ := m
    obtain ⟨hc, hse, -, hrest⟩ := h
    -- up to the separator, the separator, and what is behind it
    have hpiece : (t.drop c).take (s - c) ++ t.drop s = t.drop c := by
      have hdrop := List.take_append_drop (s - c) (t.drop c)
      rwa [List.drop_drop, Nat.add_sub_cancel' hc] at hdrop
    have hseparator : (t.drop s).take (e - s) ++ t.drop e = t.drop s := by
      have hdrop := List.take_append_drop (e - s) (t.drop s)
      rwa [List.drop_drop, Nat.add_sub_cancel' hse] at hdrop
    have hfold := ih hrest
    unfold separators at hfold ⊢
    rw [pieces, List.map_cons, interleave, hfold, List.append_assoc, hseparator, hpiece]

end Pieces

end Slp
