import Mathlib.Data.List.Pairwise
import Mathlib.Data.Nat.Notation
import Mathlib.Tactic.Common

/-!
# Successive matches

A search in a text of `n` bytes finds a match from a position on, or nothing.  The successive matches
are found by searching on from where each ends, and one byte behind that when it is empty.

* `Searcher` : a search, whose matches are in the text;
* `Searcher.successive` : the successive matches;
* `Searcher.pairwise_successive` : they do not overlap, and none comes twice;
* `Searcher.rescanned` : what is found when the search goes on one byte further only behind a match
  that is empty and lies where it was searched from;
* `Searcher.rescanned_eq_iff` : **that is the same if and only if no search tells an empty match that it
  has found further on from the position behind it.**
-/

namespace Slp

/-- A search in a text of `n` bytes: the match that is found from a position on. -/
structure Searcher (n : ℕ) where
  find : ℕ → Option (ℕ × ℕ)
  inside : ∀ {p s e}, find p = some (s, e) → p ≤ s ∧ s ≤ e ∧ e ≤ n

namespace Searcher

variable {n p s e : ℕ} (S : Searcher n)

/-- Where the search goes on behind a match. -/
def next (s e : ℕ) : ℕ := if s < e then e else e + 1

theorem lt_next (hse : s ≤ e) : s < next s e := by
  unfold next
  split_ifs <;> omega

theorem le_next (s e : ℕ) : e ≤ next s e := by
  unfold next
  split_ifs <;> omega

theorem next_le (s e : ℕ) : next s e ≤ e + 1 := by
  unfold next
  split_ifs <;> omega

/-- The successive matches from a position on. -/
def successive (p : ℕ) : List (ℕ × ℕ) :=
  match _h : S.find p with
  | none => []
  | some (s, e) => (s, e) :: successive (next s e)
termination_by n + 1 - p
decreasing_by
  have hin := S.inside _h
  have hlt := lt_next hin.2.1
  omega

theorem successive_of_none (hp : S.find p = none) : S.successive p = [] := by
  rw [successive]
  split
  · rfl
  · rename_i hsome
    rw [hp] at hsome
    cases hsome

theorem successive_of_some (hp : S.find p = some (s, e)) :
    S.successive p = (s, e) :: S.successive (next s e) := by
  rw [successive]
  split
  · rename_i hnone
    rw [hp] at hnone
    cases hnone
  · rename_i hsome
    rw [hp] at hsome
    cases hsome
    rfl

/-- Behind the text there is nothing to find. -/
theorem find_of_lt (hp : n < p) : S.find p = none := by
  cases hfind : S.find p with
  | none => rfl
  | some m =>
    have hin := S.inside (show S.find p = some (m.1, m.2) from hfind)
    omega

/-- An induction along the successive matches. -/
theorem induction {motive : ℕ → Prop} (stop : ∀ p, S.find p = none → motive p)
    (go : ∀ p s e, S.find p = some (s, e) → motive (next s e) → motive p) (p : ℕ) : motive p := by
  induction hk : n + 1 - p using Nat.strongRecOn generalizing p with
  | ind k ih =>
    subst hk
    cases hp : S.find p with
    | none => exact stop p hp
    | some m =>
      have hin := S.inside (show S.find p = some (m.1, m.2) from hp)
      have hlt := lt_next hin.2.1
      exact go p m.1 m.2 hp (ih _ (by omega) _ rfl)

theorem mem_successive {m : ℕ × ℕ} (hm : m ∈ S.successive p) : p ≤ m.1 ∧ m.1 ≤ m.2 ∧ m.2 ≤ n := by
  induction p using S.induction with
  | stop p hp =>
    rw [S.successive_of_none hp] at hm
    cases hm
  | go p s e hp ih =>
    have hin := S.inside hp
    rw [S.successive_of_some hp, List.mem_cons] at hm
    rcases hm with rfl | hm
    · exact hin
    · have hrest := ih hm
      have hle := le_next s e
      omega

/-- The matches do not overlap, and none comes twice. -/
theorem pairwise_successive (p : ℕ) :
    (S.successive p).Pairwise fun m m' => m.2 ≤ m'.1 ∧ m.1 < m'.2 := by
  induction p using S.induction with
  | stop p hp =>
    rw [S.successive_of_none hp]
    exact .nil
  | go p s e hp ih =>
    rw [S.successive_of_some hp]
    refine .cons (fun m hm => ?_) ih
    have hin := S.inside hp
    have hrest := S.mem_successive hm
    have hle := le_next s e
    have hlt := lt_next hin.2.1
    dsimp only
    omega

/-- From each position on there is at most one more match than there are bytes. -/
theorem length_successive_le (p : ℕ) : (S.successive p).length ≤ n + 1 - p := by
  induction p using S.induction with
  | stop p hp =>
    rw [S.successive_of_none hp]
    exact Nat.zero_le _
  | go p s e hp ih =>
    have hin := S.inside hp
    have hlt := lt_next hin.2.1
    rw [S.successive_of_some hp, List.length_cons]
    omega

/-- From a position behind which there is more than the end of the text there are fewer. -/
theorem length_successive_add_le (hp : p ≤ n) (hend : (n, n) ∉ S.successive p) :
    (S.successive p).length + p ≤ n := by
  induction p using S.induction with
  | stop p hnone =>
    rw [S.successive_of_none hnone, List.length_nil]
    omega
  | go p s e hfind ih =>
    have hin := S.inside hfind
    have hlt := lt_next hin.2.1
    have hle := next_le s e
    rw [S.successive_of_some hfind, List.mem_cons, not_or, Prod.mk.injEq] at hend
    have hnext : next s e ≤ n := by
      unfold next at hle ⊢
      split_ifs <;> omega
    have hrest := ih hnext hend.2
    rw [S.successive_of_some hfind, List.length_cons]
    omega

/-! ### Searching on from an empty match -/

/-- Where the search from `p` goes on behind its match. -/
def renext (p s e : ℕ) : ℕ := if p < e then e else s + 1

theorem lt_renext (hps : p ≤ s) : p < renext p s e := by
  unfold renext
  split_ifs <;> omega

/-- What is found on the way. -/
def rescanned (p : ℕ) : List (ℕ × ℕ) :=
  match _h : S.find p with
  | none => []
  | some (s, e) => (s, e) :: rescanned (renext p s e)
termination_by n + 1 - p
decreasing_by
  have hin := S.inside _h
  have hlt := lt_renext (e := e) hin.1
  omega

theorem rescanned_of_none (hp : S.find p = none) : S.rescanned p = [] := by
  rw [rescanned]
  split
  · rfl
  · rename_i hsome
    rw [hp] at hsome
    cases hsome

theorem rescanned_of_some (hp : S.find p = some (s, e)) :
    S.rescanned p = (s, e) :: S.rescanned (renext p s e) := by
  rw [rescanned]
  split
  · rename_i hnone
    rw [hp] at hnone
    cases hnone
  · rename_i hsome
    rw [hp] at hsome
    cases hsome
    rfl

/-- An induction on the way. -/
theorem reinduction {motive : ℕ → Prop} (stop : ∀ p, S.find p = none → motive p)
    (go : ∀ p s e, S.find p = some (s, e) → motive (renext p s e) → motive p) (p : ℕ) : motive p := by
  induction hk : n + 1 - p using Nat.strongRecOn generalizing p with
  | ind k ih =>
    subst hk
    cases hp : S.find p with
    | none => exact stop p hp
    | some m =>
      have hin := S.inside (show S.find p = some (m.1, m.2) from hp)
      have hlt := lt_renext (e := m.2) hin.1
      exact go p m.1 m.2 hp (ih _ (by omega) _ rfl)

theorem head?_rescanned (p : ℕ) : (S.rescanned p).head? = S.find p := by
  cases hp : S.find p with
  | none => rw [S.rescanned_of_none hp, List.head?_nil]
  | some m => rw [S.rescanned_of_some (show S.find p = some (m.1, m.2) from hp), List.head?_cons]

theorem head?_successive (p : ℕ) : (S.successive p).head? = S.find p := by
  cases hp : S.find p with
  | none => rw [S.successive_of_none hp, List.head?_nil]
  | some m => rw [S.successive_of_some (show S.find p = some (m.1, m.2) from hp), List.head?_cons]

/-- The positions that are searched from on the way from the beginning. -/
inductive Rescanned : ℕ → Prop where
  | start : Rescanned 0
  | next {p s e : ℕ} (hp : Rescanned p) (hfind : S.find p = some (s, e)) : Rescanned (renext p s e)

/-- An empty match that is found further on is not found again: the search from there finds the same
as the one from the position behind it. -/
def FindsOnce : Prop := ∀ p m, S.Rescanned p → S.find p = some (m, m) → p < m → S.find m = S.find (m + 1)

theorem renext_eq_next (hin : p ≤ s ∧ s ≤ e) (h : s < e ∨ e ≤ p) : renext p s e = next s e := by
  unfold renext next
  split_ifs <;> omega

theorem renext_of_empty (hp : p < s) : renext p s s = s ∧ next s s = s + 1 :=
  ⟨if_pos hp, if_neg (Nat.lt_irrefl s)⟩

theorem rescanned_eq (hS : S.FindsOnce) {q : ℕ} (hp : S.Rescanned p) (hq : S.find p = S.find q) :
    S.rescanned p = S.successive q := by
  induction p using S.reinduction generalizing q with
  | stop p hnone => rw [S.rescanned_of_none hnone, S.successive_of_none (hq ▸ hnone)]
  | go p s e hfind ih =>
    have hin := S.inside hfind
    rw [S.rescanned_of_some hfind, S.successive_of_some (hq ▸ hfind), ih (hp.next hfind)]
    rcases Nat.lt_or_eq_of_le hin.2.1 with hlt | rfl
    · rw [renext_eq_next ⟨hin.1, hin.2.1⟩ (.inl hlt)]
    · rcases Nat.lt_or_eq_of_le hin.1 with hlt | rfl
      · rw [(renext_of_empty hlt).1, (renext_of_empty hlt).2]
        exact hS p s hp hfind hlt
      · rw [renext_eq_next ⟨Nat.le_refl _, Nat.le_refl _⟩ (.inr (Nat.le_refl _))]

/-- On the way both have found the same so far. -/
theorem exists_of_rescanned (heq : S.rescanned 0 = S.successive 0) (hp : S.Rescanned p) :
    ∃ q, S.find p = S.find q ∧ S.rescanned p = S.successive q := by
  induction hp with
  | start => exact ⟨0, rfl, heq⟩
  | @next p s e _ hfind ih =>
    obtain ⟨q, hq, hlists⟩ := ih
    rw [S.rescanned_of_some hfind, S.successive_of_some (hq ▸ hfind)] at hlists
    have htails := (List.cons.inj hlists).2
    refine ⟨Searcher.next s e, ?_, htails⟩
    rw [← S.head?_rescanned, htails, S.head?_successive]

/-- **Both find the same if and only if no search tells an empty match that it has found further on
from the position behind it.** -/
theorem rescanned_eq_iff : S.rescanned 0 = S.successive 0 ↔ S.FindsOnce := by
  constructor
  · intro heq p m hp hfind hlt
    obtain ⟨q, hq, hlists⟩ := S.exists_of_rescanned heq hp
    rw [S.rescanned_of_some hfind, S.successive_of_some (hq ▸ hfind), (renext_of_empty hlt).1,
      (renext_of_empty hlt).2] at hlists
    rw [← S.head?_rescanned, (List.cons.inj hlists).2, S.head?_successive]
  · exact fun hS => S.rescanned_eq hS .start rfl

end Searcher

end Slp
