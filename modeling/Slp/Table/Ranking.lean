import Mathlib.Data.List.Sort
import Mathlib.Data.Nat.Notation

/-!
# Selection by rank

The rank of an element of a list is the number of elements before it in a linear order.  When no
two elements are equal in that order the ranks are `0, 1, …`, and the element of rank `i` is the
`i`-th one of the list in ascending order (`find?_rank`).
-/

namespace Slp

namespace Table

variable {α β : Type*} [LinearOrder β] (f : α → β)

/-- The list is strictly ascending under `f`. -/
def Ascending (s : List α) : Prop := s.Pairwise fun x y => f x < f y

/-- The number of elements of the list before `x`. -/
def rankIn (l : List α) (x : α) : ℕ := l.countP fun y => f y < f x

variable {f} {l s s' : List α}

/-- In an ascending list `i` elements are before the `i`-th one. -/
theorem Ascending.rankIn_getElem (hs : Ascending f s) (i : ℕ) (hi : i < s.length) :
    rankIn f s s[i] = i := by
  unfold rankIn
  induction s generalizing i with
  | nil => cases hi
  | cons x s ih =>
    obtain ⟨hx, hs⟩ := List.pairwise_cons.1 hs
    rw [List.countP_cons]
    cases i with
    | zero =>
      have hnone : s.countP (fun y => f y < f x) = 0 := by
        rw [List.countP_eq_zero]
        intro y hy
        simpa using (hx y hy).le
      simp [hnone]
    | succ i =>
      have hi : i < s.length := by simpa using hi
      have hlt : f x < f s[i] := hx _ (List.getElem_mem hi)
      rw [List.getElem_cons_succ, ih hs i hi]
      simp [hlt]

/-- A list whose elements are told apart by `f` can be put into ascending order. -/
theorem exists_ascending (hn : (l.map f).Nodup) : ∃ s, s.Perm l ∧ Ascending f s := by
  let r : α → α → Prop := fun x y => f x ≤ f y
  have htotal : Std.Total r := ⟨fun x y => le_total (f x) (f y)⟩
  have htrans : IsTrans α r := ⟨fun _ _ _ hxy hyz => le_trans hxy hyz⟩
  have hperm := List.perm_insertionSort r l
  have hsorted := List.pairwise_insertionSort r l
  have hne : (l.insertionSort r).Pairwise fun x y => f x ≠ f y := by
    have hmap := (hperm.map f).nodup_iff.2 hn
    rwa [List.Nodup, List.pairwise_map] at hmap
  exact ⟨l.insertionSort r, hperm, (hsorted.and hne).imp fun ⟨hle, hne⟩ => lt_of_le_of_ne hle hne⟩

/-- There is only one ascending order. -/
theorem Ascending.eq_of_perm (hs : Ascending f s) (hs' : Ascending f s') (hperm : s.Perm s') :
    s = s' :=
  hperm.eq_of_pairwise (fun _ _ _ _ hlt hgt => absurd hlt (lt_asymm hgt)) hs hs'

/-- The element of rank `i` is the `i`-th one in ascending order. -/
theorem Ascending.find?_rank (hs : Ascending f s) (hperm : s.Perm l) (i : ℕ) :
    l.find? (fun x => rankIn f l x = i) = s[i]? := by
  have hrank : ∀ x, rankIn f l x = rankIn f s x := fun x => (hperm.countP_eq _).symm
  cases hfind : l.find? (fun x => rankIn f l x = i) with
  | none =>
    rw [List.find?_eq_none] at hfind
    by_cases hi : i < s.length
    · have hmem : s[i] ∈ l := hperm.mem_iff.1 (List.getElem_mem hi)
      refine absurd ?_ (hfind _ hmem)
      rw [hrank, hs.rankIn_getElem i hi, decide_eq_true rfl]
    · rw [List.getElem?_eq_none (Nat.le_of_not_lt hi)]
  | some x =>
    have hx := List.find?_some hfind
    rw [decide_eq_true_eq, hrank] at hx
    obtain ⟨j, hj, rfl⟩ := List.getElem_of_mem (hperm.mem_iff.2 (List.mem_of_find?_eq_some hfind))
    rw [hs.rankIn_getElem j hj] at hx
    rw [← hx, List.getElem?_eq_getElem hj]

end Table

end Slp
