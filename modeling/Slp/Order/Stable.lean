import Mathlib.Data.List.Basic
import Mathlib.Data.List.Perm.Basic
import Mathlib.Data.Nat.Notation

/-!
# Stable orders of lists

Lists ordered by a total preorder that a function computes, in which elements that are tied keep the
order they had.

* `TotalPreorder`: the function, with what it owes;
* `Stable`: tied elements are in the same order in both lists;
* `exists_split`: an ordered list is cut at an element;
* `pairwise_insert`, `stable_insert`: **an element put in there leaves the list ordered, and stable
  when it was the last one.**
-/

namespace Slp

/-- A total preorder, by the function that computes it. -/
structure TotalPreorder (α : Type*) where
  le : α → α → Bool
  total : ∀ x y, le x y = true ∨ le y x = true
  trans : ∀ {x y z}, le x y = true → le y z = true → le x z = true

namespace TotalPreorder

variable {α : Type*} (P : TotalPreorder α)

theorem refl (x : α) : P.le x x = true := (P.total x x).elim id id

theorem le_of_not {x y : α} (h : P.le x y = false) : P.le y x = true :=
  (P.total x y).resolve_left (Bool.eq_false_iff.1 h)

/-- Two elements of which neither is before the other. -/
def tied (x y : α) : Bool := P.le x y && P.le y x

/-- The elements that are tied with each other are in the same order in both lists. -/
def Stable (before after : List α) : Prop :=
  ∀ v, after.filter (P.tied v) = before.filter (P.tied v)

variable {P} {L R S before : List α} {x : α}

theorem Stable.refl (S : List α) : P.Stable S S := fun _ => rfl

/-- An ordered list is cut at an element: what is not after it, and what is. -/
theorem exists_split (hS : S.Pairwise fun y z => P.le y z = true) (x : α) :
    ∃ L R, S = L ++ R ∧ (∀ y ∈ L, P.le y x = true) ∧ ∀ y ∈ R, P.le y x = false := by
  induction S with
  | nil => exact ⟨[], [], rfl, by simp, by simp⟩
  | cons z S ih =>
    rw [List.pairwise_cons] at hS
    cases hz : P.le z x with
    | true =>
      obtain ⟨L, R, rfl, hL, hR⟩ := ih hS.2
      exact ⟨z :: L, R, rfl, List.forall_mem_cons.2 ⟨hz, hL⟩, hR⟩
    | false =>
      refine ⟨[], z :: S, rfl, by simp, List.forall_mem_cons.2 ⟨hz, fun y hy => ?_⟩⟩
      rw [← Bool.not_eq_true] at hz ⊢
      exact fun hyx => hz (P.trans (hS.1 y hy) hyx)

theorem pairwise_insert (hS : (L ++ R).Pairwise fun y z => P.le y z = true)
    (hL : ∀ y ∈ L, P.le y x = true) (hR : ∀ y ∈ R, P.le y x = false) :
    (L ++ x :: R).Pairwise fun y z => P.le y z = true := by
  rw [List.pairwise_append] at hS ⊢
  refine ⟨hS.1, List.pairwise_cons.2 ⟨fun y hy => P.le_of_not (hR y hy), hS.2.1⟩, ?_⟩
  intro y hy z hz
  rcases List.mem_cons.1 hz with rfl | hz
  · exact hL y hy
  · exact hS.2.2 y hy z hz

theorem stable_insert (hS : P.Stable before (L ++ R)) (hR : ∀ y ∈ R, P.le y x = false) :
    P.Stable (before ++ [x]) (L ++ x :: R) := by
  intro v
  have hv := hS v
  rw [List.filter_append] at hv ⊢
  cases hx : P.tied v x with
  | false =>
    rw [List.filter_cons_of_neg (by rw [hx]; exact Bool.false_ne_true), hv, List.filter_append,
      List.filter_cons_of_neg (by rw [hx]; exact Bool.false_ne_true), List.filter_nil,
      List.append_nil]
  | true =>
    -- what is after `x` is not tied with it
    have hnone : R.filter (P.tied v) = [] := by
      rw [List.filter_eq_nil_iff]
      intro y hy hvy
      rw [tied, Bool.and_eq_true] at hx hvy
      have hyx := P.trans hvy.2 hx.1
      rw [hR y hy] at hyx
      cases hyx
    rw [hnone, List.append_nil] at hv
    rw [List.filter_cons_of_pos hx, hnone, hv, List.filter_append, List.filter_cons_of_pos hx,
      List.filter_nil]

end TotalPreorder

end Slp
