import Mathlib.Logic.Relation
import Mathlib.Data.Set.Basic

/-!
# Marking a graph with a work list

A marker colours the vertices reachable from a set of roots.  A vertex is *marked* or not; a
marked vertex is *gray* while it waits on the work list and *black* once its successors have been
marked.  The tricolour invariant `Tricolor` is all that the order of the work list has to keep:
when the list is empty, the marked vertices are exactly the reachable ones
(`Tricolor.mem_iff_of_nil`).

## Main definitions

* `Reach succ roots x` : `x` is reachable from `roots` along the edges `succ`.
* `Tricolor succ roots M gray` : the invariant of the marker.
-/

namespace Slp

namespace Graph

variable {α : Type*} {succ : α → List α} {roots : Set α} {M : Set α} {gray : List α}

/-- `x` is reachable from the vertices of `roots` along the edges `succ`. -/
def Reach (succ : α → List α) (roots : Set α) (x : α) : Prop :=
  ∃ r ∈ roots, Relation.ReflTransGen (fun a b => b ∈ succ a) r x

theorem Reach.root {x : α} (h : x ∈ roots) : Reach succ roots x := ⟨x, h, .refl⟩

theorem Reach.step {x y : α} (h : Reach succ roots x) (hy : y ∈ succ x) :
    Reach succ roots y := by
  obtain ⟨r, hr, hx⟩ := h
  exact ⟨r, hr, hx.tail hy⟩

/-- A set that contains the roots and is closed under edges contains every reachable vertex. -/
theorem Reach.mem_of_closed {x : α} (h : Reach succ roots x) (hroots : roots ⊆ M)
    (hclosed : ∀ a ∈ M, ∀ b ∈ succ a, b ∈ M) : x ∈ M := by
  obtain ⟨r, hr, hx⟩ := h
  induction hx with
  | refl => exact hroots hr
  | tail _ hbc ih => exact hclosed _ ih _ hbc

/-- Two edge functions that agree on every vertex reachable along the first have the same
reachable vertices. -/
theorem Reach.congr {succ' : α → List α} (heq : ∀ a, Reach succ roots a → succ' a = succ a)
    {x : α} : Reach succ' roots x ↔ Reach succ roots x := by
  constructor
  · rintro ⟨r, hr, hx⟩
    induction hx with
    | refl => exact .root hr
    | tail _ hbc ih => exact ih.step (heq _ ih ▸ hbc)
  · rintro ⟨r, hr, hx⟩
    have key : Reach succ roots x ∧ Reach succ' roots x := by
      induction hx with
      | refl => exact ⟨.root hr, .root hr⟩
      | tail _ hbc ih => exact ⟨ih.1.step hbc, ih.2.step (by rw [heq _ ih.1]; exact hbc)⟩
    exact key.2

/-- The invariant of a marker with marked set `M` and work list `gray`. -/
structure Tricolor (succ : α → List α) (roots M : Set α) (gray : List α) : Prop where
  /-- The roots are marked. -/
  roots_mem : roots ⊆ M
  /-- Only reachable vertices are marked. -/
  sound : ∀ x ∈ M, Reach succ roots x
  /-- Everything on the work list is marked. -/
  gray_mem : ∀ x ∈ gray, x ∈ M
  /-- A marked vertex off the work list has all its successors marked. -/
  black : ∀ x ∈ M, x ∉ gray → ∀ y ∈ succ x, y ∈ M

namespace Tricolor

/-- Marking the roots and listing all of them establishes the invariant. -/
theorem init (hM : M = roots) (hg : ∀ x, x ∈ gray ↔ x ∈ roots) :
    Tricolor succ roots M gray := by
  subst hM
  exact ⟨fun _ h => h, fun _ h => .root h, fun x h => (hg x).1 h,
    fun x hx hn => absurd ((hg x).2 hx) hn⟩

/-- Taking `x` off the work list, marking its successors and listing the newly marked ones keeps
the invariant. -/
theorem step {x : α} {M' : Set α} {gray' : List α} (h : Tricolor succ roots M (x :: gray))
    (hM' : ∀ y, y ∈ M' ↔ y ∈ M ∨ y ∈ succ x)
    (hgray' : ∀ y, y ∈ gray' ↔ y ∈ gray ∨ (y ∉ M ∧ y ∈ succ x)) :
    Tricolor succ roots M' gray' := by
  have hx : x ∈ M := h.gray_mem x List.mem_cons_self
  refine ⟨fun r hr => (hM' r).2 (.inl (h.roots_mem hr)), fun y hy => ?_, fun y hy => ?_,
    fun y hy hn z hz => ?_⟩
  · rcases (hM' y).1 hy with hy | hy
    · exact h.sound y hy
    · exact (h.sound x hx).step hy
  · rcases (hgray' y).1 hy with hy | ⟨-, hy⟩
    · exact (hM' y).2 (.inl (h.gray_mem y (List.mem_cons_of_mem _ hy)))
    · exact (hM' y).2 (.inr hy)
  · have hyM : y ∈ M := by
      by_contra hyM
      rcases (hM' y).1 hy with hy | hy
      · exact hyM hy
      · exact hn ((hgray' y).2 (.inr ⟨hyM, hy⟩))
    by_cases hyx : y = x
    · subst hyx; exact (hM' z).2 (.inr hz)
    · have : y ∉ x :: gray := by
        rintro (_ | ⟨_, hmem⟩)
        · exact hyx rfl
        · exact hn ((hgray' y).2 (.inl hmem))
      exact (hM' z).2 (.inl (h.black y hyM this z hz))

/-- With an empty work list the marked vertices are exactly the reachable ones. -/
theorem mem_iff_of_nil (h : Tricolor succ roots M []) {x : α} : x ∈ M ↔ Reach succ roots x :=
  ⟨h.sound x, fun hx => hx.mem_of_closed h.roots_mem fun a ha =>
    h.black a ha List.not_mem_nil⟩

end Tricolor

end Graph

end Slp
