import Mathlib.Logic.Function.Basic
import Mathlib.Data.List.Nodup

/-!
# Linked lists

`next` gives the node a pointer points to, `none` for the null pointer.  A pointer that is followed
visits a list of nodes (`Linked`), whose first part is a `Segment` up to the second (`linked_append`);
a node is put in front (`Linked.push`), and one is taken out by pointing past it (`Linked.unlink`).
-/

namespace Slp

namespace Graph

variable {α : Type*} {next next' : α → Option α} {head head' : Option α} {l l' : List α} {a p : α}

/-- The pointer visits the nodes of the list in order, and ends. -/
def Linked (next : α → Option α) : Option α → List α → Prop
  | head, [] => head = none
  | head, a :: l => head = some a ∧ Linked next (next a) l

/-- The pointer visits the nodes of the list in order and goes on at `stop`. -/
def Segment (next : α → Option α) : Option α → List α → Option α → Prop
  | head, [], stop => head = stop
  | head, a :: l, stop => head = some a ∧ Segment next (next a) l stop

theorem segment_congr (hnext : ∀ a ∈ l, next' a = next a) {stop : Option α} :
    Segment next' head l stop ↔ Segment next head l stop := by
  induction l generalizing head with
  | nil => rfl
  | cons a l ih =>
    rw [Segment, Segment, hnext a List.mem_cons_self]
    exact and_congr_right fun _ => ih fun b hb => hnext b (.tail _ hb)

theorem linked_congr (hnext : ∀ a ∈ l, next' a = next a) :
    Linked next' head l ↔ Linked next head l := by
  induction l generalizing head with
  | nil => rfl
  | cons a l ih =>
    rw [Linked, Linked, hnext a List.mem_cons_self]
    exact and_congr_right fun _ => ih fun b hb => hnext b (.tail _ hb)

theorem linked_append :
    Linked next head (l ++ l') ↔ ∃ middle, Segment next head l middle ∧ Linked next middle l' := by
  induction l generalizing head with
  | nil => simp [Segment]
  | cons a l ih => simp only [List.cons_append, Linked, Segment, ih, and_assoc, exists_and_left]

theorem segment_append {stop : Option α} :
    Segment next head (l ++ l') stop ↔
      ∃ middle, Segment next head l middle ∧ Segment next middle l' stop := by
  induction l generalizing head with
  | nil => simp [Segment]
  | cons a l ih => simp only [List.cons_append, Segment, ih, and_assoc, exists_and_left]

/-- The last node of a segment points past it. -/
theorem segment_concat {stop : Option α} :
    Segment next head (l ++ [p]) stop ↔ Segment next head l (some p) ∧ next p = stop := by
  rw [segment_append]
  simp [Segment]

/-- A new node in front. -/
theorem Linked.push (h : Linked next head l) (hnext : ∀ b ∈ l, next' b = next b)
    (ha : next' a = head) : Linked next' (some a) (a :: l) :=
  ⟨rfl, ha ▸ (linked_congr hnext).2 h⟩

variable [DecidableEq α]

/-- A node is taken out by making its predecessor point past it. -/
theorem Linked.unlink (h : Linked next head (l ++ p :: a :: l')) (hnodup : (l ++ p :: a :: l').Nodup) :
    Linked (Function.update next p (next a)) head (l ++ p :: l') := by
  obtain ⟨middle, hsegment, rfl, -, hl'⟩ := linked_append.1 h
  rw [List.nodup_append] at hnodup
  obtain ⟨-, htail, hdisjoint⟩ := hnodup
  have hp : p ∉ l' := fun hp => (List.nodup_cons.1 htail).1 (.tail _ hp)
  refine linked_append.2 ⟨some p, (segment_congr fun b hb => ?_).2 hsegment, rfl, ?_⟩
  · exact Function.update_of_ne (hdisjoint b hb p List.mem_cons_self) _ _
  · rw [Function.update_self]
    refine (linked_congr fun b hb => ?_).2 hl'
    exact Function.update_of_ne (fun heq => hp (by rwa [← heq])) _ _

end Graph

end Slp
