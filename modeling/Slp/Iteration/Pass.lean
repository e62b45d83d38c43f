import Mathlib.Data.Nat.Notation

/-!
# A pass over a list

A pass goes through a list one item after the other, and may remove the item that it passed
last.  Whatever is removed, the items are passed in their order, each once, and what is left in
the end is what was passed and not removed (`Run.passed`, `Run.rest`).
-/

namespace Slp

/-- A list, and how many of its items were passed. -/
structure Pass (α : Type*) where
  items : List α
  pos : ℕ

namespace Pass

variable {α : Type*} {xs : List α} {log : List (α × Bool)} {c : Pass α} {x : α}

/-- The pass goes on by an item. -/
def next (c : Pass α) : Pass α := ⟨c.items, c.pos + 1⟩

/-- The item passed last is removed. -/
def remove (c : Pass α) : Pass α := ⟨c.items.eraseIdx (c.pos - 1), c.pos - 1⟩

/-- The pass after some steps over the list `xs`.  The log has the items that were passed, each
with whether it was removed then. -/
inductive Run (xs : List α) : List (α × Bool) → Pass α → Prop where
  | start : Run xs [] ⟨xs, 0⟩
  | next {log : List (α × Bool)} {c : Pass α} {x : α} (hrun : Run xs log c)
      (hx : c.items[c.pos]? = some x) : Run xs (log ++ [(x, false)]) c.next
  | remove {log : List (α × Bool)} {c : Pass α} {x : α} (hrun : Run xs (log ++ [(x, false)]) c) :
      Run xs (log ++ [(x, true)]) c.remove

/-- The items that were passed and not removed. -/
def kept (log : List (α × Bool)) : List α := (log.filter fun e => !e.2).map Prod.fst

theorem kept_append (log log' : List (α × Bool)) : kept (log ++ log') = kept log ++ kept log' := by
  simp [kept]

theorem kept_false (x : α) : kept [(x, false)] = [x] := rfl

theorem kept_true (x : α) : kept [(x, true)] = [] := rfl

/-- The list consists of what was kept and of what is still to come. -/
theorem Run.spec (h : Run xs log c) :
    c.pos = (kept log).length ∧ ∃ rest, c.items = kept log ++ rest ∧ xs = log.map Prod.fst ++ rest := by
  induction h with
  | start => exact ⟨rfl, xs, rfl, rfl⟩
  | @next log c x _ hx ih =>
    obtain ⟨hpos, rest, hitems, hxs⟩ := ih
    -- the item that is passed is the first of those to come
    rw [hitems, hpos, List.getElem?_append_right (Nat.le_refl _), Nat.sub_self] at hx
    obtain ⟨rest, rfl⟩ : ∃ rest', rest = x :: rest' := by
      cases rest with
      | nil => cases hx
      | cons y rest => exact ⟨rest, by rw [Option.some.inj hx]⟩
    refine ⟨?_, rest, ?_, ?_⟩
    · rw [kept_append, kept_false, List.length_append, Pass.next, hpos]
      rfl
    · rw [Pass.next, hitems, kept_append, kept_false, List.append_assoc]
      rfl
    · rw [hxs, List.map_append, List.append_assoc]
      rfl
  | @remove log c x _ ih =>
    obtain ⟨hpos, rest, hitems, hxs⟩ := ih
    rw [kept_append, kept_false, List.length_append, List.length_singleton] at hpos
    rw [kept_append, kept_false, List.append_assoc] at hitems
    refine ⟨?_, rest, ?_, ?_⟩
    · rw [kept_append, kept_true, List.append_nil, Pass.remove, hpos, Nat.add_sub_cancel]
    · rw [Pass.remove, hpos, Nat.add_sub_cancel, hitems, kept_append, kept_true, List.append_nil,
        List.eraseIdx_append_of_length_le (Nat.le_refl _), Nat.sub_self]
      rfl
    · simpa using hxs

/-- The items are passed in their order. -/
theorem Run.passed (h : Run xs log c) : log.map Prod.fst <+: xs := by
  obtain ⟨-, rest, -, hxs⟩ := h.spec
  exact ⟨rest, hxs.symm⟩

/-- When no item is left, all were passed, and the list is what was kept. -/
theorem Run.rest (h : Run xs log c) (hend : c.items[c.pos]? = none) :
    log.map Prod.fst = xs ∧ c.items = kept log := by
  obtain ⟨hpos, rest, hitems, hxs⟩ := h.spec
  rw [hitems, hpos, List.getElem?_append_right (Nat.le_refl _), Nat.sub_self] at hend
  cases rest with
  | nil => exact ⟨by rw [hxs, List.append_nil], by rw [hitems, List.append_nil]⟩
  | cons y rest => cases hend

/-- While an item is left, not all were passed. -/
theorem Run.ne_of_getElem? (h : Run xs log c) (hx : c.items[c.pos]? = some x) :
    log.map Prod.fst ≠ xs := by
  obtain ⟨hpos, rest, hitems, hxs⟩ := h.spec
  intro heq
  have hnil : rest = [] := by simpa [heq] using hxs
  rw [hitems, hpos, hnil, List.append_nil, List.getElem?_eq_none (Nat.le_refl _)] at hx
  cases hx

end Pass

end Slp
