import Slp.Object.Containers

/-!
# Scalar cells

Which values are scalar cells, and the assignment to a cell.  An assignment changes what is read
through the cell and nothing else: which values are cells, and what a tainted value wraps, stays.
-/

namespace Slp

/-- The value is a scalar cell. -/
def Heap.isCell (h : Heap) : Value → Bool
  | .obj r => match h.get? r with
    | some (.scalarCell _ _) => true
    | _ => false
  | _ => false

/-- `watched_cell_assign`, less the message of a watched cell. -/
def Heap.watchedCellAssign (h : Heap) (r : Ref) (value : Value) : Heap :=
  match h.get? r with
  | some (.scalarCell _ watch) => h.set r (.scalarCell (h.dereferenceValue value) watch)
  | _ => h

namespace Heap

variable {h h' : Heap} {r q : Ref} {v v' value : Value} {w : Option Ref} {o : Obj}

theorem isCell_obj (h : Heap) (r : Ref) : h.isCell (.obj r) =
    match h.get? r with
    | some (.scalarCell _ _) => true
    | _ => false := rfl

theorem eq_obj_of_isCell (hv : h.isCell v = true) : ∃ r, v = .obj r := by
  cases v with
  | obj r => exact ⟨r, rfl⟩
  | _ => cases hv

theorem exists_of_isCell (hr : h.isCell (.obj r) = true) :
    ∃ v w, h.get? r = some (.scalarCell v w) := by
  rw [isCell_obj] at hr
  split at hr
  · rename_i v w heq
    exact ⟨v, w, heq⟩
  · cases hr

theorem derefLoop_of_not_cell (hv : h.isCell v = false) (fuel : ℕ) : h.derefLoop fuel v = v := by
  cases fuel with
  | zero => rfl
  | succ n =>
    cases v with
    | obj r =>
      rw [isCell_obj] at hv
      rw [derefLoop]
      split
      · rename_i v w hr
        rw [hr] at hv
        cases hv
      · rfl
    | null => rfl
    | bool b => rfl
    | num n => rfl

theorem dereferenceValue_of_not_cell (hv : h.isCell v = false) : h.dereferenceValue v = v :=
  derefLoop_of_not_cell hv _

theorem isCell_setCell (hr : h.get? r = some (.scalarCell v w)) (value : Value) :
    (h.set r (.scalarCell v' w)).isCell value = h.isCell value := by
  cases value with
  | obj q =>
    rw [isCell_obj, isCell_obj, get?_set hr]
    by_cases hq : r = q
    · subst hq
      rw [if_pos rfl, hr]
    · rw [if_neg hq]
  | null => rfl
  | bool b => rfl
  | num n => rfl

theorem unwrapLoop_setCell (hr : h.get? r = some (.scalarCell v w)) (fuel : ℕ) (value : Value) :
    (h.set r (.scalarCell v' w)).unwrapLoop fuel value = h.unwrapLoop fuel value := by
  induction fuel generalizing value with
  | zero => rfl
  | succ fuel ih =>
    cases value with
    | obj q =>
      rw [unwrapLoop, unwrapLoop, get?_set hr]
      by_cases hq : r = q
      · subst hq
        rw [if_pos rfl, hr]
      · rw [if_neg hq]
        split <;> simp_all
    | null => rfl
    | bool b => rfl
    | num n => rfl

theorem length_ne_zero (hr : h.get? r = some o) : h.length ≠ 0 := by
  intro hzero
  rw [List.length_eq_zero_iff.1 hzero] at hr
  cases hr

theorem length_set (h : Heap) (r : Ref) (o : Obj) : (h.set r o).length = h.length := by
  rw [Heap.set, List.length_map]

theorem unwrapTaint_setCell (hr : h.get? r = some (.scalarCell v w)) (value : Value) :
    (h.set r (.scalarCell v' w)).unwrapTaint value = h.unwrapTaint value := by
  rw [Heap.unwrapTaint, Heap.unwrapTaint, length_set, unwrapLoop_setCell hr]

theorem unwrapLoop_of_not_tainted (hr : ∀ v, h.get? r ≠ some (.tainted v)) (fuel : ℕ) :
    h.unwrapLoop fuel (.obj r) = .obj r := by
  cases fuel with
  | zero => rfl
  | succ n =>
    rw [unwrapLoop]
    split
    · rename_i v hv
      exact absurd hv (hr v)
    · rfl

theorem unwrapTaint_of_not_tainted (hr : ∀ v, h.get? r ≠ some (.tainted v)) :
    h.unwrapTaint (.obj r) = .obj r :=
  unwrapLoop_of_not_tainted hr _

/-- A wrapper around an object that is none is unwrapped to the object. -/
theorem unwrapTaint_tainted (hq : h.get? q = some (.tainted (.obj r)))
    (hr : ∀ v, h.get? r ≠ some (.tainted v)) : h.unwrapTaint (.obj q) = .obj r := by
  obtain ⟨n, hn⟩ := Nat.exists_eq_succ_of_ne_zero (length_ne_zero hq)
  rw [Heap.unwrapTaint, hn, Nat.succ_eq_add_one, unwrapLoop, hq]
  exact unwrapLoop_of_not_tainted hr n

/-- An assignment to a cell is read back through the cell. -/
theorem dereferenceValue_setCell (hr : h.get? r = some (.scalarCell v w))
    (hvalue : h.isCell value = false) :
    (h.set r (.scalarCell value w)).dereferenceValue (.obj r) = value := by
  have hcell : (h.set r (.scalarCell value w)).isCell value = false := by
    rwa [isCell_setCell hr]
  obtain ⟨n, hn⟩ := Nat.exists_eq_succ_of_ne_zero (length_ne_zero hr)
  have hself : (h.set r (.scalarCell value w)).get? r = some (.scalarCell value w) := by
    rw [get?_set hr, if_pos rfl]
  unfold Heap.dereferenceValue
  rw [length_set, hn, Nat.succ_eq_add_one, derefLoop, hself]
  exact derefLoop_of_not_cell hcell n

end Heap

end Slp
