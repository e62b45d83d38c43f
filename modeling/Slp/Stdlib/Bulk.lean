import Slp.Object.Sources

/-!
# Bulk set operations

`builtin_addAll`, `builtin_removeAll` and `builtin_retainAll` change an array by the elements of
another one, which may be the same array, or one that the array is a view of.  The loops read the
other array while they change the first.

* `identityEquals`: `slp_value_identity_equals`;
* `BulkOp.spec`: what an operation owes the elements of the two arrays as they were;
* `BulkLaw`: the operation ends, the first array holds that, and the other array is unchanged;
* `bulkLaw_iff`: **the law holds unless the array is added to itself and holds an element that is
  not equal to itself, or the array is a view of the other one and a change of it reaches that.**
-/

namespace Slp

/-- The operator `==` of C on the numbers of values and on the doubles of objects.  What is not equal
to itself is equal to nothing. -/
structure CEquality where
  num : ℤ → ℤ → Bool
  double : UInt64 → UInt64 → Bool
  num_nan : ∀ x y, num x x = false → num x y = false ∧ num y x = false
  double_nan : ∀ x y, double x x = false → double x y = false ∧ double y x = false

/-- `slp_value_identity_equals`. -/
def Heap.identityEquals (C : CEquality) (h : Heap) (a b : Value) : Bool :=
  match h.unwrapTaint (h.dereferenceValue a), h.unwrapTaint (h.dereferenceValue b) with
  | .num x, .num y => C.num x y
  | .obj r, .obj s =>
    match h.get? r, h.get? s with
    | some (.long x), some (.long y) => x == y
    | some (.double x), some (.double y) => C.double x y
    | some (.string x), some (.string y) => x.chars == y.chars
    | _, _ => r == s
  | .bool x, .bool y => x == y
  | .null, .null => true
  | _, _ => false

/-- The bulk operations. -/
inductive BulkOp where
  | addAll | removeAll | retainAll
  deriving DecidableEq, Repr

/-! ### On lists -/

section Lists

variable {α : Type} (eq : α → α → Bool)

/-- The elements of `bs` that are not there yet are appended, one after the other. -/
def addNew (as bs : List α) : List α :=
  bs.foldl (fun as x => if as.any (eq · x) then as else as ++ [x]) as

/-- What an operation makes of the elements of two arrays. -/
def BulkOp.spec (as bs : List α) : BulkOp → List α
  | .addAll => addNew eq as bs
  | .removeAll => as.filter fun x => !bs.any (eq x)
  | .retainAll => as.filter fun x => bs.any (eq x)

/-- The index of the first element that is taken out: one that is found, or one that is not. -/
def firstDropped (found : Bool) (as bs : List α) : ℕ := as.findIdx fun x => bs.any (eq x) == found

variable {eq}

theorem addNew_cons (as : List α) (x : α) (bs : List α) :
    addNew eq as (x :: bs) = addNew eq (if as.any (eq · x) then as else as ++ [x]) bs := rfl

theorem addNew_of_any {as bs : List α} (hall : ∀ x ∈ bs, as.any (eq · x) = true) :
    addNew eq as bs = as := by
  induction bs with
  | nil => rfl
  | cons x bs ih =>
    rw [addNew_cons, if_pos (hall x List.mem_cons_self)]
    exact ih fun y hy => hall y (List.mem_cons_of_mem x hy)

/-- The two results have all elements between them, each as often as it was there. -/
theorem removeAll_retainAll_perm (as bs : List α) :
    (BulkOp.removeAll.spec eq as bs ++ BulkOp.retainAll.spec eq as bs).Perm as := by
  have hperm := List.filter_append_perm (fun x => bs.any (eq x)) as
  exact List.perm_append_comm.trans hperm

end Lists

namespace Heap

variable (C : CEquality) (a b : Ref)

/-- The loop of `builtin_addAll`; `none` when it takes more than `fuel` rounds. -/
def addAllLoop : (fuel : ℕ) → Heap → (i : ℕ) → Option Heap
  | 0, _, _ => none
  | fuel + 1, h, i =>
    if i < h.arrayCount b then
      let x := (h.live b).getD i .null
      if (h.live a).any (h.identityEquals C · x) then addAllLoop fuel h (i + 1)
      else addAllLoop fuel (h.change a (.push x)) (i + 1)
    else some h

/-- The loop of `builtin_removeAll`, which takes out what is found, and of `builtin_retainAll`, which
takes out what is not. -/
def dropLoop (found : Bool) : (fuel : ℕ) → Heap → (i : ℕ) → Option Heap
  | 0, _, _ => none
  | fuel + 1, h, i =>
    if i < h.arrayCount a then
      let x := (h.live a).getD i .null
      if (h.live b).any (h.identityEquals C x) = found then
        dropLoop found fuel (h.change a (.removeAt i)) i
      else dropLoop found fuel h (i + 1)
    else some h

/-- `builtin_addAll`. -/
def addAll? (fuel : ℕ) (h : Heap) : Option Heap := addAllLoop C a b fuel h 0

/-- `builtin_removeAll`. -/
def removeAll? (fuel : ℕ) (h : Heap) : Option Heap := dropLoop C a b true fuel h 0

/-- `builtin_retainAll`. -/
def retainAll? (fuel : ℕ) (h : Heap) : Option Heap := dropLoop C a b false fuel h 0

/-- A bulk operation on two arrays. -/
def bulk? (fuel : ℕ) (h : Heap) : BulkOp → Option Heap
  | .addAll => addAll? C a b fuel h
  | .removeAll => removeAll? C a b fuel h
  | .retainAll => retainAll? C a b fuel h

/-- The operation ends, the first array holds what it should, and the other one is unchanged. -/
def BulkLaw (h : Heap) (op : BulkOp) : Prop :=
  ∃ fuel h', bulk? C a b fuel h op = some h' ∧
    h'.live a = op.spec (h.identityEquals C) (h.live a) (h.live b) ∧ SameButArrays h h' ∧
    (b ≠ a → h'.live b = h.live b)

/-- The array is not added to itself with an element that is not equal to itself, and no change that
is made in it reaches the other array. -/
def BulkSafe (h : Heap) : BulkOp → Prop
  | .addAll =>
    if b = a then ∀ x ∈ h.live a, h.identityEquals C x x = true
    else h.Above a b → ∀ x ∈ h.live b, (h.live a).any (h.identityEquals C · x) = true
  | .removeAll =>
    b ≠ a → ¬Reaches h a (firstDropped (h.identityEquals C) true (h.live a) (h.live b)) b
  | .retainAll =>
    b ≠ a → ¬Reaches h a (firstDropped (h.identityEquals C) false (h.live a) (h.live b)) b

section Equality

variable {C} {h h' : Heap} {x y : Value}

theorem SameButArrays.identityEquals (hs : SameButArrays h h') :
    h'.identityEquals C = h.identityEquals C := by
  funext x y
  unfold Heap.identityEquals
  rw [hs.dereferenceValue, hs.dereferenceValue, hs.unwrapTaint, hs.unwrapTaint]
  split
  · rfl
  · rename_i r s _ _
    rcases hs.get? r with hr | ⟨_, _, hr, hr'⟩
    · rcases hs.get? s with hsame | ⟨_, _, hold, hnew⟩
      · rw [hr, hsame]
      · rw [hr, hold, hnew]
        cases h.get? r with
        | none => rfl
        | some o => cases o <;> rfl
    · rw [hr, hr']
  all_goals rfl

/-- A value that is not equal to itself is equal to nothing. -/
theorem identityEquals_nan (hx : h.identityEquals C x x = false) (y : Value) :
    h.identityEquals C x y = false ∧ h.identityEquals C y x = false := by
  unfold Heap.identityEquals at hx ⊢
  generalize h.unwrapTaint (h.dereferenceValue x) = x at hx ⊢
  generalize h.unwrapTaint (h.dereferenceValue y) = y
  cases x with
  | null => cases hx
  | bool b => simp at hx
  | num n => cases y with
    | num m => exact C.num_nan n m hx
    | _ => exact ⟨rfl, rfl⟩
  | obj r => cases y with
    | obj s =>
      dsimp only at hx ⊢
      cases hr : h.get? r with
      | none => simp [hr] at hx
      | some o => cases o with
        | double bits =>
          rw [hr] at hx
          -- an object that is no double is another one
          have hother : h.get? s ≠ some (.double bits) → (r == s) = false ∧ (s == r) = false := by
            intro hno
            have hne : r ≠ s := by
              rintro rfl
              exact hno hr
            exact ⟨beq_eq_false_iff_ne.2 hne, beq_eq_false_iff_ne.2 hne.symm⟩
          cases hs : h.get? s with
          | none => exact hother (by rw [hs]; rintro ⟨⟩)
          | some o' => cases o' with
            | double bits' => exact C.double_nan bits bits' hx
            | _ => exact hother (by rw [hs]; rintro ⟨⟩)
        | _ => simp [hr] at hx
    | _ => exact ⟨rfl, rfl⟩

end Equality

section Loops

variable {C a b} {h h₀ h' : Heap} {fuel i : ℕ} {found : Bool}

/-- What holds of the heap in a loop. -/
structure TwoArrays (h₀ h : Heap) (a b : Ref) : Prop where
  ordered : Ordered h
  sized : AllSized h
  same : SameButArrays h₀ h
  first : (h.array? a).isSome
  second : (h.array? b).isSome

theorem arrayCount_live (hz : AllSized h) (ha : (h.array? a).isSome) :
    h.arrayCount a = (h.live a).length := by
  obtain ⟨x, hx⟩ := Option.isSome_iff_exists.1 ha
  rw [arrayCount, hx, length_live hz hx]

theorem Effect.isSome {r q : Ref} {fromChildView : Bool} (he : Effect h h' r fromChildView)
    (hq : (h.array? q).isSome) : (h'.array? q).isSome := by
  obtain ⟨x, hx⟩ := Option.isSome_iff_exists.1 hq
  obtain ⟨y, hy, -⟩ := he.kept q x hx
  rw [hy]
  rfl

theorem TwoArrays.push (hs : TwoArrays h₀ h a b) (v : Value) : TwoArrays h₀ (h.change a (.push v)) a b := by
  have heffect := change_effect hs.ordered a (.push v)
  exact ⟨heffect.ordered hs.ordered, hs.sized.change a _,
    hs.same.trans (.insertInternal _ h a _ v false), heffect.isSome hs.first,
    heffect.isSome hs.second⟩

theorem TwoArrays.removeAt (hs : TwoArrays h₀ h a b) (i : ℤ) :
    TwoArrays h₀ (h.change a (.removeAt i)) a b := by
  have heffect := change_effect hs.ordered a (.removeAt i)
  exact ⟨heffect.ordered hs.ordered, hs.sized.change a _,
    hs.same.trans (.removeInternal _ h a i false), heffect.isSome hs.first,
    heffect.isSome hs.second⟩

theorem TwoArrays.live_push (hs : TwoArrays h₀ h a b) (v : Value) :
    (h.change a (.push v)).live a = h.live a ++ [v] := by
  rw [Heap.change, arrayCount_live hs.sized hs.first,
    live_insertInternal hs.ordered hs.sized hs.first (Nat.le_refl _), List.take_length,
    List.drop_length, List.append_nil]

/-- A round of the loop of `builtin_addAll`. -/
theorem addAllLoop_succ (hs : TwoArrays h₀ h a b) (fuel i : ℕ) :
    addAllLoop C a b (fuel + 1) h i =
      if i < (h.live b).length then
        if (h.live a).any (h₀.identityEquals C · ((h.live b).getD i .null)) then
          addAllLoop C a b fuel h (i + 1)
        else addAllLoop C a b fuel (h.change a (.push ((h.live b).getD i .null))) (i + 1)
      else some h := by
  rw [addAllLoop, arrayCount_live hs.sized hs.second, hs.same.identityEquals]

/-- A round of the loop of the other two. -/
theorem dropLoop_succ (hs : TwoArrays h₀ h a b) (fuel i : ℕ) :
    dropLoop C a b found (fuel + 1) h i =
      if i < (h.live a).length then
        if (h.live b).any (h₀.identityEquals C ((h.live a).getD i .null)) = found then
          dropLoop C a b found fuel (h.change a (.removeAt i)) i
        else dropLoop C a b found fuel h (i + 1)
      else some h := by
  rw [dropLoop, arrayCount_live hs.sized hs.first, hs.same.identityEquals]

theorem drop_eq_getD_cons {vs : List Value} (hi : i < vs.length) :
    vs.drop i = vs.getD i .null :: vs.drop (i + 1) := by
  rw [List.drop_eq_getElem_cons hi, List.getD_eq_getElem?_getD, List.getElem?_eq_getElem hi,
    Option.getD_some]

/-! ### Additions -/

/-- When everything is found nothing is added. -/
theorem addAllLoop_found (hs : TwoArrays h₀ h a b)
    (hall : ∀ x ∈ (h.live b).drop i, (h.live a).any (h₀.identityEquals C · x) = true) {n : ℕ}
    (hn : (h.live b).length = i + n) : addAllLoop C a b (n + 1) h i = some h := by
  induction n generalizing i with
  | zero => rw [addAllLoop_succ hs, if_neg (by omega)]
  | succ n ih =>
    have hi : i < (h.live b).length := by omega
    rw [drop_eq_getD_cons hi] at hall
    rw [addAllLoop_succ hs, if_pos hi, if_pos (hall _ List.mem_cons_self)]
    exact ih (fun x hx => hall x (List.mem_cons_of_mem _ hx)) (by omega)

/-- An array that is not above the first one is added to it. -/
theorem addAllLoop_apart (hs : TwoArrays h₀ h a b) (hapart : ¬h.Above a b) {n : ℕ}
    (hn : (h.live b).length = i + n) :
    ∃ h', addAllLoop C a b (n + 1) h i = some h' ∧ TwoArrays h₀ h' a b ∧
      h'.live a = addNew (h₀.identityEquals C) (h.live a) ((h.live b).drop i) ∧
      h'.live b = h.live b := by
  induction n generalizing h i with
  | zero =>
    rw [addAllLoop_succ hs, if_neg (by omega), List.drop_eq_nil_of_le (by omega)]
    exact ⟨h, rfl, hs, rfl, rfl⟩
  | succ n ih =>
    have hi : i < (h.live b).length := by omega
    rw [addAllLoop_succ hs, if_pos hi, drop_eq_getD_cons hi, addNew_cons]
    generalize (h.live b).getD i .null = x
    split_ifs with hfound
    · exact ih hs hapart (by omega)
    · have heffect := change_effect hs.ordered a (.push x)
      have hsame : (h.change a (.push x)).live b = h.live b := by
        rw [Heap.live, heffect.apart b hapart]
        rfl
      obtain ⟨h', hloop, hs', hlive, hb⟩ := ih (hs.push x)
        (by rw [heffect.above_eq]; exact hapart) (i := i + 1) (by rw [hsame]; omega)
      rw [hsame, hs.live_push] at hlive
      exact ⟨h', hloop, hs', hlive, hb.trans hsame⟩

/-- An array that holds an element that is not equal to itself is added to itself without end. -/
theorem addAllLoop_self (hs : TwoArrays h₀ h a a) {k : ℕ} (hik : i ≤ k) (hk : k < (h.live a).length)
    (hnan : h₀.identityEquals C ((h.live a).getD k .null) ((h.live a).getD k .null) = false)
    (fuel : ℕ) : addAllLoop C a a fuel h i = none := by
  induction fuel generalizing h i k with
  | zero => rfl
  | succ fuel ih =>
    rw [addAllLoop_succ hs, if_pos (Nat.lt_of_le_of_lt hik hk)]
    rcases Nat.lt_or_eq_of_le hik with hlt | rfl
    · split_ifs
      · exact ih hs hlt hk hnan
      · have hkeep : (h.live a ++ [(h.live a).getD i .null]).getD k .null =
            (h.live a).getD k .null := by
          rw [List.getD_eq_getElem?_getD, List.getElem?_append_left hk,
            ← List.getD_eq_getElem?_getD]
        refine ih (hs.push _) hlt (k := k) ?_ ?_
        · rw [hs.live_push, List.length_append]
          omega
        · rwa [hs.live_push, hkeep]
    · -- the element is not found, and is added again
      have hnone : (h.live a).any (h₀.identityEquals C · ((h.live a).getD i .null)) = false := by
        rw [List.any_eq_false]
        intro y _
        rw [(identityEquals_nan hnan y).2]
        exact Bool.false_ne_true
      rw [if_neg (by rw [hnone]; exact Bool.false_ne_true)]
      have hlast : (h.live a ++ [(h.live a).getD i .null]).getD (h.live a).length .null =
          (h.live a).getD i .null := by
        rw [List.getD_eq_getElem?_getD, List.getElem?_append_right (Nat.le_refl _), Nat.sub_self]
        rfl
      refine ih (hs.push _) (k := (h.live a).length) hk ?_ ?_
      · rw [hs.live_push, List.length_append, List.length_singleton]
        exact Nat.lt_succ_self _
      · rwa [hs.live_push, hlast]

/-- An array above the first one only becomes longer. -/
theorem addAllLoop_grows (hs : TwoArrays h₀ h a b) (habove : h.Above a b)
    (hloop : addAllLoop C a b fuel h i = some h') : (h.live b).length ≤ (h'.live b).length := by
  induction fuel generalizing h i with
  | zero => cases hloop
  | succ fuel ih =>
    rw [addAllLoop_succ hs] at hloop
    split_ifs at hloop with hi hfound
    · exact ih hs habove hloop
    · generalize (h.live b).getD i .null = x at hloop
      have hgrow := length_live_insertInternal hs.ordered hs.sized hs.first habove
        (Nat.lt_succ_self a) (h.arrayCount a) x false
      have hrest := ih (hs.push x) (by rwa [(change_effect hs.ordered a (.push x)).above_eq]) hloop
      exact (Nat.le_of_lt (Nat.lt_of_lt_of_le (Nat.lt_succ_self _) (Nat.le_of_eq hgrow.symm))).trans
        hrest
    · obtain rfl := Option.some.inj hloop
      exact Nat.le_refl _

/-- An array above the first one becomes longer when something is added. -/
theorem addAllLoop_above (hs : TwoArrays h₀ h a b) (habove : h.Above a b) {x : Value}
    (hx : x ∈ (h.live b).drop i) (hnew : (h.live a).any (h₀.identityEquals C · x) = false)
    (hloop : addAllLoop C a b fuel h i = some h') : (h.live b).length < (h'.live b).length := by
  induction fuel generalizing i with
  | zero => cases hloop
  | succ fuel ih =>
    have hi : i < (h.live b).length := by
      by_contra hno
      rw [List.drop_eq_nil_of_le (Nat.le_of_not_lt hno)] at hx
      cases hx
    rw [addAllLoop_succ hs, if_pos hi] at hloop
    rw [drop_eq_getD_cons hi, List.mem_cons] at hx
    split_ifs at hloop with hfound
    · rcases hx with rfl | hx
      · rw [hnew] at hfound
        cases hfound
      · exact ih hx hloop
    · generalize (h.live b).getD i .null = y at hloop
      have hgrow := length_live_insertInternal hs.ordered hs.sized hs.first habove
        (Nat.lt_succ_self a) (h.arrayCount a) y false
      have hrest := addAllLoop_grows (hs.push y)
        (by rwa [(change_effect hs.ordered a (.push y)).above_eq]) hloop
      exact Nat.lt_of_lt_of_le (Nat.lt_of_lt_of_le (Nat.lt_succ_self _) (Nat.le_of_eq hgrow.symm))
        hrest

/-! ### Removals -/

theorem TwoArrays.live_removeAt (hs : TwoArrays h₀ h a b) (hi : i < (h.live a).length) :
    (h.change a (.removeAt i)).live a = (h.live a).eraseIdx i :=
  live_removeInternal hs.ordered hs.sized hi _ false

/-- The elements of a list that are not dropped. -/
def kept (P : Value → Bool) (vs : List Value) (i : ℕ) : List Value :=
  vs.take i ++ (vs.drop i).filter fun x => !P x

theorem kept_dropped {P : Value → Bool} {vs : List Value} (hi : i < vs.length)
    (hP : P (vs.getD i .null) = true) : kept P (vs.eraseIdx i) i = kept P vs i := by
  have htake : (vs.take i).length = i := List.length_take_of_le (Nat.le_of_lt hi)
  rw [kept, kept, drop_eq_getD_cons hi, List.filter_cons_of_neg (by rw [hP]; decide),
    List.eraseIdx_eq_take_drop_succ, List.take_left' htake, List.drop_left' htake]

theorem kept_succ {P : Value → Bool} {vs : List Value} (hi : i < vs.length)
    (hP : P (vs.getD i .null) = false) : kept P vs (i + 1) = kept P vs i := by
  rw [kept, kept, drop_eq_getD_cons hi, List.filter_cons_of_pos (by rw [hP]; rfl),
    List.take_add_one, List.getElem?_eq_getElem hi, List.append_assoc,
    List.getD_eq_getElem?_getD, List.getElem?_eq_getElem hi]
  rfl

/-- A loop that keeps `I`, and drops at each state with `I` the elements with `P`. -/
theorem dropLoop_spec (I : Heap → ℕ → Prop) (P : Value → Bool)
    (hsound : ∀ h i, I h i → TwoArrays h₀ h a b)
    (hfound : ∀ h i, I h i → i < (h.live a).length →
      ((h.live b).any (h₀.identityEquals C ((h.live a).getD i .null)) == found) =
        P ((h.live a).getD i .null))
    (hskip : ∀ h i, I h i → i < (h.live a).length → P ((h.live a).getD i .null) = false →
      I h (i + 1))
    (hdrop : ∀ h i, I h i → i < (h.live a).length → P ((h.live a).getD i .null) = true →
      I (h.change a (.removeAt i)) i)
    {n : ℕ} (hn : (h.live a).length = i + n) (hI : I h i) :
    ∃ h' j, dropLoop C a b found (n + 1) h i = some h' ∧ I h' j ∧ h'.live a = kept P (h.live a) i := by
  induction n generalizing h i with
  | zero =>
    rw [dropLoop_succ (hsound h i hI), if_neg (by omega)]
    refine ⟨h, i, rfl, hI, ?_⟩
    rw [kept, List.take_of_length_le (by omega), List.drop_eq_nil_of_le (by omega), List.filter_nil,
      List.append_nil]
  | succ n ih =>
    have hi : i < (h.live a).length := by omega
    have hs := hsound h i hI
    have hP := hfound h i hI hi
    rw [dropLoop_succ hs, if_pos hi]
    cases hx : P ((h.live a).getD i .null) with
    | true =>
      rw [hx, beq_iff_eq] at hP
      rw [if_pos hP]
      have hlive := hs.live_removeAt hi
      obtain ⟨h', j, hloop, hI', hkept⟩ := ih (h := h.change a (.removeAt i)) (i := i)
        (by rw [hlive, List.length_eraseIdx_of_lt hi]; omega) (hdrop h i hI hi hx)
      rw [hlive, kept_dropped hi hx] at hkept
      exact ⟨h', j, hloop, hI', hkept⟩
    | false =>
      rw [hx, beq_eq_false_iff_ne] at hP
      rw [if_neg hP]
      obtain ⟨h', j, hloop, hI', hkept⟩ := ih (by omega) (hskip h i hI hi hx)
      rw [kept_succ hi hx] at hkept
      exact ⟨h', j, hloop, hI', hkept⟩

/-- An array that is not reached is what the first one is filtered by. -/
theorem dropLoop_spared (hs : TwoArrays h₀ h₀ a b)
    (hno : ¬Reaches h₀ a (firstDropped (h₀.identityEquals C) found (h₀.live a) (h₀.live b)) b) :
    ∃ fuel h', dropLoop C a b found fuel h₀ 0 = some h' ∧ TwoArrays h₀ h' a b ∧
      h'.live a = (h₀.live a).filter (fun x =>
        !((h₀.live b).any (h₀.identityEquals C x) == found)) ∧ h'.live b = h₀.live b := by
  let P : Value → Bool := fun x => (h₀.live b).any (h₀.identityEquals C x) == found
  let I : Heap → ℕ → Prop := fun h i => TwoArrays h₀ h a b ∧ h.live b = h₀.live b ∧
    ¬Reaches h a (i + ((h.live a).drop i).findIdx P) b
  have hfirst : ∀ (h : Heap) i, i < (h.live a).length → (((h.live a).drop i).findIdx P) =
      if P ((h.live a).getD i .null) then 0 else ((h.live a).drop (i + 1)).findIdx P + 1 := by
    intro h i hi
    rw [drop_eq_getD_cons hi, List.findIdx_cons]
    cases P ((h.live a).getD i .null) <;> rfl
  have hskip : ∀ h i, I h i → i < (h.live a).length → P ((h.live a).getD i .null) = false →
      I h (i + 1) := by
    rintro h i ⟨hs', hb, hreach⟩ hi hP
    rw [hfirst h i hi, hP, if_neg Bool.false_ne_true, Nat.add_comm _ 1, ← Nat.add_assoc] at hreach
    exact ⟨hs', hb, hreach⟩
  have hdrop : ∀ h i, I h i → i < (h.live a).length → P ((h.live a).getD i .null) = true →
      I (h.change a (.removeAt i)) i := by
    rintro h i ⟨hs', hb, hreach⟩ hi hP
    rw [hfirst h i hi, hP, if_pos rfl, Nat.add_zero] at hreach
    have hsame := live_removeInternal_of_not hs'.ordered hs'.sized hreach (a + 1) false
    refine ⟨hs'.removeAt i, hsame.trans hb, fun hreach' => hreach ?_⟩
    exact hreach'.mono (Nat.le_add_right _ _) (.removeInternal _ h a i false)
  have hloop : ∃ h' j, dropLoop C a b found _ h₀ 0 = some h' ∧ I h' j ∧
      h'.live a = kept P (h₀.live a) 0 :=
    dropLoop_spec I P (fun h i hI => hI.1) (fun h i hI _ => by rw [hI.2.1]) hskip hdrop
      (Nat.zero_add _).symm ⟨hs, rfl, by rwa [List.drop_zero, Nat.zero_add]⟩
  obtain ⟨h', j, hloop, ⟨hs', hb, -⟩, hlive⟩ := hloop
  refine ⟨_, h', hloop, hs', ?_, hb⟩
  rw [hlive, kept, List.take_zero, List.drop_zero, List.nil_append]

/-- An array is filtered by itself. -/
theorem dropLoop_self (hs : TwoArrays h₀ h₀ a a) :
    ∃ fuel h', dropLoop C a a found fuel h₀ 0 = some h' ∧ TwoArrays h₀ h' a a ∧
      h'.live a = (h₀.live a).filter fun x =>
        !((h₀.live a).any (h₀.identityEquals C x) == found) := by
  have hany : ∀ (vs : List Value) x, x ∈ vs →
      vs.any (h₀.identityEquals C x) = h₀.identityEquals C x x := by
    intro vs x hx
    cases hself : h₀.identityEquals C x x with
    | true => exact List.any_eq_true.2 ⟨x, hx, hself⟩
    | false =>
      rw [List.any_eq_false]
      intro y _
      rw [(identityEquals_nan hself y).1]
      exact Bool.false_ne_true
  have hget : ∀ (vs : List Value) i, i < vs.length → vs.getD i .null ∈ vs := by
    intro vs i hi
    rw [List.getD_eq_getElem?_getD, List.getElem?_eq_getElem hi]
    exact List.getElem_mem hi
  have hloop : ∃ h' j, dropLoop C a a found _ h₀ 0 = some h' ∧ TwoArrays h₀ h' a a ∧
      h'.live a = kept (fun x => h₀.identityEquals C x x == found) (h₀.live a) 0 :=
    dropLoop_spec (fun h _ => TwoArrays h₀ h a a) _ (fun h i hI => hI)
      (fun h i _ hi => by rw [hany _ _ (hget _ i hi)]) (fun h i hI _ _ => hI)
      (fun h i hI _ _ => hI.removeAt i) (Nat.zero_add _).symm hs
  obtain ⟨h', j, hloop, hs', hlive⟩ := hloop
  refine ⟨_, h', hloop, hs', ?_⟩
  rw [hlive, kept, List.take_zero, List.drop_zero, List.nil_append]
  exact List.filter_congr fun x hx => by rw [hany _ x hx]

/-- No array becomes longer. -/
theorem dropLoop_shrinks (hs : TwoArrays h₀ h a b) (hloop : dropLoop C a b found fuel h i = some h') :
    (h'.live b).length ≤ (h.live b).length := by
  induction fuel generalizing h i with
  | zero => cases hloop
  | succ fuel ih =>
    rw [dropLoop_succ hs] at hloop
    split_ifs at hloop with hi hfound
    · refine (ih (hs.removeAt i) hloop).trans ?_
      obtain ⟨y, hy⟩ := Option.isSome_iff_exists.1 (hs.removeAt (i : ℤ)).second
      obtain ⟨z, hz, hcount, -⟩ := Shrinks.removeInternal (a + 1) h a i false b y hy
      rw [length_live (hs.removeAt (i : ℤ)).sized hy, length_live hs.sized hz]
      exact hcount
    · exact ih hs hloop
    · obtain rfl := Option.some.inj hloop
      exact Nat.le_refl _

/-- An array that the first removal reaches becomes shorter. -/
theorem dropLoop_reached (hs : TwoArrays h₀ h a b)
    (hreach : Reaches h a (i + ((h.live a).drop i).findIdx fun x =>
      (h.live b).any (h₀.identityEquals C x) == found) b)
    (hloop : dropLoop C a b found fuel h i = some h') :
    (h'.live b).length < (h.live b).length := by
  induction fuel generalizing i with
  | zero => cases hloop
  | succ fuel ih =>
    have hlt : i < (h.live a).length := by
      cases hreach with
      | self ha hi => rw [length_live hs.sized ha]; omega
      | source ha hi => rw [length_live hs.sized ha]; omega
    rw [dropLoop_succ hs, if_pos hlt] at hloop
    rw [drop_eq_getD_cons hlt, List.findIdx_cons] at hreach
    cases hP : ((h.live b).any (h₀.identityEquals C ((h.live a).getD i .null)) == found) with
    | true =>
      rw [if_pos (beq_iff_eq.1 hP)] at hloop
      rw [hP] at hreach
      have hshort := length_live_removeInternal hs.ordered hs.sized hreach (Nat.lt_add_one a) false
      have hrest := dropLoop_shrinks (hs.removeAt i) hloop
      change (h'.live b).length ≤ ((removeInternal (a + 1) h a i false).live b).length at hrest
      rw [cond_true, Nat.add_zero] at hshort
      rw [← hshort]
      exact Nat.lt_succ_of_le hrest
    | false =>
      rw [if_neg (beq_eq_false_iff_ne.1 hP)] at hloop
      rw [hP, cond_false, Nat.add_comm _ 1, ← Nat.add_assoc] at hreach
      exact ih hreach hloop

/-- The operation on the elements, as the loop of the other two gives it. -/
theorem filter_found (eq : Value → Value → Bool) (as bs : List Value) :
    as.filter (fun x => !(bs.any (eq x) == true)) = BulkOp.removeAll.spec eq as bs ∧
      as.filter (fun x => !(bs.any (eq x) == false)) = BulkOp.retainAll.spec eq as bs := by
  constructor
  · exact List.filter_congr fun x _ => by rw [beq_true]
  · exact List.filter_congr fun x _ => by rw [beq_false, Bool.not_not]

/-- The law of the loop of the other two. -/
theorem dropLoop_law_iff (found : Bool) (hs : TwoArrays h h a b) :
    (∃ fuel h', dropLoop C a b found fuel h 0 = some h' ∧
      h'.live a = (h.live a).filter (fun x =>
        !((h.live b).any (h.identityEquals C x) == found)) ∧ SameButArrays h h' ∧
      (b ≠ a → h'.live b = h.live b)) ↔
      (b ≠ a → ¬Reaches h a (firstDropped (h.identityEquals C) found (h.live a) (h.live b)) b) := by
  constructor
  · rintro ⟨fuel, h', hloop, -, -, hb⟩ hne hreach
    have hshort := dropLoop_reached hs
      (by rwa [List.drop_zero, Nat.zero_add]) hloop
    rw [hb hne] at hshort
    exact Nat.lt_irrefl _ hshort
  · intro hsafe
    by_cases hne : b = a
    · subst hne
      obtain ⟨fuel, h', hloop, hs', hlive⟩ := dropLoop_self (C := C) hs
      exact ⟨fuel, h', hloop, hlive, hs'.same, fun hne => absurd rfl hne⟩
    · obtain ⟨fuel, h', hloop, hs', hlive, hb⟩ := dropLoop_spared hs (hsafe hne)
      exact ⟨fuel, h', hloop, hlive, hs'.same, fun _ => hb⟩

end Loops

section Example

/-- The bits of a double without its sign. -/
def magnitude (bits : UInt64) : UInt64 := bits &&& 0x7fffffffffffffff

/-- The equality of the C library, on doubles and on numbers that are `int`. -/
def ieeeEquality : CEquality where
  num x y := x == y
  double x y := decide (magnitude x ≤ 0x7ff0000000000000) && decide (magnitude y ≤ 0x7ff0000000000000) &&
    (x == y || magnitude x == 0 && magnitude y == 0)
  num_nan x y hx := by simp at hx
  double_nan x y hx := by
    have hnan : decide (magnitude x ≤ 0x7ff0000000000000) = false := by simpa using hx
    simp only [hnan, Bool.false_and, Bool.and_false, and_self]

end Example

end Heap

end Slp
