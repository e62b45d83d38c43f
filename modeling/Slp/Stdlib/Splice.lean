import Slp.Object.Room
import Slp.Stdlib.Bulk
import Slp.Stdlib.Indexes

/-!
# Parts of an array by their indexes

`sublist`, `add` and `splice`.  The changes are insertions and removals of one element after the other,
which go through to the arrays that the array is a view of.

* `sublist?`, `add?`, `splice?`: the functions, none where an operation overflows;
* `ArrayLaw`: the elements are the slice or the splice;
* `indexLaw_iff`: **a call with an index has the result that the index asks for if and only if what it
  computes fits: for a string the sums and the lengths, for an array the end of what is replaced and
  the number of elements.**
-/

namespace Slp

open Slice CInt

namespace Heap

/-- The result of `builtin_sublist`: a view, or null, with a warning if the start is behind the end. -/
inductive Sublist where
  | illegal (message : Bytes)
  | null
  | view (h : Heap) (v : Ref)

/-- The elements of the view. -/
def Sublist.elements : Sublist → Option (List Value)
  | .view h v => some (h.live v)
  | _ => none

/-- The result of `builtin_add`: the array with one more element, or null with a warning. -/
inductive Added where
  | invalid (message : Bytes)
  | array (h : Heap)

/-- The elements of the array. -/
def Added.elements (r : Ref) : Added → Option (List Value)
  | .array h => some (h.live r)
  | .invalid _ => none

section

variable (h : Heap) (r : Ref)

/-- `builtin_sublist`, for the text of the array. -/
def sublist? (arrayText : Bytes) (originalStart : ℤ) (originalEnd : Option ℤ) : Option Sublist := do
  let count : ℤ := h.arrayCount r
  let originalEnd := originalEnd.getD count
  let start ← normalizeStringIndex? originalStart count
  let stop ← normalizeStringIndex? originalEnd count
  let stop := min stop count
  if start > stop then
    return .illegal ((ascii "illegal subarray(" ++ cstring arrayText ++ ascii ", " ++
      decimal originalStart ++ ascii " -> " ++ decimal start ++ ascii ", " ++
      decimal originalEnd ++ ascii " -> " ++ decimal stop ++ ascii ")").take (arrayText.length + 127))
  match h.sublist r originalStart originalEnd with
  | some (h', v) => return .view h' v
  | none => return .null

/-- `slp_obj_array_insert`. -/
def insert? (index : ℤ) (v : Value) : Option Heap :=
  if hasRoom (r + 1) h r 0 0 1 then some (h.change r (.insert index v)) else none

/-- The index of `builtin_add`: one below zero counts from behind the last element. -/
def addIndex? (count index : ℤ) : Option ℤ :=
  if index < 0 then (checked (count + 1)).bind fun size => checked (index + size) else some index

/-- `builtin_add` of a value to an array. -/
def add? (v : Value) (index : Option ℤ) : Option Added := do
  let count : ℤ := h.arrayCount r
  let index ← addIndex? count (index.getD 0)
  if index < 0 ∨ index > count then
    return .invalid (ascii "attempted an invalid index: Index: " ++ decimal index ++ ascii ", Size: " ++
      decimal count)
  (insert? h r index v).map .array

/-- `idx` of `builtin_splice`, in the array. -/
def spliceIndex? (count idx : ℤ) : Option ℤ :=
  (if idx < 0 then checked (count + idx) else some idx).map fun idx => min (max idx 0) count

/-- The first loop of `builtin_splice`. -/
def removeRun (idx : ℕ) : (len : ℕ) → Heap → Heap
  | 0, h => h
  | len + 1, h => removeRun idx len (h.change r (.removeAt idx))

/-- The second loop. -/
def insertRun? : (idx : ℕ) → (replacement : List Value) → Heap → Option Heap
  | _, [], h => some h
  | idx, v :: replacement, h => (insert? h r idx v).bind (insertRun? (idx + 1) replacement)

/-- `builtin_splice` of the elements of the array at `p`. -/
def splice? (p : Ref) (idx len : Option ℤ) : Option Heap := do
  let count : ℤ := h.arrayCount r
  let idx ← spliceIndex? count (idx.getD 0)
  let len ← removed? count idx (max (len.getD (h.arrayCount p)) 0)
  insertRun? r idx.toNat (h.live p) (removeRun r idx.toNat len.toNat h)

end

end Heap

/-- A call of one of the functions; an argument that is no number is none. -/
inductive ArrayCall where
  | sublist (start : CInt) (stop : Option CInt)
  | add (v : Value) (index : Option CInt)
  | splice (idx len : Option CInt)

section

variable (h : Heap) (r p : Ref) (arrayText : Bytes)

/-- Where an element is added. -/
def addPosition (count : ℕ) (index : ℤ) : ℤ := position (count + 1) index

/-- Where elements are replaced: in the array. -/
def splicePosition (count : ℕ) (idx : ℤ) : ℕ := (min (max (position count idx) 0) count).toNat

/-- A call has the result that its indexes ask for. -/
def ArrayLaw : ArrayCall → Prop
  | .sublist start stop => (h.sublist? r arrayText start (argument stop)).map Heap.Sublist.elements =
      some (slice (h.live r) start ((argument stop).getD (h.live r).length))
  | .add v index =>
    let i := addPosition (h.live r).length ((argument index).getD 0)
    (h.add? r v (argument index)).map (Heap.Added.elements r) =
      some (if 0 ≤ i ∧ i ≤ (h.live r).length then some (splice (h.live r) [v] i.toNat 0) else none)
  | .splice idx len =>
    (h.splice? r p (argument idx) (argument len)).map (fun h' => h'.live r) =
      some (splice (h.live r) (h.live p) (splicePosition (h.live r).length ((argument idx).getD 0))
        ((argument len).getD (h.live p).length).toNat)

/-- What is computed in a call fits: the end of what is replaced is an `int`, and there is room for the
elements. -/
def ArrayFits : ArrayCall → Prop
  | .sublist _ _ => True
  | .add _ index =>
    let i := addPosition (h.live r).length ((argument index).getD 0)
    0 ≤ i ∧ i ≤ (h.live r).length → Heap.hasRoom (r + 1) h r 0 0 1
  | .splice idx len =>
    let first := splicePosition (h.live r).length ((argument idx).getD 0)
    let count := ((argument len).getD (h.live p).length).toNat
    first + count < 2147483648 ∧ (h.live p ≠ [] →
      Heap.hasRoom (r + 1) h r first (min count ((h.live r).length - first)) (h.live p).length)

end

/-! ### Sums -/

section

variable {n : ℕ}

theorem isInt_natCast (hn : n < 2147483648) : IsInt n := ⟨by omega, by omega⟩

/-- An index is counted without an overflow. -/
theorem normalizeStringIndex?_position (hn : n < 2147483648) {i : ℤ} (hi : IsInt i) :
    normalizeStringIndex? i n = some (position n i) := normalizeStringIndex?_eq ⟨i, hi⟩ hn

theorem isInt_getD {default : ℤ} (arg : Option CInt) (hdefault : IsInt default) :
    IsInt ((argument arg).getD default) := by
  cases arg with
  | none => exact hdefault
  | some i => exact i.2

theorem addIndex?_eq (hn : n + 1 < 2147483648) {i : ℤ} (hi : IsInt i) :
    Heap.addIndex? n i = some (addPosition n i) := by
  have hleast := hi.1
  unfold Heap.addIndex? addPosition position
  split_ifs with hneg
  · rw [checked_of_isInt ⟨by omega, by omega⟩, Option.bind_some, checked_of_isInt ⟨by omega, by omega⟩]
    rfl
  · rfl

theorem spliceIndex?_eq (hn : n < 2147483648) {i : ℤ} (hi : IsInt i) :
    Heap.spliceIndex? n i = some (splicePosition n i : ℤ) := by
  have hleast := hi.1
  unfold Heap.spliceIndex? splicePosition position
  rw [Int.toNat_of_nonneg (le_min (le_max_right _ _) (Int.natCast_nonneg n))]
  split_ifs with hneg
  · rw [checked_of_isInt ⟨by omega, by omega⟩, Option.map_some, add_comm]
  · rfl

theorem splicePosition_le (n : ℕ) (i : ℤ) : splicePosition n i ≤ n := by
  unfold splicePosition
  omega

end

namespace Heap

/-! ### Runs of insertions and of removals -/

section

variable {h : Heap} {r p : Ref} {arrayText : Bytes} {i k : ℕ}

/-- What is known of an array before a change of it. -/
structure Changeable (h : Heap) (r : Ref) : Prop where
  ordered : Ordered h
  sized : AllSized h
  present : (h.array? r).isSome

theorem Changeable.change (hc : Changeable h r) (op : ArrayOp) : Changeable (h.change r op) r where
  ordered := (change_effect hc.ordered r op).ordered hc.ordered
  sized := hc.sized.change r op
  present := (change_effect hc.ordered r op).isSome hc.present

/-- The first loop takes out what is to be replaced. -/
theorem Changeable.removeRun (hc : Changeable h r) (hin : i + k ≤ (h.live r).length) :
    Changeable (removeRun r i k h) r ∧
      (removeRun r i k h).live r = (h.live r).take i ++ (h.live r).drop (i + k) ∧
      ∀ n, hasRoom (r + 1) (removeRun r i k h) r i 0 n = hasRoom (r + 1) h r i k n := by
  induction k generalizing h with
  | zero => exact ⟨hc, (List.take_append_drop i _).symm, fun _ => rfl⟩
  | succ k ih =>
    have hlive : (h.change r (.removeAt i)).live r = (h.live r).eraseIdx i :=
      live_removeInternal hc.ordered hc.sized (by omega) r false
    have hlength := congrArg List.length hlive
    rw [List.length_eraseIdx_of_lt (by omega)] at hlength
    obtain ⟨hc', hrest, hroom⟩ := ih (hc.change (.removeAt i)) (by omega)
    refine ⟨hc', ?_, fun n => (hroom n).trans (hasRoom_removeInternal hc.ordered)⟩
    rw [Heap.removeRun, hrest, hlive, List.eraseIdx_eq_take_drop_succ]
    have htake : ((h.live r).take i).length = i := by
      rw [List.length_take]
      omega
    rw [List.take_left' htake, ← List.drop_drop, List.drop_left' htake, List.drop_drop,
      show i + 1 + k = i + (k + 1) by omega]

/-- The second loop puts in the replacement, if there is room for it. -/
theorem Changeable.insertRun? (hc : Changeable h r) (vs : List Value) (hi : i ≤ (h.live r).length)
    (l : ℕ) :
    (insertRun? r i vs h).map (fun h' => h'.live r) =
      if vs = [] ∨ hasRoom (r + 1) h r l 0 vs.length then
        some ((h.live r).take i ++ vs ++ (h.live r).drop i)
      else none := by
  induction vs generalizing h i with
  | nil =>
    rw [if_pos (.inl rfl), List.append_nil, List.take_append_drop]
    rfl
  | cons v vs ih =>
    have hstep : ∀ n, (hasRoom (r + 1) h r 0 0 1 &&
        hasRoom (r + 1) (h.change r (.insert i v)) r l 0 n) = hasRoom (r + 1) h r l 0 (n + 1) :=
      fun n => hasRoom_insertInternal hc.ordered 0 l l i v
    have hlive : (h.change r (.insert i v)).live r = (h.live r).take i ++ [v] ++ (h.live r).drop i :=
      live_insertInternal hc.ordered hc.sized hc.present hi r v false
    rw [Heap.insertRun?, insert?, List.length_cons, ← hstep]
    by_cases hroom : hasRoom (r + 1) h r 0 0 1 = true
    · have htake : ((h.live r).take i ++ [v]).length = i + 1 := by
        rw [List.length_append, List.length_take, List.length_singleton]
        omega
      -- there is room for no more elements
      have hnone : hasRoom (r + 1) (h.change r (.insert i v)) r l 0 0 = true := by
        have hfirst := @hasRoom_insertInternal h r (r + 1) 0 false hc.ordered 0 l 0 i v
        rwa [hroom, Bool.true_and] at hfirst
      rw [if_pos hroom, Option.bind_some, ih (hc.change _) (by
        rw [hlive, List.length_append, htake]
        omega), hlive, List.take_left' htake, List.drop_left' htake, hroom, Bool.true_and]
      simp only [List.cons_ne_nil, false_or, List.append_assoc, List.singleton_append]
      have hempty : vs = [] → hasRoom (r + 1) (h.change r (.insert i v)) r l 0 vs.length = true := by
        rintro rfl
        exact hnone
      exact if_congr (or_iff_right_of_imp hempty) rfl rfl
    · rw [if_neg hroom, Option.bind_none, Option.map_none, if_neg]
      simp [hroom]

/-! ### The functions -/

theorem Changeable.count (hc : Changeable h r) : h.arrayCount r = (h.live r).length :=
  arrayCount_live hc.sized hc.present

theorem sublist?_eq (hc : Changeable h r) (hsmall : (h.live r).length < 2147483648) (start : CInt)
    (stop : Option CInt) :
    (h.sublist? r arrayText start (argument stop)).map Sublist.elements =
      some (slice (h.live r) start ((argument stop).getD (h.live r).length)) := by
  obtain ⟨a, ha⟩ := Option.isSome_iff_exists.1 hc.present
  have hcount := length_live hc.sized ha
  have hstop : IsInt ((argument stop).getD ((h.live r).length : ℤ)) :=
    isInt_getD stop (isInt_natCast hsmall)
  rw [sublist?, hc.count]
  dsimp only
  generalize (argument stop).getD ((h.live r).length : ℤ) = last at hstop ⊢
  rw [normalizeStringIndex?_position hsmall start.2, normalizeStringIndex?_position hsmall hstop]
  dsimp only [Option.bind_eq_bind, Option.bind_some]
  have hsublist : h.sublist r start (some last) =
      if position (h.live r).length start > min (position (h.live r).length last) (h.live r).length ∨
          position (h.live r).length start < 0 ∨
          position (h.live r).length start > (h.live r).length ∨
          min (position (h.live r).length last) (h.live r).length < 0 then none
      else some ({ ref := h.freshRef, obj := .array (newView a r (position (h.live r).length start).toNat
        (min (position (h.live r).length last) (h.live r).length).toNat) } :: h, h.freshRef) := by
    rw [Heap.sublist, ha, hcount]
    rfl
  by_cases hle : position (h.live r).length start ≤
      min (position (h.live r).length last) (h.live r).length
  · rw [if_neg (by omega), hsublist]
    by_cases hfirst : 0 ≤ position (h.live r).length start
    · -- the view shows the part
      rw [if_neg (by omega), slice_of_le hfirst hle]
      change some (some (Heap.live _ h.freshRef)) = _
      rw [live_eq ((array?_cons _ _ _ _).trans (if_pos rfl)), live_newView a r _ (by omega), live_eq ha]
    · rw [if_pos (by omega), slice_eq_none.2 (.inl (by omega))]
      rfl
  · rw [if_pos (by omega), slice_eq_none.2 (.inr (not_le.1 hle))]
    rfl

theorem add?_iff (hc : Changeable h r) (hsmall : (h.live r).length + 1 < 2147483648) (v : Value)
    (index : Option CInt) :
    (h.add? r v (argument index)).map (Added.elements r) =
        some (if 0 ≤ addPosition (h.live r).length ((argument index).getD 0) ∧
            addPosition (h.live r).length ((argument index).getD 0) ≤ (h.live r).length then
          some (splice (h.live r) [v] (addPosition (h.live r).length ((argument index).getD 0)).toNat 0)
          else none) ↔
      (0 ≤ addPosition (h.live r).length ((argument index).getD 0) ∧
          addPosition (h.live r).length ((argument index).getD 0) ≤ (h.live r).length →
        hasRoom (r + 1) h r 0 0 1 = true) := by
  rw [add?, hc.count, addIndex?_eq hsmall (isInt_getD index (by decide))]
  dsimp only [Option.bind_eq_bind, Option.bind_some]
  generalize addPosition (h.live r).length ((argument index).getD 0) = i
  by_cases hin : 0 ≤ i ∧ i ≤ (h.live r).length
  · obtain ⟨p, rfl⟩ := Int.eq_ofNat_of_zero_le hin.1
    rw [if_neg (by omega), if_pos hin, insert?]
    simp only [hin, and_self, forall_const, Int.toNat_natCast]
    by_cases hroom : hasRoom (r + 1) h r 0 0 1 = true
    · rw [if_pos hroom]
      refine iff_of_true ?_ hroom
      have hlive : (h.change r (.insert p v)).live r = (h.live r).take p ++ [v] ++ (h.live r).drop p :=
        live_insertInternal hc.ordered hc.sized hc.present (by omega) r v false
      exact congrArg (fun vs => some (some vs)) hlive
    · rw [if_neg hroom]
      exact iff_of_false (by simp) hroom
  · rw [if_pos (by omega), if_neg hin]
    exact iff_of_true rfl fun hand => absurd hand hin

theorem splice?_iff (hc : Changeable h r) (hp : Changeable h p)
    (hsmall : (h.live r).length < 2147483648) (idx len : Option CInt) :
    ArrayLaw h r p arrayText (.splice idx len) ↔ ArrayFits h r p (.splice idx len) := by
  unfold ArrayLaw ArrayFits
  dsimp only
  rw [splice?, hc.count, hp.count, spliceIndex?_eq hsmall (isInt_getD idx (by decide)),
    ← Int.toNat_eq_max]
  dsimp only [Option.bind_eq_bind, Option.bind_some]
  have hle := splicePosition_le (h.live r).length ((argument idx).getD 0)
  generalize splicePosition (h.live r).length ((argument idx).getD 0) = first at hle ⊢
  generalize ((argument len).getD ((h.live p).length : ℤ)).toNat = count
  by_cases hfit : first + count < 2147483648
  · have hsum := isInt_natCast hfit
    rw [Nat.cast_add] at hsum
    rw [removed?_eq hsmall hle hsum, Option.bind_some, Int.toNat_natCast, Int.toNat_natCast]
    -- the elements behind the removed ones move up, and make room for the others
    obtain ⟨hc', hlive, hroom⟩ := hc.removeRun (i := first) (k := min count ((h.live r).length - first))
      (by omega)
    have htake : ((h.live r).take first).length = first := by
      rw [List.length_take, min_eq_left hle]
    rw [hc'.insertRun? (h.live p) (by rw [hlive, List.length_append, htake]; omega) first, hroom, hlive,
      List.take_left' htake, List.drop_left' htake, ← splice, splice_min hle, and_iff_right hfit]
    by_cases hempty : h.live p = []
    · rw [if_pos (.inl hempty)]
      exact iff_of_true rfl fun hne => absurd hempty hne
    · by_cases hfits : hasRoom (r + 1) h r first (min count ((h.live r).length - first))
          (h.live p).length = true
      · rw [if_pos (.inr hfits)]
        exact iff_of_true rfl fun _ => hfits
      · rw [if_neg (not_or.2 ⟨hempty, hfits⟩)]
        exact iff_of_false (by simp) fun hall => hfits (hall hempty)
  · rw [removed?_eq_none fun hsum => hfit (by
      have hgreatest := hsum.2
      omega)]
    exact iff_of_false (by simp) fun hand => hfit hand.1

end

end Heap

section

variable {h : Heap} {r p : Ref}

/-- **A call with an index has the result that the index asks for if and only if what it computes
fits.** -/
theorem indexLaw_iff (hrun : Heap.ArrayRun h) (hr : (h.array? r).isSome) (hp : (h.array? p).isSome)
    (hcapacity : h.arrayCount r ≤ maxElements) (string : Text) (arrayText : Bytes) :
    (∀ call, StringLaw string call ↔ StringFits string call) ∧
      ∀ call, ArrayLaw h r p arrayText call ↔ ArrayFits h r p call := by
  refine ⟨stringLaw_iff string, fun call => ?_⟩
  obtain ⟨hver, hz⟩ := hrun.versions
  have hc : Heap.Changeable h r := ⟨hver.ordered, hz, hr⟩
  have hc' : Heap.Changeable h p := ⟨hver.ordered, hz, hp⟩
  rw [hc.count, maxElements] at hcapacity
  cases call with
  | sublist start stop => exact iff_of_true (Heap.sublist?_eq hc (by omega) start stop) trivial
  | add v index => exact Heap.add?_iff hc (by omega) v index
  | splice idx len => exact Heap.splice?_iff hc hc' (by omega) idx len

/-- The two bytes of `abcdef` from the fourth last one on, and an array with the elements 1, 2 and 3 in
the place of its second one. -/
theorem indexLaw_iff_two :
    let h : Heap := [⟨0, false, .array { elements := [.num 1, .num 2, .num 3], count := 3 }⟩]
    StringLaw ⟨ascii "abcdef", by decide⟩ (.mid ⟨-4, by decide⟩ (some ⟨2, by decide⟩)) ∧
      ArrayLaw h 0 0 [] (.splice (some ⟨1, by decide⟩) (some ⟨1, by decide⟩)) := by
  intro h
  have hrun : Heap.ArrayRun h := .one 0 { elements := [.num 1, .num 2, .num 3], count := 3 } (by decide) rfl
  obtain ⟨hstring, harray⟩ := indexLaw_iff (r := 0) (p := 0) hrun rfl rfl (by decide)
    ⟨ascii "abcdef", by decide⟩ []
  refine ⟨(hstring _).2 ⟨by decide, .inl (by decide), by decide⟩, (harray _).2 ⟨by decide, fun _ => ?_⟩⟩
  decide

/-- A length or an index at the limits of `int`, a part that is counted from the end and reaches up to
it, and an array of which too much is replaced. -/
theorem not_indexLaw :
    ¬StringLaw ⟨ascii "ab", by decide⟩ (.mid ⟨1, by decide⟩ (some ⟨2147483647, by decide⟩)) ∧
      ¬StringLaw ⟨ascii "ab", by decide⟩ (.right ⟨-2147483648, by decide⟩) ∧
      ¬StringLaw ⟨ascii "abcdef", by decide⟩ (.mid ⟨-4, by decide⟩ (some ⟨4, by decide⟩)) ∧
      ¬ArrayLaw [⟨0, false, .array { elements := [.num 1], count := 1 }⟩] 0 0 []
        (.splice (some ⟨1, by decide⟩) (some ⟨2147483647, by decide⟩)) := by
  refine ⟨?_, ?_, ?_, ?_⟩
  · intro hlaw
    exact absurd ((stringLaw_iff _ _).1 hlaw).1 (by decide)
  · intro hlaw
    exact absurd ((stringLaw_iff _ _).1 hlaw).1 (by decide)
  · intro hlaw
    exact absurd ((stringLaw_iff _ _).1 hlaw).2.2 (by decide)
  · intro hlaw
    cases hlaw

end

end Slp
