import Slp.Object.Cells
import Slp.Object.Stale
import Slp.Object.Window

/-!
# Steps on a chain of views

What is done to a chain of views: elements are set, pushed, inserted, removed, sorted and reversed
through the last view, and loops over the arrays of the chain assign their variable.  `ChainRun`
follows the chain from the making of the views through such steps.

The arrays of a chain are `Linked` when all of them show one list, each a part of it.  A change
through the last view keeps them so, as the same change of that list, if it is `Writable`: the
steps that are not are a sort or a reversal of a view with elements, which writes the source as if
it was changed by others; an assignment past the end of a view, which brings up what was removed
there; and an assignment to a cell that only some of the arrays hold, or that an array holds twice.
-/

namespace Slp

/-! ### Sorting and reversal -/

/-- The round of the insertion sort on the elements before, the last one first. -/
def placeBefore (greater : Value → Value → Bool) (current : Value) : List Value → List Value
  | [] => [current]
  | v :: done => if greater v current then v :: placeBefore greater current done
    else current :: v :: done

/-- The insertion sort of `sort_array_values` and `builtin_sort`. -/
def sortElements (greater : Value → Value → Bool) (vs : List Value) : List Value :=
  (vs.foldl (fun done current => placeBefore greater current done) []).reverse

namespace Heap

/-- `slp_obj_array_sync_view`. -/
def syncView (h : Heap) (r : Ref) : Heap :=
  match h.array? r with
  | none => h
  | some a =>
    match a.viewSource with
    | none => h
    | some s => (List.range a.count).foldl
        (fun h i => h.change s (.set ((a.viewOffset + i : ℕ) : ℤ) (a.elements.getD i .null))) h

/-- The live elements are rearranged in place, and the source is written. -/
def rearrange (h : Heap) (r : Ref) (arrange : List Value → List Value) : Heap :=
  match h.array? r with
  | none => h
  | some a =>
    (h.set r (.array { a with elements := arrange a.live ++ a.elements.drop a.count })).syncView r

/-- `sort_array_values` and `builtin_sort`, for the comparison of a mode or of a closure. -/
def sortArray (h : Heap) (r : Ref) (greater : Value → Value → Bool) : Heap :=
  h.rearrange r (sortElements greater)

/-- `builtin_reverse`. -/
def reverse (h : Heap) (r : Ref) : Heap := h.rearrange r List.reverse

/-! ### Loops -/

/-- The element that `OP_FOREACH_NEXT` puts on the stack; it becomes a cell. -/
def visit (h : Heap) (r : Ref) (i : ℕ) : Heap :=
  match h.array? r with
  | none => h
  | some a =>
    if i < a.count then
      match h.cell? (a.elements.getD i .null) with
      | some _ => h
      | none =>
        { ref := h.freshRef, obj := .scalarCell (a.elements.getD i .null) none } ::
          h.set r (.array { a with elements := a.elements.set i (.obj h.freshRef) })
    else h

/-- The live elements of the array at an address. -/
def live (h : Heap) (r : Ref) : List Value :=
  match h.array? r with
  | none => []
  | some a => a.live

/-- A round of a loop over the array at `r`, for its element `i`; the body assigns the loop
variable, or does nothing. -/
def foreachRound (h : Heap) (r : Ref) (i : ℕ) (assigned : Option Value) : Heap :=
  let h := h.visit r i
  match assigned, (h.live r)[i]? with
  | some v, some (.obj c) => h.watchedCellAssign c v
  | _, _ => h

end Heap

/-- What is done to a chain of views: through the last view, or by a loop. -/
inductive ViewOp where
  | change (op : ArrayOp)
  | sort (greater : Value → Value → Bool)
  | reverse
  | foreach (r : Ref) (i : ℕ) (assigned : Option Value)

namespace Heap

/-- The heap after a step, for a chain with the last view at `v`. -/
def perform (h : Heap) (v : Ref) : ViewOp → Heap
  | .change op => h.change v op
  | .sort greater => h.sortArray v greater
  | .reverse => h.reverse v
  | .foreach r i assigned => h.foreachRound r i assigned

/-- What is read of the elements of an array. -/
def shown (h : Heap) (r : Ref) : List Value := (h.live r).map h.read

/-- The place of the first element of the last view in the array at the bottom. -/
def origin (h : Heap) : List Ref → ℕ
  | q :: s :: chain => (match h.array? q with
    | some a => a.viewOffset
    | none => 0) + h.origin (s :: chain)
  | _ => 0

/-- The array at `q` is in the chain and holds `w` at the place `p`. -/
def HeldBy (h : Heap) : List Ref → Ref → ℕ → Value → Prop
  | [], _, _, _ => False
  | s :: chain, q, p, w =>
    s = q ∧ h.origin (s :: chain) ≤ p ∧ (h.live s)[p - h.origin (s :: chain)]? = some w ∨
      h.HeldBy chain q p w

/-- The place of the first element of the array at `r`. -/
def placeOf (h : Heap) : List Ref → Ref → ℕ
  | [], _ => 0
  | s :: chain, r => if s = r then h.origin (s :: chain) else h.placeOf chain r

/-- A cell at the place `p` is at no other place. -/
def Alone (h : Heap) (chain : List Ref) (p : ℕ) (w : Value) : Prop :=
  (h.cell? w).isSome → ∀ q p', h.HeldBy chain q p' w → p' = p

/-- The steps that keep the arrays of a chain together. -/
def Writable (h : Heap) (chain : List Ref) (v : Ref) : ViewOp → Prop
  | .change (.set index _) =>
    -- a cell that is assigned is at one place, and what is brought up past the end is null
    (0 ≤ index → index < h.arrayCount v → ∀ q w,
      h.HeldBy chain q (h.origin chain + index.toNat) w →
      h.Alone chain (h.origin chain + index.toNat) w) ∧
    ∀ a, h.array? v = some a → ∀ j, a.count ≤ j → (j : ℤ) < index → a.elements.getD j .null = .null
  | .change _ => True
  | .sort _ => h.arrayCount v = 0
  | .reverse => h.arrayCount v = 0
  | .foreach _ _ none => True
  | .foreach r i (some x) => ∀ e, (h.live r)[i]? = some e →
    -- the loop variable already has the value, or all arrays with that place hold its cell
    h.read e = x ∨ h.Alone chain (h.placeOf chain r + i) e ∧
      ∀ q w, h.HeldBy chain q (h.placeOf chain r + i) w → q = r ∨ w = e ∧ (h.cell? e).isSome

/-- An address below it was handed out. -/
def Known (h : Heap) (v : Value) : Prop := ∀ r, v = .obj r → r < h.freshRef

/-- A value that the language hands on: it is no cell. -/
structure Plain (h : Heap) (v : Value) : Prop where
  known : h.Known v
  notCell : h.cell? v = none

/-- The values of a step are values of the language, and a loop is over an array of the chain. -/
def Fits (h : Heap) (chain : List Ref) : ViewOp → Prop
  | .change (.push x) => h.Plain x
  | .change (.insert _ x) => h.Plain x
  | .change (.set _ x) => h.Plain x
  | .foreach r _ assigned => r ∈ chain ∧ ∀ x, assigned = some x → h.Plain x
  | _ => True

/-- The heaps reached from one with an array that is no view, and the chain of views made from the
array, the last one first; `ok` admits the steps. -/
inductive ChainRun (ok : Heap → List Ref → Ref → ViewOp → Prop) : Heap → List Ref → Prop where
  | start {h : Heap} {r : Ref} {a : ArrayObj} (ha : h.array? r = some a)
      (hroot : a.viewSource = none) (hsized : a.count ≤ a.elements.length)
      (hknown : ∀ w ∈ a.live, h.Known w) : ChainRun ok h [r]
  | sublist {h h' : Heap} {r v : Ref} {chain : List Ref} (start : ℤ) (stop : Option ℤ)
      (hrun : ChainRun ok h (r :: chain)) (hsublist : h.sublist r start stop = some (h', v)) :
      ChainRun ok h' (v :: r :: chain)
  | step {h : Heap} {v s : Ref} {chain : List Ref} (op : ViewOp)
      (hrun : ChainRun ok h (v :: s :: chain)) (hfits : h.Fits (v :: s :: chain) op)
      (hok : ok h (v :: s :: chain) v op) : ChainRun ok (h.perform v op) (v :: s :: chain)

/-- Each view shows a part of its source. -/
def Mirrors (h : Heap) : List Ref → Prop
  | v :: s :: chain => (∃ a, h.array? v = some a ∧ a.viewSource = some s ∧
      h.shown v = ((h.shown s).drop a.viewOffset).take a.count) ∧ h.Mirrors (s :: chain)
  | _ => True

/-- The elements of each source before and after the part its view shows are as they were. -/
def Outside (h h' : Heap) : List Ref → Prop
  | v :: s :: chain => (∃ a a', h.array? v = some a ∧ h'.array? v = some a' ∧
      (h'.shown s).take a.viewOffset = (h.shown s).take a.viewOffset ∧
      (h'.shown s).drop (a.viewOffset + a'.count) =
        (h.shown s).drop (a.viewOffset + a.count)) ∧ h.Outside h' (s :: chain)
  | _ => True

/-- The elements at places other than `p` are as they were. -/
def Elsewhere (h h' : Heap) (p : ℕ) : List Ref → Prop
  | [] => True
  | s :: chain => (∀ j, h.origin (s :: chain) + j ≠ p → (h'.shown s)[j]? = (h.shown s)[j]?) ∧
      h.Elsewhere h' p chain

/-- What a step leaves as it was. -/
def Undisturbed (h h' : Heap) (chain : List Ref) : ViewOp → Prop
  | .foreach r i _ => h.Elsewhere h' (h.placeOf chain r + i) chain
  | _ => h.Outside h' chain

/-! ### The levels of a chain -/

/-- The elements of a level are read as those of `R`, from the place of the first one on. -/
structure Shows (h : Heap) (R : List Value) (l : Level) : Prop where
  stop_le : l.stop ≤ R.length
  read : ∀ j w, l.items[j]? = some w → R[l.base + j]? = some (h.read w)

/-- The addresses of the levels. -/
def refs (m : Level) (rest : List Level) : List Ref := (m :: rest).map Level.ref

section Levels

variable {h h' : Heap} {m l : Level} {rest : List Level} {g : Level → List Value} {p : ℕ}
  {R R' : List Value} {v w : Value} {q r : Ref}

theorem Stack.holds_mem (hs : Stack h m rest) (hl : l ∈ m :: rest) : ∃ a, Holds h l a := by
  induction rest generalizing m with
  | nil =>
    obtain rfl := List.mem_singleton.1 hl
    exact hs.holds
  | cons l' rest ih =>
    rcases List.mem_cons.1 hl with rfl | hl
    · exact hs.holds
    · exact ih hs.2.2.2 hl

theorem Stack.live (hs : Stack h m rest) (hl : l ∈ m :: rest) : h.live l.ref = l.items := by
  obtain ⟨a, ha⟩ := hs.holds_mem hl
  rw [Heap.live, ha.array]
  exact ha.live

theorem Stack.origin (hs : Stack h m rest) : h.origin (refs m rest) = m.base := by
  induction rest generalizing m with
  | nil =>
    obtain ⟨a, -, -, hbase⟩ := hs
    exact hbase.symm
  | cons l rest ih =>
    obtain ⟨⟨a, ha, -, hbase⟩, -, -, htail⟩ := hs
    have hrest : h.origin (l.ref :: rest.map Level.ref) = l.base := ih htail
    show (match h.array? m.ref with | some a => a.viewOffset | none => 0) +
      h.origin (l.ref :: rest.map Level.ref) = m.base
    rw [ha.array, hrest, hbase, Nat.add_comm]

/-- The addresses go down along a chain. -/
theorem Stack.ref_lt (hs : Stack h m rest) (hl : l ∈ rest) : l.ref < m.ref := by
  induction rest generalizing m with
  | nil => cases hl
  | cons l' rest ih =>
    obtain ⟨-, hlt, -, htail⟩ := hs
    rcases List.mem_cons.1 hl with rfl | hl
    · exact hlt
    · exact Nat.lt_trans (ih htail hl) hlt

theorem Stack.placeOf (hs : Stack h m rest) (hl : l ∈ m :: rest) :
    h.placeOf (refs m rest) l.ref = l.base := by
  induction rest generalizing m with
  | nil =>
    obtain rfl := List.mem_singleton.1 hl
    show (if l.ref = l.ref then _ else _) = _
    rw [if_pos rfl]
    exact hs.origin
  | cons l' rest ih =>
    show (if m.ref = l.ref then h.origin (refs m (l' :: rest)) else
      h.placeOf (refs l' rest) l.ref) = _
    rcases List.mem_cons.1 hl with rfl | hl
    · rw [if_pos rfl, hs.origin]
    · rw [if_neg (Nat.ne_of_gt (hs.ref_lt hl)), ih hs.2.2.2 hl]

theorem Stack.heldBy (hs : Stack h m rest) :
    h.HeldBy (refs m rest) q p w ↔
      ∃ l ∈ m :: rest, l.ref = q ∧ l.base ≤ p ∧ l.items[p - l.base]? = some w := by
  induction rest generalizing m with
  | nil =>
    show (m.ref = q ∧ h.origin (refs m []) ≤ p ∧
      (h.live m.ref)[p - h.origin (refs m [])]? = some w ∨ False) ↔ _
    rw [hs.origin, hs.live List.mem_cons_self]
    simp
  | cons l rest ih =>
    show (m.ref = q ∧ h.origin (refs m (l :: rest)) ≤ p ∧
      (h.live m.ref)[p - h.origin (refs m (l :: rest))]? = some w ∨
        h.HeldBy (refs l rest) q p w) ↔ _
    rw [hs.origin, hs.live List.mem_cons_self, ih hs.2.2.2]
    simp only [List.exists_mem_cons_iff]

theorem Stack.shown (hs : Stack h m rest) (hl : l ∈ m :: rest) :
    h.shown l.ref = l.items.map h.read := by
  rw [Heap.shown, hs.live hl]

/-- A level that shows `R`, element by element. -/
theorem Shows.getElem? (hl : Shows h R l) {j : ℕ} (hj : j < l.items.length) :
    (l.items.map h.read)[j]? = R[l.base + j]? := by
  rw [List.getElem?_map, List.getElem?_eq_getElem hj]
  exact (hl.read j _ (List.getElem?_eq_getElem hj)).symm

/-- Levels that show the same list mirror each other. -/
theorem mirrors_of_shows (hs : Stack h m rest) (hR : ∀ l ∈ m :: rest, Shows h R l) :
    h.Mirrors (refs m rest) := by
  induction rest generalizing m with
  | nil => trivial
  | cons l rest ih =>
    obtain ⟨⟨a, ha, hsource, hbase⟩, -, hstop, htail⟩ := id hs
    refine ⟨⟨a, ha.array, hsource, ?_⟩, ih htail fun l' hl' => hR l' (List.mem_cons_of_mem _ hl')⟩
    have hm := hR m List.mem_cons_self
    have hl := hR l (List.mem_cons_of_mem _ List.mem_cons_self)
    rw [hs.shown List.mem_cons_self, htail.shown List.mem_cons_self, ha.count]
    unfold Level.stop at hstop
    refine List.ext_getElem? fun j => ?_
    rw [List.getElem?_take, List.getElem?_drop]
    by_cases hj : j < m.items.length
    · rw [if_pos hj, hm.getElem? hj, hl.getElem? (by omega), hbase, Nat.add_assoc]
    · rw [if_neg hj, List.getElem?_eq_none (by rw [List.length_map]; exact Nat.le_of_not_lt hj)]

/-- The list `R'` is `R` with other values, maybe more or fewer, from the place `b` to the place
`e`, which is now `e'`. -/
structure Differ (R R' : List Value) (b e e' : ℕ) : Prop where
  before : ∀ j, j < b → R'[j]? = R[j]?
  after : ∀ j, R'[e' + j]? = R[e + j]?

theorem outside_of_shows {b e e' : ℕ} (hs : Stack h m rest)
    (hs' : Stack h' (m.change g) (rest.map (Level.change g)))
    (hR : ∀ l ∈ m :: rest, Shows h R l) (hR' : ∀ l ∈ m :: rest, Shows h' R' (l.change g))
    (hdiffer : Differ R R' b e e') (hb : m.base ≤ b) (he : e ≤ m.stop)
    (hstop : ∀ l ∈ m :: rest, (l.change g).stop + e = l.stop + e') :
    h.Outside h' (refs m rest) := by
  induction rest generalizing m with
  | nil => trivial
  | cons l rest ih =>
    obtain ⟨⟨a, ha, hsource, hbase⟩, -, hnest, htail⟩ := id hs
    obtain ⟨⟨a', ha', hsource', hbase'⟩, -, hnest', htail'⟩ := id hs'
    have hmem : ∀ l' ∈ l :: rest, l' ∈ m :: l :: rest := fun l' hl' => List.mem_cons_of_mem _ hl'
    have hl := hmem l List.mem_cons_self
    have hRl := hR l hl
    have hRl' := hR' l hl
    have hl' : h'.shown l.ref = (l.change g).items.map h'.read := htail'.shown List.mem_cons_self
    have hlold := htail.shown List.mem_cons_self
    have hcount := ha.count
    have hcount' := ha'.count
    have hstopm := hstop m List.mem_cons_self
    have hstopl := hstop l hl
    have hlow : l.base ≤ b := by omega
    have hhigh : e ≤ l.stop := he.trans hnest
    unfold Level.stop at hstopm hstopl hnest hnest' he
    have hbase₁ : (m.change g).base = m.base := rfl
    have hbase₂ : (l.change g).base = l.base := rfl
    refine ⟨⟨a, a', ha.array, ha'.array, ?_, ?_⟩, ih htail htail' (fun l' hl' => hR l' (hmem l' hl'))
      (fun l' hl' => hR' l' (hmem l' hl')) hlow hhigh
      fun l' hl' => hstop l' (hmem l' hl')⟩
    · rw [hl', hlold]
      refine List.ext_getElem? fun j => ?_
      rw [List.getElem?_take, List.getElem?_take]
      by_cases hj : j < a.viewOffset
      · rw [if_pos hj, if_pos hj, hRl'.getElem? (by omega), hRl.getElem? (by omega)]
        exact hdiffer.before _ (by show l.base + j < b; omega)
      · rw [if_neg hj, if_neg hj]
    · rw [hl', hlold]
      refine List.ext_getElem? fun j => ?_
      rw [List.getElem?_drop, List.getElem?_drop]
      by_cases hj : a.viewOffset + a.count + j < l.items.length
      · rw [hRl'.getElem? (by omega), hRl.getElem? hj]
        -- the place is `k` places past the end of the part that was changed
        obtain ⟨k, hk⟩ : ∃ k, l.base + (a.viewOffset + a.count + j) = e + k :=
          ⟨l.base + (a.viewOffset + a.count + j) - e, by omega⟩
        have hk' : (l.change g).base + (a.viewOffset + a'.count + j) = e' + k := by
          show l.base + (a.viewOffset + a'.count + j) = e' + k
          omega
        rw [hk, hk']
        exact hdiffer.after k
      · rw [List.getElem?_eq_none, List.getElem?_eq_none]
        · rw [List.length_map]
          omega
        · rw [List.length_map]
          omega

theorem Shows.splice (hl : Shows h R l) (hp : l.base ≤ p) (hp' : p ≤ l.stop) (vs : List Value)
    (hread : ∀ w, h'.read w = h.read w) :
    Shows h' (R.take p ++ vs.map h.read ++ R.drop p) (l.change (Level.splice p vs)) where
  stop_le := by
    have hle := hl.stop_le
    rw [Level.stop_splice, List.length_append, List.length_append, List.length_take,
      List.length_map, List.length_drop]
    omega
  read j w hw := by
    change (l.items.take (p - l.base) ++ vs ++ l.items.drop (p - l.base))[j]? = some w at hw
    show (R.take p ++ vs.map h.read ++ R.drop p)[l.base + j]? = some (h'.read w)
    have hle := hl.stop_le
    unfold Level.stop at hp' hle
    rw [hread]
    rw [List.append_assoc, List.getElem?_append, List.length_take, min_eq_left (by omega)] at hw ⊢
    by_cases hj : j < p - l.base
    · rw [if_pos hj, List.getElem?_take, if_pos hj] at hw
      rw [if_pos (by omega), List.getElem?_take, if_pos (by omega)]
      exact hl.read j w hw
    · rw [if_neg hj] at hw
      rw [if_neg (by omega), show l.base + j - p = j - (p - l.base) by omega]
      rw [List.getElem?_append] at hw ⊢
      rw [List.length_map]
      by_cases hin : j - (p - l.base) < vs.length
      · rw [if_pos hin] at hw
        rw [if_pos hin, List.getElem?_map, hw]
        rfl
      · rw [if_neg hin, List.getElem?_drop] at hw
        rw [if_neg hin, List.getElem?_drop, ← hl.read _ w hw]
        congr 1
        omega

theorem Shows.erase (hl : Shows h R l) (hp : l.base ≤ p) (hp' : p < l.stop)
    (hread : ∀ w, h'.read w = h.read w) :
    Shows h' (R.eraseIdx p) (l.change (Level.erase p)) where
  stop_le := by
    have hle := hl.stop_le
    rw [Level.stop_erase hp hp', List.length_eraseIdx]
    split_ifs <;> omega
  read j w hw := by
    change (l.items.eraseIdx (p - l.base))[j]? = some w at hw
    show (R.eraseIdx p)[l.base + j]? = some (h'.read w)
    rw [hread]
    rw [List.getElem?_eraseIdx] at hw ⊢
    by_cases hj : j < p - l.base
    · rw [if_pos hj] at hw
      rw [if_pos (by omega)]
      exact hl.read j w hw
    · rw [if_neg hj] at hw
      rw [if_neg (by omega)]
      exact hl.read (j + 1) w hw

/-- One place gets another value. -/
theorem Shows.set {x : Value} (hl : Shows h R l) (hlen : (g l).length = l.items.length)
    (hsame : ∀ j w, (g l)[j]? = some w → l.base + j ≠ p →
      ∃ w₀, l.items[j]? = some w₀ ∧ h'.read w = h.read w₀)
    (hnew : ∀ j w, (g l)[j]? = some w → l.base + j = p → h'.read w = x) :
    Shows h' (R.set p x) (l.change g) where
  stop_le := by
    rw [List.length_set]
    show l.base + (g l).length ≤ R.length
    rw [hlen]
    exact hl.stop_le
  read j w hw := by
    show (R.set p x)[l.base + j]? = some (h'.read w)
    by_cases hj : l.base + j = p
    · have hin : j < (g l).length := (List.getElem?_eq_some_iff.1 hw).1
      have hle := hl.stop_le
      unfold Level.stop at hle
      rw [hnew j w hw hj, ← hj, List.getElem?_set_self (by omega)]
    · obtain ⟨w₀, hw₀, hread⟩ := hsame j w hw hj
      rw [List.getElem?_set_ne (Ne.symm hj), hread]
      exact hl.read j w₀ hw₀

theorem differ_splice (hp : p ≤ R.length) (vs : List Value) :
    Differ R (R.take p ++ vs ++ R.drop p) p p (p + vs.length) where
  before j hj := by
    rw [List.append_assoc, List.getElem?_append, List.length_take, min_eq_left hp, if_pos hj,
      List.getElem?_take, if_pos hj]
  after j := by
    rw [List.getElem?_append_right, List.length_append, List.length_take, min_eq_left hp,
      List.getElem?_drop]
    · congr 1
      omega
    · rw [List.length_append, List.length_take]
      omega

theorem differ_erase (R : List Value) (p : ℕ) : Differ R (R.eraseIdx p) p (p + 1) p where
  before j hj := by rw [List.getElem?_eraseIdx, if_pos hj]
  after j := by
    rw [List.getElem?_eraseIdx, if_neg (by omega)]
    congr 1
    omega

theorem differ_set (R : List Value) (p : ℕ) (x : Value) : Differ R (R.set p x) p (p + 1) (p + 1) where
  before j hj := List.getElem?_set_ne (Nat.ne_of_gt hj)
  after j := List.getElem?_set_ne (by omega)

theorem elsewhere_of_shows (hs : Stack h m rest)
    (hs' : Stack h' (m.change g) (rest.map (Level.change g)))
    (hR : ∀ l ∈ m :: rest, Shows h R l) (hR' : ∀ l ∈ m :: rest, Shows h' R' (l.change g))
    (hother : ∀ k, k ≠ p → R'[k]? = R[k]?)
    (hlen : ∀ l ∈ m :: rest, (g l).length = l.items.length) :
    h.Elsewhere h' p (refs m rest) := by
  have hlevel : ∀ l ∈ m :: rest, h.shown l.ref = l.items.map h.read →
      h'.shown l.ref = (l.change g).items.map h'.read → ∀ j, l.base + j ≠ p →
      (h'.shown l.ref)[j]? = (h.shown l.ref)[j]? := by
    intro l hl hold hnew j hj
    rw [hold, hnew]
    have hsame : (l.change g).items.length = l.items.length := hlen l hl
    by_cases hin : j < l.items.length
    · rw [(hR l hl).getElem? hin, (hR' l hl).getElem? (by omega)]
      exact hother _ hj
    · rw [List.getElem?_eq_none, List.getElem?_eq_none] <;> rw [List.length_map] <;> omega
  induction rest generalizing m with
  | nil =>
    refine ⟨fun j hj => ?_, trivial⟩
    refine hlevel m List.mem_cons_self (hs.shown List.mem_cons_self)
      (hs'.shown List.mem_cons_self) j ?_
    rwa [← hs.origin]
  | cons l rest ih =>
    refine ⟨fun j hj => ?_, ?_⟩
    · refine hlevel m List.mem_cons_self (hs.shown List.mem_cons_self)
        (hs'.shown List.mem_cons_self) j ?_
      rwa [← hs.origin]
    · have hmem : ∀ l' ∈ l :: rest, l' ∈ m :: l :: rest := fun l' hl' => List.mem_cons_of_mem _ hl'
      exact ih hs.2.2.2 hs'.2.2.2 (fun l' hl' => hR l' (hmem l' hl'))
        (fun l' hl' => hR' l' (hmem l' hl')) (fun l' hl' => hlen l' (hmem l' hl'))
        fun l' hl' => hlevel l' (hmem l' hl')

/-! ### Addresses -/

theorem freshRef_set (h : Heap) (r : Ref) (o : Obj) : (h.set r o).freshRef = h.freshRef := by
  induction h with
  | nil => rfl
  | cons c h ih =>
    rw [set_cons]
    show max ((if c.ref = r then { c with obj := o } else c).ref + 1) (Heap.set h r o).freshRef =
      max (c.ref + 1) (Heap.freshRef h)
    rw [ih]
    split_ifs <;> rfl

theorem freshRef_refresh (h : Heap) (r s : Ref) : (h.refresh r s).freshRef = h.freshRef := by
  unfold refresh
  split
  · exact freshRef_set _ _ _
  · rfl

theorem freshRef_insertInternal (fuel : ℕ) (h : Heap) (r : Ref) (index : ℤ) (v : Value)
    (fromChildView : Bool) :
    (insertInternal fuel h r index v fromChildView).freshRef = h.freshRef := by
  induction fuel generalizing h r index fromChildView with
  | zero => rfl
  | succ fuel ih =>
    rw [insertInternal]
    split
    · rfl
    · rename_i a ha
      dsimp only
      split
      · exact freshRef_set _ _ _
      · split_ifs
        · rw [ih, freshRef_set]
        · rw [freshRef_refresh, ih, freshRef_set]

theorem freshRef_removeInternal (fuel : ℕ) (h : Heap) (r : Ref) (index : ℤ)
    (fromChildView : Bool) :
    (removeInternal fuel h r index fromChildView).freshRef = h.freshRef := by
  induction fuel generalizing h r index fromChildView with
  | zero => rfl
  | succ fuel ih =>
    rw [removeInternal]
    split
    · rfl
    · rename_i a ha
      dsimp only
      by_cases hout : index < 0 ∨ index ≥ a.count
      · rw [if_pos hout]
      · rw [if_neg hout]
        split
        · exact freshRef_set _ _ _
        · split_ifs
          · rw [ih, freshRef_set]
          · rw [freshRef_refresh, ih, freshRef_set]

theorem freshRef_gap (fuel : ℕ) (h : Heap) (s : Ref) (js : List ℕ) :
    (js.foldl (fun h (j : ℕ) => insertInternal fuel h s (j : ℤ) .null true) h).freshRef =
      h.freshRef := by
  induction js generalizing h with
  | nil => rfl
  | cons j js ih => rw [List.foldl_cons, ih, freshRef_insertInternal]

theorem freshRef_writeElement (h : Heap) (a : ArrayObj) (i : ℕ) (v : Value) :
    (h.writeElement a i v).1.freshRef = h.freshRef := by
  unfold writeElement
  split
  · exact freshRef_set _ _ _
  · rfl

theorem freshRef_setInternal (fuel : ℕ) (h : Heap) (r : Ref) (index : ℤ) (v : Value)
    (fromChildView : Bool) :
    (setInternal fuel h r index v fromChildView).freshRef = h.freshRef := by
  induction fuel generalizing h r index fromChildView with
  | zero => rfl
  | succ fuel ih =>
    rw [setInternal]
    split
    · rfl
    · rename_i a ha
      dsimp only
      have hwrite := freshRef_writeElement h (a.ensureCapacity (index.toNat + 1)) index.toNat v
      by_cases hneg : index < 0
      · rw [if_pos hneg]
      · rw [if_neg hneg]
        split
        · rw [freshRef_set, hwrite]
        · rw [foldl_gap]
          split_ifs
          all_goals simp only [freshRef_refresh, ih, freshRef_insertInternal, freshRef_gap,
            freshRef_set, hwrite]

theorem freshRef_change (h : Heap) (r : Ref) (op : ArrayOp) :
    (h.change r op).freshRef = h.freshRef := by
  cases op with
  | push v => exact freshRef_insertInternal _ _ _ _ _ _
  | insert index v => exact freshRef_insertInternal _ _ _ _ _ _
  | removeAt index => exact freshRef_removeInternal _ _ _ _ _
  | pop => exact freshRef_removeInternal _ _ _ _ _
  | set index v => exact freshRef_setInternal _ _ _ _ _ _

/-! ### One step -/

/-- The arrays of a chain hold together: all of them show one list. -/
structure Linked (h : Heap) (m : Level) (rest : List Level) (R : List Value) : Prop where
  stack : Stack h m rest
  shows : ∀ l ∈ m :: rest, Shows h R l
  known : ∀ l ∈ m :: rest, ∀ w ∈ l.items, h.Known w

/-- The arrays at these addresses hold together, and the last view is valid. -/
def Joined (h : Heap) (chain : List Ref) : Prop :=
  ∃ m rest R, refs m rest = chain ∧ Linked h m rest R ∧ h.viewIsValid m.ref = true

theorem refs_change (g : Level → List Value) (m : Level) (rest : List Level) :
    refs (m.change g) (rest.map (Level.change g)) = refs m rest := by
  rw [refs, refs, List.map_cons, List.map_cons, List.map_map]
  rfl

theorem known_null (h : Heap) : h.Known .null := by
  intro r hr
  cases hr

theorem Known.mono (hv : h.Known v) (hle : h.freshRef ≤ h'.freshRef) : h'.Known v :=
  fun r hr => Nat.lt_of_lt_of_le (hv r hr) hle

theorem read_congr (hcells : ∀ w, h'.cell? w = h.cell? w) (w : Value) : h'.read w = h.read w := by
  rw [Heap.read, Heap.read, hcells]

theorem viewInvalid_of_valid (hs : Stack h m (l :: rest)) (hvalid : h.viewIsValid m.ref = true) :
    ∀ a, h.array? m.ref = some a → a.viewInvalid = false := by
  obtain ⟨⟨a, ha, hsource, -⟩, -, -, htail⟩ := hs
  obtain ⟨b, hb⟩ := htail.holds
  intro x hx
  obtain rfl := Option.some.inj (ha.array.symm.trans hx)
  exact ((viewIsValid_iff ha.array hsource hb.array).1 hvalid).1

/-- A change of all levels that shows another list. -/
theorem Changed.joined (hc : Changed h h' m (l :: rest) g false)
    (hs : Stack h m (l :: rest)) (hvalid : h.viewIsValid m.ref = true)
    (hR' : ∀ l' ∈ m :: l :: rest, Shows h' R' (l'.change g))
    (hknown : ∀ l' ∈ m :: l :: rest, ∀ w ∈ g l', h'.Known w) :
    h'.Joined (refs m (l :: rest)) := by
  refine ⟨m.change g, (l :: rest).map (Level.change g), R', refs_change _ _ _,
    ⟨hc.stack, ?_, ?_⟩, hc.valid rfl (viewInvalid_of_valid hs hvalid)⟩
  · rw [← List.map_cons, List.forall_mem_map]
    exact hR'
  · rw [← List.map_cons, List.forall_mem_map]
    exact hknown

theorem mem_splice {vs : List Value} (hw : w ∈ Level.splice p vs l) : w ∈ l.items ∨ w ∈ vs := by
  rw [Level.splice, List.mem_append, List.mem_append] at hw
  rcases hw with (hw | hw) | hw
  · exact .inl (List.mem_of_mem_take hw)
  · exact .inr hw
  · exact .inl (List.mem_of_mem_drop hw)

/-- What a change through the last view of a chain keeps. -/
structure Sound (h h' : Heap) (m : Level) (rest : List Level) : Prop where
  joined : h'.Joined (refs m rest)
  outside : h.Outside h' (refs m rest)

theorem outside_refl (hs : Stack h m rest) : h.Outside h (refs m rest) := by
  induction rest generalizing m with
  | nil => trivial
  | cons l rest ih =>
    obtain ⟨⟨a, ha, -⟩, -, -, htail⟩ := hs
    exact ⟨⟨a, a, ha.array, ha.array, rfl, rfl⟩, ih htail⟩

/-- An insertion through the last view, or an assignment past its end. -/
theorem sound_splice (hl : Linked h m (l :: rest) R) (hvalid : h.viewIsValid m.ref = true)
    (hp : m.base ≤ p) (hp' : p ≤ m.stop) {vs : List Value} (hvs : ∀ w ∈ vs, h.Known w)
    (hc : Changed h h' m (l :: rest) (Level.splice p vs) false)
    (hcells : ∀ w, h'.cell? w = h.cell? w) (hfresh : h'.freshRef = h.freshRef) :
    Sound h h' m (l :: rest) := by
  have hR' : ∀ l' ∈ m :: l :: rest,
      Shows h' (R.take p ++ vs.map h.read ++ R.drop p) (l'.change (Level.splice p vs)) := by
    intro l' hl'
    obtain ⟨hbase, hstop⟩ := hl.stack.mem hl'
    exact (hl.shows l' hl').splice (hbase.trans hp) (hp'.trans hstop) vs (read_congr hcells)
  refine ⟨hc.joined hl.stack hvalid hR' ?_, ?_⟩
  · intro l' hl' w hw
    rcases mem_splice hw with hw | hw
    · exact (hl.known l' hl' w hw).mono hfresh.ge
    · exact (hvs w hw).mono hfresh.ge
  · have hlen : p ≤ R.length := hp'.trans (hl.shows m List.mem_cons_self).stop_le
    refine outside_of_shows hl.stack hc.stack hl.shows hR' (differ_splice hlen _) hp hp' ?_
    intro l' _
    rw [Level.stop_splice, List.length_map]
    omega

theorem sound_erase (hl : Linked h m (l :: rest) R) (hvalid : h.viewIsValid m.ref = true)
    (hp : m.base ≤ p) (hp' : p < m.stop)
    (hc : Changed h h' m (l :: rest) (Level.erase p) false)
    (hcells : ∀ w, h'.cell? w = h.cell? w) (hfresh : h'.freshRef = h.freshRef) :
    Sound h h' m (l :: rest) := by
  have hin : ∀ l' ∈ m :: l :: rest, l'.base ≤ p ∧ p < l'.stop := by
    intro l' hl'
    obtain ⟨hbase, hstop⟩ := hl.stack.mem hl'
    exact ⟨hbase.trans hp, Nat.lt_of_lt_of_le hp' hstop⟩
  have hR' : ∀ l' ∈ m :: l :: rest, Shows h' (R.eraseIdx p) (l'.change (Level.erase p)) :=
    fun l' hl' => (hl.shows l' hl').erase (hin l' hl').1 (hin l' hl').2 (read_congr hcells)
  refine ⟨hc.joined hl.stack hvalid hR' ?_, ?_⟩
  · intro l' hl' w hw
    exact (hl.known l' hl' w (List.mem_of_mem_eraseIdx hw)).mono hfresh.ge
  · refine outside_of_shows hl.stack hc.stack hl.shows hR' (differ_erase R p) hp hp' ?_
    intro l' hl'
    rw [Level.stop_erase (hin l' hl').1 (hin l' hl').2]
    have hlt := (hin l' hl').2
    omega

theorem read_of_none (hw : h.cell? w = none) : h.read w = w := by
  rw [Heap.read, hw]

theorem Assigned.read (ha : Assigned h h' v w) : h'.read w = v := by
  obtain ⟨c, content, watch, -, hnew⟩ := ha
  rw [Heap.read, hnew]

theorem Stack.heldBy_of_getElem? (hs : Stack h m rest) (hl : l ∈ m :: rest) {j : ℕ}
    (hw : l.items[j]? = some w) : h.HeldBy (refs m rest) l.ref (l.base + j) w := by
  refine hs.heldBy.2 ⟨l, hl, rfl, Nat.le_add_right _ _, ?_⟩
  rwa [Nat.add_sub_cancel_left]

/-- An assignment of an element of the last view. -/
theorem sound_write (hl : Linked h m (l :: rest) R) (hvalid : h.viewIsValid m.ref = true)
    (hp : m.base ≤ p) (hp' : p < m.stop) (hv : h.Plain v)
    (halone : ∀ q w, h.HeldBy (refs m (l :: rest)) q p w → h.Alone (refs m (l :: rest)) p w)
    (hc : Changed h h' m (l :: rest) (Level.write h p v) false)
    (hwrote : Wrote h h' v (At p (m :: l :: rest)))
    (hassigned : ∀ w, At p (m :: l :: rest) w → (h.cell? w).isSome → Assigned h h' v w)
    (hfresh : h'.freshRef = h.freshRef) : Sound h h' m (l :: rest) := by
  have hbase : ∀ l' ∈ m :: l :: rest, l'.base ≤ p := fun l' hl' => (hl.stack.mem hl').1.trans hp
  have hlen : ∀ l' : Level, (Level.write h p v l').length = l'.items.length := by
    intro l'
    unfold Level.write
    split_ifs
    · rfl
    · exact List.length_set
  have hR' : ∀ l' ∈ m :: l :: rest, Shows h' (R.set p v) (l'.change (Level.write h p v)) := by
    intro l' hl'
    refine (hl.shows l' hl').set (hlen l') ?_ ?_
    · intro j w hw hj
      have hold : l'.items[j]? = some w := by
        unfold Level.write at hw
        split_ifs at hw
        · exact hw
        · rwa [List.getElem?_set_ne] at hw
          have hle := hbase l' hl'
          omega
      refine ⟨w, hold, ?_⟩
      rcases hwrote w with hsame | ⟨⟨c, content, watch, hcell, -⟩, l₁, hl₁, hat⟩
      · rw [Heap.read, Heap.read, hsame]
      · -- the cell at the place `p` is not at this place too
        have hheld := hl.stack.heldBy_of_getElem? hl₁ hat
        rw [Nat.add_sub_cancel' (hbase l₁ hl₁)] at hheld
        exact absurd (halone _ w hheld (by rw [hcell]; rfl) _ _
          (hl.stack.heldBy_of_getElem? hl' hold)) hj
    · intro j w hw hj
      have hindex : p - l'.base = j := by omega
      unfold Level.write at hw
      rw [hindex] at hw
      by_cases hcell : (h.cell? (l'.items.getD j .null)).isSome
      · rw [if_pos hcell] at hw
        rw [List.getD_eq_getElem?_getD, hw] at hcell
        exact (hassigned w ⟨l', hl', by rwa [hindex]⟩ hcell).read
      · rw [if_neg hcell] at hw
        have hin : j < l'.items.length := by
          have hlt := (List.getElem?_eq_some_iff.1 hw).1
          rwa [List.length_set] at hlt
        rw [List.getElem?_set_self hin] at hw
        cases hw
        exact read_of_none (hwrote.eq_none hv.notCell)
  refine ⟨hc.joined hl.stack hvalid hR' ?_, ?_⟩
  · intro l' hl' w hw
    unfold Level.write at hw
    split_ifs at hw
    · exact (hl.known l' hl' w hw).mono hfresh.ge
    · rcases List.mem_or_eq_of_mem_set hw with hw | rfl
      · exact (hl.known l' hl' w hw).mono hfresh.ge
      · exact hv.known.mono hfresh.ge
  · refine outside_of_shows hl.stack hc.stack hl.shows hR' (differ_set R p v) hp hp' ?_
    intro l' _
    rw [Level.stop_write]

theorem arrayCount_eq (hs : Stack h m rest) : h.arrayCount m.ref = m.items.length := by
  obtain ⟨a, ha⟩ := hs.holds
  rw [arrayCount, ha.array]
  exact ha.count

theorem sound_refl (hl : Linked h m (l :: rest) R) (hvalid : h.viewIsValid m.ref = true) :
    Sound h h m (l :: rest) :=
  ⟨⟨m, l :: rest, R, rfl, hl, hvalid⟩, outside_refl hl.stack⟩

theorem sound_removal (hl : Linked h m (l :: rest) R) (hvalid : h.viewIsValid m.ref = true)
    (index : ℤ) : Sound h (removeInternal (m.ref + 1) h m.ref index false) m (l :: rest) := by
  have hs := hl.stack
  obtain ⟨a, ha⟩ := hs.holds
  have hcount := ha.count
  have hfuel : (l :: rest).length < m.ref + 1 := Nat.lt_succ_of_le hs.length_le
  have hstop : m.stop = m.base + m.items.length := rfl
  by_cases hout : index < 0 ∨ index ≥ a.count
  · have hsame : removeInternal (m.ref + 1) h m.ref index false = h := by
      rw [removeInternal, ha.array]
      dsimp only
      rw [if_pos hout]
    rw [hsame]
    exact sound_refl hl hvalid
  · obtain ⟨i, rfl⟩ := Int.eq_ofNat_of_zero_le (show 0 ≤ index by omega)
    have hplace : (i : ℤ) = ((m.base + i - m.base : ℕ) : ℤ) := by omega
    have hc := removeInternal_changed hs hfuel (p := m.base + i) (by omega) (by omega) false
    rw [← hplace] at hc
    exact sound_erase hl hvalid (by omega) (by omega) hc (removeInternal_cell? _ _ _ _ _)
      (freshRef_removeInternal _ _ _ _ _)

/-- A change of an array through the last view of a chain. -/
theorem sound_change (hl : Linked h m (l :: rest) R) (hvalid : h.viewIsValid m.ref = true)
    (op : ArrayOp) (hfits : h.Fits (refs m (l :: rest)) (.change op))
    (hok : h.Writable (refs m (l :: rest)) m.ref (.change op)) :
    Sound h (h.change m.ref op) m (l :: rest) := by
  have hs := hl.stack
  obtain ⟨a, ha⟩ := hs.holds
  have hcount := ha.count
  have hfuel : (l :: rest).length < m.ref + 1 := Nat.lt_succ_of_le hs.length_le
  have hfresh := freshRef_change h m.ref op
  have hstop : m.stop = m.base + m.items.length := rfl
  cases op with
  | push v =>
    have hplace : ((h.arrayCount m.ref : ℕ) : ℤ) = ((m.stop - m.base : ℕ) : ℤ) := by
      rw [arrayCount_eq hs]
      omega
    have hc := insertInternal_changed hs hfuel (show m.base ≤ m.stop by omega) (Nat.le_refl _) v false
    rw [← hplace] at hc
    refine sound_splice hl hvalid (by omega) (Nat.le_refl _) (fun w hw => ?_) hc
      (insertInternal_cell? _ _ _ _ _ _) hfresh
    rw [List.mem_singleton.1 hw]
    exact hfits.known
  | insert index v =>
    -- an index outside the array is moved to its nearer end
    have hclamp : h.change m.ref (.insert index v) =
        insertInternal (m.ref + 1) h m.ref
          ((m.base + min index.toNat a.count - m.base : ℕ) : ℤ) v false := by
      show insertInternal (m.ref + 1) h m.ref index v false = _
      rw [insertInternal, insertInternal, ha.array]
      dsimp only
      rw [Nat.add_sub_cancel_left, Int.toNat_natCast, min_assoc, min_self]
    have hc := insertInternal_changed hs hfuel (p := m.base + min index.toNat a.count) (by omega)
      (by omega) v false
    rw [← hclamp] at hc
    refine sound_splice hl hvalid (by omega) (by omega) (fun w hw => ?_) hc
      (insertInternal_cell? _ _ _ _ _ _) hfresh
    rw [List.mem_singleton.1 hw]
    exact hfits.known
  | removeAt index => exact sound_removal hl hvalid index
  | pop => exact sound_removal hl hvalid _
  | set index v =>
    obtain ⟨halone, hslack⟩ := hok
    rw [hs.origin] at halone
    rcases Int.lt_or_le index 0 with hneg | hnonneg
    · have hsame : h.change m.ref (.set index v) = h := by
        show setInternal (m.ref + 1) h m.ref index v false = h
        rw [setInternal, ha.array]
        dsimp only
        rw [if_pos hneg]
      rw [hsame]
      exact sound_refl hl hvalid
    · obtain ⟨i, rfl⟩ := Int.eq_ofNat_of_zero_le hnonneg
      have hplace : (i : ℤ) = ((m.base + i - m.base : ℕ) : ℤ) := by omega
      rw [Int.toNat_natCast] at halone
      by_cases hin : i < a.count
      · obtain ⟨hc, hwrote, hassigned⟩ := setInternal_changed hs hfuel (p := m.base + i) (by omega)
          (by omega) hfits.notCell false
        rw [← hplace] at hc hwrote hassigned
        refine sound_write hl hvalid (by omega) (by omega) hfits (halone hnonneg ?_) hc hwrote
          hassigned hfresh
        rw [arrayCount_eq hs]
        omega
      · have hpast : ∀ x, h.array? m.ref = some x → ∀ j, x.count ≤ j → j < m.base + i - m.base →
            x.elements.getD j .null = .null :=
          fun x hx j hj hji => hslack x hx j hj (by omega)
        obtain ⟨hc, hcells⟩ := setInternal_past hs hfuel (p := m.base + i) (by omega) v hpast
        rw [← hplace] at hc hcells
        refine sound_splice hl hvalid (by omega) (Nat.le_refl _) (fun w hw => ?_) hc hcells hfresh
        rcases List.mem_append.1 hw with hw | hw
        · rw [List.eq_of_mem_replicate hw]
          exact known_null h
        · rw [List.mem_singleton.1 hw]
          exact hfits.known

/-! ### Sorting nothing -/

/-- A heap with the same arrays and cells. -/
theorem Linked.congr (hl : Linked h m (l :: rest) R) (hvalid : h.viewIsValid m.ref = true)
    (harrays : ∀ q, h'.array? q = h.array? q) (hcells : ∀ w, h'.cell? w = h.cell? w)
    (hfresh : h'.freshRef = h.freshRef) : Sound h h' m (l :: rest) := by
  have hread := read_congr hcells
  have hstack : Stack h' m (l :: rest) := hl.stack.congr fun q _ => harrays q
  refine ⟨⟨m, l :: rest, R, rfl, ⟨hstack, ?_, ?_⟩, ?_⟩, ?_⟩
  · intro l' hl'
    refine ⟨(hl.shows l' hl').stop_le, fun j w hw => ?_⟩
    rw [hread]
    exact (hl.shows l' hl').read j w hw
  · intro l' hl' w hw
    exact (hl.known l' hl' w hw).mono hfresh.ge
  · rw [← hvalid]
    simp only [viewIsValid, harrays]
  · have hshown : ∀ q, h'.shown q = h.shown q := by
      intro q
      rw [Heap.shown, Heap.shown, Heap.live, Heap.live, harrays]
      exact List.map_congr_left fun w _ => hread w
    have houtside : ∀ chain, h.Outside h chain → h.Outside h' chain := by
      intro chain hchain
      induction chain with
      | nil => trivial
      | cons q chain ih =>
        cases chain with
        | nil => trivial
        | cons s chain =>
          obtain ⟨⟨a, a', ha, ha', hlow, hhigh⟩, htail⟩ := hchain
          exact ⟨⟨a, a', ha, (harrays q).trans ha', (hshown s).symm ▸ hlow, (hshown s).symm ▸ hhigh⟩,
            ih htail⟩
    exact houtside _ (outside_refl hl.stack)

/-- A view without elements is not changed by a rearrangement. -/
theorem sound_rearrange (hl : Linked h m (l :: rest) R) (hvalid : h.viewIsValid m.ref = true)
    (arrange : List Value → List Value) (hempty : arrange [] = [])
    (hcount : h.arrayCount m.ref = 0) : Sound h (h.rearrange m.ref arrange) m (l :: rest) := by
  obtain ⟨a, ha⟩ := hl.stack.holds
  have hzero : a.count = 0 := by
    rw [arrayCount, ha.array] at hcount
    exact hcount
  have hsame : arrange a.live ++ a.elements.drop a.count = a.elements := by
    rw [ArrayObj.live, hzero, List.take_zero, hempty, List.drop_zero, List.nil_append]
  have hset := array?_setArray ha.array a
  have hself : (h.set m.ref (.array a)).array? m.ref = some a := by rw [hset, if_pos rfl]
  have hnothing : h.rearrange m.ref arrange = h.set m.ref (.array a) := by
    rw [rearrange, ha.array]
    dsimp only
    rw [hsame]
    show syncView (h.set m.ref (.array a)) m.ref = _
    rw [syncView, hself]
    dsimp only
    cases a.viewSource with
    | none => rfl
    | some s =>
      rw [hzero]
      rfl
  rw [hnothing]
  refine hl.congr hvalid (fun q => ?_) (cell?_setArray ha.array a) (freshRef_set _ _ _)
  rw [hset]
  split_ifs with hq
  · rw [← hq, ha.array]
  · rfl

end Levels

end Heap

end Slp
