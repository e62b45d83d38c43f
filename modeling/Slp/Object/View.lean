import Mathlib.Logic.Relation
import Slp.Object.Containers

/-!
# Arrays and their views

Insertion, removal and assignment in an array that may be a view of another one, and the making of
a view.  A change goes through to the source of the array, and from there to the source of the
source; on the way each array counts its changes (`mutationVersion`), the sources that are views
themselves are flagged, and the array that was changed takes note of the version of its source.

A source is older than its views and has a smaller address, so that the loops up the chain of
sources take at most `r + 1` rounds from the array at `r`.  `Effect` says what such a change does
to the arrays of the heap.
-/

namespace Slp

namespace ArrayObj

/-- The array's own part of `array_insert_internal`. -/
def insertOwn (a : ArrayObj) (index : ℕ) (v : Value) : ArrayObj :=
  let a := a.ensureCapacity (a.count + 1)
  { a with
    elements := (a.elements.eraseIdx a.count).insertIdx index v
    count := a.count + 1
    mutationVersion := a.mutationVersion + 1 }

/-- The array's own part of `array_remove_internal`: the slot past the end keeps its value. -/
def removeOwn (a : ArrayObj) (index : ℕ) : ArrayObj :=
  { a with
    elements := (a.elements.eraseIdx index).insertIdx (a.count - 1)
      (a.elements.getD (a.count - 1) .null)
    count := a.count - 1
    mutationVersion := a.mutationVersion + 1 }

/-- A view that is changed from below is invalid from then on. -/
def flag (a : ArrayObj) (fromChildView : Bool) : ArrayObj :=
  if fromChildView ∧ a.viewSource.isSome then { a with viewInvalid := true } else a

end ArrayObj

namespace Heap

/-- The array at an address. -/
def array? (h : Heap) (r : Ref) : Option ArrayObj :=
  match h.get? r with
  | some (.array a) => some a
  | _ => none

/-- The scalar cell a value is: its address, its content and its watch. -/
def cell? (h : Heap) : Value → Option (Ref × Value × Option Ref)
  | .obj r => match h.get? r with
    | some (.scalarCell v watch) => some (r, v, watch)
    | _ => none
  | _ => none

/-- The view at `r` takes note of the version of its source at `s`. -/
def refresh (h : Heap) (r s : Ref) : Heap :=
  match h.array? r, h.array? s with
  | some a, some b => h.set r (.array { a with viewSourceVersion := b.mutationVersion })
  | _, _ => h

/-- `array_insert_internal`. -/
def insertInternal : (fuel : ℕ) → Heap → Ref → (index : ℤ) → Value → (fromChildView : Bool) → Heap
  | 0, h, _, _, _, _ => h
  | fuel + 1, h, r, index, v, fromChildView =>
    match h.array? r with
    | none => h
    | some a =>
      let index := min index.toNat a.count
      let h := h.set r (.array ((a.insertOwn index v).flag fromChildView))
      match a.viewSource with
      | none => h
      | some s =>
        let h := insertInternal fuel h s (a.viewOffset + index) v true
        if fromChildView then h else h.refresh r s

/-- `array_remove_internal`, less the element it returns. -/
def removeInternal : (fuel : ℕ) → Heap → Ref → (index : ℤ) → (fromChildView : Bool) → Heap
  | 0, h, _, _, _ => h
  | fuel + 1, h, r, index, fromChildView =>
    match h.array? r with
    | none => h
    | some a =>
      if index < 0 ∨ index ≥ a.count then h
      else
        let h := h.set r (.array ((a.removeOwn index.toNat).flag fromChildView))
        match a.viewSource with
        | none => h
        | some s =>
          let h := removeInternal fuel h s (a.viewOffset + index) true
          if fromChildView then h else h.refresh r s

/-- The write of `array_set_internal`: an element that is a cell is assigned, not replaced. -/
def writeElement (h : Heap) (a : ArrayObj) (index : ℕ) (v : Value) : Heap × ArrayObj :=
  match if index < a.count then h.cell? (a.elements.getD index .null) else none with
  | some (c, _, watch) =>
    let assigned := match h.cell? v with
      | some (_, content, _) => content
      | none => v
    (h.set c (.scalarCell assigned watch), a)
  | none => (h, { a with elements := a.elements.set index v })

/-- `array_set_internal`. -/
def setInternal : (fuel : ℕ) → Heap → Ref → (index : ℤ) → Value → (fromChildView : Bool) → Heap
  | 0, h, _, _, _, _ => h
  | fuel + 1, h, r, index, v, fromChildView =>
    match h.array? r with
    | none => h
    | some a =>
      if index < 0 then h
      else
        let i := index.toNat
        let (h, b) := h.writeElement (a.ensureCapacity (i + 1)) i v
        let b := { b with count := max a.count (i + 1), mutationVersion := a.mutationVersion + 1 }
        let h := h.set r (.array (b.flag fromChildView))
        match a.viewSource with
        | none => h
        | some s =>
          -- the gap before the new element is inserted in the source too
          let h := (List.range' a.count (i - a.count)).foldl
            (fun h j => insertInternal fuel h s (a.viewOffset + j) .null true) h
          let h :=
            if i < a.count then setInternal fuel h s (a.viewOffset + i) v true
            else insertInternal fuel h s (a.viewOffset + i) v true
          if fromChildView then h else h.refresh r s

end Heap

/-- The changes of an array. -/
inductive ArrayOp where
  | push (v : Value)
  | insert (index : ℤ) (v : Value)
  | removeAt (index : ℤ)
  | pop
  | set (index : ℤ) (v : Value)
  deriving DecidableEq, Repr

namespace Heap

/-- The number of elements of the array at an address. -/
def arrayCount (h : Heap) (r : Ref) : ℕ :=
  match h.array? r with
  | some a => a.count
  | none => 0

/-- `slp_obj_array_push`, `slp_obj_array_insert`, `slp_obj_array_remove_at`, `slp_obj_array_pop`
and `slp_obj_array_set`. -/
def change (h : Heap) (r : Ref) : ArrayOp → Heap
  | .push v => insertInternal (r + 1) h r (h.arrayCount r) v false
  | .insert index v => insertInternal (r + 1) h r index v false
  | .removeAt index => removeInternal (r + 1) h r index false
  | .pop => removeInternal (r + 1) h r ((h.arrayCount r : ℤ) - 1) false
  | .set index v => setInternal (r + 1) h r index v false

/-- `slp_obj_array_view_is_valid`. -/
def viewIsValid (h : Heap) (r : Ref) : Bool :=
  match h.array? r with
  | none => true
  | some a =>
    match a.viewSource with
    | none => true
    | some s => !a.viewInvalid && decide ((h.array? s).map (·.mutationVersion) = some a.viewSourceVersion)

/-- The view of the elements `start` to `stop` of the array at `r`, made by `builtin_sublist`. -/
def newView (a : ArrayObj) (r : Ref) (start stop : ℕ) : ArrayObj :=
  let view := ((a.elements.drop start).take (stop - start)).foldl ArrayObj.push {}
  { view with
    viewSource := some r
    viewOffset := start
    viewSourceVersion := a.mutationVersion }

/-- `builtin_sublist`: the heap with the new view and its address; `none` when there is none. -/
def sublist (h : Heap) (r : Ref) (originalStart : ℤ) (originalEnd : Option ℤ) :
    Option (Heap × Ref) :=
  match h.array? r with
  | none => none
  | some a =>
    let originalEnd := originalEnd.getD a.count
    let start := if originalStart < 0 then originalStart + a.count else originalStart
    let stop := if originalEnd < 0 then originalEnd + a.count else originalEnd
    let stop := min stop a.count
    if start > stop ∨ start < 0 ∨ start > a.count ∨ stop < 0 then none
    else
      let view := newView a r start.toNat stop.toNat
      some ({ ref := h.freshRef, obj := .array view } :: h, h.freshRef)

/-! ### Chains of sources -/

/-- The array at `q` is a view of the one at `s`. -/
def IsSource (h : Heap) (q s : Ref) : Prop := ∃ a, h.array? q = some a ∧ a.viewSource = some s

/-- The array at `q` is the one at `r`, or its source, or the source of its source, and so on. -/
def Above (h : Heap) : Ref → Ref → Prop := Relation.ReflTransGen h.IsSource

/-- Sources are arrays, and older than their views. -/
structure Ordered (h : Heap) : Prop where
  older : ∀ q s, h.IsSource q s → s < q
  present : ∀ q s, h.IsSource q s → (h.array? s).isSome

/-- The array at `q` was changed. -/
def Mutated (h h' : Heap) (q : Ref) : Prop :=
  ∃ a a', h.array? q = some a ∧ h'.array? q = some a' ∧ a.mutationVersion < a'.mutationVersion

/-- What stays of an array when another array is changed. -/
structure Kept (a a' : ArrayObj) : Prop where
  viewSource : a'.viewSource = a.viewSource
  viewOffset : a'.viewOffset = a.viewOffset
  mutationVersion : a.mutationVersion ≤ a'.mutationVersion
  viewInvalid : a.viewInvalid = true → a'.viewInvalid = true

/-- A change of the array at `r`: it reaches the arrays above `r`, as far as they are changed one
after the other, and only the array at `r` may take note of a version. -/
structure Effect (h h' : Heap) (r : Ref) (fromChildView : Bool) : Prop where
  apart : ∀ q, ¬h.Above r q → h'.array? q = h.array? q
  kept : ∀ q a, h.array? q = some a → ∃ a', h'.array? q = some a' ∧ Kept a a' ∧
    (q ≠ r ∨ fromChildView = true → a'.viewSourceVersion = a.viewSourceVersion)
  absent : ∀ q, h.array? q = none → h'.array? q = none
  chain : ∀ q s, h.IsSource q s → h.Above r q → Mutated h h' s → Mutated h h' q
  noted : ∀ s, h.IsSource r s → h'.array? r = h.array? r ∨ fromChildView = true ∨
    ∃ a b, h'.array? r = some a ∧ h'.array? s = some b ∧ a.viewSourceVersion = b.mutationVersion

/-! ### Effects -/

section Effects

variable {h h₁ h₂ h' : Heap} {r q s c : Ref} {a b : ArrayObj} {v v' : Value} {w w' : Option Ref}
  {fromChildView : Bool}

theorem get?_of_array? (ha : h.array? r = some a) : h.get? r = some (.array a) := by
  unfold array? at ha
  split at ha
  · rename_i hr
    rw [hr, Option.some.inj ha]
  · cases ha

theorem array?_setArray (ha : h.array? r = some a) (b : ArrayObj) (q : Ref) :
    (h.set r (.array b)).array? q = if r = q then some b else h.array? q := by
  unfold array?
  split_ifs with hq
  · rw [← hq, get?_set_self (by rw [get?_of_array? ha]; rfl)]
  · rw [get?_set_ne hq]

theorem cell?_some {x : Value} (hc : h.cell? v = some (c, x, w)) :
    v = .obj c ∧ h.get? c = some (.scalarCell x w) := by
  unfold cell? at hc
  split at hc
  · split at hc
    · rename_i r x w hr
      cases hc
      exact ⟨rfl, hr⟩
    · cases hc
  · cases hc

theorem array?_setCell (hc : h.get? c = some (.scalarCell v w)) (q : Ref) :
    (h.set c (.scalarCell v' w')).array? q = h.array? q := by
  unfold array?
  by_cases hq : c = q
  · subst hq
    rw [get?_set_self (by rw [hc]; rfl), hc]
  · rw [get?_set_ne hq]

theorem Kept.refl (a : ArrayObj) : Kept a a := ⟨rfl, rfl, Nat.le_refl _, id⟩

theorem Kept.trans {d : ArrayObj} (hab : Kept a b) (hbd : Kept b d) : Kept a d where
  viewSource := hbd.viewSource.trans hab.viewSource
  viewOffset := hbd.viewOffset.trans hab.viewOffset
  mutationVersion := hab.mutationVersion.trans hbd.mutationVersion
  viewInvalid ha := hbd.viewInvalid (hab.viewInvalid ha)

theorem not_mutated_self : ¬Mutated h h q := by
  rintro ⟨a, a', ha, ha', hlt⟩
  obtain rfl := Option.some.inj (ha.symm.trans ha')
  exact Nat.lt_irrefl _ hlt

theorem Effect.refl (h : Heap) (r : Ref) (fromChildView : Bool) : Effect h h r fromChildView where
  apart _ _ := rfl
  kept _ a ha := ⟨a, ha, Kept.refl a, fun _ => rfl⟩
  absent _ hq := hq
  chain _ _ _ _ hno := absurd hno not_mutated_self
  noted _ _ := .inl rfl

theorem Effect.isSource_eq (he : Effect h h' r fromChildView) : h'.IsSource = h.IsSource := by
  funext q s
  refine propext ⟨?_, ?_⟩
  · rintro ⟨a', ha', hs⟩
    cases ha : h.array? q with
    | none =>
      rw [he.absent q ha] at ha'
      cases ha'
    | some a =>
      obtain ⟨b, hb, hk, -⟩ := he.kept q a ha
      obtain rfl := Option.some.inj (hb.symm.trans ha')
      exact ⟨a, ha, hk.viewSource ▸ hs⟩
  · rintro ⟨a, ha, hs⟩
    obtain ⟨b, hb, hk, -⟩ := he.kept q a ha
    exact ⟨b, hb, hk.viewSource.trans hs⟩

theorem Effect.above_eq (he : Effect h h' r fromChildView) : h'.Above = h.Above := by
  rw [Above, he.isSource_eq]
  rfl

theorem Effect.ordered (he : Effect h h' r fromChildView) (hord : Ordered h) : Ordered h' where
  older q s hs := hord.older q s (he.isSource_eq ▸ hs)
  present q s hs := by
    have hsome := hord.present q s (he.isSource_eq ▸ hs)
    obtain ⟨b, hb⟩ := Option.isSome_iff_exists.1 hsome
    obtain ⟨b', hb', -⟩ := he.kept s b hb
    rw [hb']
    rfl

/-- A change, and then another one, of a source from below. -/
theorem Effect.trans (he : Effect h h₁ r true) (he' : Effect h₁ h₂ r true) :
    Effect h h₂ r true where
  apart q hq := by
    rw [he'.apart q (by rwa [he.above_eq]), he.apart q hq]
  kept q a ha := by
    obtain ⟨b, hb, hk, hv⟩ := he.kept q a ha
    obtain ⟨d, hd, hk', hv'⟩ := he'.kept q b hb
    exact ⟨d, hd, hk.trans hk', fun hor => (hv' hor).trans (hv hor)⟩
  absent q hq := he'.absent q (he.absent q hq)
  chain q s hs hq := by
    rintro ⟨a, d, ha, hd, hlt⟩
    obtain ⟨b, hb, hk, -⟩ := he.kept s a ha
    obtain ⟨x, hx, hxs⟩ := hs
    obtain ⟨y, hy, hkxy, -⟩ := he.kept q x hx
    obtain ⟨z, hz, hkyz, -⟩ := he'.kept q y hy
    refine ⟨x, z, hx, hz, ?_⟩
    -- one of the two changes reached the source, and then the view too
    by_cases hfirst : a.mutationVersion < b.mutationVersion
    · obtain ⟨x', y', hx', hy', hxy⟩ := he.chain q s ⟨x, hx, hxs⟩ hq ⟨a, b, ha, hb, hfirst⟩
      obtain rfl := Option.some.inj (hx'.symm.trans hx)
      obtain rfl := Option.some.inj (hy'.symm.trans hy)
      exact Nat.lt_of_lt_of_le hxy hkyz.mutationVersion
    · have hsecond : b.mutationVersion < d.mutationVersion := by omega
      obtain ⟨y', z', hy', hz', hyz⟩ := he'.chain q s (he.isSource_eq ▸ ⟨x, hx, hxs⟩)
        (he.above_eq ▸ hq) ⟨b, d, hb, hd, hsecond⟩
      obtain rfl := Option.some.inj (hy'.symm.trans hy)
      obtain rfl := Option.some.inj (hz'.symm.trans hz)
      exact Nat.lt_of_le_of_lt hkxy.mutationVersion hyz
  noted _ _ := .inr (.inl rfl)

/-- The array at `r` is changed itself. -/
structure Own (a b : ArrayObj) : Prop extends Kept a b where
  viewSourceVersion : b.viewSourceVersion = a.viewSourceVersion
  changed : a.mutationVersion < b.mutationVersion

theorem above_self (h : Heap) (r : Ref) : h.Above r r := Relation.ReflTransGen.refl

theorem above_of_source (hs : h.IsSource r s) (hq : h.Above s q) : h.Above r q :=
  Relation.ReflTransGen.head hs hq

theorem Above.le (hord : Ordered h) (hq : h.Above r q) : q ≤ r := by
  induction hq with
  | refl => exact Nat.le_refl _
  | tail _ hs ih => exact (Nat.le_of_lt (hord.older _ _ hs)).trans ih

/-- A change of one array that keeps its source keeps all sources. -/
theorem isSource_set (ha : h.array? r = some a) (hk : Kept a b)
    (hset : ∀ q, h₁.array? q = if r = q then some b else h.array? q) :
    h₁.IsSource = h.IsSource := by
  funext q p
  refine propext ⟨?_, ?_⟩
  · rintro ⟨x, hx, hxs⟩
    rw [hset] at hx
    split_ifs at hx with hq
    · subst hq
      obtain rfl := Option.some.inj hx
      exact ⟨a, ha, hk.viewSource ▸ hxs⟩
    · exact ⟨x, hx, hxs⟩
  · rintro ⟨x, hx, hxs⟩
    by_cases hq : r = q
    · subst hq
      obtain rfl := Option.some.inj (ha.symm.trans hx)
      exact ⟨b, by rw [hset, if_pos rfl], hk.viewSource.trans hxs⟩
    · exact ⟨x, by rw [hset, if_neg hq]; exact hx, hxs⟩

theorem Ordered.set (hord : Ordered h) (ha : h.array? r = some a) (hk : Kept a b)
    (hset : ∀ q, h₁.array? q = if r = q then some b else h.array? q) : Ordered h₁ where
  older q s hs := hord.older q s (isSource_set ha hk hset ▸ hs)
  present q s hs := by
    rw [hset]
    split_ifs
    · rfl
    · exact hord.present q s (isSource_set ha hk hset ▸ hs)

/-- The array at `r` is changed, and it is no view. -/
theorem Effect.root (ha : h.array? r = some a) (hroot : a.viewSource = none) (hown : Own a b)
    (hset : ∀ q, h₁.array? q = if r = q then some b else h.array? q) :
    Effect h h₁ r fromChildView where
  apart q hq := by
    rw [hset, if_neg]
    rintro rfl
    exact hq (above_self h r)
  kept q x hx := by
    rw [hset]
    split_ifs with hq
    · subst hq
      obtain rfl := Option.some.inj (ha.symm.trans hx)
      exact ⟨b, rfl, hown.toKept, fun _ => hown.viewSourceVersion⟩
    · exact ⟨x, hx, Kept.refl x, fun _ => rfl⟩
  absent q hq := by
    rw [hset, if_neg]
    · exact hq
    · rintro rfl
      rw [ha] at hq
      cases hq
  chain q s hs hq := by
    -- nothing is above an array that is no view
    have hqr : q = r := by
      rcases Relation.ReflTransGen.cases_head hq with heq | ⟨p, ⟨x, hx, hxs⟩, -⟩
      · exact heq.symm
      · obtain rfl := Option.some.inj (ha.symm.trans hx)
        rw [hroot] at hxs
        cases hxs
    obtain ⟨x, hx, hxs⟩ := hs
    rw [hqr] at hx
    obtain rfl := Option.some.inj (ha.symm.trans hx)
    rw [hroot] at hxs
    cases hxs
  noted s hs := by
    obtain ⟨x, hx, hxs⟩ := hs
    obtain rfl := Option.some.inj (ha.symm.trans hx)
    rw [hroot] at hxs
    cases hxs

/-- The array at `r` is changed, and then its source from below. -/
theorem Effect.view (hord : Ordered h) (ha : h.array? r = some a) (hview : a.viewSource = some s)
    (hown : Own a b) (hset : ∀ q, h₁.array? q = if r = q then some b else h.array? q)
    (hrest : Effect h₁ h₂ s true) : Effect h h₂ r true := by
  have hrs : h.IsSource r s := ⟨a, ha, hview⟩
  have hlt : s < r := hord.older r s hrs
  have hsource := isSource_set ha hown.toKept hset
  have habove : h₁.Above = h.Above := by rw [Above, hsource]; rfl
  have hfar : ¬h₁.Above s r := by
    intro hsr
    exact absurd hlt (Nat.not_lt.2 (Above.le hord (habove ▸ hsr)))
  have hr₂ : h₂.array? r = some b := by rw [hrest.apart r hfar, hset, if_pos rfl]
  refine ⟨?_, ?_, ?_, ?_, fun _ _ => .inr (.inl rfl)⟩
  · intro q hq
    have hqr : r ≠ q := by
      rintro rfl
      exact hq (above_self h r)
    rw [hrest.apart q (fun hsq => hq (above_of_source hrs (habove ▸ hsq))), hset, if_neg hqr]
  · intro q x hx
    by_cases hq : r = q
    · subst hq
      obtain rfl := Option.some.inj (ha.symm.trans hx)
      exact ⟨b, hr₂, hown.toKept, fun _ => hown.viewSourceVersion⟩
    · obtain ⟨y, hy, hk, hv⟩ := hrest.kept q x (by rw [hset, if_neg hq]; exact hx)
      exact ⟨y, hy, hk, fun _ => hv (.inr rfl)⟩
  · intro q hq
    have hqr : r ≠ q := by
      rintro rfl
      rw [ha] at hq
      cases hq
    exact hrest.absent q (by rw [hset, if_neg hqr]; exact hq)
  · intro q p hqp hq hmut
    by_cases hqr : r = q
    · subst hqr
      exact ⟨a, b, ha, hr₂, hown.changed⟩
    · have hsq : h.Above s q := by
        rcases Relation.ReflTransGen.cases_head hq with heq | ⟨p', ⟨x, hx, hxs⟩, hpq⟩
        · exact absurd heq hqr
        · obtain rfl := Option.some.inj (ha.symm.trans hx)
          obtain rfl := Option.some.inj (hview.symm.trans hxs)
          exact hpq
      have hpr : r ≠ p := by
        rintro rfl
        exact absurd hlt (Nat.not_lt.2 (Above.le hord (hsq.tail hqp)))
      have hmut₁ : Mutated h₁ h₂ p := by
        obtain ⟨x, y, hx, hy, hxy⟩ := hmut
        exact ⟨x, y, by rw [hset, if_neg hpr]; exact hx, hy, hxy⟩
      obtain ⟨x, y, hx, hy, hxy⟩ := hrest.chain q p (hsource ▸ hqp) (habove ▸ hsq) hmut₁
      rw [hset, if_neg hqr] at hx
      exact ⟨x, y, hx, hy, hxy⟩

/-- The view that was changed takes note of the version of its source. -/
theorem Effect.refresh (hord : Ordered h) (he : Effect h h₁ r true) (hs : h.IsSource r s) :
    Effect h (h₁.refresh r s) r false := by
  obtain ⟨a, ha, hview⟩ := hs
  have hne : s ≠ r := Nat.ne_of_lt (hord.older r s ⟨a, ha, hview⟩)
  obtain ⟨b, hb, hk, hv⟩ := he.kept r a ha
  obtain ⟨x, hx⟩ := Option.isSome_iff_exists.1 (hord.present r s ⟨a, ha, hview⟩)
  obtain ⟨d, hd, -⟩ := he.kept s x hx
  have hset : ∀ q, (h₁.refresh r s).array? q =
      if r = q then some { b with viewSourceVersion := d.mutationVersion } else h₁.array? q := by
    intro q
    rw [Heap.refresh, hb, hd]
    exact array?_setArray hb _ q
  refine ⟨?_, ?_, ?_, ?_, ?_⟩
  · intro q hq
    rw [hset, if_neg, he.apart q hq]
    rintro rfl
    exact hq (above_self h r)
  · intro q y hy
    rw [hset]
    split_ifs with hq
    · subst hq
      obtain rfl := Option.some.inj (ha.symm.trans hy)
      refine ⟨_, rfl, ⟨hk.viewSource, hk.viewOffset, hk.mutationVersion, hk.viewInvalid⟩, ?_⟩
      rintro (hno | hno)
      · exact absurd rfl hno
      · cases hno
    · obtain ⟨z, hz, hkz, hvz⟩ := he.kept q y hy
      exact ⟨z, hz, hkz, fun _ => hvz (.inr rfl)⟩
  · intro q hq
    rw [hset, if_neg]
    · exact he.absent q hq
    · rintro rfl
      rw [ha] at hq
      cases hq
  · intro q p hqp hq hmut
    have hlower : ∀ q', Mutated h (h₁.refresh r s) q' ↔ Mutated h h₁ q' := by
      intro q'
      unfold Mutated
      rw [hset]
      split_ifs with hq'
      · subst hq'
        simp [hb]
      · rfl
    rw [hlower] at hmut ⊢
    exact he.chain q p hqp hq hmut
  · intro p hp
    obtain ⟨y, hy, hyp⟩ := hp
    obtain rfl := Option.some.inj (ha.symm.trans hy)
    obtain rfl := Option.some.inj (hview.symm.trans hyp)
    refine .inr (.inr ⟨_, d, by rw [hset, if_pos rfl], ?_, rfl⟩)
    rw [hset, if_neg hne.symm]
    exact hd

/-! ### The effects of the operations -/

theorem own_flag (hown : Own a b) (fromChildView : Bool) : Own a (b.flag fromChildView) := by
  unfold ArrayObj.flag
  split_ifs
  · exact ⟨⟨hown.viewSource, hown.viewOffset, hown.mutationVersion, fun _ => rfl⟩,
      hown.viewSourceVersion, hown.changed⟩
  · exact hown

theorem kept_ensureCapacity (a : ArrayObj) (needed : ℕ) : Kept a (a.ensureCapacity needed) ∧
    (a.ensureCapacity needed).viewSourceVersion = a.viewSourceVersion ∧
    (a.ensureCapacity needed).mutationVersion = a.mutationVersion := by
  unfold ArrayObj.ensureCapacity
  by_cases hfits : needed ≤ a.elements.length
  · rw [if_pos hfits]
    exact ⟨Kept.refl a, rfl, rfl⟩
  · rw [if_neg hfits]
    exact ⟨⟨rfl, rfl, Nat.le_refl _, id⟩, rfl, rfl⟩

theorem own_insertOwn (a : ArrayObj) (index : ℕ) (v : Value) : Own a (a.insertOwn index v) := by
  obtain ⟨hk, hv, hm⟩ := kept_ensureCapacity a (a.count + 1)
  refine ⟨⟨hk.viewSource, hk.viewOffset, ?_, hk.viewInvalid⟩, hv, ?_⟩
  · exact hk.mutationVersion.trans (Nat.le_succ _)
  · exact Nat.lt_succ_of_le hk.mutationVersion

theorem own_removeOwn (a : ArrayObj) (index : ℕ) : Own a (a.removeOwn index) :=
  ⟨⟨rfl, rfl, Nat.le_succ _, id⟩, rfl, Nat.lt_succ_self _⟩

theorem insertInternal_effect (hord : Ordered h) (fuel : ℕ) (r : Ref) (index : ℤ) (v : Value)
    (fromChildView : Bool) :
    Effect h (insertInternal fuel h r index v fromChildView) r fromChildView := by
  induction fuel generalizing h r index v fromChildView with
  | zero => exact Effect.refl h r fromChildView
  | succ fuel ih =>
    rw [insertInternal]
    cases ha : h.array? r with
    | none => exact Effect.refl h r fromChildView
    | some a =>
      dsimp only
      have hown := own_flag (own_insertOwn a (min index.toNat a.count) v) fromChildView
      have hset := array?_setArray ha ((a.insertOwn (min index.toNat a.count) v).flag fromChildView)
      cases hview : a.viewSource with
      | none => exact Effect.root ha hview hown hset
      | some s =>
        have hrest := ih (hord.set ha hown.toKept hset) s
          (a.viewOffset + (min index.toNat a.count : ℕ)) v true
        have heffect := Effect.view hord ha hview hown hset hrest
        cases fromChildView with
        | true => exact heffect
        | false => exact heffect.refresh hord ⟨a, ha, hview⟩

theorem removeInternal_effect (hord : Ordered h) (fuel : ℕ) (r : Ref) (index : ℤ)
    (fromChildView : Bool) :
    Effect h (removeInternal fuel h r index fromChildView) r fromChildView := by
  induction fuel generalizing h r index fromChildView with
  | zero => exact Effect.refl h r fromChildView
  | succ fuel ih =>
    rw [removeInternal]
    cases ha : h.array? r with
    | none => exact Effect.refl h r fromChildView
    | some a =>
      dsimp only
      by_cases hout : index < 0 ∨ index ≥ a.count
      · rw [if_pos hout]
        exact Effect.refl h r fromChildView
      · rw [if_neg hout]
        have hown := own_flag (own_removeOwn a index.toNat) fromChildView
        have hset := array?_setArray ha ((a.removeOwn index.toNat).flag fromChildView)
        cases hview : a.viewSource with
        | none => exact Effect.root ha hview hown hset
        | some s =>
          have hrest := ih (hord.set ha hown.toKept hset) s (a.viewOffset + index) true
          have heffect := Effect.view hord ha hview hown hset hrest
          cases fromChildView with
          | true => exact heffect
          | false => exact heffect.refresh hord ⟨a, ha, hview⟩

theorem foldl_insertInternal_effect (hord : Ordered h) (fuel : ℕ) (s : Ref) (offset : ℕ)
    (js : List ℕ) :
    Effect h (js.foldl (fun h j => insertInternal fuel h s (offset + j) .null true) h) s true := by
  induction js generalizing h with
  | nil => exact Effect.refl h s true
  | cons j js ih =>
    have hfirst := insertInternal_effect hord fuel s (offset + j) .null true
    exact hfirst.trans (ih (hfirst.ordered hord))

/-- The write of an element changes one array, or a cell. -/
theorem writeElement_spec (h : Heap) (a : ArrayObj) (index : ℕ) (v : Value) :
    (∀ q, (h.writeElement a index v).1.array? q = h.array? q) ∧
      Kept a (h.writeElement a index v).2 ∧
      (h.writeElement a index v).2.viewSourceVersion = a.viewSourceVersion := by
  unfold writeElement
  split
  · rename_i c content watch hc
    split_ifs at hc
    · obtain ⟨-, hcell⟩ := cell?_some hc
      exact ⟨array?_setCell hcell, Kept.refl a, rfl⟩
  · exact ⟨fun _ => rfl, ⟨rfl, rfl, Nat.le_refl _, id⟩, rfl⟩

theorem setInternal_effect (hord : Ordered h) (fuel : ℕ) (r : Ref) (index : ℤ) (v : Value)
    (fromChildView : Bool) :
    Effect h (setInternal fuel h r index v fromChildView) r fromChildView := by
  induction fuel generalizing h r index v fromChildView with
  | zero => exact Effect.refl h r fromChildView
  | succ fuel ih =>
    rw [setInternal]
    cases ha : h.array? r with
    | none => exact Effect.refl h r fromChildView
    | some a =>
      dsimp only
      by_cases hneg : index < 0
      · rw [if_pos hneg]
        exact Effect.refl h r fromChildView
      · rw [if_neg hneg]
        obtain ⟨hsame, hk, hv⟩ := writeElement_spec h (a.ensureCapacity (index.toNat + 1))
          index.toNat v
        obtain ⟨hk₀, hv₀, -⟩ := kept_ensureCapacity a (index.toNat + 1)
        generalize hw : h.writeElement (a.ensureCapacity (index.toNat + 1)) index.toNat v = w
        rw [hw] at hsame hk hv
        obtain ⟨h₀, b⟩ := w
        dsimp only at hsame hk hv ⊢
        have hown₀ : Own a { b with
            count := max a.count (index.toNat + 1)
            mutationVersion := a.mutationVersion + 1 } :=
          ⟨⟨hk.viewSource.trans hk₀.viewSource, hk.viewOffset.trans hk₀.viewOffset,
            Nat.le_succ _, fun hi => hk.viewInvalid (hk₀.viewInvalid hi)⟩, hv.trans hv₀,
            Nat.lt_succ_self _⟩
        have hown := own_flag hown₀ fromChildView
        have hset : ∀ q, (h₀.set r (.array (ArrayObj.flag { b with
            count := max a.count (index.toNat + 1)
            mutationVersion := a.mutationVersion + 1 } fromChildView))).array? q =
            if r = q then some (ArrayObj.flag { b with
              count := max a.count (index.toNat + 1)
              mutationVersion := a.mutationVersion + 1 } fromChildView) else h.array? q := by
          intro q
          rw [array?_setArray ((hsame r).trans ha), hsame q]
        generalize ArrayObj.flag _ fromChildView = d at hown hset ⊢
        cases hview : a.viewSource with
        | none => exact Effect.root ha hview hown hset
        | some s =>
          dsimp only
          have hord₁ := hord.set ha hown.toKept hset
          have hgap := foldl_insertInternal_effect hord₁ fuel s a.viewOffset
            (List.range' a.count (index.toNat - a.count))
          generalize List.foldl _ _ _ = h₂ at hgap ⊢
          have hlast : Effect h₂ (if index.toNat < a.count then
              setInternal fuel h₂ s (a.viewOffset + index.toNat) v true
            else insertInternal fuel h₂ s (a.viewOffset + index.toNat) v true) s true := by
            split_ifs
            · exact ih (hgap.ordered hord₁) s _ v true
            · exact insertInternal_effect (hgap.ordered hord₁) fuel s _ v true
          have heffect := Effect.view hord ha hview hown hset (hgap.trans hlast)
          cases fromChildView with
          | true => exact heffect
          | false => exact heffect.refresh hord ⟨a, ha, hview⟩

/-- A change of an array, made through the array itself. -/
theorem change_effect (hord : Ordered h) (r : Ref) (op : ArrayOp) :
    Effect h (h.change r op) r false := by
  cases op with
  | push v => exact insertInternal_effect hord _ r _ v false
  | insert index v => exact insertInternal_effect hord _ r index v false
  | removeAt index => exact removeInternal_effect hord _ r index false
  | pop => exact removeInternal_effect hord _ r _ false
  | set index v => exact setInternal_effect hord _ r index v false

end Effects

end Heap

end Slp
