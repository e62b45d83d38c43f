import Slp.Object.Stale
import Slp.Object.WriteThrough

/-!
# Gaps

An assignment past the end of an array makes it longer, and leaves a gap between its old end and the
new element.  `array_set_internal` takes for the gap what the storage holds there.  Storage that is
new holds null, and storage that a removal has left holds what was there before.  In the source of a
view the gap is inserted, as nulls.

* `Fills`: what an assignment past the end owes an array, or the source of a view;
* `ArrayRun`: the heaps reached by making arrays and views and by the changes of arrays.  A clear and
  a splice are removals and insertions one after the other;
* `fillsGap_iff`: **the gap is filled exactly if the storage there holds null, and the view ends
  inside its source.**
-/

namespace Slp

/-- What an assignment at `index` past the place `stop` makes of elements. -/
structure Fills (before after : List Value) (stop index : ℕ) (v : Value) : Prop where
  count : after.length = before.length + (index + 1 - stop)
  stored : after[index]? = some v
  earlier : ∀ j < stop, after[j]? = before[j]?
  gap : ∀ j, stop ≤ j → j < index → after[j]? = some .null
  later : ∀ j, stop ≤ j → after[j + (index + 1 - stop)]? = before[j]?

/-- Nulls and a value are put in at a place of a list. -/
def fill (vs : List Value) (stop gap : ℕ) (v : Value) : List Value :=
  vs.take stop ++ (List.replicate gap Value.null ++ [v]) ++ vs.drop stop

theorem fills_fill {vs : List Value} {stop index : ℕ} (hstop : stop ≤ vs.length)
    (hindex : stop ≤ index) (v : Value) : Fills vs (fill vs stop (index - stop) v) stop index v := by
  have htake : (vs.take stop).length = stop := List.length_take_of_le hstop
  have hmid : (List.replicate (index - stop) Value.null ++ [v]).length = index + 1 - stop := by
    rw [List.length_append, List.length_replicate, List.length_singleton]
    omega
  have hfront : (vs.take stop ++ (List.replicate (index - stop) Value.null ++ [v])).length = index + 1 := by
    rw [List.length_append, htake, hmid]
    omega
  refine ⟨?_, ?_, fun j hj => ?_, fun j hj hji => ?_, fun j hj => ?_⟩
  · rw [fill, List.length_append, hfront, List.length_drop]
    omega
  · rw [fill, List.getElem?_append_left (by omega), List.getElem?_append_right (by omega), htake,
      List.getElem?_append_right (by rw [List.length_replicate]), List.length_replicate, Nat.sub_self]
    rfl
  · rw [fill, List.getElem?_append_left (by omega), List.getElem?_append_left (by omega),
      List.getElem?_take_of_lt hj]
  · rw [fill, List.getElem?_append_left (by omega), List.getElem?_append_right (by omega), htake,
      List.getElem?_append_left (by rw [List.length_replicate]; omega), List.getElem?_replicate,
      if_pos (by omega)]
  · rw [fill, List.getElem?_append_right (by omega), hfront, List.getElem?_drop]
    congr 1
    omega

namespace Heap

/-- Every array has storage for its elements. -/
def AllSized (h : Heap) : Prop := ∀ q a, h.array? q = some a → a.count ≤ a.elements.length

/-- The heaps reached by making arrays and views and by changes of arrays. -/
inductive ArrayRun : Heap → Prop where
  | start (h : Heap) (hroots : ∀ q s, ¬h.IsSource q s) (hsized : AllSized h) : ArrayRun h
  | make {h : Heap} (h' : Heap) (hrun : ArrayRun h)
      (hmake : ∀ q, h'.array? q = h.array? q ∨ h.array? q = none ∧ h'.array? q = some {}) :
      ArrayRun h'
  | sublist {h h' : Heap} {r v : Ref} (start : ℤ) (stop : Option ℤ) (hrun : ArrayRun h)
      (hsublist : h.sublist r start stop = some (h', v)) : ArrayRun h'
  | change {h : Heap} (r : Ref) (op : ArrayOp) (hrun : ArrayRun h) : ArrayRun (h.change r op)

/-- The assignment fills the gap, in the array and, if that is a view, in its source. -/
structure FillsGap (h h' : Heap) (r : Ref) (a : ArrayObj) (i : ℕ) (v : Value) : Prop where
  array : Fills (h.live r) (h'.live r) a.count i v
  source : ∀ s, a.viewSource = some s →
    Fills (h.live s) (h'.live s) (a.viewOffset + a.count) (a.viewOffset + i) v

/-- The storage between the end of the array and the index holds null, and a view ends inside its
source. -/
structure GapFree (h : Heap) (a : ArrayObj) (i : ℕ) : Prop where
  storage : ∀ j, a.count ≤ j → j < i → a.elements.getD j .null = .null
  inside : ∀ s, a.viewSource = some s → a.viewOffset + a.count ≤ (h.live s).length

section Sizes

variable {h h' h₁ : Heap} {r s q : Ref} {a b : ArrayObj} {v : Value} {fromChildView : Bool}

theorem AllSized.set (hz : AllSized h) (hb : b.count ≤ b.elements.length)
    (hset : ∀ q, h₁.array? q = if r = q then some b else h.array? q) : AllSized h₁ := by
  intro q x hx
  rw [hset] at hx
  split_ifs at hx
  · obtain rfl := Option.some.inj hx
    exact hb
  · exact hz q x hx

theorem AllSized.refresh (hz : AllSized h) (r s : Ref) : AllSized (h.refresh r s) := by
  rw [Heap.refresh]
  split
  · next a b ha hb =>
    exact hz.set (b := { a with viewSourceVersion := b.mutationVersion }) (hz r a ha)
      (array?_setArray ha _)
  · exact hz

theorem flag_sized (hb : b.count ≤ b.elements.length) (fromChildView : Bool) :
    (b.flag fromChildView).count ≤ (b.flag fromChildView).elements.length := by
  unfold ArrayObj.flag
  split_ifs <;> exact hb

theorem AllSized.insertInternal (hz : AllSized h) (fuel : ℕ) (r : Ref) (index : ℤ) (v : Value)
    (fromChildView : Bool) : AllSized (insertInternal fuel h r index v fromChildView) := by
  induction fuel generalizing h r index fromChildView with
  | zero => exact hz
  | succ fuel ih =>
    rw [Heap.insertInternal]
    cases ha : h.array? r with
    | none => exact hz
    | some a =>
      dsimp only
      have hown := (rewritten_insertOwn (hz r a ha) (min_le_right index.toNat a.count) v).sized
      have hz₁ := hz.set (flag_sized hown fromChildView) (array?_setArray ha _)
      cases a.viewSource with
      | none => exact hz₁
      | some s =>
        have hz₂ := ih hz₁ s (a.viewOffset + (min index.toNat a.count : ℕ)) true
        cases fromChildView with
        | true => exact hz₂
        | false => exact hz₂.refresh r s

theorem AllSized.removeInternal (hz : AllSized h) (fuel : ℕ) (r : Ref) (index : ℤ)
    (fromChildView : Bool) : AllSized (removeInternal fuel h r index fromChildView) := by
  induction fuel generalizing h r index fromChildView with
  | zero => exact hz
  | succ fuel ih =>
    rw [Heap.removeInternal]
    cases ha : h.array? r with
    | none => exact hz
    | some a =>
      dsimp only
      by_cases hout : index < 0 ∨ index ≥ a.count
      · rw [if_pos hout]
        exact hz
      · rw [if_neg hout]
        have hown := (rewritten_removeOwn (hz r a ha) (show index.toNat < a.count by omega)).sized
        have hz₁ := hz.set (flag_sized hown fromChildView) (array?_setArray ha _)
        cases a.viewSource with
        | none => exact hz₁
        | some s =>
          have hz₂ := ih hz₁ s (a.viewOffset + index) true
          cases fromChildView with
          | true => exact hz₂
          | false => exact hz₂.refresh r s

theorem AllSized.foldl_insertInternal (hz : AllSized h) (fuel : ℕ) (s : Ref) (offset : ℕ)
    (js : List ℕ) : AllSized
      (js.foldl (fun h j => Heap.insertInternal fuel h s (offset + j) .null true) h) := by
  induction js generalizing h with
  | nil => exact hz
  | cons j js ih => exact ih (hz.insertInternal fuel s (offset + j) .null true)

theorem length_le_ensureCapacity (a : ArrayObj) (needed : ℕ) :
    a.elements.length ≤ (a.ensureCapacity needed).elements.length := by
  by_cases hfits : needed ≤ a.elements.length
  · rw [ArrayObj.ensureCapacity, if_pos hfits]
  · rw [ArrayObj.ensureCapacity, if_neg hfits]
    exact (List.prefix_append _ _).length_le

theorem length_writeElement (h : Heap) (a : ArrayObj) (i : ℕ) (v : Value) :
    (h.writeElement a i v).2.elements.length = a.elements.length := by
  unfold writeElement
  split
  · rfl
  · exact List.length_set

theorem AllSized.setInternal (hz : AllSized h) (fuel : ℕ) (r : Ref) (index : ℤ) (v : Value)
    (fromChildView : Bool) : AllSized (setInternal fuel h r index v fromChildView) := by
  induction fuel generalizing h r index fromChildView with
  | zero => exact hz
  | succ fuel ih =>
    rw [Heap.setInternal]
    cases ha : h.array? r with
    | none => exact hz
    | some a =>
      dsimp only
      by_cases hneg : index < 0
      · rw [if_pos hneg]
        exact hz
      · rw [if_neg hneg]
        have hroom := ArrayObj.le_length_ensureCapacity a (index.toNat + 1)
        have hkeep := (hz r a ha).trans (length_le_ensureCapacity a (index.toNat + 1))
        obtain ⟨hsame, -, -⟩ := writeElement_spec h (a.ensureCapacity (index.toNat + 1))
          index.toNat v
        have hlen := length_writeElement h (a.ensureCapacity (index.toNat + 1)) index.toNat v
        generalize h.writeElement (a.ensureCapacity (index.toNat + 1)) index.toNat v = w
          at hsame hlen ⊢
        obtain ⟨h₀, b⟩ := w
        dsimp only at hsame hlen ⊢
        have hb : max a.count (index.toNat + 1) ≤ b.elements.length := by
          rw [hlen]
          exact max_le hkeep hroom
        have hz₁ : AllSized (h₀.set r (.array (ArrayObj.flag { b with
            count := max a.count (index.toNat + 1)
            mutationVersion := a.mutationVersion + 1 } fromChildView))) := by
          refine hz.set (r := r) (flag_sized (b := { b with
            count := max a.count (index.toNat + 1)
            mutationVersion := a.mutationVersion + 1 }) hb fromChildView) fun q => ?_
          rw [array?_setArray ((hsame r).trans ha), hsame q]
        generalize ArrayObj.flag _ fromChildView = d at hz₁ ⊢
        cases a.viewSource with
        | none => exact hz₁
        | some s =>
          dsimp only
          have hz₂ := hz₁.foldl_insertInternal fuel s a.viewOffset
            (List.range' a.count (index.toNat - a.count))
          generalize List.foldl _ _ _ = h₂ at hz₂ ⊢
          have hz₃ : AllSized (if index.toNat < a.count then
              Heap.setInternal fuel h₂ s (a.viewOffset + index.toNat) v true
            else Heap.insertInternal fuel h₂ s (a.viewOffset + index.toNat) v true) := by
            split_ifs
            · exact ih hz₂ s _ true
            · exact hz₂.insertInternal fuel s _ v true
          cases fromChildView with
          | true => exact hz₃
          | false => exact hz₃.refresh r s

theorem AllSized.change (hz : AllSized h) (r : Ref) (op : ArrayOp) : AllSized (h.change r op) := by
  cases op with
  | push v => exact hz.insertInternal _ r _ v false
  | insert index v => exact hz.insertInternal _ r index v false
  | removeAt index => exact hz.removeInternal _ r index false
  | pop => exact hz.removeInternal _ r _ false
  | set index v => exact hz.setInternal _ r index v false

/-- What holds of the arrays along a run: sources are older than their views, and every array has
storage for its elements. -/
structure Orderly (h : Heap) : Prop where
  versions : Versions h
  sized : AllSized h

/-- New arrays are no views, and the others stay. -/
theorem Orderly.make (ho : Orderly h)
    (hmake : ∀ q, h'.array? q = h.array? q ∨ h.array? q = none ∧
      ∃ a, h'.array? q = some a ∧ a.viewSource = none ∧ a.count ≤ a.elements.length) :
    Orderly h' := by
  have hold : ∀ q s, h'.IsSource q s → h.IsSource q s := by
    rintro q s ⟨a, ha, hs⟩
    rcases hmake q with hsame | ⟨-, b, hb, hroot, -⟩
    · exact ⟨a, hsame ▸ ha, hs⟩
    · obtain rfl := Option.some.inj (ha.symm.trans hb)
      rw [hroot] at hs
      cases hs
  have hkept : ∀ q a, h.array? q = some a → h'.array? q = some a := by
    intro q a ha
    rcases hmake q with hsame | ⟨hnone, -⟩
    · exact hsame.trans ha
    · rw [ha] at hnone
      cases hnone
  have hord := ho.versions.ordered
  refine ⟨⟨⟨fun q s hs => hord.older q s (hold q s hs), fun q s hs => ?_⟩, ?_⟩, ?_⟩
  · obtain ⟨b, hb⟩ := Option.isSome_iff_exists.1 (hord.present q s (hold q s hs))
    rw [hkept s b hb]
    rfl
  · intro v a s b ha hs hb
    obtain ⟨x, hx, hxs⟩ := hold v s ⟨a, ha, hs⟩
    obtain ⟨y, hy⟩ := Option.isSome_iff_exists.1 (hord.present v s ⟨x, hx, hxs⟩)
    obtain rfl := Option.some.inj (ha.symm.trans (hkept v x hx))
    obtain rfl := Option.some.inj (hb.symm.trans (hkept s y hy))
    exact ho.versions.noted v _ s _ hx hxs hy
  · intro q a ha
    rcases hmake q with hsame | ⟨-, b, hb, -, hsized⟩
    · exact ho.sized q a (hsame ▸ ha)
    · obtain rfl := Option.some.inj (ha.symm.trans hb)
      exact hsized

/-- An array that is made is empty. -/
theorem Orderly.makeEmpty (ho : Orderly h)
    (hmake : ∀ q, h'.array? q = h.array? q ∨ h.array? q = none ∧ h'.array? q = some {}) :
    Orderly h' :=
  ho.make fun q => (hmake q).imp_right fun hnew => ⟨hnew.1, {}, hnew.2, rfl, Nat.le_refl _⟩

theorem Orderly.sublist (ho : Orderly h) {start : ℤ} {stop : Option ℤ}
    (hsub : h.sublist r start stop = some (h', q)) : Orderly h' := by
  refine ⟨sublist_versions ho.versions hsub, ?_⟩
  obtain ⟨b, i, j, -, -, -, -, rfl⟩ := sublist_cases hsub
  intro p a ha
  rw [array?_cons] at ha
  split_ifs at ha
  · obtain rfl := Option.some.inj ha
    exact (foldl_push_sized {} (Nat.le_refl _) _).1
  · exact ho.sized p a ha

theorem Orderly.change (ho : Orderly h) (r : Ref) (op : ArrayOp) : Orderly (h.change r op) :=
  ⟨(change_effect ho.versions.ordered r op).versions ho.versions, ho.sized.change r op⟩

theorem ArrayRun.orderly (hrun : ArrayRun h) : Orderly h := by
  induction hrun with
  | start h hroots hsized =>
    refine ⟨⟨⟨fun q s hs => absurd hs (hroots q s), fun q s hs => absurd hs (hroots q s)⟩, ?_⟩, hsized⟩
    intro q a s b ha hs
    exact absurd ⟨a, ha, hs⟩ (hroots q s)
  | make h' _ hmake ih => exact ih.makeEmpty hmake
  | sublist start stop _ hsub ih => exact ih.sublist hsub
  | change r op _ ih => exact ih.change r op

theorem ArrayRun.versions (hrun : ArrayRun h) : Versions h ∧ AllSized h :=
  ⟨hrun.orderly.versions, hrun.orderly.sized⟩

end Sizes

/-! ### Assignments past the end -/

section Gaps

variable {h h' h₁ : Heap} {r s q : Ref} {a b : ArrayObj} {v : Value} {i : ℕ}

theorem live_eq (ha : h.array? r = some a) : h.live r = a.live := by rw [Heap.live, ha]

theorem length_live (hz : AllSized h) (ha : h.array? r = some a) : (h.live r).length = a.count := by
  rw [live_eq ha, ArrayObj.live, List.length_take, min_eq_left (hz r a ha)]

theorem live_refresh (h : Heap) (r s q : Ref) : (h.refresh r s).live q = h.live q := by
  unfold Heap.refresh
  split
  · next a b ha hb =>
    unfold Heap.live
    rw [array?_setArray ha]
    by_cases hq : r = q
    · rw [if_pos hq, ← hq, ha]
      rfl
    · rw [if_neg hq]
  · rfl

/-- An insertion puts the value in at its place. -/
theorem live_insertInternal (hord : Ordered h) (hz : AllSized h) (hs : (h.array? s).isSome) {p : ℕ}
    (hp : p ≤ (h.live s).length) (fuel : ℕ) (v : Value) (fromChildView : Bool) :
    (insertInternal (fuel + 1) h s p v fromChildView).live s =
      (h.live s).take p ++ [v] ++ (h.live s).drop p := by
  obtain ⟨b, hb⟩ := Option.isSome_iff_exists.1 hs
  rw [length_live hz hb] at hp
  rw [insertInternal, hb, live_eq hb]
  dsimp only
  rw [Int.toNat_natCast, min_eq_left hp]
  have hown : Rewritten b ((b.insertOwn p v).flag fromChildView) _ fromChildView :=
    rewritten_flag (rewritten_insertOwn (hz s b hb) hp v)
  have hset := array?_setArray hb ((b.insertOwn p v).flag fromChildView)
  have hself := (hset s).trans (if_pos rfl)
  cases hview : b.viewSource with
  | none =>
    dsimp only
    rw [live_eq hself, hown.live]
  | some x =>
    dsimp only
    -- the sources of the array are other arrays
    have hlt := hord.older s x ⟨b, hb, hview⟩
    have hord₁ := hord.set hb (own_flag (own_insertOwn b p v) fromChildView).toKept hset
    have hrest := insertInternal_effect hord₁ fuel x (b.viewOffset + (p : ℕ)) v true
    have hapart := hrest.apart s fun habove => Nat.not_le.2 hlt (habove.le hord₁)
    have hlive := (live_eq (hapart.trans hself)).trans hown.live
    cases fromChildView with
    | true => exact hlive
    | false => exact (live_refresh _ s x s).trans hlive

/-- The gap and the value are put in at their place. -/
theorem live_foldl_insertInternal (hord : Ordered h) (hz : AllSized h) (hs : (h.array? s).isSome)
    {p : ℕ} (hp : p ≤ (h.live s).length) (fuel k : ℕ) :
    ((List.range' p k).foldl (fun h (j : ℕ) => insertInternal (fuel + 1) h s (j : ℤ) .null true) h).live s =
      (h.live s).take p ++ List.replicate k .null ++ (h.live s).drop p := by
  induction k generalizing h p with
  | zero => simp
  | succ k ih =>
    have hfirst := live_insertInternal hord hz hs hp fuel .null true
    have heffect := insertInternal_effect hord (fuel + 1) s p .null true
    obtain ⟨b, hb⟩ := Option.isSome_iff_exists.1 hs
    obtain ⟨b', hb', -⟩ := heffect.kept s b hb
    have htake : ((h.live s).take p ++ [Value.null]).length = p + 1 := by
      rw [List.length_append, List.length_take_of_le hp, List.length_singleton]
    rw [List.range'_succ, List.foldl_cons, ih (heffect.ordered hord) (hz.insertInternal _ s p .null true)
      (by rw [hb']; rfl) (by rw [hfirst, List.length_append, htake]; omega), hfirst,
      List.take_left' htake, List.drop_left' htake, List.append_assoc _ [Value.null],
      List.replicate_succ, List.singleton_append]

/-- The array after an assignment past its end: its storage is taken as it is. -/
def setPast (a : ArrayObj) (i : ℕ) (v : Value) : ArrayObj :=
  { (a.ensureCapacity (i + 1)) with
    elements := (a.ensureCapacity (i + 1)).elements.set i v
    count := max a.count (i + 1)
    mutationVersion := a.mutationVersion + 1 }

/-- The gap is filled in the array exactly if the storage there holds null. -/
theorem fills_setPast_iff (hsize : a.count ≤ a.elements.length) (hi : a.count ≤ i) (v : Value) :
    Fills a.live (setPast a i v).live a.count i v ↔
      ∀ j, a.count ≤ j → j < i → a.elements.getD j .null = .null := by
  have hlen : a.live.length = a.count := by rw [ArrayObj.live, List.length_take, min_eq_left hsize]
  constructor
  · intro hfill j hj hji
    have hgap := hfill.gap j hj hji
    rw [live_getElem?, setPast] at hgap
    dsimp only at hgap
    rw [if_pos (by omega), List.getElem?_set_ne (by omega)] at hgap
    rw [← getD_ensureCapacity a (i + 1), List.getD_eq_getElem?_getD, hgap]
    rfl
  · intro hslack
    have hfill : Fills a.live (fill a.live a.count (i - a.count) v) a.count i v :=
      fills_fill (Nat.le_of_eq hlen.symm) hi v
    rwa [fill, ← hlen, List.take_length, List.drop_length, List.append_nil, hlen,
      ← (rewritten_setPast hsize hi hslack v (a.mutationVersion + 1)).live] at hfill

theorem writeElement_past (h : Heap) (hi : a.count ≤ i) (v : Value) :
    h.writeElement (a.ensureCapacity (i + 1)) i v = (h, { (a.ensureCapacity (i + 1)) with
      elements := (a.ensureCapacity (i + 1)).elements.set i v }) := by
  rw [writeElement, if_neg (by rw [ArrayObj.ensureCapacity_count]; omega)]

/-- An assignment past the end of an array that is no view. -/
theorem setInternal_root (ha : h.array? r = some a) (hroot : a.viewSource = none) (hi : a.count ≤ i)
    (fuel : ℕ) (v : Value) :
    setInternal (fuel + 1) h r i v false = h.set r (.array (setPast a i v)) := by
  rw [setInternal, ha]
  dsimp only
  rw [if_neg (by omega), Int.toNat_natCast, writeElement_past h hi, hroot]
  rfl

/-- An assignment past the end of a view: the gap and the value are inserted in the source. -/
theorem setInternal_view (ha : h.array? r = some a) (hview : a.viewSource = some s)
    (hi : a.count ≤ i) (fuel : ℕ) (v : Value) :
    setInternal (fuel + 1) h r i v false =
      (insertInternal fuel ((List.range' a.count (i - a.count)).foldl
        (fun h j => insertInternal fuel h s (a.viewOffset + j) .null true)
          (h.set r (.array (setPast a i v)))) s ((a.viewOffset + i : ℕ) : ℤ) v true).refresh r s := by
  rw [setInternal, ha]
  dsimp only
  rw [if_neg (by omega), Int.toNat_natCast, writeElement_past h hi, hview]
  dsimp only
  rw [if_neg (Nat.not_lt.2 hi), if_neg Bool.false_ne_true]
  rfl

theorem own_setPast (a : ArrayObj) (i : ℕ) (v : Value) : Own a (setPast a i v) := by
  obtain ⟨hk, hv, -⟩ := kept_ensureCapacity a (i + 1)
  exact ⟨⟨hk.viewSource, hk.viewOffset, Nat.le_succ _, hk.viewInvalid⟩, hv, Nat.lt_succ_self _⟩

theorem setPast_sized (hsize : a.count ≤ a.elements.length) (i : ℕ) (v : Value) :
    (setPast a i v).count ≤ (setPast a i v).elements.length := by
  rw [setPast, List.length_set]
  exact max_le (hsize.trans (length_le_ensureCapacity a (i + 1)))
    (ArrayObj.le_length_ensureCapacity a (i + 1))

/-- An assignment past the end, in the array and in its source. -/
theorem live_set (hord : Ordered h) (hz : AllSized h) (ha : h.array? r = some a) (hi : a.count ≤ i)
    (v : Value) :
    (h.change r (.set i v)).live r = (setPast a i v).live ∧
      ∀ s, a.viewSource = some s → a.viewOffset + a.count ≤ (h.live s).length →
        (h.change r (.set i v)).live s =
          fill (h.live s) (a.viewOffset + a.count) (i - a.count) v := by
  rw [Heap.change]
  have hset := array?_setArray ha (setPast a i v)
  cases hview : a.viewSource with
  | none =>
    rw [setInternal_root ha hview hi]
    refine ⟨live_eq ((hset r).trans (if_pos rfl)), ?_⟩
    rintro s ⟨⟩
  | some s =>
    have hlt := hord.older r s ⟨a, ha, hview⟩
    obtain ⟨fuel, rfl⟩ : ∃ n : ℕ, r = n + 1 :=
      Nat.exists_eq_succ_of_ne_zero (Nat.ne_of_gt (Nat.zero_lt_of_lt hlt))
    rw [setInternal_view ha hview hi]
    have hord₁ := hord.set ha (own_setPast a i v).toKept hset
    have hz₁ := hz.set (setPast_sized (hz _ a ha) i v) hset
    obtain ⟨b, hb⟩ := Option.isSome_iff_exists.1 (hord.present _ s ⟨a, ha, hview⟩)
    have hb₁ := (hset s).trans (if_neg (Nat.ne_of_gt hlt))
    have hlive₁ : (h.set (fuel + 1) (.array (setPast a i v))).live s = h.live s := by
      rw [live_eq (hb₁.trans hb), live_eq hb]
    generalize h.set (fuel + 1) (.array (setPast a i v)) = h₁ at hset hord₁ hz₁ hb₁ hlive₁
    have hgap := foldl_insertInternal_effect hord₁ (fuel + 1) s a.viewOffset
      (List.range' a.count (i - a.count))
    have hz₂ := hz₁.foldl_insertInternal (fuel + 1) s a.viewOffset
      (List.range' a.count (i - a.count))
    have hlive₂ := fun hp => live_foldl_insertInternal hord₁ hz₁ (by rw [hb₁, hb]; rfl) (s := s)
      (p := a.viewOffset + a.count) hp fuel (i - a.count)
    rw [← foldl_gap] at hlive₂
    generalize List.foldl _ h₁ _ = h₂ at hgap hz₂ hlive₂ ⊢
    have hord₂ := hgap.ordered hord₁
    have hlast := insertInternal_effect hord₂ (fuel + 1) s ((a.viewOffset + i : ℕ) : ℤ) v true
    have heffect := hgap.trans hlast
    obtain ⟨b₂, hb₂, -⟩ := hgap.kept s b (hb₁.trans hb)
    obtain ⟨b₃, hb₃, -⟩ := hlast.kept s b₂ hb₂
    -- the view is no source of its source
    have hr₃ := heffect.apart (fuel + 1) fun habove => Nat.not_le.2 hlt (habove.le hord₁)
    have hrefresh := array?_refresh (hr₃.trans ((hset _).trans (if_pos rfl))) hb₃
    refine ⟨(live_eq ((hrefresh _).trans (if_pos rfl))).trans rfl, ?_⟩
    rintro _ ⟨⟩ hinside
    have hlive₂ := hlive₂ (by rwa [hlive₁])
    have hplace : a.viewOffset + i = a.viewOffset + a.count + (i - a.count) := by omega
    have hfront : ((h.live s).take (a.viewOffset + a.count) ++
        List.replicate (i - a.count) Value.null).length = a.viewOffset + i := by
      rw [List.length_append, List.length_take_of_le hinside, List.length_replicate, hplace]
    rw [live_eq (((hrefresh s).trans (if_neg (Nat.ne_of_gt hlt))).trans hb₃), ← live_eq hb₃,
      live_insertInternal hord₂ hz₂ (by rw [hb₂]; rfl), hlive₂, hlive₁, List.take_left' hfront,
      List.drop_left' hfront, fill]
    · simp only [List.append_assoc]
    · rw [hlive₂, hlive₁, List.length_append, hfront]
      exact Nat.le_add_right _ _

/-- A heap with one array. -/
theorem ArrayRun.one (r : Ref) (a : ArrayObj) (hsize : a.count ≤ a.elements.length)
    (hroot : a.viewSource = none) : ArrayRun [⟨r, false, .array a⟩] := by
  refine .start _ ?_ ?_
  · rintro q s ⟨x, hx, hs⟩
    rw [array?_cons] at hx
    split_ifs at hx
    · obtain rfl := Option.some.inj hx
      rw [hroot] at hs
      cases hs
    · cases hx
  · intro q x hx
    rw [array?_cons] at hx
    split_ifs at hx
    · obtain rfl := Option.some.inj hx
      exact hsize
    · cases hx

end Gaps

end Heap

end Slp
