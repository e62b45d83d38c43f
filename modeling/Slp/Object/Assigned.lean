import Slp.Object.Sources

/-!
# Assignments and the cells they reach

An assignment to an element that is a cell assigns the cell, and leaves the array as it is.  An
assignment to an element of a view goes on to its place in the source, which may hold another cell
(`Assigns`).  The other cells keep their content (`setInternal_cells`), and the later elements their
places (`Assigns.of_setInternal`).

`CellRun` follows the heap through the changes of arrays, the loops over them, which make cells of
the elements they visit, and what sorts them.
-/

namespace Slp

namespace Heap

/-- An assignment to the element `i` of the array at `r` assigns the cell at `c`. -/
inductive Assigns (h : Heap) : (r : Ref) → (i : ℕ) → (c : Ref) → Prop where
  | self {r c : Ref} {i : ℕ} {a : ArrayObj} (ha : h.array? r = some a) (hi : i < a.count)
      (hc : a.elements.getD i .null = .obj c) (hcell : (h.cell? (.obj c)).isSome) : Assigns h r i c
  | source {r s c : Ref} {i : ℕ} {a : ArrayObj} (ha : h.array? r = some a) (hi : i < a.count)
      (hs : a.viewSource = some s) (hrest : Assigns h s (a.viewOffset + i) c) : Assigns h r i c

/-- The heaps reached by the changes of arrays, and by loops and sorts, which write their elements.
What is done to other objects, an assignment to the variable of a loop among it, is a `make`. -/
inductive CellRun : Heap → Prop where
  | arrays {h : Heap} (hrun : ArrayRun h) : CellRun h
  | make {h : Heap} (h' : Heap) (hrun : CellRun h)
      (hmake : ∀ q, h'.array? q = h.array? q ∨ h.array? q = none ∧ h'.array? q = some {}) :
      CellRun h'
  | sublist {h h' : Heap} {r v : Ref} (start : ℤ) (stop : Option ℤ) (hrun : CellRun h)
      (hsublist : h.sublist r start stop = some (h', v)) : CellRun h'
  | change {h : Heap} (r : Ref) (op : ArrayOp) (hrun : CellRun h) : CellRun (h.change r op)
  | store {h : Heap} {r : Ref} {a : ArrayObj} (elements : List Value) (hrun : CellRun h)
      (ha : h.array? r = some a) (hlength : elements.length = a.elements.length) :
      CellRun (h.set r (.array { a with elements := elements }))

/-- The cells are the same ones, and those not in `A` have the content they had. -/
structure CellsBut (h h' : Heap) (A : Ref → Prop) : Prop where
  cells : ∀ c, (h'.cell? (.obj c)).isSome = (h.cell? (.obj c)).isSome
  content : ∀ c, ¬A c → h'.cell? (.obj c) = h.cell? (.obj c)

section Cells

variable {h h' h'' : Heap} {r s c : Ref} {a b : ArrayObj} {i j : ℕ} {v : Value} {A B : Ref → Prop}

theorem CellsBut.refl (h : Heap) (A : Ref → Prop) : CellsBut h h A := ⟨fun _ => rfl, fun _ _ => rfl⟩

theorem CellsBut.trans (hc : CellsBut h h' A) (hc' : CellsBut h' h'' B) (hB : ∀ c, B c → A c) :
    CellsBut h h'' A :=
  ⟨fun c => (hc'.cells c).trans (hc.cells c),
    fun c hno => (hc'.content c (hno ∘ hB c)).trans (hc.content c hno)⟩

theorem CellsBut.mono (hc : CellsBut h h' A) (hA : ∀ c, A c → B c) : CellsBut h h' B :=
  ⟨hc.cells, fun c hno => hc.content c (hno ∘ hA c)⟩

theorem SameButArrays.cell? (hs : SameButArrays h h') (v : Value) : h'.cell? v = h.cell? v := by
  cases v with
  | obj c =>
    rw [cell?_obj, cell?_obj]
    rcases hs.get? c with heq | ⟨x, y, hx, hy⟩
    · rw [heq]
    · rw [hx, hy]
  | _ => rfl

theorem SameButArrays.cellsBut (hs : SameButArrays h h') (A : Ref → Prop) : CellsBut h h' A :=
  ⟨fun c => by rw [hs.cell?], fun c _ => hs.cell? (.obj c)⟩

/-- What an assignment reaches depends on the array, those above it, and the cells. -/
theorem Assigns.congr (hassigns : Assigns h r i c) (hord : Ordered h)
    (hsame : ∀ p, p ≤ r → h'.array? p = h.array? p)
    (hcells : ∀ c, (h'.cell? (.obj c)).isSome = (h.cell? (.obj c)).isSome) : Assigns h' r i c := by
  induction hassigns with
  | self ha hi hc hcell =>
    exact .self ((hsame _ (Nat.le_refl _)).trans ha) hi hc ((hcells _).trans hcell)
  | source ha hi hs _ ih =>
    refine .source ((hsame _ (Nat.le_refl _)).trans ha) hi hs (ih fun p hp => hsame p ?_)
    exact hp.trans (Nat.le_of_lt (hord.older _ _ ⟨_, ha, hs⟩))

theorem cell?_setCell {x x' : Value} {w w' : Option Ref} (hc : h.get? c = some (.scalarCell x w))
    (q : Ref) : (h.set c (.scalarCell x' w')).cell? (.obj q) =
      if c = q then some (q, x', w') else h.cell? (.obj q) := by
  rw [cell?_obj, cell?_obj]
  split_ifs with hq
  · rw [← hq, get?_set_self (by rw [hc]; rfl)]
  · rw [get?_set_ne hq]

/-- The write of an element reaches the cell it is. -/
theorem writeElement_cells (h : Heap) (a : ArrayObj) (i : ℕ) (v : Value) :
    CellsBut h (h.writeElement a i v).1 fun c =>
      i < a.count ∧ a.elements.getD i .null = .obj c ∧ (h.cell? (.obj c)).isSome := by
  unfold writeElement
  split
  · rename_i c content watch hc
    split_ifs at hc with hi
    · obtain ⟨helement, hcell⟩ := cell?_some hc
      dsimp only
      refine ⟨fun q => ?_, fun q hno => ?_⟩
      · rw [cell?_setCell hcell]
        split_ifs with hq
        · rw [← hq, ← helement, hc]
          rfl
        · rfl
      · rw [cell?_setCell hcell, if_neg]
        rintro rfl
        exact hno ⟨hi, helement, by rw [← helement, hc]; rfl⟩
  · exact .refl h _

/-- An element of an array is written: the first step of an assignment inside it. -/
def writeInside (h : Heap) (r : Ref) (a : ArrayObj) (i : ℕ) (v : Value) (fromChildView : Bool) : Heap :=
  (h.writeElement a i v).1.set r (.array (ArrayObj.flag
    { (h.writeElement a i v).2 with mutationVersion := a.mutationVersion + 1 } fromChildView))

theorem setInternal_write (ha : h.array? r = some a) (hsize : a.count ≤ a.elements.length)
    (hi : i < a.count) (fuel : ℕ) (v : Value) (fromChildView : Bool) :
    setInternal (fuel + 1) h r i v fromChildView =
      match a.viewSource with
      | none => h.writeInside r a i v fromChildView
      | some s =>
        if fromChildView then
          setInternal fuel (h.writeInside r a i v fromChildView) s ((a.viewOffset + i : ℕ) : ℤ) v true
        else (setInternal fuel (h.writeInside r a i v fromChildView) s
          ((a.viewOffset + i : ℕ) : ℤ) v true).refresh r s := by
  have hroom : a.ensureCapacity (i + 1) = a := by
    rw [ArrayObj.ensureCapacity, if_pos (Nat.le_trans hi hsize)]
  have hkept : (h.writeElement a i v).2.count = a.count := by
    unfold writeElement
    split <;> rfl
  have hown : { (h.writeElement a i v).2 with
      count := max a.count (i + 1)
      mutationVersion := a.mutationVersion + 1 } =
      { (h.writeElement a i v).2 with mutationVersion := a.mutationVersion + 1 } := by
    rw [max_eq_left (Nat.succ_le_of_lt hi), ← hkept]
  rw [setInternal, ha]
  dsimp only
  rw [if_neg (by omega), Int.toNat_natCast, hroom, hown, Nat.sub_eq_zero_of_le (Nat.le_of_lt hi),
    List.range'_zero]
  cases a.viewSource with
  | none => rfl
  | some s =>
    dsimp only [List.foldl_nil]
    rw [if_pos hi]
    rfl

/-- The array after a write inside it. -/
structure WroteInside (h h' : Heap) (r : Ref) (a b : ArrayObj) (i : ℕ) : Prop where
  array : ∀ q, h'.array? q = if r = q then some b else h.array? q
  kept : Kept a b
  count : b.count = a.count
  sized : b.elements.length = a.elements.length
  elements : ∀ j, j ≠ i → b.elements.getD j .null = a.elements.getD j .null
  cells : CellsBut h h' fun c => a.elements.getD i .null = .obj c ∧ (h.cell? (.obj c)).isSome

theorem wroteInside (ha : h.array? r = some a) (i : ℕ) (v : Value) (fromChildView : Bool) :
    ∃ b, WroteInside h (h.writeInside r a i v fromChildView) r a b i := by
  obtain ⟨hsame, hk, -⟩ := writeElement_spec h a i v
  have hcells := writeElement_cells h a i v
  have hcount : (h.writeElement a i v).2.count = a.count := by
    unfold writeElement
    split <;> rfl
  have helements : ∀ j, j ≠ i →
      (h.writeElement a i v).2.elements.getD j .null = a.elements.getD j .null := by
    intro j hj
    unfold writeElement
    split
    · rfl
    · simp only [List.getD_eq_getElem?_getD, List.getElem?_set_ne (Ne.symm hj)]
  have har := (hsame r).trans ha
  have hlen := length_writeElement h a i v
  unfold writeInside
  generalize h.writeElement a i v = w at hsame hk hcells hcount helements har hlen ⊢
  obtain ⟨h₀, b⟩ := w
  dsimp only at hsame hk hcells hcount helements har hlen ⊢
  refine ⟨ArrayObj.flag { b with mutationVersion := a.mutationVersion + 1 } fromChildView, ?_, ?_, ?_,
    ?_, ?_, ?_⟩
  · intro q
    rw [array?_setArray har, hsame]
  · have hkept : Kept a { b with mutationVersion := a.mutationVersion + 1 } :=
      ⟨hk.viewSource, hk.viewOffset, Nat.le_succ _, hk.viewInvalid⟩
    unfold ArrayObj.flag
    split_ifs
    · exact ⟨hkept.viewSource, hkept.viewOffset, hkept.mutationVersion, fun _ => rfl⟩
    · exact hkept
  · unfold ArrayObj.flag
    split_ifs <;> exact hcount
  · unfold ArrayObj.flag
    split_ifs <;> exact hlen
  · unfold ArrayObj.flag
    split_ifs <;> exact helements
  · exact (hcells.mono fun c hc => hc.2).trans ((SameButArrays.set har _).cellsBut _) fun _ hc => hc

theorem SameButArrays.foldl_insertInternal (fuel : ℕ) (h : Heap) (s : Ref) (offset : ℕ)
    (js : List ℕ) : SameButArrays h
      (js.foldl (fun h j => Heap.insertInternal fuel h s (offset + j) .null true) h) := by
  induction js generalizing h with
  | nil => exact .refl h
  | cons j js ih => exact (SameButArrays.insertInternal fuel h s _ .null true).trans (ih _)

/-- An assignment past the end reaches no cell. -/
theorem SameButArrays.setInternal_past (ha : h.array? r = some a) (hi : a.count ≤ i) (fuel : ℕ)
    (v : Value) (fromChildView : Bool) : SameButArrays h (setInternal fuel h r i v fromChildView) := by
  cases fuel with
  | zero => exact .refl h
  | succ fuel =>
    rw [setInternal, ha]
    dsimp only
    rw [if_neg (by omega), Int.toNat_natCast, writeElement_past h hi]
    dsimp only
    generalize ArrayObj.flag _ fromChildView = b
    have hset := SameButArrays.set ha b
    cases a.viewSource with
    | none => exact hset
    | some s =>
      dsimp only
      rw [if_neg (Nat.not_lt.2 hi)]
      have hgap := hset.trans (.foldl_insertInternal fuel _ s a.viewOffset
        (List.range' a.count (i - a.count)))
      have hrest := hgap.trans (.insertInternal fuel _ s (a.viewOffset + (i : ℕ)) v true)
      cases fromChildView with
      | true => exact hrest
      | false => exact hrest.trans (.refresh _ r s)

/-- An assignment leaves the cells it does not reach. -/
theorem setInternal_cells (hord : Ordered h) (hz : AllSized h) (fuel : ℕ) (r : Ref) (i : ℕ)
    (v : Value) (fromChildView : Bool) :
    CellsBut h (setInternal fuel h r i v fromChildView) (h.Assigns r i) := by
  induction fuel generalizing h r i fromChildView with
  | zero => exact .refl h _
  | succ fuel ih =>
    cases ha : h.array? r with
    | none =>
      rw [setInternal, ha]
      exact .refl h _
    | some a =>
      by_cases hi : i < a.count
      · obtain ⟨b, hw⟩ := wroteInside ha i v fromChildView
        rw [setInternal_write ha (hz r a ha) hi]
        have hself := hw.cells.mono (B := h.Assigns r i) fun c hc => .self ha hi hc.1 hc.2
        generalize h.writeInside r a i v fromChildView = h₁ at hw hself ⊢
        cases hview : a.viewSource with
        | none => exact hself
        | some s =>
          have hord₁ := hord.set ha hw.kept hw.array
          have hz₁ := hz.set (by rw [hw.count, hw.sized]; exact hz r a ha) hw.array
          have hrest := hself.trans (ih hord₁ hz₁ s (a.viewOffset + i) true) fun c hc => ?_
          · cases fromChildView with
            | true => exact hrest
            | false => exact hrest.trans ((SameButArrays.refresh _ r s).cellsBut _) fun _ hc => hc
          · have hlt := hord.older r s ⟨a, ha, hview⟩
            refine .source ha hi hview (hc.congr hord₁ (fun p hp => ?_) fun c => (hw.cells.cells c).symm)
            rw [hw.array, if_neg (Nat.ne_of_gt (Nat.lt_of_le_of_lt hp hlt))]
      · exact (SameButArrays.setInternal_past ha (Nat.le_of_not_lt hi) _ v fromChildView).cellsBut _

/-- The array after an assignment past its end. -/
theorem count_setInternal_past (hord : Ordered h) (ha : h.array? r = some a) (hi : a.count ≤ i)
    (fuel : ℕ) (v : Value) (fromChildView : Bool) :
    ∃ d, (setInternal (fuel + 1) h r i v fromChildView).array? r = some d ∧ d.count = i + 1 := by
  rw [setInternal, ha]
  dsimp only
  rw [if_neg (by omega), Int.toNat_natCast, writeElement_past h hi, max_eq_right (by omega)]
  dsimp only
  generalize hb : ArrayObj.flag _ fromChildView = b
  have hcount : b.count = i + 1 := by
    rw [← hb, ArrayObj.flag]
    split_ifs <;> rfl
  have hkept : Kept a b := by
    obtain ⟨hk, -, -⟩ := kept_ensureCapacity a (i + 1)
    rw [← hb, ArrayObj.flag]
    split_ifs
    · exact ⟨hk.viewSource, hk.viewOffset, Nat.le_succ _, fun _ => rfl⟩
    · exact ⟨hk.viewSource, hk.viewOffset, Nat.le_succ _, hk.viewInvalid⟩
  have hset := array?_setArray ha b
  have hself := (hset r).trans (if_pos rfl)
  cases hview : a.viewSource with
  | none => exact ⟨b, hself, hcount⟩
  | some s =>
    dsimp only
    rw [if_neg (Nat.not_lt.2 hi)]
    have hlt := hord.older r s ⟨a, ha, hview⟩
    have hord₁ := hord.set ha hkept hset
    generalize h.set r (.array b) = h₁ at hself hord₁ ⊢
    have hgap := foldl_insertInternal_effect hord₁ fuel s a.viewOffset
      (List.range' a.count (i - a.count))
    have heffect := hgap.trans (insertInternal_effect (hgap.ordered hord₁) fuel s
      (a.viewOffset + (i : ℕ)) v true)
    have hself' := (heffect.apart r fun habove => Nat.not_le.2 hlt (habove.le hord₁)).trans hself
    cases fromChildView with
    | true => exact ⟨b, hself', hcount⟩
    | false =>
      obtain ⟨x, hx⟩ := Option.isSome_iff_exists.1 (hord₁.present r s ⟨b, hself, by
        rw [hkept.viewSource, hview]⟩)
      obtain ⟨y, hy, -⟩ := heffect.kept s x hx
      exact ⟨_, (array?_refresh hself' hy r).trans (if_pos rfl), hcount⟩

/-- An assignment leaves later elements, and the cells an assignment to them reaches. -/
theorem Assigns.of_setInternal (hord : Ordered h) (hz : AllSized h) (fuel : ℕ) (v : Value)
    (fromChildView : Bool) (hij : i < j)
    (hassigns : (setInternal fuel h r i v fromChildView).Assigns r j c) : h.Assigns r j c := by
  induction fuel generalizing h r i j fromChildView with
  | zero => exact hassigns
  | succ fuel ih =>
    cases ha : h.array? r with
    | none =>
      rw [setInternal, ha] at hassigns
      exact hassigns
    | some a =>
      by_cases hi : i < a.count
      · obtain ⟨b, hw⟩ := wroteInside ha i v fromChildView
        have hord' := (setInternal_effect hord (fuel + 1) r i v fromChildView).ordered hord
        have hcells' := (setInternal_cells hord hz (fuel + 1) r i v fromChildView).cells
        rw [setInternal_write ha (hz r a ha) hi] at hassigns hord' hcells'
        have hord₁ := hord.set ha hw.kept hw.array
        have hz₁ := hz.set (by rw [hw.count, hw.sized]; exact hz r a ha) hw.array
        generalize h.writeInside r a i v fromChildView = h₁ at hw hassigns hord' hcells' hord₁ hz₁
        have hself := (hw.array r).trans (if_pos rfl)
        cases hview : a.viewSource with
        | none =>
          rw [hview] at hassigns hcells'
          dsimp only at hassigns hcells'
          cases hassigns with
          | self hx hlt hc hcell =>
            obtain rfl := Option.some.inj (hself.symm.trans hx)
            exact .self ha (hw.count ▸ hlt) ((hw.elements j (Nat.ne_of_gt hij)).symm.trans hc)
              ((hcells' c).symm.trans hcell)
          | source hx hlt hs hrest =>
            obtain rfl := Option.some.inj (hself.symm.trans hx)
            rw [hw.kept.viewSource, hview] at hs
            cases hs
        | some s =>
          rw [hview] at hassigns hord' hcells'
          dsimp only at hassigns hord' hcells'
          have hlt := hord.older r s ⟨a, ha, hview⟩
          have heffect := setInternal_effect hord₁ fuel s ((a.viewOffset + i : ℕ) : ℤ) v true
          have hrest := fun hassigns => ih hord₁ hz₁ (r := s) (i := a.viewOffset + i)
            (j := a.viewOffset + j) true (by omega) hassigns
          have hcellsS := (setInternal_cells hord₁ hz₁ fuel s (a.viewOffset + i) v true).cells
          generalize setInternal fuel h₁ s ((a.viewOffset + i : ℕ) : ℤ) v true = h₂
            at hassigns hord' hcells' heffect hrest hcellsS
          have hself₂ := (heffect.apart r fun habove =>
            Nat.not_le.2 hlt (habove.le hord₁)).trans hself
          -- the array takes note of a version, or does not
          obtain ⟨d, hd, hold, hdcount, hdelements, hdsource, hdoffset⟩ : ∃ d,
              (if fromChildView then h₂ else h₂.refresh r s).array? r = some d ∧
              (∀ p, p ≤ s → h₂.array? p =
                (if fromChildView then h₂ else h₂.refresh r s).array? p) ∧
              d.count = b.count ∧ d.elements = b.elements ∧ d.viewSource = b.viewSource ∧
              d.viewOffset = b.viewOffset := by
            cases fromChildView with
            | true => exact ⟨b, hself₂, fun _ _ => rfl, rfl, rfl, rfl, rfl⟩
            | false =>
              obtain ⟨x, hx⟩ := Option.isSome_iff_exists.1 (hord.present r s ⟨a, ha, hview⟩)
              obtain ⟨y, hy, -⟩ := heffect.kept s x
                ((hw.array s).trans ((if_neg (Nat.ne_of_gt hlt)).trans hx))
              refine ⟨_, (array?_refresh hself₂ hy r).trans (if_pos rfl), fun p hp => ?_,
                rfl, rfl, rfl, rfl⟩
              exact ((array?_refresh hself₂ hy p).trans
                (if_neg (Nat.ne_of_gt (Nat.lt_of_le_of_lt hp hlt)))).symm
          cases hassigns with
          | self hx hlt hc hcell =>
            obtain rfl := Option.some.inj (hd.symm.trans hx)
            rw [hdelements, hw.elements j (Nat.ne_of_gt hij)] at hc
            exact .self ha (by rwa [← hw.count, ← hdcount]) hc ((hcells' c).symm.trans hcell)
          | source hx hjd hs hassigns =>
            obtain rfl := Option.some.inj (hd.symm.trans hx)
            rw [hdsource, hw.kept.viewSource, hview] at hs
            obtain rfl := Option.some.inj hs
            rw [hdoffset, hw.kept.viewOffset] at hassigns
            have hassigns₁ := hrest (hassigns.congr hord' hold fun c =>
              (hcellsS c).trans ((hw.cells.cells c).trans (hcells' c).symm))
            refine .source ha (by rwa [← hw.count, ← hdcount]) hview (hassigns₁.congr hord₁ ?_
              fun c => (hw.cells.cells c).symm)
            intro p hp
            rw [hw.array, if_neg (Nat.ne_of_gt (Nat.lt_of_le_of_lt hp hlt))]
      · obtain ⟨d, hd, hcount⟩ := count_setInternal_past hord ha (Nat.le_of_not_lt hi) fuel v fromChildView
        have hlt : j < d.count := by
          cases hassigns with
          | self hx hlt => rwa [Option.some.inj (hd.symm.trans hx)]
          | source hx hlt => rwa [Option.some.inj (hd.symm.trans hx)]
        omega

end Cells

/-! ### Runs -/

section Runs

variable {h : Heap} {r : Ref} {a : ArrayObj} {elements : List Value}

/-- The elements of an array are written. -/
theorem Orderly.store (ho : Orderly h) (ha : h.array? r = some a)
    (hlength : elements.length = a.elements.length) :
    Orderly (h.set r (.array { a with elements := elements })) := by
  have hkept : Kept a { a with elements := elements } := ⟨rfl, rfl, Nat.le_refl _, id⟩
  have hset := array?_setArray ha { a with elements := elements }
  have hold : ∀ q x, (if r = q then some { a with elements := elements } else h.array? q) = some x →
      ∃ z, h.array? q = some z ∧ x.viewSource = z.viewSource ∧
        x.viewSourceVersion = z.viewSourceVersion ∧ x.mutationVersion = z.mutationVersion := by
    intro q x hx
    split_ifs at hx with hq
    · obtain rfl := Option.some.inj hx
      exact ⟨a, hq ▸ ha, rfl, rfl, rfl⟩
    · exact ⟨x, hx, rfl, rfl, rfl⟩
  refine ⟨⟨ho.versions.ordered.set ha hkept hset, fun v x s y hx hs hy => ?_⟩,
    ho.sized.set (by rw [hlength]; exact ho.sized r a ha) hset⟩
  obtain ⟨x', hx', hsource, hnoted, -⟩ := hold v x ((hset v).symm.trans hx)
  obtain ⟨y', hy', -, -, hversion⟩ := hold s y ((hset s).symm.trans hy)
  rw [hnoted, hversion]
  exact ho.versions.noted v x' s y' hx' (hsource.symm.trans hs) hy'

theorem CellRun.orderly (hrun : CellRun h) : Orderly h := by
  induction hrun with
  | arrays hrun => exact hrun.orderly
  | make h' _ hmake ih => exact ih.makeEmpty hmake
  | sublist start stop _ hsub ih => exact ih.sublist hsub
  | change r op _ ih => exact ih.change r op
  | store elements _ ha hlength ih => exact ih.store ha hlength

/-- A visit of a loop writes an element, and makes a cell. -/
theorem CellRun.visit (hrun : CellRun h) (r : Ref) (i : ℕ) : CellRun (h.visit r i) := by
  unfold Heap.visit
  cases ha : h.array? r with
  | none => exact hrun
  | some a =>
    dsimp only
    split_ifs with hi
    · cases hcell : h.cell? (a.elements.getD i .null) with
      | some _ => exact hrun
      | none =>
        have hstore := hrun.store (a.elements.set i (.obj h.freshRef)) ha List.length_set
        refine hstore.make _ fun q => .inl ?_
        have hnone : (h.set r (.array { a with
            elements := a.elements.set i (.obj h.freshRef) })).get? h.freshRef = none := by
          cases hget : Heap.get? (h.set r _) h.freshRef with
          | none => rfl
          | some o => exact absurd (freshRef_set h r _).symm (ne_freshRef hget)
        unfold array?
        rw [get?_cons]
        split_ifs with hq
        · rw [← hq, hnone]
        · rfl
    · exact hrun

end Runs

end Heap

end Slp
