import Slp.Object.Sources

/-!
# Room for more elements

The capacity of an array is an `int` that is doubled from 8 on, so that an array has at most
`maxElements` elements.  An insertion goes through to the arrays that the array is a view of, and all
of them must have room.

* `hasRoom`: there is room for some insertions after some removals;
* `hasRoom_removeInternal`, `hasRoom_insertInternal`: one removal or insertion less.
-/

namespace Slp

/-- The greatest power of two that is an `int`. -/
def maxElements : ℕ := 1073741824

/-- What `hasRoom` sees of an array. -/
def ArrayObj.shape (a : ArrayObj) : ℕ × Option Ref × ℕ := (a.count, a.viewSource, a.viewOffset)

namespace Heap

/-- `ensure_array_capacity` does not overflow when `n` elements are inserted in the array at `r` after
`k` elements have been removed at `idx`, and so on up the chain of sources. -/
def hasRoom : (fuel : ℕ) → Heap → Ref → (idx k n : ℕ) → Bool
  | 0, _, _, _, _, _ => true
  | fuel + 1, h, r, idx, k, n =>
    match h.array? r with
    | none => true
    | some a =>
      let removed := min k (a.count - idx)
      decide (a.count - removed + n ≤ maxElements) &&
        match a.viewSource with
        | none => true
        | some s => hasRoom fuel h s (a.viewOffset + idx) removed n

section

variable {h h₁ h₂ : Heap} {r s q : Ref} {a b : ArrayObj} {fuel idx k n : ℕ} {fromChildView : Bool}

theorem hasRoom_of_shape (ha : (h.array? r).map ArrayObj.shape = some a.shape) :
    hasRoom (fuel + 1) h r idx k n =
      (decide (a.count - min k (a.count - idx) + n ≤ maxElements) &&
        match a.viewSource with
        | none => true
        | some s => hasRoom fuel h s (a.viewOffset + idx) (min k (a.count - idx)) n) := by
  obtain ⟨b, hb, hshape⟩ := Option.map_eq_some_iff.1 ha
  simp only [ArrayObj.shape, Prod.mk.injEq] at hshape
  rw [hasRoom, hb, ← hshape.1, ← hshape.2.1, ← hshape.2.2]

/-- Only the array and those that are older matter. -/
theorem hasRoom_congr (hord : Ordered h)
    (hsame : ∀ q ≤ r, (h₁.array? q).map ArrayObj.shape = (h.array? q).map ArrayObj.shape) :
    hasRoom fuel h₁ r idx k n = hasRoom fuel h r idx k n := by
  induction fuel generalizing r idx k with
  | zero => rfl
  | succ fuel ih =>
    cases ha : h.array? r with
    | none =>
      have hnone := hsame r (Nat.le_refl r)
      rw [ha, Option.map_none, Option.map_eq_none_iff] at hnone
      rw [hasRoom, hasRoom, ha, hnone]
    | some a =>
      have hself : (h.array? r).map ArrayObj.shape = some a.shape := by rw [ha]; rfl
      rw [hasRoom_of_shape hself, hasRoom_of_shape ((hsame r (Nat.le_refl r)).trans hself)]
      cases hview : a.viewSource with
      | none => rfl
      | some s =>
        have hlt := hord.older r s ⟨a, ha, hview⟩
        dsimp only
        rw [ih fun q hq => hsame q (hq.trans (Nat.le_of_lt hlt))]

theorem shape_refresh (h : Heap) (r s q : Ref) :
    ((h.refresh r s).array? q).map ArrayObj.shape = (h.array? q).map ArrayObj.shape := by
  unfold refresh
  split
  · rename_i a b ha hb
    rw [array?_setArray ha]
    split_ifs with hq
    · rw [← hq, ha]
      rfl
    · rfl
  · rfl

theorem shape_ite_refresh (h : Heap) (r s q : Ref) (fromChildView : Bool) :
    ((if fromChildView then h else h.refresh r s).array? q).map ArrayObj.shape =
      (h.array? q).map ArrayObj.shape := by
  split_ifs
  · rfl
  · exact shape_refresh h r s q

theorem shape_flag (b : ArrayObj) (fromChildView : Bool) : (b.flag fromChildView).shape = b.shape := by
  unfold ArrayObj.flag
  split_ifs <;> rfl

theorem shape_insertOwn (a : ArrayObj) (i : ℕ) (v : Value) :
    (a.insertOwn i v).shape = (a.count + 1, a.viewSource, a.viewOffset) := by
  have hkept := (kept_ensureCapacity a (a.count + 1)).1
  unfold ArrayObj.insertOwn ArrayObj.shape
  dsimp only
  rw [hkept.viewSource, hkept.viewOffset, ArrayObj.ensureCapacity_count]

/-- The room of an array that was changed, and then its source `s` from below. -/
theorem hasRoom_changed (hord : Ordered h₂) (hview : b.viewSource = some s)
    (hself : h₂.array? r = some b) :
    hasRoom (fuel + 1) (if fromChildView then h₂ else h₂.refresh r s) r idx k n =
      (decide (b.count - min k (b.count - idx) + n ≤ maxElements) &&
        hasRoom fuel h₂ s (b.viewOffset + idx) (min k (b.count - idx)) n) := by
  have hshape : ((if fromChildView then h₂ else h₂.refresh r s).array? r).map ArrayObj.shape =
      some b.shape := by
    rw [shape_ite_refresh, hself]
    rfl
  rw [hasRoom_of_shape hshape, hview]
  dsimp only
  rw [hasRoom_congr hord fun q _ => shape_ite_refresh h₂ r s q fromChildView]

/-- The sources of an array do not see a change of it. -/
theorem hasRoom_source (hord : Ordered h) (hlt : s < r)
    (hset : ∀ q, h₁.array? q = if r = q then some b else h.array? q) :
    hasRoom fuel h₁ s idx k n = hasRoom fuel h s idx k n := by
  refine hasRoom_congr hord fun q hq => ?_
  rw [hset, if_neg (Nat.ne_of_gt (Nat.lt_of_le_of_lt hq hlt))]

/-- After a removal there is one removal less to come. -/
theorem hasRoom_removeInternal (hord : Ordered h) :
    hasRoom fuel (removeInternal fuel h r idx fromChildView) r idx k n =
      hasRoom fuel h r idx (k + 1) n := by
  induction fuel generalizing h r idx k fromChildView with
  | zero => rfl
  | succ fuel ih =>
    cases ha : h.array? r with
    | none => rw [removeInternal, ha, hasRoom, hasRoom, ha]
    | some a =>
      have hold : (h.array? r).map ArrayObj.shape = some a.shape := by rw [ha]; rfl
      rw [removeInternal, ha]
      dsimp only
      by_cases hidx : a.count ≤ idx
      · -- nothing is removed here, nor further up
        rw [if_pos (by omega), hasRoom_of_shape hold, hasRoom_of_shape hold, Nat.sub_eq_zero_of_le hidx,
          Nat.min_zero, Nat.min_zero]
      · rw [if_neg (by omega), Int.toNat_natCast, hasRoom_of_shape hold]
        have hset := array?_setArray ha ((a.removeOwn idx).flag fromChildView)
        have hown := own_flag (own_removeOwn a idx) fromChildView
        have hshape : ((a.removeOwn idx).flag fromChildView).shape =
            (a.count - 1, a.viewSource, a.viewOffset) := shape_flag _ _
        have hord₁ := hord.set ha hown.toKept hset
        generalize (a.removeOwn idx).flag fromChildView = b at hset hshape hord₁ ⊢
        generalize h.set r (.array b) = h₁ at hset hord₁ ⊢
        simp only [ArrayObj.shape, Prod.mk.injEq] at hshape
        obtain ⟨hcount, hsource, hoffset⟩ := hshape
        have hself := (hset r).trans (if_pos rfl)
        have hleft : min (k + 1) (a.count - idx) = min k (b.count - idx) + 1 := by omega
        have htotal : b.count - min k (b.count - idx) = a.count - (min k (b.count - idx) + 1) := by omega
        rw [hleft]
        cases hview : a.viewSource with
        | none =>
          have hnew : (h₁.array? r).map ArrayObj.shape = some b.shape := by rw [hself]; rfl
          dsimp only
          rw [hasRoom_of_shape hnew, hsource, hview, htotal]
        | some s =>
          have hlt := hord.older r s ⟨a, ha, hview⟩
          have heffect := removeInternal_effect hord₁ fuel s (a.viewOffset + idx) true
          have hapart := heffect.apart r fun habove => Nat.not_le.2 hlt (habove.le hord₁)
          dsimp only
          rw [hasRoom_changed (heffect.ordered hord₁) (hsource.trans hview) (hapart.trans hself), htotal,
            hoffset, ← hasRoom_source hord hlt hset, ← Nat.cast_add, ih hord₁]

/-- After an insertion there is one insertion less to come. -/
theorem hasRoom_insertInternal (hord : Ordered h) (i j l : ℕ) (index : ℤ) (v : Value) :
    (hasRoom fuel h r i 0 1 && hasRoom fuel (insertInternal fuel h r index v fromChildView) r j 0 n) =
      hasRoom fuel h r l 0 (n + 1) := by
  induction fuel generalizing h r i j l index fromChildView with
  | zero => rfl
  | succ fuel ih =>
    cases ha : h.array? r with
    | none => rw [insertInternal, ha, hasRoom, hasRoom, hasRoom, ha]; rfl
    | some a =>
      have hold : (h.array? r).map ArrayObj.shape = some a.shape := by rw [ha]; rfl
      rw [insertInternal, ha, hasRoom_of_shape hold, hasRoom_of_shape hold]
      dsimp only
      generalize min index.toNat a.count = p
      have hset := array?_setArray ha ((a.insertOwn p v).flag fromChildView)
      have hown := own_flag (own_insertOwn a p v) fromChildView
      have hshape := (shape_flag (a.insertOwn p v) fromChildView).trans (shape_insertOwn a p v)
      have hord₁ := hord.set ha hown.toKept hset
      generalize (a.insertOwn p v).flag fromChildView = b at hset hshape hord₁ ⊢
      generalize h.set r (.array b) = h₁ at hset hord₁ ⊢
      simp only [ArrayObj.shape, Prod.mk.injEq] at hshape
      obtain ⟨hcount, hsource, hoffset⟩ := hshape
      have hself := (hset r).trans (if_pos rfl)
      simp only [Nat.zero_min, Nat.sub_zero]
      cases hview : a.viewSource with
      | none =>
        have hnew : (h₁.array? r).map ArrayObj.shape = some b.shape := by rw [hself]; rfl
        dsimp only
        rw [hasRoom_of_shape hnew, hsource, hview, hcount, Nat.zero_min, Nat.sub_zero]
        dsimp only
        rw [Bool.and_true, Bool.and_true, Bool.and_true, ← Bool.decide_and]
        exact decide_eq_decide.2 (by omega)
      | some s =>
        have hlt := hord.older r s ⟨a, ha, hview⟩
        have heffect := insertInternal_effect hord₁ fuel s (a.viewOffset + (p : ℤ)) v true
        have hapart := heffect.apart r fun habove => Nat.not_le.2 hlt (habove.le hord₁)
        dsimp only
        rw [hasRoom_changed (heffect.ordered hord₁) (hsource.trans hview) (hapart.trans hself), hcount,
          Nat.zero_min, Nat.sub_zero, ← hasRoom_source hord hlt hset, ← hasRoom_source hord hlt hset,
          ← @ih h₁ s true hord₁ (a.viewOffset + i) (b.viewOffset + j) (a.viewOffset + l)
            (a.viewOffset + (p : ℤ))]
        have hsum : (decide (a.count + 1 ≤ maxElements) && decide (a.count + 1 + n ≤ maxElements)) =
            decide (a.count + (n + 1) ≤ maxElements) := by
          rw [← Bool.decide_and]
          exact decide_eq_decide.2 (by omega)
        rw [← hsum]
        simp only [Bool.and_assoc, Bool.and_left_comm]

end

end Heap

end Slp
